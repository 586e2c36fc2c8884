import Mathlib.Data.List.TakeWhile
import FormalLanguage.Notation.Lexeme

/-!
What lexemes are spelled with. Main statements: a token is read from its spelling, a word if it ends
there, and from nothing else.
-/
namespace FormalLanguage.Notation

variable {c : Char} {cs tail text spelling a : List Char} {n : Nat} {token : Token}

section Words

/-- A word ends here. -/
def stops : List Char → Bool
  | [] => true
  | c :: cs => isBlank c || isSpecial c || (arrowLength? (c :: cs)).isSome

theorem wordChars_cons_eq :
    wordChars (c :: cs) = if stops (c :: cs) = true then [] else c :: wordChars cs := rfl

theorem wordChars_of_stops (h : stops cs = true) : wordChars cs = [] := by
  cases cs with
  | nil => rfl
  | cons c cs => rw [wordChars_cons_eq, if_pos h]

theorem wordChars_cons (h : stops (c :: cs) = false) : wordChars (c :: cs) = c :: wordChars cs := by
  rw [wordChars_cons_eq, if_neg (Bool.eq_false_iff.1 h)]

theorem wordChars_isPrefix (cs : List Char) : wordChars cs <+: cs := by
  induction cs with
  | nil => exact List.prefix_rfl
  | cons c cs ih =>
    cases hstop : stops (c :: cs) with
    | true =>
      rw [wordChars_of_stops hstop]
      exact List.nil_prefix
    | false =>
      rw [wordChars_cons hstop, List.cons_prefix_cons]
      exact ⟨rfl, ih⟩

theorem stops_drop_wordChars (cs : List Char) : stops (cs.drop (wordChars cs).length) = true := by
  induction cs with
  | nil => rfl
  | cons c cs ih =>
    cases hstop : stops (c :: cs) with
    | true => rwa [wordChars_of_stops hstop]
    | false => rwa [wordChars_cons hstop, List.length_cons, List.drop_succ_cons]

theorem arrowLength?_eq_none_iff : arrowLength? (c :: cs) = none ↔
    c ≠ '→' ∧ (c = '-' → ¬['>'] <+: cs) ∧ (c = ':' → ¬[':', '='] <+: cs) := by
  constructor
  · intro h
    refine ⟨?_, ?_, ?_⟩
    · rintro rfl
      cases h
    · rintro rfl ⟨rest, rfl⟩
      cases h
    · rintro rfl ⟨rest, rfl⟩
      cases h
  · rintro ⟨harrow, hdash, hcolon⟩
    unfold arrowLength?
    split
    · next heq => exact absurd (List.cons.inj heq).1 harrow
    · next rest heq =>
      obtain ⟨hc, rfl⟩ := List.cons.inj heq
      exact absurd ⟨rest, rfl⟩ (hdash hc)
    · next rest heq =>
      obtain ⟨hc, rfl⟩ := List.cons.inj heq
      exact absurd ⟨rest, rfl⟩ (hcolon hc)
    · rfl

theorem stops_cons_eq_false_iff : stops (c :: cs) = false ↔
    (isBlank c = false ∧ isSpecial c = false) ∧ arrowLength? (c :: cs) = none := by
  simp only [stops, Bool.or_eq_false_iff, Option.isSome_eq_false_iff, Option.isNone_iff_eq_none]

/-- What is left of an arrow once it has begun does not end a word. -/
theorem not_prefix_of_stops (h : stops tail = true) :
    ¬['>'] <+: tail ∧ ¬['='] <+: tail ∧ ¬[':', '='] <+: tail := by
  refine ⟨?_, ?_, ?_⟩ <;> rintro ⟨rest, rfl⟩ <;> exact Bool.false_ne_true h

/-- A word is put together again from its characters and what ends it. -/
theorem wordChars_append (h : stops tail = true) :
    wordChars (wordChars cs ++ tail) = wordChars cs := by
  induction cs with
  | nil => exact wordChars_of_stops h
  | cons c cs ih =>
    cases hstop : stops (c :: cs) with
    | true => rw [wordChars_of_stops hstop, List.nil_append, wordChars_of_stops h]
    | false =>
      obtain ⟨hplain, harrow⟩ := stops_cons_eq_false_iff.1 hstop
      obtain ⟨harrow, hdash, hcolon⟩ := arrowLength?_eq_none_iff.1 harrow
      obtain ⟨hgreater, hequals, hrest⟩ := not_prefix_of_stops h
      have hword := wordChars_isPrefix cs
      rw [wordChars_cons hstop, List.cons_append, wordChars_cons, ih]
      refine stops_cons_eq_false_iff.2 ⟨hplain, arrowLength?_eq_none_iff.2 ⟨harrow, ?_, ?_⟩⟩
      · intro hc hbegin
        cases hw : wordChars cs with
        | nil => exact hgreater (by rwa [hw] at hbegin)
        | cons d w =>
          rw [hw] at hbegin hword
          refine hdash hc (List.IsPrefix.trans ?_ hword)
          simpa [List.cons_prefix_cons] using hbegin
      · intro hc hbegin
        match hw : wordChars cs with
        | [] => exact hrest (by rwa [hw] at hbegin)
        | [d] =>
          rw [hw] at hbegin
          exact hequals (List.cons_prefix_cons.1 hbegin).2
        | d :: d' :: w =>
          rw [hw] at hbegin hword
          refine hcolon hc (List.IsPrefix.trans ?_ hword)
          simpa [List.cons_prefix_cons] using hbegin

end Words

section Spellings

/-- The spellings of an arrow. -/
def arrowSpellings : List (List Char) := [['→'], ['-', '>'], [':', ':', '=']]

theorem arrow_cases (ha : a ∈ arrowSpellings) :
    a = ['→'] ∨ a = ['-', '>'] ∨ a = [':', ':', '='] := by
  simpa only [arrowSpellings, List.mem_cons, List.not_mem_nil, or_false] using ha

/--
The characters that a token is read from. A word has no blank, bar, quote or comment sign, and no arrow
within it; a literal stands between quotes, has no quote within it and is not empty.
-/
inductive Token.Spelled : Token → List Char → Prop
  | word {text : List Char} (hne : text ≠ [])
      (hplain : ∀ c ∈ text, isBlank c = false ∧ c ∉ ['|', '"', '#'])
      (harrow : ∀ a ∈ arrowSpellings, ¬ a <:+: text) : Spelled (.word text) text
  | literal {text : List Char} (hne : text ≠ []) (hquote : '"' ∉ text) :
      Spelled (.literal text) ('"' :: (text ++ ['"']))
  | arrow {a : List Char} (ha : a ∈ arrowSpellings) : Spelled .arrow a
  | bar : Spelled .bar ['|']

theorem arrowLength?_eq_some_iff : arrowLength? cs = some n ↔
    ∃ a ∈ arrowSpellings, a <+: cs ∧ a.length = n := by
  constructor
  · intro h
    unfold arrowLength? at h
    split at h
    · next rest =>
      cases h
      exact ⟨['→'], by decide, ⟨rest, rfl⟩, rfl⟩
    · next rest =>
      cases h
      exact ⟨['-', '>'], by decide, ⟨rest, rfl⟩, rfl⟩
    · next rest =>
      cases h
      exact ⟨[':', ':', '='], by decide, ⟨rest, rfl⟩, rfl⟩
    · cases h
  · rintro ⟨a, ha, ⟨rest, rfl⟩, rfl⟩
    rcases arrow_cases ha with rfl | rfl | rfl <;> rfl

theorem arrowLength?_eq_none_iff_prefix : arrowLength? cs = none ↔
    ∀ a ∈ arrowSpellings, ¬ a <+: cs := by
  rw [Option.eq_none_iff_forall_ne_some]
  constructor
  · intro h a ha hbegin
    exact h a.length (arrowLength?_eq_some_iff.2 ⟨a, ha, hbegin, rfl⟩)
  · intro h n hn
    obtain ⟨a, ha, hbegin, -⟩ := arrowLength?_eq_some_iff.1 hn
    exact h a ha hbegin

theorem arrow_ne_nil (ha : a ∈ arrowSpellings) : a ≠ [] := by
  rintro rfl
  exact absurd ha (by decide)

/-- The characters of a word are those that end no word. -/
theorem wordChars_eq_self_iff : wordChars text = text ↔
    (∀ c ∈ text, isBlank c = false ∧ c ∉ ['|', '"', '#']) ∧
      ∀ a ∈ arrowSpellings, ¬ a <:+: text := by
  induction text with
  | nil =>
    refine iff_of_true rfl ⟨List.forall_mem_nil _, fun a ha h => ?_⟩
    exact arrow_ne_nil ha (List.infix_nil.1 h)
  | cons c cs ih =>
    have hspecial : isSpecial c = false ↔ c ∉ ['|', '"', '#'] := by
      simp [isSpecial, and_assoc]
    have hstep : wordChars (c :: cs) = c :: cs ↔ stops (c :: cs) = false ∧ wordChars cs = cs := by
      cases hstop : stops (c :: cs) with
      | true => simp [wordChars_of_stops hstop]
      | false => simp [wordChars_cons hstop]
    have hinfix : (∀ a ∈ arrowSpellings, ¬ a <:+: c :: cs) ↔
        (∀ a ∈ arrowSpellings, ¬ a <+: c :: cs) ∧ ∀ a ∈ arrowSpellings, ¬ a <:+: cs := by
      simp only [List.infix_cons_iff, not_or, ← forall_and]
    rw [hstep, stops_cons_eq_false_iff, arrowLength?_eq_none_iff_prefix, hspecial, ih, hinfix,
      List.forall_mem_cons]
    constructor
    · rintro ⟨⟨hc, hbegin⟩, hcs, hwithin⟩
      exact ⟨⟨hc, hcs⟩, hbegin, hwithin⟩
    · rintro ⟨⟨hc, hcs⟩, hbegin, hwithin⟩
      exact ⟨⟨hc, hbegin⟩, hcs, hwithin⟩

/-- A character that ends no word and is no part of an arrow but its beginning. -/
def InWord (c : Char) : Prop := isBlank c = false ∧ c ∉ ['|', '"', '#', '→', '>', '=']

theorem spelled_of_inWord (hne : text ≠ []) (h : ∀ c ∈ text, InWord c) :
    (Token.word text).Spelled text := by
  refine .word hne (fun c hc => ⟨(h c hc).1, ?_⟩) fun a ha hwithin => ?_
  · have hplain := (h c hc).2
    simp only [List.mem_cons, List.not_mem_nil, or_false, not_or] at hplain ⊢
    exact ⟨hplain.1, hplain.2.1, hplain.2.2.1⟩
  · rcases arrow_cases ha with rfl | rfl | rfl
    · exact (h '→' (hwithin.subset (by decide))).2 (by decide)
    · exact (h '>' (hwithin.subset (by decide))).2 (by decide)
    · exact (h '=' (hwithin.subset (by decide))).2 (by decide)

end Spellings

section Openings

/-- Characters that begin a lexeme, with the rest of the line. -/
theorem opening_eq (hblank : isBlank c = false) (hcomment : c ≠ '#') : opening c cs =
    match arrowLength? (c :: cs) with
    | some n => .token .arrow (n - 1)
    | none =>
      if c = '|' then .token .bar 0
      else if c = '"' then openLiteral cs
      else .token (.word (c :: wordChars cs)) (wordChars cs).length :=
  (if_neg (Bool.eq_false_iff.1 hblank)).trans (if_neg hcomment)

theorem opening_of_wordChars {w : List Char} (h : wordChars (c :: cs) = c :: w) :
    opening c cs = .token (.word (c :: w)) w.length := by
  have hstop : stops (c :: cs) = false := by
    rw [← Bool.not_eq_true]
    intro hstops
    rw [wordChars_of_stops hstops] at h
    cases h
  obtain ⟨⟨hblank, hspecial⟩, harrow⟩ := stops_cons_eq_false_iff.1 hstop
  simp only [isSpecial, Bool.or_eq_false_iff, decide_eq_false_iff_not] at hspecial
  rw [wordChars_cons hstop, List.cons.injEq] at h
  rw [opening_eq hblank hspecial.2, harrow, h.2]
  exact (if_neg hspecial.1.1).trans (if_neg hspecial.1.2)

theorem exists_quote (h : (cs.takeWhile (· ≠ '"')).length ≠ cs.length) :
    ∃ rest, cs = cs.takeWhile (· ≠ '"') ++ '"' :: rest := by
  induction cs with
  | nil => exact absurd rfl h
  | cons c cs ih =>
    by_cases hc : c = '"'
    · subst hc
      exact ⟨cs, rfl⟩
    · rw [List.takeWhile_cons_of_pos (by simpa using hc), List.length_cons, List.length_cons] at h
      obtain ⟨rest, hrest⟩ := ih fun heq => h (congrArg Nat.succ heq)
      rw [List.takeWhile_cons_of_pos (by simpa using hc)]
      exact ⟨rest, congrArg (c :: ·) hrest⟩

/-- A literal ends with the next quote. -/
theorem openLiteral_eq_token (h : openLiteral cs = .token token n) : ∃ text rest,
    cs = text ++ '"' :: rest ∧ (∀ c ∈ text, c ≠ '"') ∧ text ≠ [] ∧ token = .literal text ∧
      n = text.length + 1 := by
  rw [openLiteral] at h
  split at h
  · cases h
  · split at h
    · cases h
    · next hlength hne =>
      cases h
      obtain ⟨rest, hrest⟩ := exists_quote hlength
      refine ⟨_, rest, hrest, fun c hc => ?_, fun hnil => hne (by rw [hnil]; rfl), rfl, rfl⟩
      simpa using List.mem_takeWhile_imp hc

theorem plain_of_opening (h : opening c cs = .token token n) : isBlank c = false ∧ c ≠ '#' := by
  rw [opening] at h
  split at h
  · cases h
  · next hblank =>
    refine ⟨Bool.eq_false_iff.2 hblank, ?_⟩
    rintro rfl
    cases h

theorem isBlank_of_opening (h : opening c cs = .blank) : isBlank c = true := by
  by_contra hblank
  rw [Bool.not_eq_true] at hblank
  by_cases hcomment : c = '#'
  · rw [opening, if_neg (Bool.eq_false_iff.1 hblank), if_pos hcomment] at h
    cases h
  · rw [opening_eq hblank hcomment, openLiteral] at h
    split at h
    · cases h
    · split_ifs at h

/-- A word ends before any lexeme that is not a word. -/
theorem stops_iff_of_opening (h : opening c cs = .token token n) :
    stops (c :: cs) = true ↔ ∀ text, token ≠ .word text := by
  obtain ⟨hblank, hcomment⟩ := plain_of_opening h
  rw [opening_eq hblank hcomment, openLiteral] at h
  cases harrow : arrowLength? (c :: cs) with
  | some k =>
    rw [harrow] at h
    cases h
    simp [stops, harrow]
  | none =>
    rw [harrow] at h
    simp only at h
    split_ifs at h <;> cases h <;> simp_all [stops, isSpecial]

theorem openLiteral_of_text (hne : text ≠ []) (hquote : '"' ∉ text) :
    openLiteral (text ++ '"' :: tail) = .token (.literal text) (text.length + 1) := by
  have htext : (text ++ '"' :: tail).takeWhile (· ≠ '"') = text := by
    have hplain : ∀ c ∈ text, decide (c ≠ '"') = true := by
      intro c hc
      exact decide_eq_true fun heq => hquote (heq ▸ hc)
    rw [List.takeWhile_append_of_pos hplain]
    simp
  rw [openLiteral, htext]
  simp [hne]

/-- A token is read from its spelling, a word if it ends there. -/
theorem opening_of_spelled (hs : token.Spelled (c :: spelling))
    (hend : ∀ text, token = .word text → stops tail = true) :
    opening c (spelling ++ tail) = .token token spelling.length := by
  generalize hchars : c :: spelling = chars at hs
  cases hs with
  | word hne hplain harrow =>
    subst hchars
    have hword := @wordChars_append (c :: spelling) tail (hend _ rfl)
    rw [wordChars_eq_self_iff.2 ⟨hplain, harrow⟩] at hword
    exact opening_of_wordChars hword
  | literal hne hquote =>
    cases hchars
    rw [List.append_assoc, List.length_append]
    exact openLiteral_of_text hne hquote
  | arrow ha =>
    rcases arrow_cases ha with rfl | rfl | rfl <;> cases hchars <;> rfl
  | bar =>
    cases hchars
    rfl

/-- What is read as a token is its spelling, and a word ends there. -/
theorem spelled_of_opening (h : opening c cs = .token token n) :
    n ≤ cs.length ∧ token.Spelled (c :: cs.take n) ∧
      ∀ text, token = .word text → stops (cs.drop n) = true := by
  obtain ⟨hblank, hcomment⟩ := plain_of_opening h
  rw [opening_eq hblank hcomment] at h
  cases harrow : arrowLength? (c :: cs) with
  | some k =>
    rw [harrow] at h
    cases h
    obtain ⟨a, ha, hbegin, rfl⟩ := arrowLength?_eq_some_iff.1 harrow
    obtain ⟨rest, hrest⟩ := hbegin
    obtain ⟨d, a, rfl⟩ := List.exists_cons_of_ne_nil (arrow_ne_nil ha)
    rw [List.cons_append, List.cons.injEq] at hrest
    obtain ⟨rfl, rfl⟩ := hrest
    rw [List.length_cons, Nat.add_sub_cancel, List.length_append, List.take_left]
    exact ⟨Nat.le_add_right _ _, .arrow ha, by rintro text ⟨⟩⟩
  | none =>
    rw [harrow] at h
    by_cases hbar : c = '|'
    · subst hbar
      cases h
      exact ⟨Nat.zero_le _, .bar, by rintro text ⟨⟩⟩
    · by_cases hquote : c = '"'
      · subst hquote
        obtain ⟨text, rest, rfl, hplain, hne, rfl, rfl⟩ := openLiteral_eq_token h
        refine ⟨by simp, ?_, by rintro text ⟨⟩⟩
        rw [List.take_length_add_append 1]
        exact .literal hne fun hmem => hplain _ hmem rfl
      · simp only [if_neg hbar, if_neg hquote] at h
        cases h
        have hstop : stops (c :: cs) = false := by
          rw [stops_cons_eq_false_iff]
          exact ⟨⟨hblank, by simp [isSpecial, hbar, hquote, hcomment]⟩, harrow⟩
        have htake : cs.take (wordChars cs).length = wordChars cs :=
          (List.prefix_iff_eq_take.1 (wordChars_isPrefix cs)).symm
        have hself : wordChars (c :: wordChars cs) = c :: wordChars cs := by
          have hword := @wordChars_append (c :: cs) [] rfl
          rwa [wordChars_cons hstop, List.append_nil] at hword
        obtain ⟨hplain, harrows⟩ := wordChars_eq_self_iff.1 hself
        rw [htake]
        exact ⟨(wordChars_isPrefix cs).length_le, .word (List.cons_ne_nil _ _) hplain harrows,
          fun _ _ => stops_drop_wordChars cs⟩

theorem comment_of_opening (h : opening c cs = .comment) : c = '#' := by
  by_contra hcomment
  by_cases hblank : isBlank c = true
  · rw [opening, if_pos hblank] at h
    cases h
  · rw [Bool.not_eq_true] at hblank
    rw [opening_eq hblank hcomment, openLiteral] at h
    split at h
    · cases h
    · split_ifs at h

/-- What cannot be read is a literal. -/
theorem quote_of_opening {reason : Reason} (h : opening c cs = .problem reason) :
    c = '"' ∧ (reason = .unterminatedLiteral ∨ reason = .emptyLiteral) := by
  by_cases hblank : isBlank c = true
  · rw [opening, if_pos hblank] at h
    cases h
  · by_cases hcomment : c = '#'
    · rw [opening, if_neg hblank, if_pos hcomment] at h
      cases h
    · rw [opening_eq (Bool.eq_false_iff.2 hblank) hcomment, openLiteral] at h
      split at h
      · cases h
      · split_ifs at h with _ hquote <;> cases h
        · exact ⟨hquote, .inl rfl⟩
        · exact ⟨hquote, .inr rfl⟩

end Openings

end FormalLanguage.Notation
