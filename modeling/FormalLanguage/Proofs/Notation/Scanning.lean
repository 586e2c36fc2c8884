import FormalLanguage.Proofs.Notation.Tiling

/-!
How lines depend on what comes after them. Main statement: for the first lexemes of a line there is a
text of just these, after which any other text may follow.
-/
namespace FormalLanguage.Notation

variable {c : Char} {cs cut tail : List Char} {l first : List Char} {more : List (List Char)}
  {line col n : Nat} {zs : List Lexeme}

section Lines

theorem splitLines_cons (hc : c ≠ '\n') (hnext : c = '\r' → cs.head? ≠ some '\n') :
    splitLines (c :: cs) =
      match splitLines cs with
      | [] => [[c]]
      | line :: lines => (c :: line) :: lines := by
  have hcrlf : ∀ rest, c = '\r' → cs = '\n' :: rest → False := by
    rintro rest rfl rfl
    exact hnext rfl rfl
  exact splitLines.eq_4 c cs hcrlf hc

/-- Characters in front of the first line belong to it. -/
theorem splitLines_append (hl : '\n' ∉ l) (hlast : l.getLast? = some '\r' → cs.head? ≠ some '\n')
    (h : splitLines cs = first :: more) : splitLines (l ++ cs) = (l ++ first) :: more := by
  induction l with
  | nil => exact h
  | cons c l ih =>
    rw [List.mem_cons, not_or] at hl
    have hrest : splitLines (l ++ cs) = (l ++ first) :: more := by
      refine ih hl.2 fun hend => hlast ?_
      rw [List.getLast?_cons, hend, Option.getD_some]
    rw [List.cons_append, splitLines_cons (Ne.symm hl.1), hrest]
    · rfl
    · rintro rfl
      cases l with
      | nil => exact hlast rfl
      | cons d l =>
        rw [List.cons_append, List.head?_cons]
        exact fun hd => hl.2 (Option.some.inj hd ▸ List.mem_cons_self)

theorem splitLines_last (hl : '\n' ∉ l) (hne : l ≠ []) : splitLines l = [l] := by
  obtain rfl | ⟨front, c, rfl⟩ := List.eq_nil_or_concat l
  · exact absurd rfl hne
  · rw [List.concat_eq_append, List.mem_append, List.mem_singleton, not_or] at hl
    have hend : splitLines [c] = [[c]] := splitLines_cons (Ne.symm hl.2) (fun _ => nofun)
    rw [List.concat_eq_append]
    exact splitLines_append hl.1 (fun _ => by simpa using Ne.symm hl.2) hend

theorem newline_notMem (h : l ∈ splitLines cs) : '\n' ∉ l := by
  induction cs using splitLines.induct generalizing l with
  | case1 => cases h
  | case2 cs ih | case3 cs ih =>
    rw [splitLines, List.mem_cons] at h
    rcases h with rfl | h
    · exact List.not_mem_nil
    · exact ih h
  | case4 c cs hcrlf hc hrest ih =>
    rw [splitLines.eq_4 c cs hcrlf hc, hrest, List.mem_singleton] at h
    rw [h, List.mem_singleton]
    exact Ne.symm hc
  | case5 c cs hcrlf hc line lines hrest ih =>
    rw [splitLines.eq_4 c cs hcrlf hc, hrest, List.mem_cons] at h
    rcases h with rfl | h
    · rw [List.mem_cons, not_or]
      exact ⟨Ne.symm hc, ih (hrest ▸ List.mem_cons_self)⟩
    · exact ih (hrest ▸ List.mem_cons_of_mem line h)

end Lines

section Text

variable {text : List Char} {texts : List (List Char)} {lines ls rest : List Line}
  {row : List Lexeme} {ending : Position}

theorem isDirective_cut (h : isDirective text = false) (hcut : cut <+: text)
    (htail : isDirective tail = false) : isDirective (cut ++ ' ' :: tail) = false := by
  obtain ⟨others, rfl⟩ := hcut
  cases hfront : cut.dropWhile isBlank with
  | nil =>
    rw [isDirective, List.dropWhile_append, hfront]
    exact htail
  | cons c front =>
    rw [isDirective, List.dropWhile_append, hfront] at h ⊢
    exact h

theorem scanWords_ne_nil (h : isDirective cs = true) : scanWords line 0 col cs ≠ [] := by
  induction cs generalizing col with
  | nil => cases h
  | cons c cs ih =>
    by_cases hblank : isBlank c = true
    · rw [scanWords, if_pos hblank]
      refine ih ?_
      rwa [isDirective, List.dropWhile_cons_of_pos hblank] at h
    · rw [isDirective, List.dropWhile_cons_of_neg hblank, decide_eq_true_eq] at h
      cases h
      rw [scanWords, if_neg hblank, if_neg (by decide)]
      exact List.cons_ne_nil _ _

theorem scanLine_of_not_isDirective (h : isDirective text = false) :
    scanLine n text = (scan n 0 1 text).map (Line.lexemes · ⟨n, text.length + 1⟩) := by
  rw [scanLine, h]
  rfl

theorem scanLine_eq_lexemes (h : scanLine n text = .ok (.lexemes row ending)) :
    isDirective text = false ∧ scan n 0 1 text = .ok row := by
  cases hdirective : isDirective text with
  | true =>
    obtain ⟨name, arguments, hwords⟩ := List.exists_cons_of_ne_nil
      (@scanWords_ne_nil text n 1 hdirective)
    rw [scanLine, hdirective, hwords] at h
    cases h
  | false =>
    rw [scanLine_of_not_isDirective hdirective, map_eq_ok_iff] at h
    obtain ⟨row', hrow, heq⟩ := h
    cases heq
    exact ⟨rfl, hrow⟩

theorem scanLines_eq_ok_append {l : Line} (h : scanLines n texts = .ok (ls ++ l :: rest)) :
    ∃ before text after, texts = before ++ text :: after ∧ scanLines n before = .ok ls ∧
      scanLine (n + before.length) text = .ok l := by
  induction ls generalizing n texts with
  | nil =>
    cases texts with
    | nil => cases h
    | cons text texts =>
      obtain ⟨l', hl, h⟩ := bind_eq_ok_iff.1 h
      obtain ⟨ls, -, h⟩ := bind_eq_ok_iff.1 h
      cases h
      exact ⟨[], text, texts, rfl, rfl, hl⟩
  | cons first ls ih =>
    cases texts with
    | nil => cases h
    | cons text texts =>
      obtain ⟨first', hfirst, h⟩ := bind_eq_ok_iff.1 h
      obtain ⟨ls', hls, h⟩ := bind_eq_ok_iff.1 h
      cases h
      obtain ⟨before, text', after, rfl, hbefore, hl⟩ := ih hls
      refine ⟨text :: before, text', after, rfl, ?_, ?_⟩
      · rw [scanLines, hfirst, hbefore]
        rfl
      · rwa [List.length_cons, ← Nat.add_assoc, Nat.add_right_comm]

theorem exists_scanLine_at {texts : List (List Char)} {lines : List Line}
    (h : scanLines n texts = .ok lines) {i : Nat} (hl : texts[i]? = some l) :
    ∃ x, lines[i]? = some x ∧ scanLine (n + i) l = .ok x := by
  induction texts generalizing n lines i with
  | nil => cases hl
  | cons text texts ih =>
    obtain ⟨first, hfirst, h⟩ := bind_eq_ok_iff.1 h
    obtain ⟨rest, hrest, h⟩ := bind_eq_ok_iff.1 h
    cases h
    cases i with
    | zero =>
      cases hl
      exact ⟨first, rfl, hfirst⟩
    | succ i =>
      obtain ⟨x, hx, hscan⟩ := ih hrest hl
      rw [Nat.add_right_comm, Nat.add_assoc] at hscan
      exact ⟨x, hx, hscan⟩

theorem scanLines_concat (h : scanLines n texts = .ok ls) : scanLines n (texts ++ [text]) =
    (scanLine (n + texts.length) text).map fun l => ls ++ [l] := by
  induction texts generalizing n ls with
  | nil =>
    cases h
    rw [List.nil_append, scanLines]
    cases scanLine n text <;> rfl
  | cons first texts ih =>
    obtain ⟨l, hl, h⟩ := bind_eq_ok_iff.1 h
    obtain ⟨ls, hls, h⟩ := bind_eq_ok_iff.1 h
    cases h
    rw [List.cons_append, scanLines, hl, ih hls, List.length_cons, Nat.add_right_comm, Nat.add_assoc]
    cases scanLine (n + (texts.length + 1)) text <;> rfl

/-- Lines that are put together with a line end are split again. -/
theorem splitLines_flatMap {sep : List Char} (hsep : sep = ['\n'] ∨ sep = ['\r', '\n'])
    (h : ∀ l ∈ texts, '\n' ∉ l ∧ (sep = ['\n'] → '\r' ∉ l)) :
    splitLines (texts.flatMap (· ++ sep) ++ cs) = texts ++ splitLines cs := by
  induction texts with
  | nil => rfl
  | cons l texts ih =>
    rw [List.forall_mem_cons] at h
    have hend : splitLines (sep ++ (texts.flatMap (· ++ sep) ++ cs)) =
        [] :: (texts ++ splitLines cs) := by
      rw [← ih h.2]
      rcases hsep with rfl | rfl <;> rfl
    have hlast : l.getLast? = some '\r' →
        (sep ++ (texts.flatMap (· ++ sep) ++ cs)).head? ≠ some '\n' := by
      intro hreturn
      rcases hsep with rfl | rfl
      · exact absurd (List.mem_of_getLast? hreturn) (h.1.2 rfl)
      · simp
    have hall := splitLines_append h.1.1 hlast hend
    simpa using hall

/-- The text up to some lexeme of a line, and then another end of this line. -/
theorem exists_lexLines_cut (h : lexLines text = .ok (ls ++ .lexemes row ending :: rest))
    (hz : zs <+: row) : ∃ start line col, ∀ tail more, '\n' ∉ tail → isDirective tail = false →
      scan line 0 col tail = .ok more → ∃ ending',
        lexLines (start ++ ' ' :: tail) = .ok (ls ++ [.lexemes (zs ++ more) ending']) := by
  obtain ⟨before, current, after, hsplit, hbefore, hcurrent⟩ := scanLines_eq_ok_append h
  obtain ⟨hdirective, hrow⟩ := scanLine_eq_lexemes hcurrent
  obtain ⟨chars, others, rfl, -, htiles⟩ := scan_eq_ok_iff.1 hrow
  obtain ⟨cut, rest', rfl, hfirst⟩ := htiles.exists_of_prefix hz
  have hcut : cut <+: cut ++ rest' ++ others := ⟨rest' ++ others, by rw [List.append_assoc]⟩
  have hlines : ∀ l ∈ before ++ (cut ++ rest' ++ others) :: after, '\n' ∉ l :=
    fun l hl => newline_notMem (hsplit ▸ hl)
  have hnewline : '\n' ∉ cut := fun hmem =>
    hlines _ (List.mem_append_right _ List.mem_cons_self) (hcut.subset hmem)
  refine ⟨before.flatMap (· ++ ['\r', '\n']) ++ cut, 1 + before.length, 1 + cut.length + 1,
    fun tail more htail hplain hmore =>
      ⟨⟨1 + before.length, (cut ++ ' ' :: tail).length + 1⟩, ?_⟩⟩
  have hlast : splitLines (cut ++ ' ' :: tail) = [cut ++ ' ' :: tail] :=
    splitLines_last (by simp [hnewline, htail]) (by simp)
  have hscan : scan (1 + before.length) 0 1 (cut ++ ' ' :: tail) = .ok (zs ++ more) := by
    have hagain : Tiles (1 + before.length) (' ' :: tail) 1 cut zs := hfirst.retail fun _ => rfl
    rw [hagain.scan_append, scan_blank rfl, hmore]
    rfl
  rw [lexLines, List.append_assoc,
    splitLines_flatMap (.inr rfl) fun l hl => ⟨hlines l (List.mem_append_left _ hl), nofun⟩, hlast,
    scanLines_concat hbefore, scanLine_of_not_isDirective (isDirective_cut hdirective hcut hplain),
    hscan]
  rfl

end Text

end FormalLanguage.Notation
