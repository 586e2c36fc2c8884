import Mathlib.Data.List.DropRight
import FormalLanguage.Proofs.Notation.Relocation
import FormalLanguage.Proofs.Notation.Tiling

/-!
Kinds of lines. Main statements: the first sign of a line tells what kind of thing the line says, and
blanks at its end do not matter.
-/
namespace FormalLanguage.Notation

variable {c d : Char} {cs l : List Char} {n col : Nat} {row : List Lexeme} {y : Layout}

section Kinds

/-- The first character of a line that is not blank. -/
def firstSign? (l : List Char) : Option Char := (l.dropWhile isBlank).head?

/-- Whether a line has nothing in it, or only a comment. -/
def isEmptyLine (l : List Char) : Bool := firstSign? l = none || firstSign? l = some '#'

/-- Whether a line is of a rule: the rule itself, or more alternatives of it. -/
def isRuleLine (l : List Char) : Bool := !isDirective l && !isEmptyLine l

/-- Whether the first lexeme of a line is a bar. -/
def startsWithBar (l : List Char) : Bool := firstSign? l = some '|'

/-- The name of a directive, if a line is one. -/
def directiveName? (l : List Char) : Option (List Char) :=
  if isDirective l then some ((l.dropWhile isBlank).takeWhile fun c => !isBlank c && c ≠ '#')
  else none

theorem isEmptyLine_iff : isEmptyLine l = true ↔ firstSign? l = none ∨ firstSign? l = some '#' := by
  simp [isEmptyLine]

end Kinds

section Ends

theorem not_mem_arrow_of_isBlank (hd : isBlank d = true) {a : List Char}
    (ha : a ∈ arrowSpellings) : d ∉ a := by
  have hall : (arrowSpellings.all fun a => a.all fun c => !isBlank c) = true := by decide
  intro hmem
  have hplain := List.all_eq_true.1 (List.all_eq_true.1 hall a ha) d hmem
  rw [hd] at hplain
  cases hplain

theorem arrowLength?_concat (hd : isBlank d = true) (cs : List Char) :
    arrowLength? (cs ++ [d]) = arrowLength? cs := by
  have hbegin : ∀ a ∈ arrowSpellings, a <+: cs ++ [d] ↔ a <+: cs := by
    intro a ha
    rw [List.prefix_concat_iff, or_iff_right]
    rintro rfl
    exact not_mem_arrow_of_isBlank hd ha (by simp)
  ext n
  rw [arrowLength?_eq_some_iff, arrowLength?_eq_some_iff]
  constructor
  · rintro ⟨a, ha, h, hn⟩
    exact ⟨a, ha, (hbegin a ha).1 h, hn⟩
  · rintro ⟨a, ha, h, hn⟩
    exact ⟨a, ha, (hbegin a ha).2 h, hn⟩

theorem wordChars_concat (hd : isBlank d = true) (cs : List Char) :
    wordChars (cs ++ [d]) = wordChars cs := by
  induction cs with
  | nil => exact wordChars_of_stops (by simp [stops, hd])
  | cons c cs ih =>
    have hstops : stops (c :: (cs ++ [d])) = stops (c :: cs) := by
      rw [stops, stops, ← List.cons_append, arrowLength?_concat hd]
    rw [List.cons_append, wordChars_cons_eq, wordChars_cons_eq, hstops, ih]

theorem openLiteral_concat (hd : d ≠ '"') (cs : List Char) :
    openLiteral (cs ++ [d]) = openLiteral cs := by
  rw [openLiteral, openLiteral, List.takeWhile_append]
  by_cases h : (cs.takeWhile (· ≠ '"')).length = cs.length
  · have hlast : [d].takeWhile (· ≠ '"') = [d] := List.takeWhile_cons_of_pos (by simpa using hd)
    simp only [if_pos h, hlast, ↓reduceIte]
  · have hle : (cs.takeWhile (· ≠ '"')).length ≤ cs.length := (List.takeWhile_prefix _).length_le
    have hless : (cs.takeWhile (· ≠ '"')).length ≠ (cs ++ [d]).length := by
      rw [List.length_append, List.length_singleton]
      omega
    simp only [if_neg h, if_neg hless]

theorem opening_concat (hd : isBlank d = true) (c : Char) (cs : List Char) :
    opening c (cs ++ [d]) = opening c cs := by
  have hquote : d ≠ '"' := by
    rintro rfl
    cases hd
  rw [opening, opening, ← List.cons_append, arrowLength?_concat hd, openLiteral_concat hquote,
    wordChars_concat hd]

/-- A blank at the end of a line makes no difference to its lexemes. -/
theorem scan_concat (hd : isBlank d = true) (skip col : Nat) (cs : List Char) :
    scan n skip col (cs ++ [d]) = scan n skip col cs := by
  induction cs generalizing skip col with
  | nil =>
    cases skip with
    | zero => exact scan_blank hd
    | succ skip => cases skip <;> rfl
  | cons c cs ih =>
    cases skip with
    | succ skip => exact ih skip (col + 1)
    | zero => simp only [List.cons_append, scan, opening_concat hd, ih]

theorem scanWords_concat (hd : isBlank d = true) (skip col : Nat) (cs : List Char) :
    scanWords n skip col (cs ++ [d]) = scanWords n skip col cs := by
  induction cs generalizing skip col with
  | nil =>
    cases skip with
    | zero => simp [scanWords, hd]
    | succ skip => cases skip <;> rfl
  | cons c cs ih =>
    cases skip with
    | succ skip => exact ih skip (col + 1)
    | zero =>
      have hmore : (cs ++ [d]).takeWhile (fun d => !isBlank d && d ≠ '#') =
          cs.takeWhile fun d => !isBlank d && d ≠ '#' := by
        rw [List.takeWhile_append, List.takeWhile_cons_of_neg (by simp [hd])]
        split_ifs with hall
        · rw [List.append_nil, (List.takeWhile_prefix _).eq_of_length hall]
        · rfl
      simp only [List.cons_append, scanWords, hmore, ih]

theorem isDirective_concat (hd : isBlank d = true) (l : List Char) :
    isDirective (l ++ [d]) = isDirective l := by
  rw [isDirective, isDirective, List.dropWhile_append]
  cases l.dropWhile isBlank with
  | nil => simp [hd]
  | cons c cs => rfl

end Ends

section Reading

/-- The beginning of a text, for any position in it. -/
def Position.textStart (_ : Position) : Position := ⟨1, 1⟩

/-- A line as it is read wherever it stands in a text. -/
def readLine (l : List Char) : Except LoadError Line :=
  relocated .textStart (Line.relocate .textStart) (scanLine 1 l)

theorem readLine_eq (n : Nat) (l : List Char) :
    readLine l = relocated .textStart (Line.relocate .textStart) (scanLine n l) :=
  scanLine_relocate (fun _ _ => rfl) l

theorem readLine_of_isDirective (h : isDirective l = true) : ∃ name arguments,
    scanWords 1 0 1 l = name :: arguments ∧
      readLine l = .ok (.directive (name.relocate .textStart)
        (arguments.map (Named.relocate .textStart)) ⟨1, 1⟩) := by
  obtain ⟨name, arguments, hwords, hline⟩ := @scanLine_of_isDirective 1 l h
  refine ⟨name, arguments, hwords, ?_⟩
  rw [readLine, hline]
  rfl

theorem readLine_of_not_isDirective (h : isDirective l = false) : readLine l =
    (relocated .textStart (List.map (Lexeme.relocate .textStart)) (scan 1 0 1 l)).map
      (Line.lexemes · ⟨1, 1⟩) := by
  rw [readLine, scanLine_of_not_isDirective h, relocated_lexemes]
  rfl

theorem readLine_concat (hd : isBlank d = true) (l : List Char) :
    readLine (l ++ [d]) = readLine l := by
  have hsame := isDirective_concat hd l
  cases h : isDirective l with
  | true =>
    obtain ⟨name, arguments, hwords, hline⟩ := readLine_of_isDirective h
    obtain ⟨name', arguments', hwords', hline'⟩ := readLine_of_isDirective (hsame.trans h)
    rw [scanWords_concat hd, hwords] at hwords'
    cases hwords'
    rw [hline, hline']
  | false =>
    rw [readLine_of_not_isDirective h, readLine_of_not_isDirective (hsame.trans h), scan_concat hd]

theorem readLine_rdropWhile (l : List Char) : readLine (l.rdropWhile isBlank) = readLine l := by
  induction l using List.reverseRecOn with
  | nil => rfl
  | append_singleton l d ih =>
    by_cases hd : isBlank d = true
    · rw [List.rdropWhile_concat_pos _ _ _ hd, ih, readLine_concat hd]
    · rw [List.rdropWhile_concat_neg _ _ _ hd]

/-- What a line says, wherever it stands in a text. -/
def Says (l : List Char) (y : Layout) : Prop := ∃ line, readLine l = .ok line ∧ line.HasForm y

theorem Line.HasForm.unique {line : Line} {y' : Layout} (h : line.HasForm y)
    (h' : line.HasForm y') : y = y' := by
  cases line with
  | directive name arguments ending =>
    rw [hasForm_directive_iff] at h h'
    exact h.trans h'.symm
  | lexemes row ending =>
    rcases row_cases row with rfl | ⟨w, rest, rfl⟩ | ⟨p, rest, rfl⟩ | ⟨p, rest, rfl⟩
    · rw [hasForm_nil_iff] at h h'
      exact h.trans h'.symm
    · obtain ⟨r, hr, rfl⟩ := hasForm_symbol_iff.1 h
      obtain ⟨r', hr', rfl⟩ := hasForm_symbol_iff.1 h'
      rw [Except.ok.inj (hr.symm.trans hr')]
    · obtain ⟨ss, hss, rfl⟩ := hasForm_bar_iff.1 h
      obtain ⟨ss', hss', rfl⟩ := hasForm_bar_iff.1 h'
      rw [Except.ok.inj (hss.symm.trans hss')]
    · exact absurd h not_hasForm_arrow

theorem Says.unique {y' : Layout} (h : Says l y) (h' : Says l y') : y = y' := by
  obtain ⟨line, hline, hform⟩ := h
  obtain ⟨line', hline', hform'⟩ := h'
  cases Except.ok.inj (hline.symm.trans hline')
  exact hform.unique hform'

theorem firstSign?_blank (hc : isBlank c = true) (cs : List Char) :
    firstSign? (c :: cs) = firstSign? cs := by
  rw [firstSign?, List.dropWhile_cons_of_pos hc, firstSign?]

theorem firstSign?_plain (hc : isBlank c = false) (cs : List Char) :
    firstSign? (c :: cs) = some c := by
  rw [firstSign?, List.dropWhile_cons_of_neg (Bool.eq_false_iff.1 hc), List.head?_cons]

theorem isDirective_iff : isDirective l = true ↔ firstSign? l = some '%' := decide_eq_true_iff

theorem bar_iff_of_opening {token : Token} (h : opening c cs = .token token n) :
    token = .bar ↔ c = '|' := by
  constructor
  · rintro rfl
    obtain ⟨-, hs, -⟩ := spelled_of_opening h
    generalize hchars : c :: cs.take n = spelling at hs
    cases hs
    exact (List.cons.inj hchars).1
  · rintro rfl
    cases h
    rfl

theorem startsWithBar_of_isEmptyLine (h : isEmptyLine l = true) : startsWithBar l = false := by
  rcases isEmptyLine_iff.1 h with h | h <;> rw [startsWithBar, h] <;> rfl

/-- The first lexeme of a line is what its first sign says. -/
theorem scan_cases (h : scan n 0 col l = .ok row) : (isEmptyLine l = true ∧ row = []) ∨
    (isEmptyLine l = false ∧ ∃ x more, row = x :: more ∧
      (x.token = .bar ↔ startsWithBar l = true)) := by
  simp only [isEmptyLine, startsWithBar]
  induction l generalizing col with
  | nil =>
    cases h
    exact .inl ⟨rfl, rfl⟩
  | cons c cs ih =>
    by_cases hc : isBlank c = true
    · rw [scan_blank hc] at h
      rw [firstSign?_blank hc]
      exact ih h
    · rw [Bool.not_eq_true] at hc
      rw [firstSign?_plain hc]
      rw [scan] at h
      cases hopening : opening c cs with
      | blank => exact absurd (isBlank_of_opening hopening) (Bool.eq_false_iff.1 hc)
      | comment =>
        rw [hopening] at h
        cases h
        cases comment_of_opening hopening
        exact .inl ⟨rfl, rfl⟩
      | token token more =>
        rw [hopening] at h
        obtain ⟨rest, -, rfl⟩ := map_eq_ok_iff.1 h
        have hcomment := (plain_of_opening hopening).2
        refine .inr ⟨by simpa using hcomment, _, rest, rfl, ?_⟩
        simpa using bar_iff_of_opening hopening
      | problem reason =>
        rw [hopening] at h
        cases h

theorem directiveName?_eq {name : Named} {arguments : List Named} (h : isDirective l = true)
    (hwords : scanWords n 0 col l = name :: arguments) : directiveName? l = some name.text := by
  rw [directiveName?, if_pos h, Option.some.injEq]
  rw [isDirective_iff] at h
  induction l generalizing col with
  | nil => cases h
  | cons c cs ih =>
    by_cases hc : isBlank c = true
    · rw [firstSign?_blank hc] at h
      rw [scanWords, if_pos hc] at hwords
      rw [List.dropWhile_cons_of_pos hc]
      exact ih h hwords
    · rw [firstSign?_plain (Bool.not_eq_true _ ▸ hc), Option.some.injEq] at h
      cases h
      rw [scanWords, if_neg hc, if_neg (by decide), List.cons.injEq] at hwords
      rw [List.dropWhile_cons_of_neg hc, ← hwords.1]
      exact List.takeWhile_cons_of_pos (by decide)

/-- The name of the directive, if a line says one. -/
def Layout.directiveName? : Layout → Option (List Char)
  | directive name _ => some name.text
  | _ => none

/-- What kind of thing a line says is told by its first sign. -/
theorem Says.kind (h : Says l y) : isRuleLine l = y.isOpen ∧ startsWithBar l = y.isContinuation ∧
    Notation.directiveName? l = y.directiveName? := by
  obtain ⟨line, hline, hform⟩ := h
  cases hdirective : isDirective l with
  | true =>
    obtain ⟨name, arguments, hwords, hread⟩ := readLine_of_isDirective hdirective
    cases Except.ok.inj (hread.symm.trans hline)
    cases hasForm_directive_iff.1 hform
    have hname := directiveName?_eq hdirective hwords
    refine ⟨by rw [isRuleLine, hdirective]; rfl, ?_, hname⟩
    rw [startsWithBar, isDirective_iff.1 hdirective]
    rfl
  | false =>
    have hname : Notation.directiveName? l = none := by
      rw [Notation.directiveName?, hdirective]
      rfl
    rw [readLine_of_not_isDirective hdirective, map_eq_ok_iff] at hline
    obtain ⟨row, hrow, rfl⟩ := hline
    obtain ⟨row, hscan, rfl⟩ := relocated_eq_ok_iff.1 hrow
    rcases scan_cases hscan with ⟨hempty, rfl⟩ | ⟨hempty, x, more, rfl, hbar⟩
    · cases hasForm_nil_iff.1 hform
      exact ⟨by rw [isRuleLine, hempty, Bool.not_true, Bool.and_false]; rfl,
        startsWithBar_of_isEmptyLine hempty, hname⟩
    · have hrule : isRuleLine l = true := by rw [isRuleLine, hdirective, hempty]; rfl
      rw [List.map_cons] at hform
      change (x.relocate .textStart).token = .bar ↔ _ at hbar
      rcases lexeme_cases (x.relocate .textStart) with ⟨w, hx⟩ | ⟨p, hx⟩ | ⟨p, hx⟩
      · rw [hx] at hform hbar
        obtain ⟨r, -, rfl⟩ := hasForm_symbol_iff.1 hform
        have hplain : w.lexeme.token ≠ .bar :=
          fun h => lexeme_ne_bar (congrArg (Lexeme.mk · w.position) h)
        refine ⟨hrule, ?_, hname⟩
        rwa [Ne, hbar, Bool.not_eq_true] at hplain
      · rw [hx] at hform hbar
        obtain ⟨ss, -, rfl⟩ := hasForm_bar_iff.1 hform
        exact ⟨hrule, hbar.1 rfl, hname⟩
      · rw [hx] at hform
        exact absurd hform not_hasForm_arrow

/-- A line with nothing in it may always be read. -/
theorem says_blank (h : isEmptyLine l = true) : Says l .blank := by
  rw [isEmptyLine_iff] at h
  have hplain : isDirective l = false := by
    rw [isDirective, ← firstSign?]
    rcases h with h | h <;> rw [h] <;> rfl
  have hscan (col : Nat) : scan 1 0 col l = .ok [] := by
    clear hplain
    induction l generalizing col with
    | nil => rfl
    | cons c cs ih =>
      by_cases hc : isBlank c = true
      · rw [firstSign?_blank hc] at h
        rw [scan_blank hc]
        exact ih h (col + 1)
      · rw [firstSign?_plain (Bool.not_eq_true _ ▸ hc)] at h
        rcases h with h | h
        · cases h
        · cases h
          rfl
  refine ⟨.lexemes [] ⟨1, 1⟩, ?_, .blank _⟩
  rw [readLine_of_not_isDirective hplain, hscan]
  rfl

end Reading

end FormalLanguage.Notation
