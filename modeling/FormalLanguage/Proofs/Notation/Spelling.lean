import FormalLanguage.Proofs.Notation.Scanning

/-!
The loop that reads a line. Main statement: a line of rules is made of its lexemes, blanks between them
and at most a comment, and the loop comes to an end for every line.
-/
namespace FormalLanguage.Notation

variable {c : Char} {cs l : List Char} {line n : Nat}

section Loop

/-- A place in a line: the column, the characters from there on, and the lexemes before. -/
structure Cursor where
  col : Nat
  rest : List Char
  row : List Lexeme

/-- Passes so many characters as a token. -/
def Cursor.take (line : Nat) (r : Cursor) (token : Token) (length : Nat) : Cursor where
  col := r.col + length
  rest := r.rest.drop length
  row := r.row ++ [⟨token, ⟨line, r.col⟩⟩]

/-- What a turn of the loop over a line leads to: another place, or the end of the loop. -/
inductive Turn where
  | goesOn (next : Cursor)
  | ends (result : Except LoadError (List Lexeme))

/-- One turn of the loop. A word is taken from its first character on. -/
def Cursor.turn (line : Nat) (r : Cursor) : Turn :=
  match r.rest with
  | [] => .ends (.ok r.row)
  | c :: cs =>
    if isBlank c then .goesOn { r with col := r.col + 1, rest := cs }
    else if c = '#' then .ends (.ok r.row)
    else
      match arrowLength? (c :: cs) with
      | some n => .goesOn (r.take line .arrow n)
      | none =>
        if c = '|' then .goesOn (r.take line .bar 1)
        else if c = '"' then
          let text := cs.takeWhile (· ≠ '"')
          if text.length = cs.length then .ends (.error ⟨.unterminatedLiteral, ⟨line, r.col⟩⟩)
          else if text.isEmpty then .ends (.error ⟨.emptyLiteral, ⟨line, r.col⟩⟩)
          else .goesOn (r.take line (.literal text) (text.length + 2))
        else
          let text := wordChars (c :: cs)
          .goesOn (r.take line (.word text) text.length)

/-- What the loop ends in, if it ends within so many turns. -/
def Cursor.run? (line : Nat) : (turns : Nat) → Cursor → Option (Except LoadError (List Lexeme))
  | 0, _ => none
  | turns + 1, r =>
    match r.turn line with
    | .goesOn next => next.run? line turns
    | .ends result => some result

variable {r next : Cursor} {result : Except LoadError (List Lexeme)}

theorem Cursor.turn_cons (h : r.rest = c :: cs) : r.turn line =
    match opening c cs with
    | .blank => .goesOn { r with col := r.col + 1, rest := cs }
    | .comment => .ends (.ok r.row)
    | .token token more => .goesOn (r.take line token (more + 1))
    | .problem reason => .ends (.error ⟨reason, ⟨line, r.col⟩⟩) := by
  rw [Cursor.turn, h]
  by_cases hblank : isBlank c = true
  · simp only [opening, if_pos hblank]
  · by_cases hcomment : c = '#'
    · simp only [opening, if_neg hblank, if_pos hcomment]
    · simp only [opening, if_neg hblank, if_neg hcomment]
      cases harrow : arrowLength? (c :: cs) with
      | some n =>
        obtain ⟨a, ha, -, rfl⟩ := arrowLength?_eq_some_iff.1 harrow
        have hpos : 0 < a.length := List.length_pos_iff.2 (arrow_ne_nil ha)
        simp only [Nat.sub_add_cancel hpos]
      | none =>
        by_cases hbar : c = '|'
        · simp only [if_pos hbar]
        · by_cases hquote : c = '"'
          · simp only [if_neg hbar, if_pos hquote, openLiteral]
            split_ifs <;> rfl
          · have hstop : stops (c :: cs) = false := by
              rw [stops_cons_eq_false_iff]
              exact ⟨⟨by simpa using hblank, by simp [isSpecial, hbar, hquote, hcomment]⟩, harrow⟩
            simp only [if_neg hbar, if_neg hquote, wordChars_cons hstop, List.length_cons]

/-- What the loop still comes to from here. -/
def Cursor.outcome (line : Nat) (r : Cursor) : Except LoadError (List Lexeme) :=
  (scan line 0 r.col r.rest).map (r.row ++ ·)

/-- A turn that goes on has passed a character, and leaves what the loop comes to. -/
theorem Cursor.turn_cases (line : Nat) (r : Cursor) :
    (∃ next, r.turn line = .goesOn next ∧ next.rest.length < r.rest.length ∧
      next.outcome line = r.outcome line) ∨
    r.turn line = .ends (r.outcome line) := by
  obtain ⟨col, rest, row⟩ := r
  cases rest with
  | nil => exact .inr (congrArg (Turn.ends ∘ Except.ok) (List.append_nil row).symm)
  | cons c cs =>
    rw [Cursor.turn_cons rfl]
    simp only [Cursor.outcome, scan]
    cases opening c cs with
    | blank => exact .inl ⟨_, rfl, Nat.lt_succ_self _, rfl⟩
    | comment => exact .inr (congrArg (Turn.ends ∘ Except.ok) (List.append_nil row).symm)
    | token token more =>
      refine .inl ⟨_, rfl, ?_, ?_⟩
      · simp only [Cursor.take, List.drop_succ_cons, List.length_drop, List.length_cons]
        omega
      · simp only [Cursor.take, List.drop_succ_cons, scan_skip more]
        rw [Nat.add_right_comm, Nat.add_assoc]
        cases scan line 0 (col + (more + 1)) (cs.drop more) with
        | error e => rfl
        | ok later => exact congrArg Except.ok (List.append_assoc row _ later)
    | problem reason => exact .inr rfl

/-- The loop ends after one turn for each character, and one more. -/
theorem Cursor.run?_eq (h : r.rest.length < n) : r.run? line n = some (r.outcome line) := by
  induction n generalizing r with
  | zero => cases h
  | succ n ih =>
    rw [Cursor.run?]
    rcases r.turn_cases line with ⟨next, hturn, hless, hsame⟩ | hturn
    · rw [hturn, ← hsame]
      exact ih (Nat.lt_of_lt_of_le hless (Nat.le_of_lt_succ h))
    · rw [hturn]

end Loop

/--
In a text that is read, each line of rules is made of the spellings of its lexemes, each at its column,
of blanks between them and at most a comment after them, and of the lexemes of no other row. The loop
over a line ends for every line, read or not, after at most one turn more than it has characters.
-/
theorem lexemes_spell_lines :
    (∀ text lines, lexLines text = .ok lines → ∀ (i : Nat) (l : List Char),
      (splitLines text)[i]? = some l → isDirective l = false →
        ∃ row, lines[i]? = some (.lexemes row ⟨i + 1, l.length + 1⟩) ∧ Tiled (i + 1) l row ∧
          ∀ row', Tiled (i + 1) l row' → row' = row) ∧
    ∀ (line : Nat) (l : List Char),
      (Cursor.mk 1 l []).run? line (l.length + 1) = some (scan line 0 1 l) := by
  constructor
  · intro text lines h i l hl hplain
    obtain ⟨x, hx, hscan⟩ := exists_scanLine_at h hl
    rw [scanLine_of_not_isDirective hplain, map_eq_ok_iff, Nat.add_comm 1 i] at hscan
    obtain ⟨row, hrow, rfl⟩ := hscan
    refine ⟨row, hx, scan_eq_ok_iff.1 hrow, fun row' hrow' => ?_⟩
    exact Except.ok.inj ((scan_eq_ok_iff.2 hrow').symm.trans hrow)
  · intro line l
    exact (Cursor.run?_eq (Nat.lt_succ_self l.length)).trans (congrArg some (map_nil_append _))

/-- Words that end within a run of colons or dashes, and signs of all kinds in a literal. -/
def crowdedLine : List Char := "S→\"#|->\"b:::=c-->d# e".toList

theorem crowdedLine_spelled : ∃ lines row, lexLines ("%start S\n".toList ++ crowdedLine) = .ok lines ∧
    (splitLines ("%start S\n".toList ++ crowdedLine))[1]? = some crowdedLine ∧
    isDirective crowdedLine = false ∧
    lines[1]? = some (.lexemes row ⟨2, crowdedLine.length + 1⟩) ∧ Tiled 2 crowdedLine row ∧
    row.map Lexeme.token = [.word ['S'], .arrow, .literal "#|->".toList, .word ['b', ':'], .arrow,
      .word ['c', '-'], .arrow, .word ['d']] := by
  have hline : (splitLines ("%start S\n".toList ++ crowdedLine))[1]? = some crowdedLine := by
    decide +kernel
  have hplain : isDirective crowdedLine = false := by decide +kernel
  obtain ⟨lines, hlines⟩ : ∃ lines, lexLines ("%start S\n".toList ++ crowdedLine) = .ok lines :=
    exists_ok (by decide +kernel)
  obtain ⟨row, hrow, htiled, hunique⟩ :=
    lexemes_spell_lines.1 _ lines hlines 1 crowdedLine hline hplain
  refine ⟨lines, row, hlines, hline, hplain, hrow, htiled, ?_⟩
  have htokens : (scan 2 0 1 crowdedLine).map (·.map Lexeme.token) = .ok
      [.word ['S'], .arrow, .literal "#|->".toList, .word ['b', ':'], .arrow,
        .word ['c', '-'], .arrow, .word ['d']] := by decide +kernel
  rw [scan_eq_ok_iff.2 htiled] at htokens
  exact Except.ok.inj htokens

end FormalLanguage.Notation
