import FormalLanguage.Proofs.Notation.Opening
import FormalLanguage.Proofs.Outcome

/-!
Lexemes in the characters of their line. Main statement: a line is read as some lexemes just if it is
made of their spellings, each at its column, and of blanks between them, up to a comment.
-/
namespace FormalLanguage.Notation

variable {c : Char} {cs front tail tail' spelling l : List Char} {line col n : Nat} {token : Token}
  {row : List Lexeme}

section Scan

theorem scan_skip (n col : Nat) (cs : List Char) :
    scan line n col cs = scan line 0 (col + n) (cs.drop n) := by
  induction cs generalizing n col with
  | nil => cases n <;> simp [scan]
  | cons c cs ih =>
    cases n with
    | zero => rfl
    | succ n => rw [scan, ih, List.drop_succ_cons, Nat.add_right_comm, Nat.add_assoc]

theorem scan_blank (h : isBlank c = true) :
    scan line 0 col (c :: cs) = scan line 0 (col + 1) cs := by
  have hopening : opening c cs = .blank := by rw [opening, if_pos h]
  rw [scan, hopening]

theorem scan_token (h : opening c cs = .token token n) : scan line 0 col (c :: cs) =
    (scan line 0 (col + 1 + n) (cs.drop n)).map (⟨token, ⟨line, col⟩⟩ :: ·) := by
  rw [scan, h, ← scan_skip n (col + 1) cs]
  rfl

theorem map_nil_append (x : Except LoadError (List Lexeme)) : x.map ([] ++ ·) = x := by
  cases x <;> rfl

end Scan

section Tiling

/--
The characters, from a column on and with others after them, are the spellings of the lexemes, each at
its column, and blanks between them. No word goes on where it ends.
-/
inductive Tiles (line : Nat) (tail : List Char) : Nat → List Char → List Lexeme → Prop
  | nil (col : Nat) : Tiles line tail col [] []
  | blank {col : Nat} {c : Char} {cs : List Char} {row : List Lexeme} (hc : isBlank c = true)
      (rest : Tiles line tail (col + 1) cs row) : Tiles line tail col (c :: cs) row
  | lexeme {col : Nat} {token : Token} {spelling cs : List Char} {row : List Lexeme}
      (hs : token.Spelled spelling) (hend : ∀ text, token = .word text → stops (cs ++ tail) = true)
      (rest : Tiles line tail (col + spelling.length) cs row) :
      Tiles line tail col (spelling ++ cs) (⟨token, ⟨line, col⟩⟩ :: row)

/-- The lexemes of a line: after the last of them there is nothing more, or a comment. -/
def Tiled (line : Nat) (l : List Char) (row : List Lexeme) : Prop :=
  ∃ front tail, l = front ++ tail ∧ (tail = [] ∨ tail.head? = some '#') ∧
    Tiles line tail 1 front row

theorem Token.Spelled.ne_nil (hs : token.Spelled spelling) : spelling ≠ [] := by
  cases hs with
  | word hne => exact hne
  | literal => exact List.cons_ne_nil _ _
  | arrow ha => exact arrow_ne_nil ha
  | bar => exact List.cons_ne_nil _ _

theorem scan_spelled (hs : token.Spelled spelling)
    (hend : ∀ text, token = .word text → stops tail = true) :
    scan line 0 col (spelling ++ tail) =
      (scan line 0 (col + spelling.length) tail).map (⟨token, ⟨line, col⟩⟩ :: ·) := by
  obtain ⟨c, more, rfl⟩ := List.exists_cons_of_ne_nil hs.ne_nil
  rw [List.cons_append, scan_token (opening_of_spelled hs hend), List.drop_left, List.length_cons,
    Nat.add_right_comm, Nat.add_assoc]

/-- The lexemes of the first characters are read, and then those of the others. -/
theorem Tiles.scan_append (h : Tiles line tail col front row) : scan line 0 col (front ++ tail) =
    (scan line 0 (col + front.length) tail).map (row ++ ·) := by
  induction h with
  | nil col => exact (map_nil_append _).symm
  | @blank col c cs row hc _ ih =>
    rw [List.cons_append, scan_blank hc, ih, List.length_cons, Nat.add_right_comm, Nat.add_assoc]
  | @lexeme col token spelling cs row hs hend _ ih =>
    rw [List.append_assoc, scan_spelled hs hend, ih, List.length_append, ← Nat.add_assoc]
    cases scan line 0 (col + spelling.length + cs.length) tail <;> rfl

/-- Where a word has ended before other characters, it ends before whatever follows them. -/
theorem Tiles.stops_append (h : Tiles line tail col front row) (hne : front ≠ [])
    (hstops : stops (front ++ tail) = true) : stops (front ++ tail') = true := by
  cases h with
  | nil => exact absurd rfl hne
  | blank hc => simp [stops, hc]
  | @lexeme _ token spelling cs _ hs hend _ =>
    obtain ⟨c, more, rfl⟩ := List.exists_cons_of_ne_nil hs.ne_nil
    rw [List.append_assoc, List.cons_append] at hstops ⊢
    have hword : ∀ text, token ≠ .word text :=
      (stops_iff_of_opening (opening_of_spelled hs hend)).1 hstops
    have hagain : opening c (more ++ (cs ++ tail')) = .token token more.length :=
      opening_of_spelled hs fun text ht => absurd ht (hword text)
    exact (stops_iff_of_opening hagain).2 hword

/-- The first lexemes do not depend on what follows them, if a word may end there. -/
theorem Tiles.retail (h : Tiles line tail col front row)
    (htail : stops tail = true → stops tail' = true) : Tiles line tail' col front row := by
  induction h with
  | nil col => exact .nil col
  | blank hc _ ih => exact .blank hc ih
  | @lexeme col token spelling cs row hs hend rest ih =>
    refine .lexeme hs (fun text ht => ?_) ih
    by_cases hne : cs = []
    · subst hne
      exact htail (hend text ht)
    · exact rest.stops_append hne (hend text ht)

theorem scan_of_ends (h : tail = [] ∨ tail.head? = some '#') : scan line 0 col tail = .ok [] := by
  cases tail with
  | nil => rfl
  | cons c cs =>
    have hc : c = '#' := by simpa using h
    subst hc
    rfl

/--
What reading characters from a column on comes to: the lexemes that they are made of, up to a comment,
or a fault at a quote behind some lexemes.
-/
inductive ScansTo (line col : Nat) (l : List Char) : Except LoadError (List Lexeme) → Prop
  | read {front tail : List Char} {row : List Lexeme} (hl : l = front ++ tail)
      (hend : tail = [] ∨ tail.head? = some '#') (htiles : Tiles line tail col front row) :
      ScansTo line col l (.ok row)
  | refused {front rest : List Char} {row : List Lexeme} {e : LoadError}
      (hl : l = front ++ '"' :: rest)
      (hreason : e.reason = .unterminatedLiteral ∨ e.reason = .emptyLiteral)
      (htiles : Tiles line ('"' :: rest) col front row)
      (hp : e.position = ⟨line, col + front.length⟩) : ScansTo line col l (.error e)

variable {x : Except LoadError (List Lexeme)}

theorem ScansTo.blank (hc : isBlank c = true) (h : ScansTo line (col + 1) cs x) :
    ScansTo line col (c :: cs) x := by
  cases h with
  | read hl hend htiles => exact .read (congrArg (c :: ·) hl) hend (.blank hc htiles)
  | @refused front rest row e hl hreason htiles hp =>
    have hcol : col + 1 + front.length = col + (c :: front).length := by simp; omega
    exact .refused (congrArg (c :: ·) hl) hreason (.blank hc htiles) (hcol ▸ hp)

theorem ScansTo.lexeme (hs : token.Spelled spelling)
    (hend : ∀ text, token = .word text → stops cs = true)
    (h : ScansTo line (col + spelling.length) cs x) :
    ScansTo line col (spelling ++ cs) (x.map (⟨token, ⟨line, col⟩⟩ :: ·)) := by
  cases h with
  | @read front tail row hl htail htiles =>
    refine .read ?_ htail (.lexeme hs (fun text ht => hl ▸ hend text ht) htiles)
    rw [hl, List.append_assoc]
  | @refused front rest row e hl hreason htiles hp =>
    have hcol : col + spelling.length + front.length = col + (spelling ++ front).length := by
      rw [List.length_append, Nat.add_assoc]
    refine .refused ?_ hreason (.lexeme hs (fun text ht => hl ▸ hend text ht) htiles) (hcol ▸ hp)
    rw [hl, List.append_assoc]

theorem scansTo_scan (line n col : Nat) (cs : List Char) :
    ScansTo line (col + n) (cs.drop n) (scan line n col cs) := by
  -- `n` counts the characters that still belong to the lexeme before
  induction cs generalizing n col with
  | nil =>
    rw [scan_skip, List.drop_nil]
    exact .read rfl (.inl rfl) (.nil _)
  | cons c cs ih =>
    cases n with
    | succ n =>
      have hrest := ih n (col + 1)
      rwa [Nat.add_right_comm, Nat.add_assoc] at hrest
    | zero =>
      rw [scan]
      cases hopening : opening c cs with
      | blank => exact (ih 0 (col + 1)).blank (isBlank_of_opening hopening)
      | comment =>
        have hl : c :: cs = [] ++ c :: cs := rfl
        exact .read hl (.inr (congrArg some (comment_of_opening hopening))) (.nil _)
      | token token n =>
        obtain ⟨hle, hs, hword⟩ := spelled_of_opening hopening
        have hcol : col + 1 + n = col + 0 + (c :: cs.take n).length := by
          rw [List.length_cons, List.length_take_of_le hle]
          omega
        have hrest := ih n (col + 1)
        rw [hcol] at hrest
        have hall := hrest.lexeme hs hword
        rw [List.cons_append, List.take_append_drop] at hall
        exact hall
      | problem reason =>
        obtain ⟨rfl, hreason⟩ := quote_of_opening hopening
        exact .refused rfl hreason (.nil _) rfl

/-- What has been read from some characters are the lexemes that these are made of, up to a comment. -/
theorem exists_tiles (h : scan line n col cs = .ok row) : ∃ front tail, cs.drop n = front ++ tail ∧
    (tail = [] ∨ tail.head? = some '#') ∧ Tiles line tail (col + n) front row := by
  have hscan := scansTo_scan line n col cs
  rw [h] at hscan
  cases hscan with
  | read hl hend htiles => exact ⟨_, _, hl, hend, htiles⟩

/-- Reading fails at a quote only. -/
theorem exists_quote_of_scan {e : LoadError} (h : scan line n col cs = .error e) : ∃ front rest row,
    cs.drop n = front ++ '"' :: rest ∧
      (e.reason = .unterminatedLiteral ∨ e.reason = .emptyLiteral) ∧
      Tiles line ('"' :: rest) (col + n) front row ∧
        e.position = ⟨line, col + n + front.length⟩ := by
  have hscan := scansTo_scan line n col cs
  rw [h] at hscan
  cases hscan with
  | refused hl hreason htiles hp => exact ⟨_, _, _, hl, hreason, htiles, hp⟩

/-- A line is read as some lexemes just if it is made of them. -/
theorem scan_eq_ok_iff : scan line 0 1 l = .ok row ↔ Tiled line l row := by
  constructor
  · exact exists_tiles
  · rintro ⟨front, tail, rfl, hend, htiles⟩
    rw [htiles.scan_append, scan_of_ends hend]
    exact congrArg Except.ok (List.append_nil row)

/-- What stands before a lexeme of a line are the lexemes before it, and blanks. -/
theorem Tiles.exists_at {x : Lexeme} {xs ys : List Lexeme}
    (h : Tiles line tail col cs (xs ++ x :: ys)) : ∃ front spelling rest,
      cs = front ++ (spelling ++ rest) ∧ x.token.Spelled spelling ∧
      x.position = ⟨line, col + front.length⟩ ∧
      Tiles line (spelling ++ (rest ++ tail)) col front xs := by
  generalize hrow : xs ++ x :: ys = row at h
  induction h generalizing xs with
  | nil => exact absurd hrow (by simp)
  | @blank col c cs row hc _ ih =>
    obtain ⟨front, spelling, rest, rfl, hs, hp, htiles⟩ := ih hrow
    refine ⟨c :: front, spelling, rest, rfl, hs, ?_, .blank hc htiles⟩
    rw [hp, List.length_cons, Nat.add_right_comm, Nat.add_assoc]
  | @lexeme col token spelling cs row hs hend _ ih =>
    cases xs with
    | nil =>
      obtain ⟨rfl, rfl⟩ := List.cons.inj hrow
      exact ⟨[], spelling, cs, rfl, hs, rfl, .nil col⟩
    | cons first xs =>
      obtain ⟨rfl, hrest⟩ := List.cons.inj hrow
      obtain ⟨front, spelling', rest, rfl, hs', hp, htiles⟩ := ih hrest
      refine ⟨spelling ++ front, spelling', rest, by rw [List.append_assoc], hs', ?_,
        .lexeme hs (fun text ht => ?_) htiles⟩
      · rw [hp, List.length_append, Nat.add_assoc]
      · simpa only [List.append_assoc] using hend text ht

/-- The first lexemes of a line are made of its first characters. -/
theorem Tiles.exists_of_prefix {xs : List Lexeme} (h : Tiles line tail col cs row) (hxs : xs <+: row) :
    ∃ front rest, cs = front ++ rest ∧ Tiles line (rest ++ tail) col front xs := by
  obtain ⟨ys, rfl⟩ := hxs
  cases ys with
  | nil =>
    rw [List.append_nil] at h
    exact ⟨cs, [], (List.append_nil cs).symm, h⟩
  | cons x ys =>
    obtain ⟨front, spelling, rest, rfl, -, -, htiles⟩ := h.exists_at
    exact ⟨front, spelling ++ rest, rfl, by rwa [List.append_assoc]⟩

end Tiling

end FormalLanguage.Notation
