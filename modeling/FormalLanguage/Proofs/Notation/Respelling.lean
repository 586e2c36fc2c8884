import FormalLanguage.Proofs.Notation.Relocation

/-!
Arrows that are spelled otherwise. Main statement: with any of its arrows in another spelling a text
has the same lexemes line by line, and is loaded to the same grammar or fails on the same line for the
same reason.
-/
namespace FormalLanguage.Notation

variable {c : Char} {a after b before cs ended front l tail text : List Char} {line col n i : Nat}
  {row : List Lexeme} {p : Position} {f : Position → Position}

section Lines

/-- There are no characters, or the last of them ends a line. -/
def EndsLine (cs : List Char) : Prop := ∀ c ∈ cs.getLast?, c = '\n'

theorem endsLine_nil : EndsLine [] := nofun

theorem endsLine_cons : EndsLine (c :: cs) ↔ (cs = [] → c = '\n') ∧ EndsLine cs := by
  cases cs <;> simp [EndsLine]

theorem splitLines_eq_nil_iff : splitLines cs = [] ↔ cs = [] := by
  fun_cases splitLines cs <;> simp_all

/-- Whole lines are split before the characters below them. -/
theorem splitLines_endsLine (h : EndsLine ended) (cs : List Char) :
    splitLines (ended ++ cs) = splitLines ended ++ splitLines cs := by
  induction ended using splitLines.induct with
  | case1 => rfl
  | case2 ended ih =>
    exact congrArg ([] :: ·) (ih (endsLine_cons.1 (endsLine_cons.1 h).2).2)
  | case3 ended ih => exact congrArg ([] :: ·) (ih (endsLine_cons.1 h).2)
  | case4 c ended hcrlf hc hnil ih =>
    exact absurd ((endsLine_cons.1 h).1 (splitLines_eq_nil_iff.1 hnil)) hc
  | case5 c ended hcrlf hc line lines hlines ih =>
    have hnext : c = '\r' → (ended ++ cs).head? ≠ some '\n' := by
      rintro rfl
      cases ended with
      | nil => cases hlines
      | cons d ended =>
        intro hd
        cases hd
        exact hcrlf ended rfl rfl
    rw [List.cons_append, splitLines_cons hc hnext, ih (endsLine_cons.1 h).2,
      splitLines.eq_4 c ended hcrlf hc, hlines]
    rfl

/-- A line stands below whole lines, as many as its index says. -/
theorem exists_endsLine (h : (splitLines text)[i]? = some l) : ∃ ended rest,
    text = ended ++ (l ++ rest) ∧ EndsLine ended ∧ (splitLines ended).length = i := by
  induction text using splitLines.induct generalizing i l with
  | case1 => cases h
  | case2 cs ih =>
    cases i with
    | zero =>
      cases h
      exact ⟨[], _, rfl, endsLine_nil, rfl⟩
    | succ i =>
      obtain ⟨ended, rest, rfl, hended, rfl⟩ := ih h
      have hnewline : EndsLine ('\n' :: ended) := endsLine_cons.2 ⟨fun _ => rfl, hended⟩
      refine ⟨'\r' :: '\n' :: ended, rest, rfl, endsLine_cons.2 ⟨fun hnil => ?_, hnewline⟩, rfl⟩
      exact absurd hnil (List.cons_ne_nil _ _)
  | case3 cs ih =>
    cases i with
    | zero =>
      cases h
      exact ⟨[], _, rfl, endsLine_nil, rfl⟩
    | succ i =>
      obtain ⟨ended, rest, rfl, hended, rfl⟩ := ih h
      exact ⟨'\n' :: ended, rest, rfl, endsLine_cons.2 ⟨fun _ => rfl, hended⟩, rfl⟩
  | case4 c cs hcrlf hc hnil ih =>
    cases splitLines_eq_nil_iff.1 hnil
    rw [splitLines.eq_4 c [] hcrlf hc] at h
    cases i with
    | zero =>
      cases h
      exact ⟨[], [], rfl, endsLine_nil, rfl⟩
    | succ i => cases h
  | case5 c cs hcrlf hc line lines hlines ih =>
    rw [splitLines.eq_4 c cs hcrlf hc, hlines] at h
    cases i with
    | zero =>
      cases h
      obtain ⟨ended, rest, rfl, -, hnone⟩ := @ih line 0 (by rw [hlines]; rfl)
      cases splitLines_eq_nil_iff.1 (List.length_eq_zero_iff.1 hnone)
      exact ⟨[], rest, rfl, endsLine_nil, rfl⟩
    | succ i =>
      obtain ⟨ended, rest, rfl, hended, hlength⟩ := @ih l (i + 1) (by rw [hlines]; exact h)
      obtain ⟨first, more, hmore⟩ := List.exists_cons_of_length_eq_add_one hlength
      have hne : ended ≠ [] := by
        rintro rfl
        cases hmore
      have hnext : c = '\r' → ended.head? ≠ some '\n' := by
        rintro rfl hd
        obtain ⟨more, rfl⟩ := List.head?_eq_some_iff.1 hd
        exact hcrlf _ rfl rfl
      refine ⟨c :: ended, rest, rfl, endsLine_cons.2 ⟨fun hnil => absurd hnil hne, hended⟩, ?_⟩
      rw [← hlength, splitLines_cons hc hnext, hmore]
      rfl

/-- The first line begins with the characters in front of it, unless a line ends within them. -/
theorem splitLines_append_headD (hl : '\n' ∉ l) (hne : l ≠ []) (hlast : l.getLast? ≠ some '\r') :
    splitLines (l ++ cs) = (l ++ (splitLines cs).headD []) :: (splitLines cs).tail := by
  cases hlines : splitLines cs with
  | nil =>
    rw [splitLines_eq_nil_iff.1 hlines, List.append_nil, splitLines_last hl hne]
    exact congrArg ([·]) (List.append_nil l).symm
  | cons first more => exact splitLines_append hl (fun hr => absurd hr hlast) hlines

end Lines

section Places

/--
An arrow with this spelling stands at a position of a text: the characters before it are whole lines
and then, in a line of rules, lexemes and blanks up to there.
-/
def ArrowAt (before spelling after : List Char) (p : Position) : Prop :=
  spelling ∈ arrowSpellings ∧ ∃ ended front row, before = ended ++ front ∧ EndsLine ended ∧
    '\n' ∉ front ∧ isDirective front = false ∧
    p = ⟨(splitLines ended).length + 1, front.length + 1⟩ ∧
    Tiles p.line (spelling ++ after) 1 front row

theorem spelled_arrow_iff : Token.arrow.Spelled a ↔ a ∈ arrowSpellings := by
  constructor
  · intro h
    cases h with
    | arrow ha => exact ha
  · exact .arrow

theorem stops_arrow (ha : a ∈ arrowSpellings) (cs : List Char) : stops (a ++ cs) = true := by
  rcases arrow_cases ha with rfl | rfl | rfl <;> rfl

theorem ArrowAt.respelled (h : ArrowAt before a after p) (hb : b ∈ arrowSpellings) :
    ArrowAt before b after p := by
  obtain ⟨-, ended, front, row, heq, hended, hfront, hplain, hp, htiles⟩ := h
  exact ⟨hb, ended, front, row, heq, hended, hfront, hplain, hp,
    htiles.retail fun _ => stops_arrow hb after⟩

/-- An arrow makes no line a directive. -/
theorem isDirective_arrow (ha : a ∈ arrowSpellings) (front cs : List Char) :
    isDirective (front ++ (a ++ cs)) = isDirective front := by
  have harrow : isDirective (a ++ cs) = false := by
    rcases arrow_cases ha with rfl | rfl | rfl <;> rfl
  rw [isDirective, List.dropWhile_append, isDirective]
  cases hfront : front.dropWhile isBlank with
  | nil => exact harrow
  | cons c front => rfl

/-- The line of an arrow among the lines of its text. -/
theorem splitLines_arrow (ha : a ∈ arrowSpellings) (hended : EndsLine ended)
    (hfront : '\n' ∉ front) (after : List Char) :
    splitLines (ended ++ front ++ (a ++ after)) = splitLines ended ++
      (front ++ (a ++ (splitLines after).headD [])) :: (splitLines after).tail := by
  have hplain : '\n' ∉ a ∧ a.getLast? ≠ some '\r' := by
    rcases arrow_cases ha with rfl | rfl | rfl <;> decide
  have hne : a ≠ [] := arrow_ne_nil ha
  have hlast : (front ++ a).getLast? ≠ some '\r' := by
    rw [List.getLast?_append_of_ne_nil front hne]
    exact hplain.2
  rw [List.append_assoc, splitLines_endsLine hended, ← List.append_assoc front,
    splitLines_append_headD (by simp [hfront, hplain.1]) (by simp [hne]) hlast, List.append_assoc]

/-- A line up to an arrow, and the arrow, are read before what follows. -/
theorem scan_arrow (ha : a ∈ arrowSpellings) (h : Tiles line tail 1 front row)
    (cs : List Char) : scan line 0 1 (front ++ (a ++ cs)) =
      (scan line 0 (front.length + 1 + a.length) cs).map
        (row ++ [⟨.arrow, ⟨line, front.length + 1⟩⟩] ++ ·) := by
  have htiles := h.retail fun _ => stops_arrow ha cs
  rw [htiles.scan_append, scan_spelled (.arrow ha) (by rintro text ⟨⟩), Nat.add_comm 1 front.length]
  cases scan line 0 (front.length + 1 + a.length) cs with
  | error e => rfl
  | ok more => exact congrArg Except.ok (List.append_cons row _ more)

variable {lines : List Line} {ending : Position}

/-- Where a row of a text that is read has an arrow, there stands one. -/
theorem exists_arrowAt (h : lexLines text = .ok lines) (hline : .lexemes row ending ∈ lines)
    (hx : ⟨.arrow, p⟩ ∈ row) :
    ∃ before a after, text = before ++ (a ++ after) ∧ ArrowAt before a after p := by
  obtain ⟨ls, rest, rfl⟩ := List.append_of_mem hline
  obtain ⟨above, l, below, hsplit, -, hl⟩ := scanLines_eq_ok_append h
  obtain ⟨hplain, hrow⟩ := scanLine_eq_lexemes hl
  obtain ⟨chars, tail, rfl, -, htiles⟩ := scan_eq_ok_iff.1 hrow
  obtain ⟨xs, ys, rfl⟩ := List.append_of_mem hx
  obtain ⟨front, a, after, rfl, hs, hp, hbefore⟩ := htiles.exists_at
  have ha := spelled_arrow_iff.1 hs
  have hindex : (splitLines text)[above.length]? = some (front ++ (a ++ after) ++ tail) := by
    simp [hsplit]
  obtain ⟨ended, others, rfl, hended, hlength⟩ := exists_endsLine hindex
  have hnewline := newline_notMem (List.mem_of_getElem? hindex)
  rw [List.append_assoc, List.append_assoc, isDirective_arrow ha] at hplain
  rw [← hlength, Nat.add_comm 1, Nat.add_comm 1] at hp
  rw [← hlength, Nat.add_comm 1] at hbefore
  cases hp
  refine ⟨ended ++ front, a, after ++ (tail ++ others), by simp, ha, ended, front, xs, rfl,
    hended, fun hmem => hnewline (by simp [hmem]), hplain, rfl, ?_⟩
  exact hbefore.retail fun _ => stops_arrow ha _

/-- Where an arrow stands in a text that is read, there a row has one. -/
theorem ArrowAt.exists_row (ha : ArrowAt before a after p)
    (h : lexLines (before ++ (a ++ after)) = .ok lines) :
    ∃ row ending, .lexemes row ending ∈ lines ∧ ⟨.arrow, p⟩ ∈ row := by
  obtain ⟨ha, ended, front, row, rfl, hended, hfront, hplain, rfl, htiles⟩ := ha
  have hindex : (splitLines (ended ++ front ++ (a ++ after)))[(splitLines ended).length]? =
      some (front ++ (a ++ (splitLines after).headD [])) := by
    rw [splitLines_arrow ha hended hfront]
    simp
  obtain ⟨x, hx, hl⟩ := exists_scanLine_at h hindex
  rw [scanLine_of_not_isDirective (by rwa [isDirective_arrow ha]), Nat.add_comm 1,
    scan_arrow ha htiles, map_eq_ok_iff] at hl
  obtain ⟨row', hrow, rfl⟩ := hl
  obtain ⟨more, -, rfl⟩ := map_eq_ok_iff.1 hrow
  exact ⟨_, _, List.mem_of_getElem? hx, by simp⟩

end Places

section Respelling

/-- The beginning of the line of a position: what remains of it without its column. -/
def Position.lineStart (p : Position) : Position := ⟨p.line, 1⟩

/-- In the same place of a line the spellings are read alike, but for the columns after them. -/
theorem scanLine_respelled (ha : a ∈ arrowSpellings) (hb : b ∈ arrowSpellings)
    (hplain : isDirective front = false) (htiles : Tiles line tail 1 front row)
    (hf : ∀ c c', f ⟨line, c⟩ = f ⟨line, c'⟩) (cs : List Char) :
    relocated f (Line.relocate f) (scanLine line (front ++ (a ++ cs))) =
      relocated f (Line.relocate f) (scanLine line (front ++ (b ++ cs))) := by
  rw [scanLine_of_not_isDirective (by rwa [isDirective_arrow ha]),
    scanLine_of_not_isDirective (by rwa [isDirective_arrow hb]), relocated_lexemes,
    relocated_lexemes, scan_arrow ha htiles, scan_arrow hb htiles, relocated_append,
    relocated_append, scan_relocate hf 0 (front.length + 1 + a.length), hf]

theorem lexLines_respelled (ha : ArrowAt before a after p) (hb : b ∈ arrowSpellings) :
    relocated .lineStart (List.map (Line.relocate .lineStart)) (lexLines (before ++ (a ++ after))) =
      relocated .lineStart (List.map (Line.relocate .lineStart))
        (lexLines (before ++ (b ++ after))) := by
  obtain ⟨ha, ended, front, row, rfl, hended, hfront, hplain, rfl, htiles⟩ := ha
  rw [lexLines, lexLines, splitLines_arrow ha hended hfront, splitLines_arrow hb hended hfront]
  refine scanLines_relocate 1 _ _ ?_
  rw [Nat.add_comm 1]
  exact scanLine_respelled ha hb hplain htiles (fun _ _ => rfl) _

/-- The results are the same, or errors in the same line for the same reason. -/
def SameByLine {α : Type} (x y : Except LoadError α) : Prop :=
  (∃ result, x = .ok result ∧ y = .ok result) ∨
    ∃ e e', x = .error e ∧ y = .error e' ∧ e.reason = e'.reason ∧ e.position.line = e'.position.line

theorem sameByLine_of_relocated {α β : Type} {k : α → β} {x y : Except LoadError α}
    (h : relocated .lineStart k x = relocated .lineStart k y) : SameByLine (x.map k) (y.map k) := by
  cases x with
  | error e =>
    cases y with
    | error e' =>
      obtain ⟨hreason, hstart⟩ := LoadError.mk.inj (Except.error.inj h)
      exact .inr ⟨e, e', rfl, rfl, hreason, (Position.mk.inj hstart).1⟩
    | ok _ => cases h
  | ok result =>
    cases y with
    | error _ => cases h
    | ok result' => exact .inl ⟨k result, rfl, congrArg Except.ok (Except.ok.inj h).symm⟩

/--
In a text that is read, its arrows are those of its rows. In any text, read or not, an arrow in another
spelling is an arrow there, and leaves the words and tokens of each line; the two texts are loaded to
the same grammar, or fail in the same line for the same reason.
-/
theorem arrow_respelled :
    (∀ text lines, lexLines text = .ok lines → ∀ p,
      (∃ row ending, .lexemes row ending ∈ lines ∧ ⟨.arrow, p⟩ ∈ row) ↔
        ∃ before a after, text = before ++ (a ++ after) ∧ ArrowAt before a after p) ∧
    ∀ before a after p, ArrowAt before a after p → ∀ b ∈ arrowSpellings, ∀ text text' : String,
      text.toList = before ++ (a ++ after) → text'.toList = before ++ (b ++ after) →
        ArrowAt before b after p ∧
        SameByLine ((lexLines text.toList).map (List.map (Line.relocate .lineStart)))
          ((lexLines text'.toList).map (List.map (Line.relocate .lineStart))) ∧
        SameByLine (loadGrammar text) (loadGrammar text') ∧
        SameByLine (loadPhraseGrammar text) (loadPhraseGrammar text') := by
  refine ⟨fun text lines h p => ⟨?_, ?_⟩, fun before a after p ha b hb text text' h h' => ?_⟩
  · rintro ⟨row, ending, hline, hx⟩
    exact exists_arrowAt h hline hx
  · rintro ⟨before, a, after, rfl, ha⟩
    exact ha.exists_row h
  have hlines := lexLines_respelled ha hb
  rw [← h, ← h'] at hlines
  have hparse : relocated .lineStart (Document.relocate .lineStart) (Document.parse text.toList) =
      relocated .lineStart (Document.relocate .lineStart) (Document.parse text'.toList) := by
    rw [parse_relocate, parse_relocate, hlines]
  refine ⟨ha.respelled hb, sameByLine_of_relocated hlines, ?_, ?_⟩
  · have hload := loadGrammar_relocate (f := .lineStart) rfl text
    rw [hparse, ← loadGrammar_relocate rfl] at hload
    simpa using sameByLine_of_relocated hload
  · have hload := loadPhraseGrammar_relocate (f := .lineStart) rfl text
    rw [hparse, ← loadPhraseGrammar_relocate rfl] at hload
    simpa using sameByLine_of_relocated hload

/-- The word ends within the colons, and ends there with the other arrow as well. -/
theorem colonArrow_respelled : ∃ lines row ending, lexLines "S::::=b".toList = .ok lines ∧
    .lexemes row ending ∈ lines ∧ ⟨.arrow, ⟨1, 4⟩⟩ ∈ row ∧
    ArrowAt "S::".toList "::=".toList "b".toList ⟨1, 4⟩ ∧
    ∃ g, loadGrammar "S::::=b" = .ok g ∧ loadGrammar "S::->b" = .ok g := by
  obtain ⟨hplain, hnone⟩ := wordChars_eq_self_iff.1 (rfl : wordChars "S::".toList = "S::".toList)
  have hword : (Token.word "S::".toList).Spelled "S::".toList := .word (by decide) hplain hnone
  have htiles : Tiles 1 "::=b".toList 1 ("S::".toList ++ []) [⟨.word "S::".toList, ⟨1, 1⟩⟩] :=
    .lexeme hword (fun _ _ => rfl) (.nil _)
  have harrow : ArrowAt "S::".toList "::=".toList "b".toList ⟨1, 4⟩ :=
    ⟨by decide, [], _, _, rfl, endsLine_nil, by decide, by decide, rfl, htiles⟩
  obtain ⟨lines, hlines⟩ : ∃ lines, lexLines "S::::=b".toList = .ok lines :=
    exists_ok (by decide +kernel)
  obtain ⟨row, ending, hrow, hmem⟩ :=
    (arrow_respelled.1 _ lines hlines ⟨1, 4⟩).2 ⟨_, _, _, by decide, harrow⟩
  obtain ⟨g, hg⟩ : ∃ g, loadGrammar "S::::=b" = .ok g := exists_ok (by decide +kernel)
  obtain ⟨-, -, hsame, -⟩ := arrow_respelled.2 _ _ _ _ harrow "->".toList (by decide)
    "S::::=b" "S::->b" (by decide) (by decide)
  refine ⟨lines, row, ending, hlines, hrow, hmem, harrow, ?_⟩
  rcases hsame with hload | ⟨e, -, he, -⟩
  · exact hload
  · rw [hg] at he
    cases he

end Respelling

end FormalLanguage.Notation
