import FormalLanguage.Notation.Productions
import FormalLanguage.Proofs.Notation.Relocation

/-!
Where reports point. Main statement: a text that is not loaded is reported at the beginning of a lexeme
in one of its lines, at the end of a line, or at the quote that opens a literal, unless all that is
missing is a start symbol.
-/
namespace FormalLanguage.Notation

variable {α : Type} {c : Char} {cs l : List Char} {n line col : Nat} {f : Position → Position}
  {P : Position → Prop} {p : Position} {e : LoadError} {lines : List Line} {d : Document}

section Blame

/-- The positions are left where they are. -/
def Fixes (f : Position → Position) (P : Position → Prop) : Prop := ∀ p, P p → f p = p

/-- What stays in its place with certain positions, wherever all others are taken, is one of these. -/
theorem of_fixed (h : ∀ f, Fixes f P → f p = p) : P p := by
  classical
  by_contra hp
  let away : Position → Position := fun p => if P p then p else ⟨p.line + 1, p.col⟩
  have hfixed : away p = p := h away fun p hp => if_pos hp
  have hmoved : (away p).line = p.line + 1 := congrArg Position.line (if_neg hp)
  rw [hfixed] at hmoved
  exact Nat.succ_ne_self _ hmoved.symm

/-- A result that stays the same when other positions are taken elsewhere has none of these. -/
theorem endsIn_of_relocated {k : (Position → Position) → α → α} {x : Except LoadError α}
    (h : ∀ f, Fixes f P → relocated f (k f) x = x) :
    EndsIn x (fun a => ∀ f, Fixes f P → k f a = a) fun e => P e.position := by
  constructor
  · rintro a rfl f hf
    exact Except.ok.inj (h f hf)
  · rintro e rfl
    refine of_fixed fun f hf => ?_
    exact congrArg LoadError.position (Except.error.inj (h f hf))

/-- A sign of the lines stands here. -/
def SignAt (lines : List Line) (p : Position) : Prop :=
  ∃ line ∈ lines, ∃ x ∈ line.signs, x.position = p

theorem map_relocate_eq_self {k : α → α} {xs : List α} (h : ∀ x ∈ xs, k x = x) : xs.map k = xs :=
  (List.map_congr_left h).trans (List.map_id xs)

theorem relocate_line {line : Line} (h : ∀ x ∈ line.signs, f x.position = x.position) :
    line.relocate f = line := by
  cases line with
  | directive name arguments ending =>
    simp only [Line.signs, List.forall_mem_cons, List.forall_mem_append, List.forall_mem_map] at h
    obtain ⟨hname, harguments, hending, -⟩ := h
    have hsame : arguments.map (Named.relocate f) = arguments :=
      map_relocate_eq_self fun n hn => congrArg (Named.mk n.text) (harguments n hn)
    have hname' : name.relocate f = name := congrArg (Named.mk name.text) hname
    rw [Line.relocate, hsame, hname', hending]
  | lexemes row ending =>
    simp only [Line.signs, List.forall_mem_cons, List.forall_mem_append, List.forall_mem_map] at h
    obtain ⟨hrow, hending, -⟩ := h
    have hsame : row.map (Lexeme.relocate f) = row :=
      map_relocate_eq_self fun x hx => congrArg (Lexeme.mk x.token) (hrow x hx)
    rw [Line.relocate, hsame, hending]

theorem relocate_lines (hf : Fixes f (SignAt lines)) : lines.map (Line.relocate f) = lines :=
  map_relocate_eq_self fun line hline => relocate_line fun x hx => hf _ ⟨line, hline, x, hx, rfl⟩

/-- The document has no other positions than these. -/
def Document.Within (d : Document) (P : Position → Prop) : Prop :=
  ∀ f, Fixes f P → d.relocate f = d

/-- The document of some lines has their positions, or one of these is at fault. -/
theorem endsIn_document (lines : List Line) :
    EndsIn (itemsFrom none lines >>= fun items => items.foldlM Document.addItem {})
      (fun d => d.Within (SignAt lines)) fun e => SignAt lines e.position := by
  refine endsIn_of_relocated fun f hf => ?_
  rw [← document_relocate, relocate_lines hf]

/-- A report on a document, if it is not that no start symbol is known, is about one of its positions. -/
def Blames (P : Position → Prop) (e : LoadError) : Prop :=
  e = ⟨.noStart, ⟨1, 1⟩⟩ ∨ P e.position

theorem endsIn_blames {x : Except LoadError α} (h : ∀ f, Fixes f P → x = relocated f id x) :
    EndsIn x (fun _ => True) (Blames P) := by
  have hx : EndsIn x (fun a => ∀ f, Fixes f P → id a = a) fun e => P e.position :=
    endsIn_of_relocated (k := fun _ => id) fun f hf => (h f hf).symm
  exact ⟨fun _ _ => trivial, fun e he => .inr (hx.of_error e he)⟩

theorem endsIn_declare (hd : d.Within P) (singleNames : Bool) :
    EndsIn (declare d singleNames) (fun _ => True) (Blames P) :=
  endsIn_blames fun f hf => by rw [← declare_relocate, hd f hf]

theorem Document.Within.rules (hd : d.Within P) (hf : Fixes f P) :
    d.rules.map (WrittenRule.relocate f) = d.rules :=
  congrArg Document.rules (hd f hf)

theorem endsIn_bindStart (hd : d.Within P) (first : Option NonTerminal) (v : Vocabulary) :
    EndsIn (bindStart d first v) (fun _ => True) (Blames P) := by
  unfold bindStart
  cases hstart : d.start with
  | some named =>
    refine endsIn_blames fun f hf => ?_
    have hstart' : (d.relocate f).start = some named := by rw [hd f hf, hstart]
    rw [Document.relocate, hstart, Option.map_some, Option.some.injEq] at hstart'
    have hposition : f named.position = named.position := congrArg Named.position hstart'
    have hbind := @bindNonTerminal_relocate f v named.text named.position
    rw [hposition] at hbind
    exact hbind
  | none =>
    cases first with
    | some n => exact .ok trivial
    | none =>
      constructor
      · rintro q ⟨⟩
      · rintro e ⟨⟩
        exact .inl rfl

theorem endsIn_grammar (hd : d.Within P) : EndsIn d.grammar (fun _ => True) (Blames P) := by
  refine (endsIn_declare hd true).bind fun v _ _ => ?_
  refine EndsIn.bind (P := fun _ => True) ?_ fun q _ _ => ?_
  · exact endsIn_blames fun f hf => by rw [← loadRules_relocate, hd.rules hf]
  · exact (endsIn_bindStart hd _ _).bind fun _ _ _ => .ok trivial

theorem endsIn_phraseGrammar (hd : d.Within P) :
    EndsIn d.phraseGrammar (fun _ => True) (Blames P) := by
  refine (endsIn_declare hd false).bind fun v _ _ => ?_
  refine EndsIn.bind (P := fun _ => True) ?_ fun q _ _ => ?_
  · exact endsIn_blames fun f hf => by rw [← loadPhraseRules_relocate, hd.rules hf]
  · exact (endsIn_bindStart hd _ _).bind fun _ _ _ => .ok trivial

end Blame

section Columns

/--
A word of a directive line: it goes from the beginning of the line or a blank to a blank, a comment or
the end of the line, and no comment has begun before.
-/
structure WordAt (front word rest : List Char) : Prop where
  ne_nil : word ≠ []
  plain : ∀ c ∈ word, isBlank c = false ∧ c ≠ '#'
  uncommented : '#' ∉ front
  begins : ∀ c, front.getLast? = some c → isBlank c = true
  ends : ∀ c, rest.head? = some c → isBlank c = true ∨ c = '#'

/-- A lexeme of the line begins in this column. -/
inductive BeginsLexeme (line : Nat) (l : List Char) : Nat → Prop
  | word {front word rest : List Char} (hl : l = front ++ (word ++ rest))
      (hdirective : isDirective l = true) (hword : WordAt front word rest) :
      BeginsLexeme line l (front.length + 1)
  | token {front spelling rest : List Char} {row : List Lexeme} {x : Lexeme}
      (hl : l = front ++ (spelling ++ rest)) (hrules : isDirective l = false)
      (hrow : Tiled line l row) (hx : x ∈ row) (hs : x.token.Spelled spelling)
      (hp : x.position = ⟨line, front.length + 1⟩) : BeginsLexeme line l (front.length + 1)

/-- A literal is opened in this column: there stands a quote behind other lexemes and blanks. -/
inductive OpensLiteral (line : Nat) (l : List Char) : Nat → Prop
  | intro {front rest : List Char} {row : List Lexeme} (hl : l = front ++ '"' :: rest)
      (hrules : isDirective l = false) (hfront : Tiles line ('"' :: rest) 1 front row) :
      OpensLiteral line l (front.length + 1)

/-- The characters of a word that has begun. -/
def moreOfWord (cs : List Char) : List Char := cs.takeWhile fun d => !isBlank d && d ≠ '#'

theorem plain_of_mem_moreOfWord (h : c ∈ moreOfWord cs) : isBlank c = false ∧ c ≠ '#' := by
  simpa using List.mem_takeWhile_imp h

theorem moreOfWord_cons : moreOfWord (c :: cs) =
    if isBlank c = false ∧ c ≠ '#' then c :: moreOfWord cs else [] := by
  rw [moreOfWord, List.takeWhile_cons, moreOfWord]
  simp

/-- A word ends with a blank, a comment or the line. -/
theorem ends_moreOfWord (h : (cs.drop (moreOfWord cs).length).head? = some c) :
    isBlank c = true ∨ c = '#' := by
  induction cs with
  | nil => cases h
  | cons d cs ih =>
    rw [moreOfWord_cons] at h
    split_ifs at h with hplain
    · exact ih h
    · cases h
      simpa [or_iff_not_imp_left] using hplain

theorem moreOfWord_append_drop (cs : List Char) :
    moreOfWord cs ++ cs.drop (moreOfWord cs).length = cs := by
  have hbegin : moreOfWord cs <+: cs := List.takeWhile_prefix _
  rw [List.prefix_iff_eq_take.1 hbegin, List.length_take_of_le hbegin.length_le,
    List.take_append_drop]

/-- A word is one also behind other characters. -/
theorem WordAt.behind {front word rest first : List Char} (h : WordAt front word rest)
    (hfirst : '#' ∉ first) (hbegins : front = [] → ∀ c, first.getLast? = some c → isBlank c = true) :
    WordAt (first ++ front) word rest where
  ne_nil := h.ne_nil
  plain := h.plain
  uncommented := by simp [hfirst, h.uncommented]
  begins c hc := by
    by_cases hfront : front = []
    · rw [hfront, List.append_nil] at hc
      exact hbegins hfront c hc
    · rw [List.getLast?_append_of_ne_nil first hfront] at hc
      exact h.begins c hc
  ends := h.ends

/-- Where a word has ended, none begins. -/
theorem WordAt.front_ne_nil {front word rest : List Char} (h : WordAt front word rest)
    (hends : ∀ c, (front ++ (word ++ rest)).head? = some c → isBlank c = true ∨ c = '#') :
    front ≠ [] := by
  rintro rfl
  obtain ⟨c, more, rfl⟩ := List.exists_cons_of_ne_nil h.ne_nil
  obtain ⟨hblank, hcomment⟩ := h.plain c List.mem_cons_self
  rcases hends c rfl with hc | hc
  · exact Bool.false_ne_true (hblank.symm.trans hc)
  · exact hcomment hc

theorem scanWords_word (hblank : isBlank c = false) (hcomment : c ≠ '#') :
    scanWords line 0 col (c :: cs) =
      ⟨c :: moreOfWord cs, ⟨line, col⟩⟩ :: scanWords line (moreOfWord cs).length (col + 1) cs := by
  rw [scanWords, if_neg (Bool.eq_false_iff.1 hblank), if_neg hcomment]
  rfl

/-- What is read as a word is one. -/
theorem exists_wordAt {w : Named} (h : w ∈ scanWords line n col cs) : ∃ front rest,
    cs.drop n = front ++ (w.text ++ rest) ∧ w.position = ⟨line, col + n + front.length⟩ ∧
      WordAt front w.text rest := by
  -- `n` counts the characters that still belong to the word before
  induction cs generalizing n col with
  | nil => cases n <;> cases h
  | cons c cs ih =>
    cases n with
    | succ n =>
      obtain ⟨front, rest, heq, hp, hword⟩ := ih h
      have hcol : col + 1 + n + front.length = col + (n + 1) + front.length := by omega
      exact ⟨front, rest, heq, hcol ▸ hp, hword⟩
    | zero =>
      by_cases hblank : isBlank c = true
      · rw [scanWords, if_pos hblank] at h
        obtain ⟨front, rest, heq, hp, hword⟩ := ih h
        have hcol : col + 1 + 0 + front.length = col + 0 + ([c] ++ front).length := by simp; omega
        refine ⟨[c] ++ front, rest, congrArg (c :: ·) heq, hcol ▸ hp, hword.behind ?_ ?_⟩
        · intro hmem
          cases List.mem_singleton.1 hmem
          cases hblank
        · rintro - d ⟨⟩
          exact hblank
      · rw [Bool.not_eq_true] at hblank
        by_cases hcomment : c = '#'
        · subst hcomment
          cases h
        · rw [scanWords_word hblank hcomment, List.mem_cons] at h
          have hplain : ∀ d ∈ c :: moreOfWord cs, isBlank d = false ∧ d ≠ '#' :=
            List.forall_mem_cons.2 ⟨⟨hblank, hcomment⟩, fun d => plain_of_mem_moreOfWord⟩
          have hall : c :: cs = c :: moreOfWord cs ++ cs.drop (moreOfWord cs).length :=
            congrArg (c :: ·) (moreOfWord_append_drop cs).symm
          rcases h with rfl | h
          · exact ⟨[], _, hall, rfl, List.cons_ne_nil _ _, hplain, List.not_mem_nil,
              by rintro d ⟨⟩, fun d => ends_moreOfWord⟩
          · obtain ⟨front, rest, heq, hp, hword⟩ := ih h
            have hcol : col + 1 + (moreOfWord cs).length + front.length =
                col + 0 + (c :: moreOfWord cs ++ front).length := by simp; omega
            refine ⟨c :: moreOfWord cs ++ front, rest, ?_, hcol ▸ hp, hword.behind ?_ ?_⟩
            · rw [List.drop_zero, hall, heq, List.append_assoc]
            · exact fun hmem => (hplain _ hmem).2 rfl
            · intro hnil
              exact absurd hnil (hword.front_ne_nil fun d hd => ends_moreOfWord (heq ▸ hd))

/-- Behind the quote of a line that cannot be read stand lexemes only. -/
theorem opensLiteral_of_scanLine (h : scanLine line l = .error e) : e.position.line = line ∧
    (e.reason = .unterminatedLiteral ∨ e.reason = .emptyLiteral) ∧
      OpensLiteral line l e.position.col := by
  cases hdirective : isDirective l with
  | true =>
    obtain ⟨name, arguments, -, hline⟩ := @scanLine_of_isDirective line l hdirective
    rw [hline] at h
    cases h
  | false =>
    rw [scanLine_of_not_isDirective hdirective, map_eq_error_iff] at h
    obtain ⟨front, rest, row, heq, hreason, htiles, hp⟩ := exists_quote_of_scan h
    rw [hp]
    refine ⟨rfl, hreason, ?_⟩
    rw [Nat.add_comm (1 + 0)]
    exact .intro heq hdirective htiles

/-- The signs of a line stand where its lexemes begin, and the last where it ends. -/
theorem beginsLexeme_of_scanLine {x : Line} {y : Placed} (h : scanLine line l = .ok x)
    (hy : y ∈ x.signs) : y.position.line = line ∧
      (BeginsLexeme line l y.position.col ∨ y.position.col = l.length + 1) := by
  cases hdirective : isDirective l with
  | true =>
    obtain ⟨name, arguments, hwords, hline⟩ := @scanLine_of_isDirective line l hdirective
    rw [hline] at h
    cases h
    have hword : ∀ w ∈ name :: arguments,
        w.position.line = line ∧ BeginsLexeme line l w.position.col := by
      intro w hw
      obtain ⟨front, rest, heq, hp, hword⟩ := exists_wordAt (hwords ▸ hw)
      rw [hp]
      refine ⟨rfl, ?_⟩
      rw [Nat.add_comm (1 + 0)]
      exact .word heq hdirective hword
    rw [Line.signs, List.mem_cons, List.mem_append, List.mem_map, List.mem_singleton] at hy
    rcases hy with rfl | ⟨w, hw, rfl⟩ | rfl
    · exact (hword name List.mem_cons_self).imp_right .inl
    · exact (hword w (List.mem_cons_of_mem name hw)).imp_right .inl
    · exact ⟨rfl, .inr rfl⟩
  | false =>
    rw [scanLine_of_not_isDirective hdirective, map_eq_ok_iff] at h
    obtain ⟨row, hrow, rfl⟩ := h
    rw [Line.signs, List.mem_append, List.mem_map, List.mem_singleton] at hy
    rcases hy with ⟨z, hz, rfl⟩ | rfl
    · have htiled : Tiled line l row := scan_eq_ok_iff.1 hrow
      obtain ⟨inner, tail, heq, -, htiles⟩ := htiled
      obtain ⟨before, after, rfl⟩ := List.append_of_mem hz
      obtain ⟨front, spelling, rest, rfl, hs, hp, -⟩ := htiles.exists_at
      rw [List.append_assoc, List.append_assoc] at heq
      have hposition : z.placed.position = ⟨line, front.length + 1⟩ := by
        rw [Nat.add_comm]
        exact hp
      rw [hposition]
      refine ⟨rfl, .inl (.token heq hdirective (scan_eq_ok_iff.1 hrow) hz hs ?_)⟩
      exact hposition
    · exact ⟨rfl, .inr rfl⟩

end Columns

section Texts

variable {texts : List (List Char)}

theorem exists_scanLine_of_error (h : scanLines n texts = .error e) :
    ∃ i l, texts[i]? = some l ∧ scanLine (n + i) l = .error e := by
  induction texts generalizing n with
  | nil => cases h
  | cons l texts ih =>
    rcases bind_eq_error_iff.1 h with hfirst | ⟨x, -, h⟩
    · exact ⟨0, l, rfl, hfirst⟩
    · rcases bind_eq_error_iff.1 h with hrest | ⟨xs, -, h⟩
      · obtain ⟨i, l', hl', hscan⟩ := ih hrest
        rw [Nat.add_right_comm, Nat.add_assoc] at hscan
        exact ⟨i + 1, l', hl', hscan⟩
      · cases h

/-- The signs of a text stand on its lines. -/
theorem exists_line_of_signAt (h : scanLines 1 texts = .ok lines) (hp : SignAt lines p) :
    ∃ i l, texts[i]? = some l ∧ p.line = i + 1 ∧
      (BeginsLexeme (i + 1) l p.col ∨ p.col = l.length + 1) := by
  obtain ⟨x, hx, y, hy, rfl⟩ := hp
  obtain ⟨above, below, rfl⟩ := List.append_of_mem hx
  obtain ⟨before, l, after, rfl, -, hline⟩ := scanLines_eq_ok_append h
  rw [Nat.add_comm] at hline
  exact ⟨before.length, l, by simp, beginsLexeme_of_scanLine hline hy⟩

/-- Where a text is not read, a literal is opened. -/
theorem exists_line_of_error (h : scanLines 1 texts = .error e) : ∃ i l, texts[i]? = some l ∧
    e.position.line = i + 1 ∧ (e.reason = .unterminatedLiteral ∨ e.reason = .emptyLiteral) ∧
      OpensLiteral (i + 1) l e.position.col := by
  obtain ⟨i, l, hl, hline⟩ := exists_scanLine_of_error h
  rw [Nat.add_comm] at hline
  exact ⟨i, l, hl, opensLiteral_of_scanLine hline⟩

/-- A text that is not loaded is at fault where it cannot be read, or at one of its signs. -/
theorem error_cases {load : Document → Except LoadError α} {text : List Char}
    (hload : ∀ d P, d.Within P → EndsIn (load d) (fun _ => True) (Blames P))
    (h : Document.parse text >>= load = .error e) : lexLines text = .error e ∨
      ∃ lines, lexLines text = .ok lines ∧ Blames (SignAt lines) e := by
  rw [bind_eq_error_iff] at h
  rcases h with hparse | ⟨d, hparse, hd⟩
  · rcases bind_eq_error_iff.1 hparse with hread | ⟨lines, hlines, hdocument⟩
    · exact .inl hread
    · exact .inr ⟨lines, hlines, .inr ((endsIn_document lines).of_error e hdocument)⟩
  · obtain ⟨lines, hlines, hdocument⟩ := bind_eq_ok_iff.1 hparse
    exact .inr ⟨lines, hlines, (hload d _ ((endsIn_document lines).of_ok d hdocument)).of_error e hd⟩

/--
A text that is not loaded is reported at a place in it. The line is one of its lines, and the column is
that of the quote of a literal that cannot be read, of the beginning of a lexeme, or of the end of the
line. Only that there is no start symbol is reported at the beginning of the text, whatever stands there.
-/
theorem report_points_into_text (text : String) (e : LoadError)
    (h : loadGrammar text = .error e ∨ loadPhraseGrammar text = .error e) :
    e = ⟨.noStart, ⟨1, 1⟩⟩ ∨ ∃ i l, (splitLines text.toList)[i]? = some l ∧ e.position.line = i + 1 ∧
      ((e.reason = .unterminatedLiteral ∨ e.reason = .emptyLiteral) ∧
          OpensLiteral (i + 1) l e.position.col ∨
        BeginsLexeme (i + 1) l e.position.col ∨ e.position.col = l.length + 1) := by
  have hcases : lexLines text.toList = .error e ∨
      ∃ lines, lexLines text.toList = .ok lines ∧ Blames (SignAt lines) e := by
    rcases h with h | h
    · exact error_cases (fun d P => endsIn_grammar) h
    · exact error_cases (fun d P => endsIn_phraseGrammar) h
  rcases hcases with hread | ⟨lines, hlines, hstart | hsign⟩
  · obtain ⟨i, l, hl, hline, hopens⟩ := exists_line_of_error hread
    exact .inr ⟨i, l, hl, hline, .inl hopens⟩
  · exact .inl hstart
  · obtain ⟨i, l, hl, hline, hmarked⟩ := exists_line_of_signAt hlines hsign
    exact .inr ⟨i, l, hl, hline, .inr hmarked⟩

/-- An undeclared name in the second line of a rule, behind a literal. -/
def undeclaredText : String := "%terminals a ab\nS -> a S\n   | ab \"a\" b # b"

theorem undeclaredText_report : ∃ l, (splitLines undeclaredText.toList)[2]? = some l ∧
    loadGrammar undeclaredText = .error ⟨.undeclaredTerminal "b", ⟨3, 13⟩⟩ ∧
      BeginsLexeme 3 l 13 := by
  have herror : loadGrammar undeclaredText = .error ⟨.undeclaredTerminal "b", ⟨3, 13⟩⟩ := by
    decide +kernel
  have hreport := report_points_into_text undeclaredText _ (.inl herror)
  obtain ⟨i, l, hl, hline, hcol⟩ := hreport.resolve_left (by decide)
  have hi : i = 2 := (Nat.succ.inj hline).symm
  subst hi
  refine ⟨l, hl, herror, ?_⟩
  have hlength : l.length = 17 := by
    have hlengths : (splitLines undeclaredText.toList)[2]?.map List.length = some 17 := by
      decide +kernel
    simpa [hl] using hlengths
  rcases hcol with ⟨hreason, -⟩ | hbegins | hend
  · exact absurd hreason (by decide)
  · exact hbegins
  · exact absurd hend (by rw [hlength]; decide)

end Texts

end FormalLanguage.Notation
