import FormalLanguage.Proofs.Notation.Productions

/-!
A text is read from left to right by a finite control. Main statements: the control reads a text to
its end just if the productions accept it, and it gets through some signs just if a text that is
accepted begins with them.
-/
namespace FormalLanguage.Notation

/-- Where in a line the signs so far have led. -/
inductive State where
  /-- No sign of a line yet, and no rule above that could be continued. -/
  | fresh
  /-- No sign of a line yet, below a rule that could be continued. -/
  | below
  | lhs
  /-- An alternative has to follow. -/
  | separator
  | alternative
  | directive
  | ended
deriving DecidableEq

/-- The control: where a sign leads, if it may follow. -/
def State.next : State → Category → Option State
  | .fresh, .newline => some .fresh
  | .fresh, .percent => some .directive
  | .fresh, .word => some .lhs
  | .fresh, .quoted => some .lhs
  | .fresh, .eof => some .ended
  | .below, .newline => some .fresh
  | .below, .percent => some .directive
  | .below, .word => some .lhs
  | .below, .quoted => some .lhs
  | .below, .bar => some .separator
  | .below, .eof => some .ended
  | .lhs, .word => some .lhs
  | .lhs, .quoted => some .lhs
  | .lhs, .arrow => some .separator
  | .separator, .word => some .alternative
  | .separator, .quoted => some .alternative
  | .alternative, .word => some .alternative
  | .alternative, .quoted => some .alternative
  | .alternative, .bar => some .separator
  | .alternative, .newline => some .below
  | .directive, .word => some .directive
  | .directive, .newline => some .fresh
  | _, _ => none

def State.run (st : State) (xs : List Placed) : Option State :=
  xs.foldlM (fun st x => st.next x.sign.category) st

variable {st st' : State} {parts front rest : List Part} {ts us : List Tree} {x : Placed}
  {xs ys : List Placed}

@[simp] theorem run_nil : st.run [] = some st := rfl

@[simp] theorem run_cons : st.run (x :: xs) = (st.next x.sign.category).bind (State.run · xs) := rfl

@[simp] theorem run_append : st.run (xs ++ ys) = (st.run xs).bind (State.run · ys) :=
  List.foldlM_append

section Trees

theorem Spans.append (h : Spans parts ts xs) (h' : Spans rest us ys) :
    Spans (parts ++ rest) (ts ++ us) (xs ++ ys) := by
  induction h with
  | nil => exact h'
  | leaf x _ ih => exact .leaf x ih
  | node p inner _ _ ih =>
    rw [List.append_assoc]
    exact .node p inner ih

/-- Trees for parts in a row are trees for the first of them and trees for the others. -/
theorem Spans.split (h : Spans (parts ++ rest) ts xs) : ∃ us vs ys zs,
    xs = ys ++ zs ∧ Spans parts us ys ∧ Spans rest vs zs := by
  induction parts generalizing ts xs with
  | nil => exact ⟨[], ts, [], xs, rfl, .nil, h⟩
  | cons part parts ih =>
    cases h with
    | leaf x h =>
      obtain ⟨us, vs, ys, zs, rfl, hparts, hrest⟩ := ih h
      exact ⟨_, vs, x :: ys, zs, rfl, .leaf x hparts, hrest⟩
    | node p inner h =>
      obtain ⟨us, vs, ys, zs, rfl, hparts, hrest⟩ := ih h
      exact ⟨_, vs, _, zs, (List.append_assoc ..).symm, .node p inner hparts, hrest⟩

theorem Spans.length_eq (h : Spans parts ts xs) : ts.length = parts.length := by
  induction h with
  | nil => rfl
  | leaf x _ ih => exact congrArg Nat.succ ih
  | node p _ _ _ ih => exact congrArg Nat.succ ih

theorem Spans.sign (x : Placed) : Spans [.sign x.sign.category] [.leaf x] [x] := .leaf x .nil

theorem Spans.phrase (p : Production) (inner : Spans p.parts ts xs) :
    Spans [.phrase p.phrase] [.node p ts] xs := List.append_nil xs ▸ .node p inner .nil

/-- There are trees for the parts in a row. -/
def Derivable (parts : List Part) (xs : List Placed) : Prop := ∃ ts, Spans parts ts xs

theorem accepted_iff_derivable : Accepted xs ↔ Derivable [.phrase .start] xs := by
  constructor
  · rintro ⟨t, ht⟩
    exact ⟨[t], ht⟩
  · rintro ⟨ts, hts⟩
    obtain ⟨t, rfl⟩ := List.length_eq_one_iff.1 hts.length_eq
    exact ⟨t, hts⟩

/-- One more sign on the right. -/
theorem Derivable.shift (parts : List Part) (x : Placed) (h : Derivable (front ++ parts) xs) :
    Derivable (front ++ (parts ++ [.sign x.sign.category])) (xs ++ [x]) := by
  obtain ⟨ts, hts⟩ := h
  exact ⟨_, List.append_assoc .. ▸ hts.append (.sign x)⟩

/-- The parts of a production on the right become its phrase. -/
theorem Derivable.reduce (parts : List Part) (p : Production)
    (h : Derivable (front ++ (parts ++ p.parts)) xs) :
    Derivable (front ++ (parts ++ [.phrase p.phrase])) xs := by
  obtain ⟨ts, hts⟩ := h
  rw [← List.append_assoc] at hts
  obtain ⟨us, vs, ys, zs, rfl, hfront, hinner⟩ := hts.split
  exact ⟨_, List.append_assoc .. ▸ hfront.append (.phrase p hinner)⟩

end Trees

/-- The items above a line, if there are any. -/
def Above (front : List Part) : Prop := front = [] ∨ front = [.phrase .items]

/-- What stands before the alternatives of a line. -/
inductive Leading : List Part → Prop
  | rule {front : List Part} (h : Above front) : Leading (front ++ [.phrase .lhs, .sign .arrow])
  | continuation {front : List Part} (h : Above front) :
      Leading (front ++ [.phrase .rule, .sign .bar])

/-- The alternatives of a line that are followed by a bar. -/
def Separated (parts : List Part) : Prop :=
  parts = [] ∨ parts = [.phrase .alternatives, .sign .bar]

/-- The parts that the signs have been put together to. -/
def Reached (xs : List Placed) : State → Prop
  | .fresh => ∃ front, Above front ∧ Derivable front xs
  | .below => ∃ front, Above front ∧ Derivable (front ++ [.phrase .rule]) xs
  | .lhs => ∃ front, Above front ∧ Derivable (front ++ [.phrase .lhs]) xs
  | .separator => ∃ front parts, Leading front ∧ Separated parts ∧ Derivable (front ++ parts) xs
  | .alternative => ∃ front parts, Leading front ∧ Separated parts ∧
      Derivable (front ++ (parts ++ [.phrase .alternative])) xs
  | .directive => ∃ front, Above front ∧ Derivable (front ++ [.phrase .directive]) xs
  | .ended => Derivable [.phrase .start] xs

theorem Derivable.symbol (parts : List Part) (h : Derivable (front ++ parts) xs)
    (hx : x.sign.category = .word ∨ x.sign.category = .quoted) :
    Derivable (front ++ (parts ++ [.phrase .symbol])) (xs ++ [x]) := by
  have hshift := h.shift parts x
  rcases hx with hx | hx <;> rw [hx] at hshift
  · exact hshift.reduce parts .symbolWord
  · exact hshift.reduce parts .symbolQuoted

theorem reached_fresh_of_item (hfront : Above front) (h : Derivable (front ++ [.phrase .item]) xs) :
    Reached xs .fresh := by
  obtain rfl | rfl := hfront
  · exact ⟨_, .inr rfl, @Derivable.reduce [] xs [] .itemsOne h⟩
  · exact ⟨_, .inr rfl, @Derivable.reduce [] xs [] .itemsMore h⟩

/-- The alternatives up to here are put together to one part. -/
theorem Derivable.alternatives (hparts : Separated parts)
    (h : Derivable (front ++ (parts ++ [.phrase .alternative])) xs) :
    Derivable (front ++ [.phrase .alternatives]) xs := by
  obtain rfl | rfl := hparts
  · exact h.reduce [] .alternativesOne
  · exact h.reduce [] .alternativesMore

/-- At the start of a line, the rule above is closed unless the line continues it. -/
theorem Reached.close (h : Reached xs .below) : Reached xs .fresh := by
  obtain ⟨front, hfront, h⟩ := h
  exact reached_fresh_of_item hfront (h.reduce [] .itemRule)

theorem Reached.fresh_step (h : Reached xs .fresh)
    (hnext : State.fresh.next x.sign.category = some st') : Reached (xs ++ [x]) st' := by
  obtain ⟨front, hfront, h⟩ := h
  rw [← List.append_nil front] at h
  have hshift := h.shift [] x
  cases hcat : x.sign.category <;> rw [hcat] at hnext hshift <;> cases hnext
  case word => exact ⟨front, hfront, (h.symbol [] (.inl hcat)).reduce [] .lhsOne⟩
  case quoted => exact ⟨front, hfront, (h.symbol [] (.inr hcat)).reduce [] .lhsOne⟩
  case newline => exact reached_fresh_of_item hfront (hshift.reduce [] .itemNewline)
  case percent => exact ⟨front, hfront, hshift.reduce [] .directiveOne⟩
  case eof =>
    obtain rfl | rfl := hfront
    · exact @Derivable.reduce [] _ [] .startEmpty hshift
    · exact @Derivable.reduce [] _ [] .startItems hshift

theorem Reached.below_step (h : Reached xs .below)
    (hnext : State.below.next x.sign.category = some st') : Reached (xs ++ [x]) st' := by
  by_cases hcat : x.sign.category = .bar
  · obtain ⟨front, hfront, h⟩ := h
    have hshift := h.shift _ x
    rw [hcat] at hnext hshift
    cases hnext
    exact ⟨_, [], .continuation hfront, .inl rfl, (List.append_nil _).symm ▸ hshift⟩
  · refine h.close.fresh_step (hnext ▸ ?_)
    cases hcat' : x.sign.category <;> first | rfl | exact absurd hcat' hcat

theorem Reached.lhs_step (h : Reached xs .lhs)
    (hnext : State.lhs.next x.sign.category = some st') : Reached (xs ++ [x]) st' := by
  obtain ⟨front, hfront, h⟩ := h
  have hshift := h.shift _ x
  cases hcat : x.sign.category <;> rw [hcat] at hnext hshift <;> cases hnext
  case word => exact ⟨front, hfront, (h.symbol _ (.inl hcat)).reduce [] .lhsMore⟩
  case quoted => exact ⟨front, hfront, (h.symbol _ (.inr hcat)).reduce [] .lhsMore⟩
  case arrow => exact ⟨_, [], .rule hfront, .inl rfl, (List.append_nil _).symm ▸ hshift⟩

theorem Reached.separator_step (h : Reached xs .separator)
    (hnext : State.separator.next x.sign.category = some st') : Reached (xs ++ [x]) st' := by
  obtain ⟨front, parts, hfront, hparts, h⟩ := h
  cases hcat : x.sign.category <;> rw [hcat] at hnext <;> cases hnext
  case word =>
    exact ⟨front, parts, hfront, hparts, (h.symbol _ (.inl hcat)).reduce parts .alternativeOne⟩
  case quoted =>
    exact ⟨front, parts, hfront, hparts, (h.symbol _ (.inr hcat)).reduce parts .alternativeOne⟩

theorem Reached.alternative_step (h : Reached xs .alternative)
    (hnext : State.alternative.next x.sign.category = some st') : Reached (xs ++ [x]) st' := by
  obtain ⟨front, parts, hfront, hparts, h⟩ := h
  have hshift := (h.alternatives hparts).shift _ x
  cases hcat : x.sign.category <;> rw [hcat] at hnext hshift <;> cases hnext
  case word =>
    have hsymbol := h.symbol _ (.inl hcat)
    rw [List.append_assoc] at hsymbol
    exact ⟨front, parts, hfront, hparts, hsymbol.reduce parts .alternativeMore⟩
  case quoted =>
    have hsymbol := h.symbol _ (.inr hcat)
    rw [List.append_assoc] at hsymbol
    exact ⟨front, parts, hfront, hparts, hsymbol.reduce parts .alternativeMore⟩
  case bar => exact ⟨front, _, hfront, .inr rfl, hshift⟩
  case newline =>
    cases hfront with
    | rule hfront =>
      rw [List.append_assoc] at hshift
      exact ⟨_, hfront, hshift.reduce [] .ruleArrow⟩
    | continuation hfront =>
      rw [List.append_assoc] at hshift
      exact ⟨_, hfront, hshift.reduce [] .ruleBar⟩

theorem Reached.directive_step (h : Reached xs .directive)
    (hnext : State.directive.next x.sign.category = some st') : Reached (xs ++ [x]) st' := by
  obtain ⟨front, hfront, h⟩ := h
  have hshift := h.shift _ x
  cases hcat : x.sign.category <;> rw [hcat] at hnext hshift <;> cases hnext
  case word => exact ⟨front, hfront, hshift.reduce [] .directiveMore⟩
  case newline => exact reached_fresh_of_item hfront (hshift.reduce [] .itemDirective)

/-- One more sign: what is complete is put together. -/
theorem Reached.step (h : Reached xs st) (hnext : st.next x.sign.category = some st') :
    Reached (xs ++ [x]) st' := by
  cases st with
  | fresh => exact h.fresh_step hnext
  | below => exact h.below_step hnext
  | lhs => exact h.lhs_step hnext
  | separator => exact h.separator_step hnext
  | alternative => exact h.alternative_step hnext
  | directive => exact h.directive_step hnext
  | ended => cases hnext

theorem Reached.run (h : Reached xs st) (hrun : st.run ys = some st') : Reached (xs ++ ys) st' := by
  induction ys generalizing xs st with
  | nil =>
    cases hrun
    rwa [List.append_nil]
  | cons y ys ih =>
    rw [run_cons, Option.bind_eq_some_iff] at hrun
    obtain ⟨st'', hnext, hrun⟩ := hrun
    rw [← List.singleton_append, ← List.append_assoc]
    exact ih (h.step hnext) hrun

theorem accepted_of_run (h : State.fresh.run xs = some .ended) : Accepted xs := by
  have hinitial : Reached [] .fresh := ⟨[], .inl rfl, [], .nil⟩
  have hended : Reached ([] ++ xs) .ended := hinitial.run h
  exact accepted_iff_derivable.2 hended

section Lines

variable {first w : Written} {others ws : List Written} {row : List Lexeme} {s : Sequence}
  {ss : List Sequence} {line : Line} {lines : List Line} {above y : Layout} {layouts : List Layout}

/-- A symbol leads from the first state to the second. -/
def State.Takes (st st' : State) : Prop :=
  st.next .word = some st' ∧ st.next .quoted = some st'

theorem next_symbol (h : st.Takes st') (w : Written) :
    st.next w.lexeme.placed.sign.category = some st' := by
  obtain ⟨text, quoted, position⟩ := w
  cases quoted with
  | false => exact h.1
  | true => exact h.2

theorem run_symbols (h : st.Takes st) (ws : List Written) :
    st.run ((ws.map Written.lexeme).map Lexeme.placed) = some st := by
  induction ws with
  | nil => rfl
  | cons w ws ih => rw [List.map_cons, List.map_cons, run_cons, next_symbol h, Option.bind_some, ih]

theorem run_sequence (h : st.Takes st') (h' : st'.Takes st') (first : Written)
    (others : List Written) :
    st.run ((Sequence.ofSymbols first others).lexemes.map Lexeme.placed) = some st' := by
  rw [lexemes_ofSymbols, List.map_cons, run_cons, next_symbol h, Option.bind_some, run_symbols h']

theorem run_barred (h : Barred row ss) :
    State.separator.run (row.map Lexeme.placed) = some .alternative := by
  induction h with
  | last hs =>
    obtain ⟨first, others, rfl⟩ := hs
    exact run_sequence ⟨rfl, rfl⟩ ⟨rfl, rfl⟩ first others
  | more hs position rest ih =>
    obtain ⟨first, others, rfl⟩ := hs
    rw [List.map_append, run_append, run_sequence ⟨rfl, rfl⟩ ⟨rfl, rfl⟩ first others]
    exact ih

theorem run_arguments (arguments : List Named) :
    State.directive.run (arguments.map Named.placed) = some .directive := by
  induction arguments with
  | nil => rfl
  | cons n arguments ih => exact ih

/-- Where a line leads. -/
def Layout.state (y : Layout) : State := if y.isOpen then .below else .fresh

theorem Layout.state_cases (y : Layout) : y.state = .below ∨ y.state = .fresh := by
  cases hopen : y.isOpen <;> simp [Layout.state, hopen]

theorem Layout.state_takes (y : Layout) : y.state.Takes .lhs := by
  rcases y.state_cases with h | h <;> rw [h] <;> exact ⟨rfl, rfl⟩

theorem run_line (h : line.HasForm y) (hfollows : Layout.Follows above y) :
    above.state.run line.signs = some y.state := by
  cases h with
  | blank ending => rcases above.state_cases with h | h <;> rw [h] <;> rfl
  | directive name arguments ending =>
    have hrest : State.directive.run (arguments.map Named.placed ++ [⟨.newline, ending⟩]) =
        some .fresh := by
      rw [run_append, run_arguments]
      rfl
    rcases above.state_cases with h | h <;> rw [h] <;> exact hrest
  | rule hlhs arrow rest ending =>
    obtain ⟨first, others, rfl⟩ := hlhs
    rw [Line.signs, List.map_append, List.append_assoc, run_append,
      run_sequence above.state_takes ⟨rfl, rfl⟩ first others, List.map_cons, Option.bind_some,
      List.cons_append, run_cons]
    change State.separator.run _ = _
    rw [run_append, run_barred rest]
    rfl
  | continuation bar rest ending =>
    have hstate : above.state = .below := if_pos (hfollows rfl)
    rw [hstate, Line.signs, List.map_cons, List.cons_append, run_cons]
    change State.separator.run _ = _
    rw [run_append, run_barred rest]
    rfl

theorem run_lines (h : ReadAs above lines layouts) :
    ∃ y : Layout, above.state.run (lines.flatMap Line.signs) = some y.state := by
  obtain ⟨hforms, hchain⟩ := h
  induction hforms generalizing above with
  | nil => exact ⟨above, rfl⟩
  | cons hform _ ih =>
    obtain ⟨hfollows, hbelow⟩ := List.isChain_cons_cons.1 hchain
    obtain ⟨y, hy⟩ := ih hbelow
    exact ⟨y, by rw [List.flatMap_cons, run_append, run_line hform hfollows, Option.bind_some, hy]⟩

/-- Lines with forms in order are read to the end of their text. -/
theorem run_of_readAs (h : ReadAs .blank lines layouts) (position : Position) :
    State.fresh.run (lines.flatMap Line.signs ++ [⟨.eof, position⟩]) = some .ended := by
  obtain ⟨y, hy⟩ := run_lines h
  rw [run_append]
  change (Layout.blank.state.run _).bind _ = _
  rcases y.state_cases with hstate | hstate <;> rw [hy, hstate] <;> rfl

end Lines

/-- The control reads to its end just what the productions accept. -/
theorem accepted_iff_run : Accepted xs ↔ State.fresh.run xs = some .ended := by
  constructor
  · rintro ⟨t, ht⟩
    obtain ⟨lines, layouts, position, rfl, hread, -⟩ := means_of_treeOf ht
    exact run_of_readAs hread position
  · exact accepted_of_run

/-- Wherever the control is, it can come to its end. -/
theorem exists_completion (st : State) : ∃ ys, st.run ys = some .ended := by
  let sign (x : Sign) : Placed := ⟨x, ⟨1, 1⟩⟩
  let word := sign (.token (.word []))
  let rest := [sign .newline, sign .eof]
  cases st with
  | fresh => exact ⟨[sign .eof], rfl⟩
  | below => exact ⟨[sign .eof], rfl⟩
  | lhs => exact ⟨sign (.token .arrow) :: word :: rest, rfl⟩
  | separator => exact ⟨word :: rest, rfl⟩
  | alternative => exact ⟨rest, rfl⟩
  | directive => exact ⟨rest, rfl⟩
  | ended => exact ⟨[], rfl⟩

/-- The control gets through the signs just if a text that is accepted begins with them. -/
theorem exists_accepted_iff :
    (∃ rest, Accepted (xs ++ rest)) ↔ ∃ st, State.fresh.run xs = some st := by
  simp only [accepted_iff_run, run_append, Option.bind_eq_some_iff]
  constructor
  · rintro ⟨rest, st, hst, -⟩
    exact ⟨st, hst⟩
  · rintro ⟨st, hst⟩
    obtain ⟨rest, hrest⟩ := exists_completion st
    exact ⟨rest, st, hst, hrest⟩

end FormalLanguage.Notation
