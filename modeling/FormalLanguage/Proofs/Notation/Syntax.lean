import FormalLanguage.Proofs.Notation.Prefix
import FormalLanguage.Proofs.Notation.Scanning

/-!
What is reported for a text that has no items. Main statement: the report is about the first sign
after which no text could be accepted, and whatever recognizes the productions finds the same items
or refuses the same sign.
-/
namespace FormalLanguage.Notation

variable {st st' : State} {sign : Sign} {reason : Reason} {x : Placed} {xs ys before : List Placed}
  {first : Written} {others : List Written} {row : List Lexeme} {ending : Position}
  {current : Option WrittenRule} {line : Line} {lines : List Line} {above : Layout} {e : LoadError}

/-- Why a sign of a line cannot follow. -/
inductive Refused : State → Sign → Reason → Prop
  | fresh_bar : Refused .fresh (.token .bar) .alternativeWithoutRule
  | fresh_arrow : Refused .fresh (.token .arrow) .missingLeftHandSide
  | below_arrow : Refused .below (.token .arrow) .missingLeftHandSide
  | lhs_bar : Refused .lhs (.token .bar) .unexpectedBar
  | lhs_newline : Refused .lhs .newline .missingArrow
  | separator_bar : Refused .separator (.token .bar) .emptyAlternative
  | separator_newline : Refused .separator .newline .emptyAlternative
  | separator_arrow : Refused .separator (.token .arrow) .unexpectedArrow
  | alternative_arrow : Refused .alternative (.token .arrow) .unexpectedArrow

theorem Refused.next_eq_none (h : Refused st sign reason) : st.next sign.category = none := by
  cases h <;> rfl

theorem Refused.ne_eof (h : Refused st sign reason) : sign ≠ .eof := by
  cases h <;> intro heof <;> cases heof

/-- The last sign, if there is one. -/
def lastSign? (xs : List Placed) : Option Sign := xs.getLast?.map Placed.sign

/-- The sign before tells where in a line the control is. -/
theorem previous_of_run (h : State.fresh.run xs = some st) :
    ((lastSign? xs).any Sign.separates = true ↔ st = .separator) ∧
      (startsLine (lastSign? xs) = true ↔ st = .fresh ∨ st = .below) := by
  induction xs using List.reverseRecOn generalizing st with
  | nil =>
    cases h
    simp [lastSign?, startsLine]
  | append_singleton xs x ih =>
    rw [run_append, Option.bind_eq_some_iff] at h
    obtain ⟨st', -, h⟩ := h
    obtain ⟨sign, position⟩ := x
    simp only [lastSign?, List.getLast?_concat, Option.map_some, Option.any_some]
    simp only [run_cons, run_nil, Option.bind_fun_some] at h
    rcases sign with (_ | _ | _ | _) | _ | _ | _ <;> cases st' <;> cases h <;>
      simp [Sign.separates, startsLine]

theorem message_unexpectedBar :
    Reason.unexpectedBar.message = "unexpected " ++ (Sign.token .bar).describe := by
  change "unexpected `|`" = "unexpected " ++ "`|`"
  simp only [String.reduceAppend]

theorem message_unexpectedArrow :
    Reason.unexpectedArrow.message = "unexpected " ++ (Sign.token .arrow).describe := by
  change "unexpected arrow" = "unexpected " ++ "arrow"
  simp only [String.reduceAppend]

theorem message_of_refused (hrun : State.fresh.run before = some st)
    (h : Refused st sign reason) : reason.message = refusal (lastSign? before) sign := by
  obtain ⟨hseparates, hstarts⟩ := previous_of_run hrun
  cases h <;>
    simp [refusal, hseparates, hstarts, message_unexpectedBar, message_unexpectedArrow] <;> rfl

/-- The signs are read up to one that is refused, for the reason and at the place reported. -/
def FaultIn (st : State) (xs : List Placed) (e : LoadError) : Prop :=
  ∃ before x after st', xs = before ++ x :: after ∧ st.run before = some st' ∧
    Refused st' x.sign e.reason ∧ x.position = e.position

theorem FaultIn.here (h : Refused st sign reason) (position : Position) (after : List Placed) :
    FaultIn st (⟨sign, position⟩ :: after) ⟨reason, position⟩ :=
  ⟨[], _, after, st, rfl, rfl, h, rfl⟩

theorem FaultIn.later (hrun : st.run ys = some st') (h : FaultIn st' xs e) :
    FaultIn st (ys ++ xs) e := by
  obtain ⟨before, x, after, st'', rfl, hbefore, hrefused, hposition⟩ := h
  exact ⟨ys ++ before, x, after, st'', (List.append_assoc ..).symm, by simp [hrun, hbefore], hrefused,
    hposition⟩

theorem FaultIn.append (h : FaultIn st xs e) (ys : List Placed) : FaultIn st (xs ++ ys) e := by
  obtain ⟨before, x, after, st', rfl, hbefore, hrefused, hposition⟩ := h
  exact ⟨before, x, after ++ ys, st', List.append_assoc .., hbefore, hrefused, hposition⟩

theorem FaultIn.next (hnext : st.next x.sign.category = some st') (h : FaultIn st' xs e) :
    FaultIn st (x :: xs) e := by
  have hrun : st.run [x] = some st' := by simp [hnext]
  exact h.later hrun

theorem FaultIn.symbol (hst : st.Takes st') (w : Written) (h : FaultIn st' xs e) :
    FaultIn st (w.lexeme.placed :: xs) e := h.next (next_symbol hst w)

/-- What cannot be read as alternatives, from the start or from within the first. -/
theorem fault_of_reading (row : List Lexeme) :
    (alternatives ending row = .error e →
      FaultIn .separator (row.map Lexeme.placed ++ [⟨.newline, ending⟩]) e) ∧
    ∀ first others, moreSymbols ending first others row = .error e →
      FaultIn .alternative (row.map Lexeme.placed ++ [⟨.newline, ending⟩]) e := by
  induction row with
  | nil =>
    constructor
    · intro h
      cases h
      exact .here .separator_newline ending []
    · intro first others h
      cases h
  | cons x row ih =>
    rcases lexeme_cases x with ⟨w, rfl⟩ | ⟨p, rfl⟩ | ⟨p, rfl⟩
    · constructor
      · intro h
        rw [alternatives_symbol] at h
        exact (ih.2 w [] h).symbol ⟨rfl, rfl⟩ w
      · intro first others h
        rw [moreSymbols_symbol] at h
        exact (ih.2 first (others ++ [w]) h).symbol ⟨rfl, rfl⟩ w
    · constructor
      · intro h
        cases h
        exact .here .separator_bar p _
      · intro first others h
        rw [moreSymbols] at h
        exact (ih.1 (map_eq_error_iff.1 h)).next rfl
    · constructor
      · intro h
        cases h
        exact .here .separator_arrow p _
      · intro first others h
        cases h
        exact .here .alternative_arrow p _

theorem fault_of_ruleFrom (h : ruleFrom ending first others row = .error e) :
    FaultIn .lhs (row.map Lexeme.placed ++ [⟨.newline, ending⟩]) e := by
  induction row generalizing others with
  | nil =>
    cases h
    exact .here .lhs_newline ending []
  | cons x row ih =>
    rcases lexeme_cases x with ⟨w, rfl⟩ | ⟨p, rfl⟩ | ⟨p, rfl⟩
    · rw [ruleFrom_symbol] at h
      exact (ih h).symbol ⟨rfl, rfl⟩ w
    · cases h
      exact .here .lhs_bar p _
    · rw [ruleFrom] at h
      exact ((fault_of_reading row).1 (map_eq_error_iff.1 h)).next rfl

/-- A line that has no form here is at fault itself. -/
theorem fault_of_line (habove : above.isOpen = current.isSome)
    (hform : ¬∃ y, line.HasForm y ∧ (y.isContinuation = true → current.isSome = true))
    (h : itemsFrom current (line :: lines) = .error e) :
    ∃ row ending, line = .lexemes row ending ∧ FaultIn above.state line.signs e := by
  cases line with
  | directive name arguments ending =>
    exact absurd ⟨_, .directive name arguments ending, fun hy => nomatch hy⟩ hform
  | lexemes row ending =>
    refine ⟨row, ending, rfl, ?_⟩
    rcases row_cases row with rfl | ⟨w, rest, rfl⟩ | ⟨p, rest, rfl⟩ | ⟨p, rest, rfl⟩
    · exact absurd ⟨_, .blank ending, fun hy => nomatch hy⟩ hform
    · rw [itemsFrom_symbol] at h
      cases hrule : ruleFrom ending w [] rest with
      | ok r =>
        exact absurd ⟨_, hasForm_symbol_iff.2 ⟨r, hrule, rfl⟩, fun hy => nomatch hy⟩ hform
      | error e' =>
        rw [hrule] at h
        cases h
        exact (fault_of_ruleFrom hrule).symbol above.state_takes w
    · cases current with
      | none =>
        cases h
        have hstate : above.state = .fresh := if_neg (by simp [habove])
        rw [hstate]
        exact .here .fresh_bar p _
      | some r =>
        rw [itemsFrom] at h
        cases halternatives : alternatives ending rest with
        | ok ss => exact absurd ⟨_, hasForm_bar_iff.2 ⟨ss, halternatives, rfl⟩, fun _ => rfl⟩ hform
        | error e' =>
          rw [halternatives] at h
          cases h
          have hstate : above.state = .below := if_pos habove
          rw [hstate]
          exact ((fault_of_reading rest).1 halternatives).next rfl
    · cases h
      rcases above.state_cases with hstate | hstate <;> rw [hstate]
      · exact .here .below_arrow p _
      · exact .here .fresh_arrow p _

/-- A text that has no items is at fault in some line. -/
theorem fault_of_itemsFrom (habove : above.isOpen = current.isSome)
    (h : itemsFrom current lines = .error e) : ∃ ls row ending rest st,
      lines = ls ++ .lexemes row ending :: rest ∧ above.state.run (ls.flatMap Line.signs) = some st ∧
        FaultIn st (Line.lexemes row ending).signs e := by
  induction lines generalizing above current with
  | nil => cases h
  | cons line lines ih =>
    by_cases hform : ∃ y, line.HasForm y ∧ (y.isContinuation = true → current.isSome = true)
    · obtain ⟨y, hy, hcurrent⟩ := hform
      rw [itemsFrom_of_hasForm hy hcurrent, map_eq_error_iff] at h
      have hfollows : Layout.Follows above y := fun hcont => habove.trans (hcurrent hcont)
      obtain ⟨ls, row, ending, rest, st, rfl, hrun, hfault⟩ :=
        ih (Layout.isOpen_eq_isSome_next hcurrent) h
      refine ⟨line :: ls, row, ending, rest, st, rfl, ?_, hfault⟩
      rw [List.flatMap_cons, run_append, run_line hy hfollows, Option.bind_some, hrun]
    · obtain ⟨row, ending, rfl, hfault⟩ := fault_of_line habove hform h
      exact ⟨[], row, ending, lines, above.state, rfl, rfl, hfault⟩

/-- What a fault in a line comes after is lexemes of the line. -/
theorem exists_prefix_of_fault (h : FaultIn st (Line.lexemes row ending).signs e) :
    ∃ zs x after st', zs <+: row ∧
      (Line.lexemes row ending).signs = zs.map Lexeme.placed ++ x :: after ∧
        st.run (zs.map Lexeme.placed) = some st' ∧ Refused st' x.sign e.reason ∧
          x.position = e.position := by
  obtain ⟨before, x, after, st', hsigns, hrun, hrefused, hposition⟩ := h
  have hbefore : before <+: row.map Lexeme.placed := by
    have hbegin : before <+: row.map Lexeme.placed ++ [⟨.newline, ending⟩] :=
      ⟨x :: after, hsigns.symm⟩
    rcases List.prefix_concat_iff.1 hbegin with rfl | hbegin
    · simp [Line.signs] at hsigns
    · exact hbegin
  obtain ⟨zs, hzs, rfl⟩ := List.prefix_map_iff.1 hbefore
  exact ⟨zs, x, after, st', hzs, hsigns, hrun, hrefused, hposition⟩

/-- Some text that begins with the signs has items. -/
def Continuable (xs : List Placed) : Prop :=
  ∃ text lines items, lexLines text = .ok lines ∧ itemsFrom none lines = .ok items ∧
    xs <+: textSigns lines

/-- A text has items just if its signs are accepted. -/
theorem accepted_textSigns_iff :
    Accepted (textSigns lines) ↔ ∃ items, itemsFrom none lines = .ok items := by
  constructor
  · rintro ⟨t, ht⟩
    obtain ⟨items, hitems, -⟩ := value_of_treeOf ht
    exact ⟨items, hitems⟩
  · rintro ⟨items, hitems⟩
    have habove : Layout.blank.isOpen = (none : Option WrittenRule).isSome := rfl
    obtain ⟨layouts, hread⟩ := exists_readAs habove hitems
    exact accepted_iff_run.2 (run_of_readAs hread _)

theorem exists_accepted_of_continuable (h : Continuable xs) : ∃ rest, Accepted (xs ++ rest) := by
  obtain ⟨text, lines, items, -, hitems, rest, hsigns⟩ := h
  exact ⟨rest, hsigns ▸ accepted_textSigns_iff.2 ⟨items, hitems⟩⟩

/-- Where a sign has been refused, some characters would have led to the end of the line. -/
theorem Refused.exists_tail (h : Refused st sign reason) : ∃ tail, '\n' ∉ tail ∧
    isDirective tail = false ∧ ∀ line col, ∃ more, scan line 0 col tail = .ok more ∧
      ∀ p q, st.run (more.map Lexeme.placed ++ [⟨.newline, p⟩, ⟨.eof, q⟩]) = some .ended := by
  cases h with
  | fresh_bar | fresh_arrow | below_arrow | alternative_arrow =>
    exact ⟨[], List.not_mem_nil, rfl, fun line col => ⟨[], rfl, fun p q => rfl⟩⟩
  | lhs_bar | lhs_newline =>
    exact ⟨['-', '>', 'a'], by decide, by decide, fun line col =>
      ⟨[⟨.arrow, line, col⟩, ⟨.word ['a'], line, col + 2⟩], rfl, fun p q => rfl⟩⟩
  | separator_bar | separator_newline | separator_arrow =>
    exact ⟨['a'], by decide, by decide, fun line col =>
      ⟨[⟨.word ['a'], line, col⟩], rfl, fun p q => rfl⟩⟩

/-- The report on a text that has no items is about the first sign that no text could go on with. -/
theorem exists_refused {text : List Char} (hlex : lexLines text = .ok lines)
    (h : itemsFrom none lines = .error e) : ∃ before x after,
      textSigns lines = before ++ x :: after ∧ Continuable before ∧
        (¬∃ rest, Accepted (before ++ [x] ++ rest)) ∧ x.sign ≠ .eof ∧ x.position = e.position ∧
          e.reason.message = refusal (lastSign? before) x.sign := by
  have habove : Layout.blank.isOpen = (none : Option WrittenRule).isSome := rfl
  obtain ⟨ls, row, ending, rest, st, rfl, hls, hfault⟩ := fault_of_itemsFrom habove h
  obtain ⟨zs, x, after, st', hzs, hsigns, hrun, hrefused, hposition⟩ := exists_prefix_of_fault hfault
  have hbefore : State.fresh.run (ls.flatMap Line.signs ++ zs.map Lexeme.placed) = some st' := by
    rw [run_append]
    exact (congrArg (Option.bind · _) hls).trans hrun
  let eof (lines : List Line) : Placed := ⟨.eof, ⟨lines.length + 1, 1⟩⟩
  refine ⟨ls.flatMap Line.signs ++ zs.map Lexeme.placed, x,
    after ++ (rest.flatMap Line.signs ++ [eof (ls ++ .lexemes row ending :: rest)]), ?_, ?_, ?_,
    hrefused.ne_eof, hposition, message_of_refused hbefore hrefused⟩
  · simp only [textSigns, List.flatMap_append, List.flatMap_cons, hsigns, List.append_assoc,
      List.cons_append, eof]
  · obtain ⟨tail, htail, hplain, hcompletion⟩ := hrefused.exists_tail
    obtain ⟨start, line, col, hcut⟩ := exists_lexLines_cut hlex hzs
    obtain ⟨more, hmore, hend⟩ := hcompletion line col
    obtain ⟨ending', hlines⟩ := hcut tail more htail hplain hmore
    let lines' := ls ++ [.lexemes (zs ++ more) ending']
    have hsigns' : textSigns lines' = ls.flatMap Line.signs ++ zs.map Lexeme.placed ++
        (more.map Lexeme.placed ++ [⟨.newline, ending'⟩, eof lines']) := by
      simp [textSigns, Line.signs, lines', eof]
    have haccepted : Accepted (textSigns lines') := by
      rw [accepted_iff_run, hsigns', run_append, hbefore, Option.bind_some, hend]
    obtain ⟨items, hitems⟩ := accepted_textSigns_iff.1 haccepted
    exact ⟨_, _, items, hlines, hitems, hsigns' ▸ List.prefix_append _ _⟩
  · rw [exists_accepted_iff]
    rintro ⟨st'', hst⟩
    rw [run_append, hbefore, Option.bind_some, run_cons, hrefused.next_eq_none] at hst
    cases hst

section Recognized

variable {R : Recognizer}

theorem Recognizer.Recognizes.scans_take (hR : R.Recognizes xs) (i : Nat) :
    R.scans (xs.take i) = true ↔ ∃ rest, Accepted (xs.take i ++ rest) :=
  hR.scans_iff _ (List.take_prefix i xs)

theorem Recognizer.Recognizes.refused?_eq_none (hR : R.Recognizes xs) (h : Accepted xs) :
    R.refused? xs = none := by
  rw [Recognizer.refused?, List.find?_eq_none]
  intro i _
  have hscan := (hR.scans_take (i + 1)).2 ⟨xs.drop (i + 1), by rwa [List.take_append_drop]⟩
  simp [hscan]

/-- The sign that is refused is the first after which nothing could be accepted. -/
theorem Recognizer.Recognizes.refused?_eq_some {after : List Placed} (hR : R.Recognizes xs)
    (hxs : xs = before ++ x :: after) (hbefore : ∃ rest, Accepted (before ++ rest))
    (hx : ¬∃ rest, Accepted (before ++ [x] ++ rest)) : R.refused? xs = some before.length := by
  rw [Recognizer.refused?, List.find?_range_eq_some]
  refine ⟨?_, ?_, fun i hi => ?_⟩
  · have htake : xs.take (before.length + 1) = before ++ [x] := by
      rw [hxs, List.take_length_add_append]
      rfl
    have hscan := (hR.scans_take (before.length + 1)).not.2 (htake ▸ hx)
    simp [hscan]
  · simp [hxs]
  · obtain ⟨rest, hrest⟩ := hbefore
    have htake : xs.take (i + 1) = before.take (i + 1) := by
      rw [hxs, List.take_append_of_le_length hi]
    have hscan := (hR.scans_take (i + 1)).2 ⟨before.drop (i + 1) ++ rest, by
      rwa [htake, ← List.append_assoc, List.take_append_drop]⟩
    simp [hscan]

theorem Recognizer.Recognizes.items_eq_ok {items : List Item} (hR : R.Recognizes (textSigns lines))
    (h : itemsFrom none lines = .ok items) : R.items (textSigns lines) = .ok items := by
  have haccepted := accepted_textSigns_iff.2 ⟨items, h⟩
  obtain ⟨t, ht⟩ := hR.exists_tree haccepted
  obtain ⟨items', hitems', hvalue⟩ := value_of_treeOf (hR.treeOf t ht)
  rw [h] at hitems'
  cases hitems'
  simp [Recognizer.items, hR.refused?_eq_none haccepted, ht, hvalue]

end Recognized

/--
By the productions, a text has items just if its lines have forms in order, and then it has the items
of these. Otherwise the report is about the first sign of a line after which no text has items.
-/
theorem items_of_recognizer {text : List Char} (hlex : lexLines text = .ok lines) {R : Recognizer}
    (hR : R.Recognizes (textSigns lines)) :
    (∀ items, R.items (textSigns lines) = .ok items ↔
      ∃ ys, List.Forall₂ Line.HasForm lines ys ∧ Layout.InOrder ys ∧ items = Layout.items ys) ∧
    (∀ items, R.items (textSigns lines) = .ok items ↔ itemsFrom none lines = .ok items) ∧
    ∀ fault, R.items (textSigns lines) = .error fault → ∃ before x after e,
      textSigns lines = before ++ x :: after ∧ fault = .unexpected before.length ∧
        Continuable before ∧ ¬Continuable (before ++ [x]) ∧ x.sign ≠ .eof ∧
          itemsFrom none lines = .error e ∧ x.position = e.position ∧
            e.reason.message = refusal (lastSign? before) x.sign := by
  cases hitems : itemsFrom none lines with
  | ok items =>
    have hok := hR.items_eq_ok hitems
    refine ⟨fun items' => ?_, fun items' => by simp [hok], fun fault hfault => ?_⟩
    · rw [← itemsFrom_eq_ok_iff, hitems, hok]
      simp
    · rw [hok] at hfault
      cases hfault
  | error e =>
    obtain ⟨before, x, after, hsigns, hbefore, hx, heof, hposition, hmessage⟩ :=
      exists_refused hlex hitems
    have hplace := hR.refused?_eq_some hsigns (exists_accepted_of_continuable hbefore) hx
    have hrefused : R.items (textSigns lines) = .error (.unexpected before.length) := by
      rw [Recognizer.items, hplace]
    refine ⟨fun items' => ?_, fun items' => by simp [hrefused], fun fault hfault => ?_⟩
    · rw [← itemsFrom_eq_ok_iff, hitems, hrefused]
      simp
    · rw [hrefused] at hfault
      cases hfault
      have hstop : ¬Continuable (before ++ [x]) := fun h => hx (exists_accepted_of_continuable h)
      exact ⟨before, x, after, e, hsigns, rfl, hbefore, hstop, heof, rfl, hposition, hmessage⟩

section Example

/-- The text `S->a` with `|b` on its second line. -/
def continuedText : List Char := ['S', '-', '>', 'a', '\n', '|', 'b']

def continuedLines : List Line :=
  [.lexemes [⟨.word ['S'], 1, 1⟩, ⟨.arrow, 1, 2⟩, ⟨.word ['a'], 1, 4⟩] ⟨1, 5⟩,
    .lexemes [⟨.bar, 2, 1⟩, ⟨.word ['b'], 2, 2⟩] ⟨2, 3⟩]

def symbolTree (c : Char) (line col : Nat) : Tree :=
  .node .symbolWord [.leaf ⟨.token (.word [c]), line, col⟩]

def continuedTree : Tree :=
  let alternatives (symbol : Tree) := Tree.node .alternativesOne [.node .alternativeOne [symbol]]
  let first := Tree.node .ruleArrow [.node .lhsOne [symbolTree 'S' 1 1],
    .leaf ⟨.token .arrow, 1, 2⟩, alternatives (symbolTree 'a' 1 4), .leaf ⟨.newline, 1, 5⟩]
  let rule := Tree.node .ruleBar [first, .leaf ⟨.token .bar, 2, 1⟩,
    alternatives (symbolTree 'b' 2 2), .leaf ⟨.newline, 2, 3⟩]
  .node .startItems [.node .itemsOne [.node .itemRule [rule]], .leaf ⟨.eof, 3, 1⟩]

/-- It scans as the control does, and knows one tree. -/
def continuedRecognizer : Recognizer where
  scans xs := (State.fresh.run xs).isSome
  tree? _ := some continuedTree

theorem spans_symbolTree (c : Char) (line col : Nat) :
    Spans [.phrase .symbol] [symbolTree c line col] [⟨.token (.word [c]), line, col⟩] :=
  .phrase .symbolWord (.sign ⟨.token (.word [c]), line, col⟩)

theorem treeOf_continuedTree : TreeOf continuedTree (textSigns continuedLines) := by
  have halternatives (c : Char) (line col : Nat) :=
    Spans.phrase .alternativesOne (.phrase .alternativeOne (spans_symbolTree c line col))
  have hfirst := Spans.phrase .ruleArrow ((Spans.phrase .lhsOne (spans_symbolTree 'S' 1 1)).append
    ((Spans.sign ⟨.token .arrow, 1, 2⟩).append
      ((halternatives 'a' 1 4).append (.sign ⟨.newline, 1, 5⟩))))
  have hrule := Spans.phrase .ruleBar (hfirst.append ((Spans.sign ⟨.token .bar, 2, 1⟩).append
    ((halternatives 'b' 2 2).append (.sign ⟨.newline, 2, 3⟩))))
  exact .phrase .startItems ((Spans.phrase .itemsOne (.phrase .itemRule hrule)).append
    (.sign ⟨.eof, 3, 1⟩))

theorem recognizes_continuedText :
    continuedRecognizer.Recognizes (textSigns continuedLines) where
  scans_iff ys _ := by rw [exists_accepted_iff, ← Option.isSome_iff_exists]; rfl
  treeOf t ht := by
    cases ht
    exact treeOf_continuedTree
  exists_tree _ := ⟨continuedTree, rfl⟩

theorem continuedText_items : lexLines continuedText = .ok continuedLines ∧
    continuedRecognizer.Recognizes (textSigns continuedLines) ∧
      ∃ ys, List.Forall₂ Line.HasForm continuedLines ys ∧ Layout.InOrder ys ∧
        continuedRecognizer.items (textSigns continuedLines) = .ok (Layout.items ys) := by
  have hlex : lexLines continuedText = .ok continuedLines := by rfl
  have hread := (items_of_recognizer hlex recognizes_continuedText).1
  obtain ⟨ys, hys, horder, -⟩ := (hread _).1 (by rfl)
  exact ⟨hlex, recognizes_continuedText, ys, hys, horder, (hread _).2 ⟨ys, hys, horder, rfl⟩⟩

end Example

end FormalLanguage.Notation
