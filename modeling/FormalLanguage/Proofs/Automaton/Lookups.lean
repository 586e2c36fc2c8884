import FormalLanguage.Proofs.Automaton.Calls
import FormalLanguage.Proofs.Automaton.Subset
import FormalLanguage.Proofs.RightLinear.Transcription

/-!
The lookups of an automaton by number. Reading a word, making it deterministic, turning it into a
grammar and printing it are given here as they go about it with rows of marks, lists of sets and
lists of names, where an index that is out of range gives nothing. Main statements: none of them
ever meets such an index, and each comes to what it comes to without the check.
-/
namespace FormalLanguage.Automaton

variable {m : Automaton} {marks : List Bool} {states : StateSet} {explored pending : List StateSet}
  {a : Terminal} {q : Nat} {w : Word}

section Marks

/-- Marks a state in a row with one mark for each state. There is no mark past the end. -/
def mark? (marks : List Bool) (q : Nat) : Option (List Bool) :=
  if q < marks.length then some (marks.set q true) else none

/-- The states that are marked, in order. -/
def marked (marks : List Bool) : List Nat :=
  (List.range marks.length).filter fun q => marks[q]? = some true

variable (m)

def markAll? (states : List Nat) : Option (List Bool) :=
  states.foldlM mark? (List.replicate m.numStates false)

/-- The row of the states reached from those of a row on a letter. -/
def stepMarks? (marks : List Bool) (a : Terminal) : Option (List Bool) :=
  m.markAll? ((marked marks).flatMap fun q => (m.targets q a).toList)

def followMarks? (marks : List Bool) : Word → Option (List Bool)
  | [] => some marks
  | a :: word => do
    let next ← m.stepMarks? marks a
    if next.any id then followMarks? next word else return next

/-- The states reached by a word, found with rows of marks. -/
def run? (word : Word) : Option StateSet := do
  let marks ← m.markAll? [m.start]
  let marks ← m.followMarks? marks word
  return OrderedSet.ofList (marked marks)

/-- The states are those that the row marks. -/
def Shows (marks : List Bool) (states : StateSet) : Prop :=
  ∀ q, q ∈ states ↔ marks[q]? = some true

variable {m}

theorem exists_foldlM_mark {l : List Nat} (hlt : ∀ q ∈ l, q < marks.length) :
    ∃ marks', l.foldlM mark? marks = some marks' ∧
      ∀ q, marks'[q]? = some true ↔ q ∈ l ∨ marks[q]? = some true := by
  induction l generalizing marks with
  | nil => exact ⟨marks, rfl, by simp⟩
  | cons p l ih =>
    rw [List.forall_mem_cons] at hlt
    have hlen : (marks.set p true).length = marks.length := List.length_set
    have hrest : ∀ q ∈ l, q < (marks.set p true).length := hlen.symm ▸ hlt.2
    obtain ⟨marks', hfold, hmem⟩ := ih hrest
    refine ⟨marks', ?_, fun q => ?_⟩
    · rw [List.foldlM_cons, mark?, if_pos hlt.1]
      exact hfold
    · rw [hmem, List.mem_cons]
      by_cases hqp : q = p
      · subst q
        simp [hlt.1]
      · rw [List.getElem?_set_ne fun h => hqp h.symm]
        simp [hqp]

theorem exists_markAll {l : List Nat} (hlt : ∀ q ∈ l, q < m.numStates) :
    ∃ marks, m.markAll? l = some marks ∧ Shows marks (OrderedSet.ofList l) := by
  have hlen : (List.replicate m.numStates false).length = m.numStates := List.length_replicate
  obtain ⟨marks, hmarks, hmem⟩ := exists_foldlM_mark (hlen.symm ▸ hlt)
  refine ⟨marks, hmarks, fun q => ?_⟩
  rw [hmem, OrderedSet.mem_ofList, List.getElem?_replicate]
  simp

namespace Shows

theorem marked_eq (h : Shows marks states) : OrderedSet.ofList (marked marks) = states := by
  apply OrderedSet.ext
  intro q
  rw [OrderedSet.mem_ofList, marked, List.mem_filter, List.mem_range, h q, decide_eq_true_eq]
  exact and_iff_right_of_imp fun hq => (List.getElem?_eq_some_iff.1 hq).1

theorem any_eq (h : Shows marks states) : marks.any id = !states.isEmpty := by
  rw [Bool.eq_iff_iff, Bool.not_eq_true', OrderedSet.isEmpty, List.isEmpty_eq_false_iff_exists_mem,
    List.any_eq_true]
  constructor
  · rintro ⟨mark, hmark, hset⟩
    obtain ⟨q, hq⟩ := List.mem_iff_getElem?.1 hmark
    rw [id_eq] at hset
    exact ⟨q, (h q).2 (hset ▸ hq)⟩
  · rintro ⟨q, hq⟩
    exact ⟨true, List.mem_of_getElem? ((h q).1 hq), rfl⟩

theorem step (h : Shows marks states) (a : Terminal) :
    ∃ next, m.stepMarks? marks a = some next ∧ Shows next (m.step states a) := by
  have hlt : ∀ p ∈ (marked marks).flatMap fun q => (m.targets q a).toList, p < m.numStates := by
    intro p hp
    obtain ⟨q, -, hq⟩ := List.mem_flatMap.1 hp
    exact m.target_lt _ (mem_targets.1 hq)
  obtain ⟨next, hnext, hmarks⟩ := exists_markAll hlt
  refine ⟨next, hnext, ?_⟩
  have hstep : OrderedSet.ofList ((marked marks).flatMap fun q => (m.targets q a).toList) =
      m.step states a := by
    rw [← h.marked_eq]
    apply OrderedSet.ext
    intro p
    simp [mem_step, OrderedSet.mem_toList]
  exact hstep ▸ hmarks

theorem follow (h : Shows marks states) (w : Word) :
    ∃ last, m.followMarks? marks w = some last ∧ Shows last (m.follow states w) := by
  induction w generalizing marks states with
  | nil => exact ⟨marks, rfl, h⟩
  | cons a w ih =>
    obtain ⟨next, hnext, hmarks⟩ := h.step a
    rw [followMarks?, hnext, Automaton.follow]
    simp only [Option.bind_eq_bind, Option.bind_some, hmarks.any_eq]
    by_cases hempty : (m.step states a).isEmpty = true
    · simp only [hempty]
      exact ⟨next, rfl, hmarks⟩
    · simp only [hempty]
      exact ih hmarks

end Shows

/-- Reading a word marks none but states. -/
theorem run?_eq (m : Automaton) (w : Word) : m.run? w = some (m.run w) := by
  have hstart : ∀ q ∈ [m.start], q < m.numStates := List.forall_mem_singleton.2 m.start_lt
  obtain ⟨marks, hmarks, hrow⟩ := exists_markAll hstart
  obtain ⟨last, hlast, hend⟩ := hrow.follow w
  have hrun : OrderedSet.ofList (marked last) = m.run w := hend.marked_eq
  rw [run?, hmarks]
  show (m.followMarks? marks w >>= _) = _
  rw [hlast]
  exact congrArg some hrun

end Marks

section Subsets

variable (m)

/--
Appends the set that a letter leads to, and its number to the numbers of those to be explored,
unless it is empty or there already.
-/
def number (states : StateSet) (found : List StateSet × List Nat) (a : Terminal) :
    List StateSet × List Nat :=
  let next := m.step states a
  if next.isEmpty || found.1.contains next then found
  else (found.1 ++ [next], found.2 ++ [found.1.length])

/-- The sets in the order of discovery. Those to be explored are looked up by their numbers. -/
def explore? : (bound : Nat) → (found : List StateSet) → (queue : List Nat) → Option (List StateSet)
  | 0, found, _ => some found
  | _ + 1, found, [] => some found
  | bound + 1, found, i :: queue => do
    let states ← found[i]?
    let (found, queue) := m.alphabet.toList.foldl (m.number states) (found, queue)
    explore? bound found queue

/-- The names of sets of states, found by way of the names of their states. -/
def setText? (states : StateSet) : Option String :=
  (states.toList.mapM m.stateName?).map braced

/-- The names of the states of the deterministic automaton. -/
def subsetNames? : Option (List String) := do
  let subsets ← m.explore? (2 ^ m.numStates) [OrderedSet.singleton m.start] [0]
  subsets.mapM m.setText?

variable {m}

/-- The numbers of the sets that are pending. -/
def queueOf (explored pending : List StateSet) : List Nat :=
  List.range' explored.length pending.length

theorem queueOf_concat : queueOf explored (pending ++ [states]) =
    queueOf explored pending ++ [(explored ++ pending).length] := by
  rw [queueOf, queueOf, List.length_append, List.length_singleton, List.range'_1_concat,
    List.length_append]

theorem number_eq (states : StateSet) (explored pending : List StateSet) (a : Terminal) :
    m.number states (explored ++ [states] ++ pending, queueOf (explored ++ [states]) pending) a =
      (explored ++ [states] ++ m.enlist explored states pending a,
        queueOf (explored ++ [states]) (m.enlist explored states pending a)) := by
  have hknown : ((m.step states a).isEmpty ||
      (explored ++ [states] ++ pending).contains (m.step states a)) =
      ((m.step states a).isEmpty || m.step states a ∈ explored || m.step states a = states ||
        m.step states a ∈ pending) := by
    rw [Bool.eq_iff_iff]
    simp [or_assoc]
  simp only [number, enlist, hknown]
  split
  · rfl
  · rw [queueOf_concat, List.append_assoc _ pending]

theorem foldl_number_eq (states : StateSet) (explored pending : List StateSet)
    (letters : List Terminal) :
    letters.foldl (m.number states)
        (explored ++ [states] ++ pending, queueOf (explored ++ [states]) pending) =
      (explored ++ [states] ++ letters.foldl (m.enlist explored states) pending,
        queueOf (explored ++ [states]) (letters.foldl (m.enlist explored states) pending)) := by
  induction letters generalizing pending with
  | nil => rfl
  | cons a letters ih => rw [List.foldl_cons, number_eq, ih, List.foldl_cons]

/-- The queue holds the numbers of the pending sets, all of them in range. -/
theorem explore?_eq (bound : Nat) (explored pending : List StateSet) :
    m.explore? bound (explored ++ pending) (queueOf explored pending) =
      some (m.discover bound explored pending) := by
  induction bound generalizing explored pending with
  | zero => rfl
  | succ bound ih =>
    cases pending with
    | nil =>
      rw [List.append_nil]
      rfl
    | cons states pending =>
      have hqueue : queueOf explored (states :: pending) =
          explored.length :: queueOf (explored ++ [states]) pending := by
        rw [queueOf, queueOf, List.length_cons, List.range'_succ, List.length_append,
          List.length_singleton]
      have hget : (explored ++ states :: pending)[explored.length]? = some states := by
        rw [List.getElem?_append_right (Nat.le_refl _), Nat.sub_self]
        rfl
      have hsplit : explored ++ states :: pending = explored ++ [states] ++ pending := by
        rw [List.append_assoc, List.singleton_append]
      rw [hqueue, explore?, hget, Option.bind_eq_bind, Option.bind_some, hsplit, foldl_number_eq]
      exact ih _ _

theorem stateName?_eq (hq : q < m.numStates) : m.stateName? q = some (m.stateText q) := by
  have hget : m.stateName? q = some m.stateNames[q] := List.getElem?_eq_getElem hq
  rw [stateText, hget, Option.getD_some]

theorem setText?_eq (hlt : ∀ q ∈ states, q < m.numStates) :
    m.setText? states = some (m.setText states) := by
  rw [setText?, mapM_eq_map fun q hq => stateName?_eq (hlt q hq), Option.map_some, setText]

theorem subsetNames?_eq (m : Automaton) :
    m.subsetNames? = some m.determinize.automaton.stateNames := by
  have hsubsets : m.explore? (2 ^ m.numStates) [OrderedSet.singleton m.start] [0] = some m.subsets :=
    explore?_eq (2 ^ m.numStates) [] [OrderedSet.singleton m.start]
  rw [subsetNames?, hsubsets]
  refine mapM_eq_map fun states hs => setText?_eq ?_
  exact (searching_subsets m).discovered.states_lt states (List.mem_append_left [] hs)

end Subsets

section Text

variable (m)

def entryText? (q : Nat) (a : Terminal) : Option String := do
  let source ← m.stateName? q
  let letter ← m.table.nameOf? (.terminal a)
  let targets ← m.setText? (m.targets q a)
  return source ++ " --" ++ letter ++ "--> " ++ targets

def lines? : Option (List String) := do
  let letters ← m.alphabet.toList.mapM fun a => m.table.nameOf? (.terminal a)
  let entries ← m.entries.mapM fun (q, a) => m.entryText? q a
  let start ← m.stateName? m.start
  let final ← m.setText? m.accepting
  return ["states: " ++ ", ".intercalate m.stateNames, "alphabet: " ++ ", ".intercalate letters] ++
    entries ++ ["start: " ++ start, "final: " ++ final]

/-- The text of an automaton, with the names of its states and letters looked up by number. -/
def text? : Option String := m.lines?.map fun lines => String.join (lines.map (· ++ "\n"))

variable {m}

theorem mem_entries_iff : (q, a) ∈ m.entries ↔ ∃ p, p ∈ m.targets q a := by
  simp only [entries, List.mem_eraseDups, List.mem_map, Prod.mk.injEq, mem_targets,
    OrderedSet.mem_toList]
  constructor
  · rintro ⟨t, ht, rfl, rfl⟩
    exact ⟨t.target, ht⟩
  · rintro ⟨p, hp⟩
    exact ⟨⟨q, a, p⟩, hp, rfl, rfl⟩

theorem letterText_eq (ha : a ∈ m.alphabet) :
    m.table.nameOf? (.terminal a) = some (m.letterText a) := by
  obtain ⟨name, hname⟩ := SymbolTable.exists_nameOf? (m.contains_letter a ha)
  rw [letterText, hname, Option.getD_some]

theorem entryText?_eq (h : (q, a) ∈ m.entries) : m.entryText? q a = some (m.entryText q a) := by
  obtain ⟨p, hp⟩ := mem_entries_iff.1 h
  have ht := mem_targets.1 hp
  have htargets : m.setText? (m.targets q a) = some (m.setText (m.targets q a)) :=
    setText?_eq fun r hr => m.target_lt _ (mem_targets.1 hr)
  rw [entryText?, stateName?_eq (m.source_lt _ ht), letterText_eq (m.letter_mem _ ht), htargets]
  rfl

theorem text?_eq (m : Automaton) : m.text? = some m.text := by
  have hletters : (m.alphabet.toList.mapM fun a => m.table.nameOf? (.terminal a)) =
      some (m.alphabet.toList.map m.letterText) :=
    mapM_eq_map fun a ha => letterText_eq ha
  have hentries : (m.entries.mapM fun (q, a) => m.entryText? q a) =
      some (m.entries.map fun (q, a) => m.entryText q a) :=
    mapM_eq_map fun (q, a) h => entryText?_eq h
  have hlines : m.lines? = some m.lines := by
    rw [lines?, hletters, hentries, stateName?_eq m.start_lt, setText?_eq m.accepting_lt]
    rfl
  rw [text?, hlines]
  rfl

end Text

section Grammar

variable (m)

def addStep? (states : List NonTerminal) (g : Grammar) (t : Transition) : Option Grammar := do
  let lhs ← states[t.source]?
  let n ← states[t.target]?
  let g := g.addRule lhs [.terminal t.letter, .nonterminal n]
  return if m.isAccepting t.target then g.addRule lhs [.terminal t.letter] else g

def addStart? (states : List NonTerminal) (g : Grammar) : Option Grammar := do
  let start ← states[m.start]?
  return (if m.isAccepting m.start then g.addRule start [] else g).setStart start

/-- The grammar of an automaton, with the nonterminals of its states looked up by number. -/
def toGrammar? : Except ConversionError (Option Grammar) := do
  let letters : Grammar := { table := m.table, terminals := m.alphabet }
  let (states, g) ← bindStates letters m.stateNames
  return (m.transitions.toList.foldlM (m.addStep? states) g) >>= m.addStart? states

variable {m}

theorem addStep?_eq {symbols : List NonTerminal} {t : Transition}
    (hsource : t.source < symbols.length) (htarget : t.target < symbols.length) (g : Grammar) :
    m.addStep? symbols g t = some (m.addStep symbols g t) := by
  rw [addStep?, addStep, List.getElem?_eq_getElem hsource, List.getElem?_eq_getElem htarget]
  rfl

theorem addStart?_eq {symbols : List NonTerminal} (hstart : m.start < symbols.length) (g : Grammar) :
    m.addStart? symbols g = some (m.addStart symbols g) := by
  rw [addStart?, addStart, List.getElem?_eq_getElem hstart]
  rfl

theorem toGrammar?_eq (m : Automaton) : m.toGrammar? = m.toGrammar.map some := by
  unfold toGrammar? toGrammar
  dsimp only
  cases hbind : bindStates { table := m.table, terminals := m.alphabet } m.stateNames with
  | error e => rfl
  | ok bound =>
    obtain ⟨symbols, g⟩ := bound
    have hlen : m.stateNames.length = symbols.length := (bound_of_bindStates hbind).named.length_eq
    have hsteps : m.transitions.toList.foldlM (m.addStep? symbols) g =
        some (m.transitions.toList.foldl (m.addStep symbols) g) :=
      foldlM_eq_foldl (fun t ht g =>
        addStep?_eq (hlen ▸ m.source_lt t ht) (hlen ▸ m.target_lt t ht) g) g
    show Except.ok (m.transitions.toList.foldlM (m.addStep? symbols) g >>= m.addStart? symbols) =
      Except.ok (some _)
    rw [hsteps]
    exact congrArg Except.ok (addStart?_eq (hlen ▸ m.start_lt) _)

end Grammar

/--
The states and letters that the automaton mentions are its own, no state and letter has an empty set
of targets, and no lookup is out of range.
-/
structure Sound (m : Automaton) : Prop where
  start_lt : m.start < m.numStates
  accepting_lt : ∀ q, m.isAccepting q = true → q < m.numStates
  states_lt : ∀ q a p, p ∈ m.targets q a → q < m.numStates ∧ p < m.numStates
  targets_ne : ∀ q a, (q, a) ∈ m.entries → m.targets q a ≠ ∅
  letters : ∀ q a p, p ∈ m.targets q a → a ∈ m.alphabet
  contains : ∀ a ∈ m.alphabet, m.table.contains (.terminal a) = true
  run : ∀ w, m.run? w = some (m.run w)
  determinize : m.subsetNames? = some m.determinize.automaton.stateNames
  toGrammar : m.toGrammar? = m.toGrammar.map some
  text : m.text? = some m.text

theorem sound (m : Automaton) : m.Sound where
  start_lt := m.start_lt
  accepting_lt q hq := m.accepting_lt q (of_decide_eq_true hq)
  states_lt q a p hp := ⟨m.source_lt _ (mem_targets.1 hp), m.target_lt _ (mem_targets.1 hp)⟩
  targets_ne q a h := by
    obtain ⟨p, hp⟩ := mem_entries_iff.1 h
    intro hempty
    exact OrderedSet.not_mem_empty p (hempty ▸ hp)
  letters q a p hp := m.letter_mem _ (mem_targets.1 hp)
  contains := m.contains_letter
  run := m.run?_eq
  determinize := m.subsetNames?_eq
  toGrammar := m.toGrammar?_eq
  text := m.text?_eq

end FormalLanguage.Automaton
