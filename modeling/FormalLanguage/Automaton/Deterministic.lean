import FormalLanguage.Automaton.Printer

/-!
The deterministic automaton over the sets of states that words reach. Sets are numbered in the
order of their discovery, breadth first, letters in order.
-/
namespace FormalLanguage

/-- A deterministic automaton, with the set of states that each of its states stands for. -/
structure SubsetAutomaton where
  automaton : Automaton
  subsets : List StateSet
deriving DecidableEq

namespace Automaton

variable (m : Automaton)

/-- Appends the set reached on a letter to those to be explored, if it is new and not empty. -/
def enlist (explored : List StateSet) (states : StateSet) (pending : List StateSet) (a : Terminal) :
    List StateSet :=
  let next := m.step states a
  if next.isEmpty || next ∈ explored || next = states || next ∈ pending then pending
  else pending ++ [next]

/-- The sets in the order of discovery; at most `bound` more are explored. -/
def discover : (bound : Nat) → (explored pending : List StateSet) → List StateSet
  | 0, explored, pending => explored ++ pending
  | _ + 1, explored, [] => explored
  | bound + 1, explored, states :: pending =>
    discover bound (explored ++ [states])
      (m.alphabet.toList.foldl (m.enlist explored states) pending)

/-- The sets of states that words reach. There are at most as many as there are sets of states. -/
def subsets : List StateSet := m.discover (Nat.pow 2 m.numStates) [] [OrderedSet.singleton m.start]

variable {m}

theorem exists_enlist (explored : List StateSet) (states : StateSet) (pending : List StateSet)
    (a : Terminal) : ∃ more, m.enlist explored states pending a = pending ++ more := by
  unfold enlist
  dsimp only
  split
  · exact ⟨[], (List.append_nil pending).symm⟩
  · exact ⟨[m.step states a], rfl⟩

theorem exists_foldl_enlist (explored : List StateSet) (states : StateSet) (letters : List Terminal)
    (pending : List StateSet) :
    ∃ more, letters.foldl (m.enlist explored states) pending = pending ++ more := by
  induction letters generalizing pending with
  | nil => exact ⟨[], (List.append_nil pending).symm⟩
  | cons a letters ih =>
    obtain ⟨first, hfirst⟩ := exists_enlist (m := m) explored states pending a
    obtain ⟨more, hmore⟩ := ih (pending ++ first)
    exact ⟨first ++ more, by rw [List.foldl_cons, hfirst, hmore, List.append_assoc]⟩

/-- What is found is never dropped or moved. -/
theorem exists_discover (bound : Nat) (explored pending : List StateSet) :
    ∃ more, m.discover bound explored pending = explored ++ pending ++ more := by
  induction bound generalizing explored pending with
  | zero => exact ⟨[], (List.append_nil _).symm⟩
  | succ bound ih =>
    cases pending with
    | nil => exact ⟨[], by simp [discover]⟩
    | cons states pending =>
      obtain ⟨new, hnew⟩ :=
        exists_foldl_enlist (m := m) explored states m.alphabet.toList pending
      obtain ⟨more, hmore⟩ := ih (explored ++ [states]) (pending ++ new)
      exact ⟨new ++ more, by simp [discover, hnew, hmore]⟩

theorem exists_subsets : ∃ more, m.subsets = OrderedSet.singleton m.start :: more :=
  exists_discover (m := m) (Nat.pow 2 m.numStates) [] [OrderedSet.singleton m.start]

theorem length_subsets_pos : 0 < m.subsets.length := by
  obtain ⟨more, h⟩ := exists_subsets (m := m)
  rw [h]
  exact Nat.succ_pos _

variable (m)

/-- The steps from the set with this number. A letter that leads to no listed set gives none. -/
def stepsAmong (subsets : List StateSet) (i : Nat) (states : StateSet) : List Transition :=
  m.alphabet.toList.filterMap fun a =>
    (subsets.findIdx? (· = m.step states a)).map (Transition.mk i a)

def transitionsAmong (subsets : List StateSet) : OrderedSet Transition :=
  OrderedSet.ofList (subsets.mapIdx (m.stepsAmong subsets)).flatten

/-- The numbers of the sets with an accepting state. -/
def acceptingAmong (subsets : List StateSet) : StateSet :=
  OrderedSet.ofList
    ((List.range subsets.length).filter fun i => (subsets[i]?.getD ∅).intersects m.accepting)

variable {m}

theorem mem_transitionsAmong {subsets : List StateSet} {t : Transition} :
    t ∈ m.transitionsAmong subsets ↔ ∃ states, subsets[t.source]? = some states ∧
      t.letter ∈ m.alphabet ∧ subsets.findIdx? (· = m.step states t.letter) = some t.target := by
  simp only [transitionsAmong, OrderedSet.mem_ofList, List.mem_flatten, List.mem_mapIdx]
  constructor
  · rintro ⟨l, ⟨i, hi, rfl⟩, ht⟩
    obtain ⟨a, ha, hm⟩ := List.mem_filterMap.1 ht
    obtain ⟨j, hj, rfl⟩ := Option.map_eq_some_iff.1 hm
    exact ⟨subsets[i], List.getElem?_eq_getElem hi, ha, hj⟩
  · rintro ⟨states, hs, ha, hj⟩
    obtain ⟨hi, rfl⟩ := List.getElem?_eq_some_iff.1 hs
    exact ⟨_, ⟨t.source, hi, rfl⟩, List.mem_filterMap.2 ⟨t.letter, ha, by simp [hj]⟩⟩

theorem mem_acceptingAmong {subsets : List StateSet} {i : Nat} :
    i ∈ m.acceptingAmong subsets ↔
      i < subsets.length ∧ (subsets[i]?.getD ∅).intersects m.accepting = true := by
  simp [acceptingAmong]

variable (m)

/-- The automaton over a list of sets that is not empty; the first set is the start. -/
def overSubsets (subsets : List StateSet) (pos : 0 < subsets.length) : Automaton where
  table := m.table
  alphabet := m.alphabet
  stateNames := subsets.map m.setText
  transitions := m.transitionsAmong subsets
  start := 0
  accepting := m.acceptingAmong subsets
  contains_letter := m.contains_letter
  letter_mem t ht := (mem_transitionsAmong.1 ht).choose_spec.2.1
  source_lt t ht := by
    obtain ⟨_, hs, -, -⟩ := mem_transitionsAmong.1 ht
    simpa using (List.getElem?_eq_some_iff.1 hs).1
  target_lt t ht := by
    obtain ⟨_, -, -, hj⟩ := mem_transitionsAmong.1 ht
    simpa using (List.findIdx?_eq_some_iff_getElem.1 hj).1
  start_lt := by simpa using pos
  accepting_lt q hq := by simpa using (mem_acceptingAmong.1 hq).1

/-- The automaton that follows all runs at once. Its states are named by the sets they stand for. -/
def determinize : SubsetAutomaton where
  automaton := m.overSubsets m.subsets length_subsets_pos
  subsets := m.subsets

theorem start_determinize (m : Automaton) : m.determinize.automaton.start = 0 := rfl

theorem table_determinize (m : Automaton) : m.determinize.automaton.table = m.table := rfl

theorem alphabet_determinize (m : Automaton) : m.determinize.automaton.alphabet = m.alphabet := rfl

end Automaton

namespace SubsetAutomaton

variable (d : SubsetAutomaton)

/-- The states that a state stands for. -/
def subset? (q : Nat) : Option StateSet := d.subsets[q]?

/-- The state that stands for a set. -/
def stateOf? (states : StateSet) : Option Nat := d.subsets.findIdx? (· = states)

/-- The only target of a state on a letter. -/
def target? (q : Nat) (a : Terminal) : Option Nat := (d.automaton.targets q a).toList.head?

/-- The state that a word leads to. -/
def reach? (word : Word) : Option Nat := word.foldlM d.target? d.automaton.start

end SubsetAutomaton

end FormalLanguage
