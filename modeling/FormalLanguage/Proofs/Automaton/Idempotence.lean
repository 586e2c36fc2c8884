import FormalLanguage.Proofs.Automaton.Discovery

/-!
The deterministic automaton made deterministic once more. Main statements: searches that go in step
with each other find the same sets in the same order, so that the second time each state stands for
itself alone under its old number, and nothing changes but the names of the states.
-/
namespace FormalLanguage.Automaton

variable {m m' : Automaton} {explored pending found found' : List StateSet} {states : StateSet}
  {a : Terminal} {p q : Nat} {f : StateSet → StateSet}

/-- A search has one outcome. -/
theorem Ends.unique (h : m.Ends explored pending found) (h' : m.Ends explored pending found') :
    found = found' := by
  induction h with
  | done =>
    cases h'
    rfl
  | explore _ ih =>
    cases h' with
    | explore rest => exact ih rest

/--
Each set that is found in the first automaton has one in the second automaton, and steps lead from
these to those of the sets that they lead to.
-/
structure InStep (m m' : Automaton) (f : StateSet → StateSet) : Prop where
  alphabet : m'.alphabet = m.alphabet
  start : OrderedSet.singleton m'.start = f (OrderedSet.singleton m.start)
  step : ∀ states ∈ m.subsets, ∀ a, m'.step (f states) a = f (m.step states a)
  isEmpty_step : ∀ states ∈ m.subsets, ∀ a,
    (f (m.step states a)).isEmpty = (m.step states a).isEmpty
  injective : ∀ s ∈ m.subsets, ∀ t ∈ m.subsets, f s = f t → s = t

theorem mem_subsets_of_mem_enlist (hs : states ∈ m.subsets) (hp : ∀ s ∈ pending, s ∈ m.subsets) :
    ∀ s ∈ m.enlist explored states pending a, s ∈ m.subsets := by
  intro s hmem
  unfold enlist at hmem
  dsimp only at hmem
  split at hmem
  · exact hp s hmem
  · next hnew =>
    rcases List.mem_append.1 hmem with hmem | hmem
    · exact hp s hmem
    · rw [List.mem_singleton.1 hmem]
      refine step_mem_subsets hs fun hempty => hnew ?_
      rw [hempty]
      rfl

theorem mem_subsets_of_mem_foldl_enlist {letters : List Terminal} (hs : states ∈ m.subsets)
    (hp : ∀ s ∈ pending, s ∈ m.subsets) :
    ∀ s ∈ letters.foldl (m.enlist explored states) pending, s ∈ m.subsets := by
  induction letters generalizing pending with
  | nil => exact hp
  | cons a letters ih => exact ih (mem_subsets_of_mem_enlist hs hp)

namespace InStep

/-- What is known to the one search is known to the other. -/
theorem mem_map_iff (hf : m.InStep m' f) {l : List StateSet} (hl : ∀ s ∈ l, s ∈ m.subsets)
    (hs : states ∈ m.subsets) : f states ∈ l.map f ↔ states ∈ l := by
  constructor
  · intro hmem
    obtain ⟨s, hsl, heq⟩ := List.mem_map.1 hmem
    exact hf.injective s (hl s hsl) states hs heq ▸ hsl
  · exact List.mem_map_of_mem

theorem enlist (hf : m.InStep m' f) (he : ∀ s ∈ explored, s ∈ m.subsets) (hs : states ∈ m.subsets)
    (hp : ∀ s ∈ pending, s ∈ m.subsets) (a : Terminal) :
    m'.enlist (explored.map f) (f states) (pending.map f) a =
      (m.enlist explored states pending a).map f := by
  simp only [Automaton.enlist, hf.step states hs, hf.isEmpty_step states hs]
  cases hempty : (m.step states a).isEmpty with
  | true => rfl
  | false =>
    have hnext : m.step states a ∈ m.subsets := by
      refine step_mem_subsets hs fun heq => ?_
      rw [heq] at hempty
      cases hempty
    have hself : f (m.step states a) = f states ↔ m.step states a = states :=
      ⟨hf.injective _ hnext _ hs, congrArg f⟩
    simp only [hf.mem_map_iff he hnext, hf.mem_map_iff hp hnext, hself]
    split
    · rfl
    · rw [List.map_append, List.map_singleton]

theorem foldl_enlist (hf : m.InStep m' f) (he : ∀ s ∈ explored, s ∈ m.subsets)
    (hs : states ∈ m.subsets) (hp : ∀ s ∈ pending, s ∈ m.subsets) (letters : List Terminal) :
    letters.foldl (m'.enlist (explored.map f) (f states)) (pending.map f) =
      (letters.foldl (m.enlist explored states) pending).map f := by
  induction letters generalizing pending with
  | nil => rfl
  | cons a letters ih =>
    rw [List.foldl_cons, hf.enlist he hs hp]
    exact ih (mem_subsets_of_mem_enlist hs hp)

/-- The searches take the same turns. -/
theorem ends (hf : m.InStep m' f) (h : m.Ends explored pending found)
    (he : ∀ s ∈ explored, s ∈ m.subsets) (hp : ∀ s ∈ pending, s ∈ m.subsets) :
    m'.Ends (explored.map f) (pending.map f) (found.map f) := by
  induction h with
  | done explored => exact .done (explored.map f)
  | @explore explored pending found states _ ih =>
    rw [List.forall_mem_cons] at hp
    have he' : ∀ s ∈ explored ++ [states], s ∈ m.subsets :=
      List.forall_mem_append.2 ⟨he, List.forall_mem_singleton.2 hp.1⟩
    have hrest := ih he' (mem_subsets_of_mem_foldl_enlist hp.1 hp.2)
    rw [List.map_append, List.map_singleton, ← hf.foldl_enlist he hp.1 hp.2, ← hf.alphabet] at hrest
    exact .explore hrest

/-- The same sets are found in the same order. -/
theorem subsets_eq (hf : m.InStep m' f) : m'.subsets = m.subsets.map f := by
  have hstart : ∀ s ∈ [OrderedSet.singleton m.start], s ∈ m.subsets := by
    obtain ⟨more, hmore⟩ := exists_subsets (m := m)
    rw [hmore]
    exact List.forall_mem_singleton.2 List.mem_cons_self
  have hends := hf.ends (ends_subsets m) (List.forall_mem_nil _) hstart
  rw [List.map_singleton, ← hf.start] at hends
  exact (ends_subsets m').unique hends

end InStep

/-- The state that stands for a set of states, on its own. A set that is not found has none. -/
def numbered (m : Automaton) (states : StateSet) : StateSet :=
  OrderedSet.ofList (m.determinize.stateOf? states).toList

theorem numbered_of_subset? (hq : m.determinize.subset? q = some states) :
    m.numbered states = OrderedSet.singleton q := by
  apply OrderedSet.ext
  intro p
  rw [numbered, stateOf?_of_subset? hq, OrderedSet.mem_ofList, OrderedSet.mem_singleton]
  exact List.mem_singleton

theorem subset?_of_stateOf? (hq : m.determinize.stateOf? states = some q) :
    m.determinize.subset? q = some states := by
  obtain ⟨hlt, heq, -⟩ := List.findIdx?_eq_some_iff_getElem.1 hq
  rw [SubsetAutomaton.subset?, List.getElem?_eq_getElem hlt]
  exact congrArg some (of_decide_eq_true heq)

theorem numbered_empty : m.numbered ∅ = ∅ := by
  cases hq : m.determinize.stateOf? ∅ with
  | none =>
    rw [numbered, hq]
    rfl
  | some q => exact absurd (mem_subsets_of_subset? (subset?_of_stateOf? hq)) empty_not_mem_subsets

theorem numbered_injective {s t : StateSet} (hs : s ∈ m.subsets) (ht : t ∈ m.subsets)
    (h : m.numbered s = m.numbered t) : s = t := by
  obtain ⟨p, -, hp⟩ := exists_stateOf? hs
  obtain ⟨q, -, hq⟩ := exists_stateOf? ht
  rw [numbered_of_subset? hp, numbered_of_subset? hq] at h
  have hpq : p = q := OrderedSet.mem_singleton.1 (h ▸ OrderedSet.mem_singleton.2 rfl)
  rw [hpq, hq] at hp
  exact (Option.some.inj hp).symm

/-- On the automaton of the sets, the search goes by the numbers of the sets. -/
theorem inStep_determinize (m : Automaton) : m.InStep m.determinize.automaton m.numbered where
  alphabet := alphabet_determinize m
  start := (numbered_of_subset? subset?_start).symm
  step states hs a := by
    obtain ⟨q, -, hq⟩ := exists_stateOf? hs
    rw [numbered_of_subset? hq, step_singleton]
    by_cases hempty : m.step states a = ∅
    · rw [targets_of_step_empty hq hempty, hempty, numbered_empty]
    · obtain ⟨p, htargets, hp⟩ := exists_targets hq hempty
      rw [htargets, numbered_of_subset? hp]
  isEmpty_step states hs a := by
    by_cases hempty : m.step states a = ∅
    · rw [hempty, numbered_empty]
    · obtain ⟨p, -, hp⟩ := exists_stateOf? (step_mem_subsets hs hempty)
      rw [numbered_of_subset? hp]
      exact ((discovered_subsets m).not_isEmpty _ (step_mem_subsets hs hempty)).symm
  injective _ hs _ ht := numbered_injective hs ht

/-- The second time, the sets are those of one state, in the order of the numbers. -/
theorem subsets_determinize (m : Automaton) : m.determinize.automaton.subsets =
    (List.range m.determinize.automaton.numStates).map OrderedSet.singleton := by
  rw [(inStep_determinize m).subsets_eq, numStates_determinize]
  apply List.ext_getElem
  · rw [List.length_map, List.length_map, List.length_range]
  · intro q hq _
    rw [List.length_map] at hq
    rw [List.getElem_map, List.getElem_map, List.getElem_range]
    exact numbered_of_subset? (List.getElem?_eq_getElem hq)

theorem subset?_determinize_iff : m.determinize.automaton.determinize.subset? q = some states ↔
    q < m.determinize.automaton.numStates ∧ states = OrderedSet.singleton q := by
  show m.determinize.automaton.subsets[q]? = some states ↔ _
  rw [subsets_determinize, List.getElem?_eq_some_iff]
  simp only [List.length_map, List.length_range, List.getElem_map, List.getElem_range]
  exact exists_prop.trans (and_congr_right fun _ => eq_comm)

theorem stateOf?_determinize_iff : m.determinize.automaton.determinize.stateOf? states = some q ↔
    q < m.determinize.automaton.numStates ∧ states = OrderedSet.singleton q := by
  rw [← subset?_determinize_iff]
  exact ⟨subset?_of_stateOf?, stateOf?_of_subset?⟩

/-- There is no other target than the one that is given. -/
theorem targets_eq_singleton_iff : m.determinize.automaton.targets q a = OrderedSet.singleton p ↔
    p ∈ m.determinize.automaton.targets q a := by
  constructor
  · intro h
    rw [h]
    exact OrderedSet.mem_singleton.2 rfl
  · intro hp
    have hlist : (m.determinize.automaton.targets q a).toList = [p] := by
      have hlen : (m.determinize.automaton.targets q a).toList.length ≤ 1 := size_targets_le m q a
      obtain ⟨b, hb⟩ := List.length_eq_one_iff.1
        (Nat.le_antisymm hlen (List.length_pos_of_mem hp))
      have hpb : p ∈ [b] := hb ▸ hp
      rw [hb, List.mem_singleton.1 hpb]
    exact OrderedSet.toList_injective hlist

theorem mem_targets_determinize_determinize :
    p ∈ m.determinize.automaton.determinize.automaton.targets q a ↔
      p ∈ m.determinize.automaton.targets q a := by
  by_cases hq : q < m.determinize.automaton.numStates
  · rw [mem_targets_determinize (subset?_determinize_iff.2 ⟨hq, rfl⟩), step_singleton,
      stateOf?_determinize_iff, targets_eq_singleton_iff]
    exact and_iff_right_of_imp fun hp => m.determinize.automaton.target_lt _ (mem_targets.1 hp)
  · rw [mem_targets, mem_targets]
    refine iff_of_false (fun ht => hq ?_) fun ht => hq (m.determinize.automaton.source_lt _ ht)
    have hlt := m.determinize.automaton.determinize.automaton.source_lt _ ht
    obtain ⟨_, hsub⟩ := lt_numStates_iff.1 hlt
    exact (subset?_determinize_iff.1 hsub).1

theorem isAccepting_determinize_determinize (hq : q < m.determinize.automaton.numStates) :
    m.determinize.automaton.determinize.automaton.isAccepting q =
      m.determinize.automaton.isAccepting q := by
  rw [isAccepting_eq (subset?_determinize_iff.2 ⟨hq, rfl⟩), intersects_singleton]
  rfl

theorem numStates_determinize_determinize (m : Automaton) :
    m.determinize.automaton.determinize.automaton.numStates = m.determinize.automaton.numStates := by
  rw [numStates_determinize, subsets_determinize, List.length_map, List.length_range]

/-- A state that stands for one state is named after it. -/
theorem stateNames_determinize_determinize (m : Automaton) :
    m.determinize.automaton.determinize.automaton.stateNames =
      m.determinize.automaton.stateNames.map fun name => braced [name] := by
  show m.determinize.automaton.subsets.map m.determinize.automaton.setText = _
  rw [subsets_determinize]
  apply List.ext_getElem
  · rw [List.length_map, List.length_map, List.length_map, List.length_range]
    rfl
  · intro q _ hq
    rw [List.length_map] at hq
    simp only [List.getElem_map, List.getElem_range]
    have hname : m.determinize.automaton.stateText q = m.determinize.automaton.stateNames[q] := by
      rw [stateText, stateName?, List.getElem?_eq_getElem hq]
      rfl
    rw [← hname]
    rfl

/--
A deterministic automaton of sets is deterministic already: made so again, each of its states stands
for itself alone, and it keeps its letters, states, transitions, start and accepting states under the
same numbers. Only the names of the states change.
-/
theorem determinize_determinize (m : Automaton) :
    let d := m.determinize.automaton
    let e := d.determinize
    (∀ q, q < d.numStates → e.subset? q = some (OrderedSet.singleton q)) ∧
    e.automaton.numStates = d.numStates ∧
    e.automaton.start = d.start ∧
    e.automaton.table = d.table ∧
    e.automaton.alphabet = d.alphabet ∧
    e.automaton.transitions = d.transitions ∧
    e.automaton.accepting = d.accepting ∧
    e.automaton.stateNames = d.stateNames.map fun name => braced [name] := by
  intro d e
  refine ⟨fun q hq => subset?_determinize_iff.2 ⟨hq, rfl⟩, numStates_determinize_determinize m,
    (start_determinize d).trans (start_determinize m).symm, table_determinize d,
    alphabet_determinize d, ?_, ?_, stateNames_determinize_determinize m⟩
  · apply OrderedSet.ext
    rintro ⟨q, a, p⟩
    rw [← mem_targets, ← mem_targets]
    exact mem_targets_determinize_determinize
  · apply OrderedSet.ext
    intro q
    by_cases hq : q < d.numStates
    · have hsame := isAccepting_determinize_determinize hq
      rwa [isAccepting, isAccepting, decide_eq_decide] at hsame
    · refine iff_of_false (fun hacc => hq ?_) fun hacc => hq (d.accepting_lt q hacc)
      exact numStates_determinize_determinize m ▸ e.automaton.accepting_lt q hacc

end FormalLanguage.Automaton
