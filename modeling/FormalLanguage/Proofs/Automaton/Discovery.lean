import FormalLanguage.Proofs.Automaton.Subset

/-!
The states of the subset automaton. Main statement: the search for sets ends, each set that it finds
is the run of a word, and the states of the automaton are these sets, each of them once.
-/
namespace FormalLanguage.Automaton

variable {m : Automaton} {explored pending found : List StateSet} {states : StateSet}
  {a : Terminal} {w : Word} {q : Nat}

theorem run_concat (w : Word) (a : Terminal) : m.run (w ++ [a]) = m.step (m.run w) a := by
  apply OrderedSet.ext
  intro p
  rw [mem_run_iff, path_append_iff, mem_step]
  simp only [mem_run_iff, path_cons_iff, path_nil_iff, exists_eq_right]

/-- The states are those that some word over the alphabet leads to. -/
def IsRun (m : Automaton) (states : StateSet) : Prop :=
  ∃ w : Word, (∀ a ∈ w, a ∈ m.alphabet) ∧ m.run w = states

theorem IsRun.step (h : m.IsRun states) (ha : a ∈ m.alphabet) : m.IsRun (m.step states a) := by
  obtain ⟨w, hw, rfl⟩ := h
  refine ⟨w ++ [a], ?_, run_concat w a⟩
  intro x hx
  rcases List.mem_append.1 hx with hx | hx
  · exact hw x hx
  · rwa [List.mem_singleton.1 hx]

theorem isRun_enlist (hs : m.IsRun states) (hp : ∀ s ∈ pending, m.IsRun s) (ha : a ∈ m.alphabet) :
    ∀ s ∈ m.enlist explored states pending a, m.IsRun s := by
  intro s hmem
  unfold enlist at hmem
  dsimp only at hmem
  split at hmem
  · exact hp s hmem
  · rcases List.mem_append.1 hmem with hmem | hmem
    · exact hp s hmem
    · rw [List.mem_singleton.1 hmem]
      exact hs.step ha

theorem isRun_foldl_enlist {letters : List Terminal} (hs : m.IsRun states)
    (hp : ∀ s ∈ pending, m.IsRun s) (hletters : ∀ a ∈ letters, a ∈ m.alphabet) :
    ∀ s ∈ letters.foldl (m.enlist explored states) pending, m.IsRun s := by
  induction letters generalizing pending with
  | nil => exact hp
  | cons a letters ih =>
    rw [List.forall_mem_cons] at hletters
    exact ih (isRun_enlist hs hp hletters.1) hletters.2

/-- The search finds nothing but runs. -/
theorem Ends.isRun (h : m.Ends explored pending found) (he : ∀ s ∈ explored, m.IsRun s)
    (hp : ∀ s ∈ pending, m.IsRun s) : ∀ s ∈ found, m.IsRun s := by
  induction h with
  | done => exact he
  | explore _ ih =>
    rw [List.forall_mem_cons] at hp
    apply ih
    · intro s hs
      rcases List.mem_append.1 hs with hs | hs
      · exact he s hs
      · rw [List.mem_singleton.1 hs]
        exact hp.1
    · exact isRun_foldl_enlist hp.1 hp.2 fun a ha => ha

theorem isRun_of_mem_subsets (hs : states ∈ m.subsets) : m.IsRun states := by
  refine (ends_subsets m).isRun (fun s hs => absurd hs List.not_mem_nil) ?_ states hs
  intro s hs
  rw [List.mem_singleton.1 hs]
  exact ⟨[], fun a ha => absurd ha List.not_mem_nil, rfl⟩

theorem discovered_subsets (m : Automaton) : m.Discovered m.subsets := by
  have hd := (searching_subsets m).discovered
  rwa [List.append_nil] at hd

/-- Besides the sets that are found there is the empty set. -/
theorem length_subsets_le (m : Automaton) : m.subsets.length ≤ 2 ^ m.numStates - 1 := by
  have hd := discovered_subsets m
  have hlen := length_le_of_nodup (List.nodup_cons.2 ⟨empty_not_mem_subsets, hd.nodup⟩)
    (List.forall_mem_cons.2 ⟨fun q hq => absurd hq (OrderedSet.not_mem_empty q), hd.states_lt⟩)
  rw [List.length_cons] at hlen
  omega

theorem stateOf?_of_subset? (hq : m.determinize.subset? q = some states) :
    m.determinize.stateOf? states = some q := by
  obtain ⟨p, hstate, hp⟩ := exists_stateOf? (mem_subsets_of_subset? hq)
  obtain ⟨hlt, -⟩ := List.getElem?_eq_some_iff.1 hp
  have hpq : p = q := (List.getElem?_inj hlt (discovered_subsets m).nodup).1 (hp.trans hq.symm)
  rw [hstate, hpq]

theorem numStates_determinize (m : Automaton) :
    m.determinize.automaton.numStates = m.subsets.length := List.length_map _

theorem lt_numStates_iff :
    q < m.determinize.automaton.numStates ↔ ∃ states, m.determinize.subset? q = some states := by
  rw [numStates_determinize]
  constructor
  · intro hq
    exact ⟨m.subsets[q], List.getElem?_eq_getElem hq⟩
  · rintro ⟨states, hq⟩
    exact (List.getElem?_eq_some_iff.1 hq).1

/-- A word that has the set of a state for its run leads to the state. -/
theorem reach?_of_run (hq : m.determinize.subset? q = some (m.run w)) :
    m.determinize.reach? w = some q ∧
      m.determinize.automaton.Path m.determinize.automaton.start w q := by
  rcases reach_cases m w with ⟨p, hreach, hp, hrun⟩ | ⟨-, hnone, -⟩
  · have hpq : p = q := by
      have hstate := stateOf?_of_subset? hp
      rw [stateOf?_of_subset? hq] at hstate
      exact (Option.some.inj hstate).symm
    subst hpq
    refine ⟨hreach, ?_⟩
    rw [← mem_run_iff, hrun, OrderedSet.mem_singleton]
  · rw [hnone] at hq
    exact absurd (mem_subsets_of_subset? hq) empty_not_mem_subsets

theorem size_targets_le (m : Automaton) (q : Nat) (a : Terminal) :
    (m.determinize.automaton.targets q a).size ≤ 1 := by
  by_cases hq : q < m.determinize.automaton.numStates
  · obtain ⟨states, hsub⟩ := lt_numStates_iff.1 hq
    by_cases hempty : m.step states a = ∅
    · rw [targets_of_step_empty hsub hempty]
      exact Nat.zero_le 1
    · obtain ⟨p, hp, -⟩ := exists_targets hsub hempty
      rw [hp]
      exact Nat.le_refl 1
  · have hnone : m.determinize.automaton.targets q a = ∅ := by
      apply OrderedSet.ext
      intro p
      rw [mem_targets]
      exact iff_of_false (fun ht => hq (m.determinize.automaton.source_lt _ ht))
        (OrderedSet.not_mem_empty p)
    rw [hnone]
    exact Nat.zero_le 1

theorem pairwise_lt_toList (states : StateSet) : states.toList.Pairwise (· < ·) :=
  states.increasing.imp fun h => Nat.compare_eq_lt.1 h

/-- A state of the subset automaton, with the set that it stands for. -/
structure Stands (m : Automaton) (q : Nat) (states : StateSet) : Prop where
  nonempty : states.toList ≠ []
  sorted : states.toList.Pairwise (· < ·)
  states_lt : ∀ p ∈ states, p < m.numStates
  stateOf? : m.determinize.stateOf? states = some q
  reached : ∃ w : Word, (∀ a ∈ w, a ∈ m.alphabet) ∧ m.determinize.reach? w = some q ∧
    m.determinize.automaton.Path m.determinize.automaton.start w q

theorem stands_of_subset? (hq : m.determinize.subset? q = some states) : m.Stands q states := by
  have hmem := mem_subsets_of_subset? hq
  have hd := discovered_subsets m
  refine ⟨?_, pairwise_lt_toList states, hd.states_lt states hmem, stateOf?_of_subset? hq, ?_⟩
  · intro hnil
    have hne := hd.not_isEmpty states hmem
    rw [OrderedSet.isEmpty, hnil] at hne
    cases hne
  · obtain ⟨w, hw, hrun⟩ := isRun_of_mem_subsets hmem
    exact ⟨w, hw, reach?_of_run (hrun ▸ hq)⟩

/--
The search for sets ends. Each state of the subset automaton stands for a set of its own, which is
not empty, and some word leads to it; the start state stands for the start state alone. Steps lead
between these states on letters of the alphabet, with one target at most, and there are fewer states
than sets of states.
-/
theorem determinize_stands (m : Automaton) :
    let d := m.determinize
    m.Ends [] [OrderedSet.singleton m.start] d.subsets ∧
    (∀ q, q < d.automaton.numStates ↔ ∃ states, d.subset? q = some states) ∧
    (∀ q states, d.subset? q = some states → m.Stands q states) ∧
    d.subsets.Nodup ∧
    d.subset? d.automaton.start = some (OrderedSet.singleton m.start) ∧
    d.automaton.isDeterministic = true ∧
    (∀ q a, (d.automaton.targets q a).size ≤ 1) ∧
    (∀ t ∈ d.automaton.transitions, t.source < d.automaton.numStates ∧
      t.target < d.automaton.numStates ∧ t.letter ∈ m.alphabet) ∧
    (∀ q ∈ d.automaton.accepting, q < d.automaton.numStates) ∧
    d.automaton.numStates ≤ 2 ^ m.numStates - 1 := by
  intro d
  refine ⟨ends_subsets m, fun q => lt_numStates_iff, fun q states => stands_of_subset?,
    (discovered_subsets m).nodup, subset?_start, ?_, size_targets_le m, ?_,
    d.automaton.accepting_lt, ?_⟩
  · rw [isDeterministic, List.all_eq_true]
    intro entry _
    exact decide_eq_true (size_targets_le m entry.1 entry.2)
  · intro t ht
    exact ⟨d.automaton.source_lt t ht, d.automaton.target_lt t ht, d.automaton.letter_mem t ht⟩
  · rw [numStates_determinize]
    exact length_subsets_le m

end FormalLanguage.Automaton
