import Mathlib.Data.Finset.Powerset
import FormalLanguage.Automaton.Deterministic
import FormalLanguage.Automaton.Path

/-!
The subset automaton. Main statements: the discovery of sets ends with every set that a step leads
to, and the deterministic automaton follows each word to the set of states of its run.
-/
namespace FormalLanguage.Automaton

variable {m : Automaton} {explored pending letters : List StateSet} {states : StateSet}
  {a : Terminal} {word : Word} {p q : Nat}

theorem step_eq_empty (ha : a ∉ m.alphabet) : m.step states a = ∅ := by
  apply OrderedSet.ext
  intro q
  rw [mem_step]
  constructor
  · rintro ⟨_, -, ht⟩
    exact absurd (m.letter_mem _ ht) ha
  · intro hq
    exact absurd hq (OrderedSet.not_mem_empty q)

theorem lt_numStates_of_mem_step (hq : q ∈ m.step states a) : q < m.numStates := by
  obtain ⟨_, -, ht⟩ := mem_step.1 hq
  exact m.target_lt _ ht

/-- There are at most as many different sets of states as there are parts of the states. -/
theorem length_le_of_nodup {l : List StateSet} {n : Nat} (hl : l.Nodup)
    (hlt : ∀ states ∈ l, ∀ q ∈ states, q < n) : l.length ≤ 2 ^ n := by
  let members : StateSet → Finset Nat := fun states => states.toList.toFinset
  have hinj : Function.Injective members := by
    intro s t hst
    apply OrderedSet.ext
    intro q
    rw [← OrderedSet.mem_toList, ← OrderedSet.mem_toList, ← List.mem_toFinset, ← List.mem_toFinset]
    exact Iff.of_eq (congrArg (q ∈ ·) hst)
  have hsub : (l.map members).toFinset ⊆ (Finset.range n).powerset := by
    intro part hpart
    obtain ⟨states, hs, rfl⟩ := List.mem_map.1 (List.mem_toFinset.1 hpart)
    rw [Finset.mem_powerset]
    intro q hq
    exact Finset.mem_range.2 (hlt states hs q (List.mem_toFinset.1 hq))
  have hnodup : (l.map members).Nodup := hl.map hinj
  calc l.length = (l.map members).toFinset.card := by
        rw [List.toFinset_card_of_nodup hnodup, List.length_map]
    _ ≤ (Finset.range n).powerset.card := Finset.card_le_card hsub
    _ = 2 ^ n := by rw [Finset.card_powerset, Finset.card_range]

/-- Every letter leads from these states to none at all, or to a set of the list. -/
def StepsWithin (m : Automaton) (letters : List Terminal) (states : StateSet) (l : List StateSet) :
    Prop :=
  ∀ a ∈ letters, (m.step states a).isEmpty = true ∨ m.step states a ∈ l

/-- Sets of states in the order of their discovery, without repetition. -/
structure Discovered (m : Automaton) (l : List StateSet) : Prop where
  nodup : l.Nodup
  not_isEmpty : ∀ states ∈ l, states.isEmpty = false
  states_lt : ∀ states ∈ l, ∀ q ∈ states, q < m.numStates

theorem StepsWithin.append {letters : List Terminal} {l : List StateSet}
    (hs : m.StepsWithin letters states l) (more : List StateSet) :
    m.StepsWithin letters states (l ++ more) :=
  fun a ha => (hs a ha).imp_right (List.mem_append_left more)

theorem Discovered.concat {l : List StateSet} (hd : m.Discovered l) (hne : states.isEmpty = false)
    (hnew : states ∉ l) (hlt : ∀ q ∈ states, q < m.numStates) : m.Discovered (l ++ [states]) where
  nodup := by
    rw [List.nodup_append]
    refine ⟨hd.nodup, List.nodup_singleton states, ?_⟩
    intro s hs t ht hst
    rw [List.mem_singleton.1 ht] at hst
    exact hnew (hst ▸ hs)
  not_isEmpty s hs := by
    rcases List.mem_append.1 hs with hs | hs
    · exact hd.not_isEmpty s hs
    · rwa [List.mem_singleton.1 hs]
  states_lt s hs := by
    rcases List.mem_append.1 hs with hs | hs
    · exact hd.states_lt s hs
    · rwa [List.mem_singleton.1 hs]

/-- A letter adds the set that it leads to, unless that is empty or there already. -/
theorem Discovered.enlist (hd : m.Discovered (explored ++ [states] ++ pending)) (a : Terminal) :
    m.Discovered (explored ++ [states] ++ m.enlist explored states pending a) ∧
      m.StepsWithin [a] states (explored ++ [states] ++ m.enlist explored states pending a) := by
  simp only [Automaton.enlist, StepsWithin, List.forall_mem_singleton]
  split
  · next hold =>
    refine ⟨hd, ?_⟩
    simp only [Bool.or_eq_true, decide_eq_true_eq, or_assoc] at hold
    rcases hold with hempty | hold | hold | hold
    · exact .inl hempty
    · exact .inr (by simp [hold])
    · exact .inr (by simp [hold])
    · exact .inr (by simp [hold])
  · next hnew =>
    simp only [Bool.or_eq_true, decide_eq_true_eq, not_or, Bool.not_eq_true, or_assoc] at hnew
    obtain ⟨hne, hexplored, hstates, hpending⟩ := hnew
    rw [← List.append_assoc]
    refine ⟨hd.concat hne ?_ fun q => lt_numStates_of_mem_step, .inr ?_⟩
    · simp [hexplored, hstates, hpending]
    · exact List.mem_append_right _ (List.mem_singleton.2 rfl)

theorem Discovered.foldl_enlist (hd : m.Discovered (explored ++ [states] ++ pending))
    (letters : List Terminal) :
    m.Discovered (explored ++ [states] ++ letters.foldl (m.enlist explored states) pending) ∧
      m.StepsWithin letters states
        (explored ++ [states] ++ letters.foldl (m.enlist explored states) pending) := by
  induction letters generalizing pending with
  | nil => exact ⟨hd, fun a ha => absurd ha List.not_mem_nil⟩
  | cons a letters ih =>
    obtain ⟨hfirst, hstep⟩ := hd.enlist a
    obtain ⟨hrest, hsteps⟩ := ih hfirst
    refine ⟨hrest, List.forall_mem_cons.2 ⟨?_, hsteps⟩⟩
    obtain ⟨more, hmore⟩ := exists_foldl_enlist (m := m) explored states letters
      (m.enlist explored states pending a)
    have hlater := hstep.append more a (List.mem_singleton.2 rfl)
    rwa [List.foldl_cons, hmore, ← List.append_assoc]

/-- The search as long as it takes: pending sets are explored one by one until none is left. -/
inductive Ends (m : Automaton) : (explored pending found : List StateSet) → Prop
  | done (explored : List StateSet) : Ends m explored [] explored
  | explore {explored pending found : List StateSet} {states : StateSet}
      (rest : Ends m (explored ++ [states])
        (m.alphabet.toList.foldl (m.enlist explored states) pending) found) :
      Ends m explored (states :: pending) found

/-- What the search keeps: the sets that are explored have their steps among all sets. -/
structure Searching (m : Automaton) (explored pending : List StateSet) : Prop where
  discovered : m.Discovered (explored ++ pending)
  closed : ∀ states ∈ explored, m.StepsWithin m.alphabet.toList states (explored ++ pending)

namespace Searching

theorem init (m : Automaton) : m.Searching [] [OrderedSet.singleton m.start] where
  discovered :=
    { nodup := List.nodup_singleton _
      not_isEmpty := List.forall_mem_singleton.2 rfl
      states_lt := List.forall_mem_singleton.2 fun q hq => by
        rw [OrderedSet.mem_singleton.1 hq]
        exact m.start_lt }
  closed states hs := absurd hs List.not_mem_nil

/-- Exploring the next set keeps what the search keeps. -/
theorem explore (hs : m.Searching explored (states :: pending)) :
    m.Searching (explored ++ [states])
      (m.alphabet.toList.foldl (m.enlist explored states) pending) := by
  have hd : m.Discovered (explored ++ [states] ++ pending) := by
    simpa using hs.discovered
  obtain ⟨hnew, hsteps⟩ := hd.foldl_enlist m.alphabet.toList
  refine ⟨hnew, ?_⟩
  intro s hmem
  rcases List.mem_append.1 hmem with hmem | hmem
  · obtain ⟨more, hmore⟩ := exists_foldl_enlist (m := m) explored states m.alphabet.toList pending
    rw [hmore, ← List.append_assoc]
    have hold := (hs.closed s hmem).append more
    simpa using hold
  · rwa [List.mem_singleton.1 hmem]

/-- The bound cuts no search short: there are no more sets than it and the explored ones. -/
theorem ends {bound : Nat} (hs : m.Searching explored pending)
    (hbound : 2 ^ m.numStates ≤ bound + explored.length) :
    m.Ends explored pending (m.discover bound explored pending) := by
  induction bound generalizing explored pending with
  | zero =>
    have hlen := length_le_of_nodup hs.discovered.nodup hs.discovered.states_lt
    rw [List.length_append] at hlen
    have hpending : pending = [] := List.eq_nil_of_length_eq_zero (by omega)
    subst pending
    rw [discover, List.append_nil]
    exact .done explored
  | succ bound ih =>
    cases pending with
    | nil => exact .done explored
    | cons states pending =>
      refine .explore (ih hs.explore ?_)
      rw [List.length_append, List.length_singleton]
      omega

end Searching

theorem ends_subsets (m : Automaton) : m.Ends [] [OrderedSet.singleton m.start] m.subsets :=
  (Searching.init m).ends (Nat.le_of_eq rfl)

/-- What the search keeps holds at its end, with nothing pending. -/
theorem Ends.searching {found : List StateSet} (h : m.Ends explored pending found)
    (hs : m.Searching explored pending) : m.Searching found [] := by
  induction h with
  | done => exact hs
  | explore _ ih => exact ih hs.explore

theorem searching_subsets (m : Automaton) : m.Searching m.subsets [] :=
  (ends_subsets m).searching (Searching.init m)

/-- No step leads out of the sets that are discovered, unless it leads to no state. -/
theorem step_mem_subsets (hs : states ∈ m.subsets) (hne : m.step states a ≠ ∅) :
    m.step states a ∈ m.subsets := by
  by_cases ha : a ∈ m.alphabet
  · rcases (searching_subsets m).closed states hs a ha with hempty | hmem
    · exact absurd (OrderedSet.eq_empty_of_isEmpty hempty) hne
    · rwa [List.append_nil] at hmem
  · exact absurd (step_eq_empty ha) hne

theorem empty_not_mem_subsets : (∅ : StateSet) ∉ m.subsets := by
  intro h
  have hne := (searching_subsets m).discovered.not_isEmpty ∅ (List.mem_append_left [] h)
  cases hne

theorem mem_subsets_of_subset? (hq : m.determinize.subset? q = some states) :
    states ∈ m.subsets :=
  List.mem_of_getElem? hq

theorem exists_stateOf? (hs : states ∈ m.subsets) :
    ∃ q, m.determinize.stateOf? states = some q ∧ m.determinize.subset? q = some states := by
  cases hq : m.determinize.stateOf? states with
  | none =>
    have hne := List.findIdx?_eq_none_iff.1 hq states hs
    simp at hne
  | some q =>
    obtain ⟨hlt, heq, -⟩ := List.findIdx?_eq_some_iff_getElem.1 hq
    refine ⟨q, rfl, ?_⟩
    rw [SubsetAutomaton.subset?, List.getElem?_eq_getElem hlt]
    exact congrArg some (of_decide_eq_true heq)

theorem subset?_start : m.determinize.subset? m.determinize.automaton.start =
    some (OrderedSet.singleton m.start) := by
  obtain ⟨more, hmore⟩ := exists_subsets (m := m)
  show m.subsets[0]? = _
  rw [hmore]
  rfl

/-- The target of a state stands for the set that the letter leads to. -/
theorem mem_targets_determinize (hq : m.determinize.subset? q = some states) :
    p ∈ m.determinize.automaton.targets q a ↔
      m.determinize.stateOf? (m.step states a) = some p := by
  rw [mem_targets]
  refine mem_transitionsAmong.trans ?_
  constructor
  · rintro ⟨states', hs, -, hp⟩
    rw [show states' = states from Option.some.inj (hs.symm.trans hq)] at hp
    exact hp
  · intro hp
    refine ⟨states, hq, ?_, hp⟩
    by_contra ha
    obtain ⟨hlt, heq, -⟩ := List.findIdx?_eq_some_iff_getElem.1 hp
    rw [step_eq_empty ha, decide_eq_true_eq] at heq
    exact empty_not_mem_subsets (heq ▸ List.getElem_mem hlt)

theorem targets_of_step_empty (hq : m.determinize.subset? q = some states)
    (hempty : m.step states a = ∅) : m.determinize.automaton.targets q a = ∅ := by
  apply OrderedSet.ext
  intro p
  rw [mem_targets_determinize hq, hempty]
  constructor
  · intro hp
    obtain ⟨hlt, heq, -⟩ := List.findIdx?_eq_some_iff_getElem.1 hp
    rw [decide_eq_true_eq] at heq
    exact absurd (heq ▸ List.getElem_mem hlt) empty_not_mem_subsets
  · intro hp
    exact absurd hp (OrderedSet.not_mem_empty p)

theorem exists_targets (hq : m.determinize.subset? q = some states) (hne : m.step states a ≠ ∅) :
    ∃ p, m.determinize.automaton.targets q a = OrderedSet.singleton p ∧
      m.determinize.subset? p = some (m.step states a) := by
  obtain ⟨p, hp, hsub⟩ := exists_stateOf? (step_mem_subsets (mem_subsets_of_subset? hq) hne)
  refine ⟨p, ?_, hsub⟩
  apply OrderedSet.ext
  intro r
  rw [mem_targets_determinize hq, hp, OrderedSet.mem_singleton, Option.some.injEq, eq_comm]

theorem step_singleton (q : Nat) (a : Terminal) :
    m.step (OrderedSet.singleton q) a = m.targets q a := by
  apply OrderedSet.ext
  simp

/--
From a state that stands for a set, all three ways to read a word agree: one state after the other,
all runs from the set, and all runs of the deterministic automaton.
-/
theorem follow_determinize (word : Word) (hq : m.determinize.subset? q = some states) :
    (∃ p, word.foldlM m.determinize.target? q = some p ∧
      m.determinize.subset? p = some (m.follow states word) ∧
      m.determinize.automaton.follow (OrderedSet.singleton q) word = OrderedSet.singleton p) ∨
    (word.foldlM m.determinize.target? q = none ∧ m.follow states word = ∅ ∧
      m.determinize.automaton.follow (OrderedSet.singleton q) word = ∅) := by
  induction word generalizing q states with
  | nil => exact .inl ⟨q, rfl, hq, rfl⟩
  | cons a word ih =>
    rw [List.foldlM_cons, SubsetAutomaton.target?, follow_cons, follow_cons, step_singleton]
    by_cases hempty : m.step states a = ∅
    · rw [targets_of_step_empty hq hempty, hempty, follow_empty, follow_empty]
      exact .inr ⟨rfl, rfl, rfl⟩
    · obtain ⟨p, htargets, hp⟩ := exists_targets hq hempty
      rw [htargets]
      exact ih hp

theorem isAccepting_eq (hq : m.determinize.subset? q = some states) :
    m.determinize.automaton.isAccepting q = states.intersects m.accepting := by
  obtain ⟨hlt, hget⟩ := List.getElem?_eq_some_iff.1 hq
  have hmem : q ∈ m.determinize.automaton.accepting ↔ states.intersects m.accepting = true := by
    refine mem_acceptingAmong.trans ?_
    have hsub : m.subsets[q]? = some states := hq
    rw [hsub, Option.getD_some]
    exact and_iff_right hlt
  rw [Bool.eq_iff_iff, isAccepting, decide_eq_true_eq, hmem]

theorem intersects_singleton {s : StateSet} :
    (OrderedSet.singleton q).intersects s = decide (q ∈ s) := by
  rw [Bool.eq_iff_iff, OrderedSet.intersects_iff, decide_eq_true_eq]
  simp

/-- A word leads to the state of its run, or to no state if the run is empty. -/
theorem reach_cases (m : Automaton) (word : Word) :
    (∃ p, m.determinize.reach? word = some p ∧ m.determinize.subset? p = some (m.run word) ∧
      m.determinize.automaton.run word = OrderedSet.singleton p) ∨
    (m.determinize.reach? word = none ∧ m.run word = ∅ ∧
      m.determinize.automaton.run word = ∅) :=
  follow_determinize word subset?_start

/--
The deterministic automaton reads a word just if the run is not empty. It ends in the state of the
run, accepts what is accepted, and has that state as its own run.
-/
theorem determinize_agrees (m : Automaton) (word : Word) :
    ((∃ q, m.determinize.reach? word = some q) ↔ m.run word ≠ ∅) ∧
    (∀ q, m.determinize.reach? word = some q →
      m.determinize.subset? q = some (m.run word) ∧
      m.determinize.automaton.isAccepting q = m.accepts word ∧
      m.determinize.automaton.run word = OrderedSet.singleton q) ∧
    (m.determinize.reach? word = none → m.determinize.automaton.run word = ∅) ∧
    m.determinize.automaton.accepts word = m.accepts word := by
  rcases reach_cases m word with ⟨p, hreach, hsub, hrun⟩ | ⟨hreach, hnone, hrun⟩
  · have hacc : m.determinize.automaton.isAccepting p = m.accepts word := isAccepting_eq hsub
    have hne : m.run word ≠ ∅ := by
      intro hempty
      rw [hempty] at hsub
      exact empty_not_mem_subsets (mem_subsets_of_subset? hsub)
    rw [hreach]
    refine ⟨⟨fun _ => hne, fun _ => ⟨p, rfl⟩⟩, ?_, ?_, ?_⟩
    · intro q hq
      cases hq
      exact ⟨hsub, hacc, hrun⟩
    · intro h
      cases h
    · rw [← hacc, accepts, hrun, intersects_singleton]
      rfl
  · rw [hreach, hnone]
    refine ⟨by simp, ?_, fun _ => hrun, ?_⟩
    · intro q hq
      cases hq
    · rw [accepts, accepts, hrun, hnone]
      rfl

end FormalLanguage.Automaton
