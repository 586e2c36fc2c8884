import FormalLanguage.Automaton.Builder

/-! What the steps of a construction add to an automaton, and when it can be built. -/
namespace FormalLanguage.AutomatonBuilder

universe u

variable {b b' : AutomatonBuilder} {a : Terminal} {name : String} {start : Nat}

/-- The second builder has these letters besides those of the first. -/
structure Lettered (b b' : AutomatonBuilder) (letters : List Terminal) : Prop where
  table : b'.table = b.table
  mem_alphabet : ∀ a, a ∈ b'.alphabet ↔ a ∈ letters ∨ a ∈ b.alphabet
  stateNames : b'.stateNames = b.stateNames
  transitions : b'.transitions = b.transitions
  accepting : b'.accepting = b.accepting

theorem exists_addLetter (h : b.table.contains (.terminal a) = true) :
    ∃ b', b.addLetter a = .ok b' ∧ b.Lettered b' [a] := by
  rw [addLetter, dif_pos h]
  refine ⟨_, rfl, rfl, ?_, rfl, rfl, rfl⟩
  intro x
  rw [OrderedSet.mem_insert, List.mem_singleton]

/-- Terminals of the table may all become letters. -/
theorem exists_addLetters {letters : List Terminal}
    (h : ∀ a ∈ letters, b.table.contains (.terminal a) = true) :
    ∃ b', letters.foldlM addLetter b = .ok b' ∧ b.Lettered b' letters := by
  induction letters generalizing b with
  | nil => exact ⟨b, rfl, rfl, by simp, rfl, rfl, rfl⟩
  | cons a letters ih =>
    rw [List.forall_mem_cons] at h
    obtain ⟨b₁, hadd, h₁⟩ := exists_addLetter h.1
    obtain ⟨b₂, hrest, h₂⟩ := ih (b := b₁) (by rw [h₁.table]; exact h.2)
    refine ⟨b₂, ?_, h₂.table.trans h₁.table, fun x => ?_, h₂.stateNames.trans h₁.stateNames,
      h₂.transitions.trans h₁.transitions, h₂.accepting.trans h₁.accepting⟩
    · rw [List.foldlM_cons, hadd]
      exact hrest
    · rw [h₂.mem_alphabet, h₁.mem_alphabet, List.mem_singleton, List.mem_cons, or_left_comm,
        or_assoc]

/-- The second builder has states of these names besides those of the first. -/
structure Named (b b' : AutomatonBuilder) (names : List String) : Prop where
  table : b'.table = b.table
  alphabet : b'.alphabet = b.alphabet
  stateNames : b'.stateNames = b.stateNames ++ names
  transitions : b'.transitions = b.transitions
  accepting : b'.accepting = b.accepting

theorem Named.refl (b : AutomatonBuilder) : b.Named b [] :=
  ⟨rfl, rfl, (List.append_nil b.stateNames).symm, rfl, rfl⟩

theorem Named.trans {b'' : AutomatonBuilder} {names names' : List String} (h : b.Named b' names)
    (h' : b'.Named b'' names') : b.Named b'' (names ++ names') where
  table := h'.table.trans h.table
  alphabet := h'.alphabet.trans h.alphabet
  stateNames := by rw [h'.stateNames, h.stateNames, List.append_assoc]
  transitions := h'.transitions.trans h.transitions
  accepting := h'.accepting.trans h.accepting

/-- A new state takes the next number. -/
theorem state_of_not_mem (h : name ∉ b.stateNames) :
    (b.state name).1 = b.stateNames.length ∧ b.Named (b.state name).2 [name] := by
  have hnone : b.stateNames.findIdx? (fun x => decide (x = name)) = none := by
    rw [List.findIdx?_eq_none_iff]
    intro x hx
    exact decide_eq_false fun heq => h (heq ▸ hx)
  unfold state
  split
  · next q hq =>
    rw [hnone] at hq
    cases hq
  · exact ⟨rfl, rfl, rfl, rfl, rfl, rfl⟩

/-- The second builder has these transitions and accepting states besides those of the first. -/
structure Extended (b b' : AutomatonBuilder) (T : Transition → Prop) (A : Nat → Prop) : Prop where
  table : b'.table = b.table
  alphabet : b'.alphabet = b.alphabet
  stateNames : b'.stateNames = b.stateNames
  mem_transitions : ∀ t, t ∈ b'.transitions ↔ t ∈ b.transitions ∨ T t
  mem_accepting : ∀ q, q ∈ b'.accepting ↔ q ∈ b.accepting ∨ A q

theorem extended_transition (b : AutomatonBuilder) (q : Nat) (a : Terminal) (p : Nat) :
    b.Extended (b.transition q a p) (fun t => t = ⟨q, a, p⟩) fun _ => False := by
  refine ⟨rfl, rfl, rfl, ?_, ?_⟩
  · intro t
    exact OrderedSet.mem_insert.trans or_comm
  · intro r
    exact (or_iff_left id).symm

theorem extended_accept (b : AutomatonBuilder) (q : Nat) :
    b.Extended (b.accept q) (fun _ => False) fun r => r = q := by
  refine ⟨rfl, rfl, rfl, ?_, ?_⟩
  · intro t
    exact (or_iff_left id).symm
  · intro r
    exact OrderedSet.mem_insert.trans or_comm

namespace Extended

variable {T T' : Transition → Prop} {A A' : Nat → Prop}

theorem refl (b : AutomatonBuilder) : b.Extended b (fun _ => False) fun _ => False :=
  ⟨rfl, rfl, rfl, fun _ => (or_iff_left id).symm, fun _ => (or_iff_left id).symm⟩

theorem congr (h : b.Extended b' T A) (hT : ∀ t, T t ↔ T' t) (hA : ∀ q, A q ↔ A' q) :
    b.Extended b' T' A' where
  table := h.table
  alphabet := h.alphabet
  stateNames := h.stateNames
  mem_transitions t := (h.mem_transitions t).trans (or_congr_right (hT t))
  mem_accepting q := (h.mem_accepting q).trans (or_congr_right (hA q))

theorem trans {b'' : AutomatonBuilder} (h : b.Extended b' T A) (h' : b'.Extended b'' T' A') :
    b.Extended b'' (fun t => T t ∨ T' t) fun q => A q ∨ A' q where
  table := h'.table.trans h.table
  alphabet := h'.alphabet.trans h.alphabet
  stateNames := h'.stateNames.trans h.stateNames
  mem_transitions t := by rw [h'.mem_transitions, h.mem_transitions, or_assoc]
  mem_accepting q := by rw [h'.mem_accepting, h.mem_accepting, or_assoc]

/-- A row of steps adds what each of them adds. -/
theorem foldl {α : Type u} {f : AutomatonBuilder → α → AutomatonBuilder}
    {T : α → Transition → Prop} {A : α → Nat → Prop} {l : List α}
    (hf : ∀ b : AutomatonBuilder, ∀ x ∈ l, b.Extended (f b x) (T x) (A x)) (b : AutomatonBuilder) :
    b.Extended (l.foldl f b) (fun t => ∃ x ∈ l, T x t) fun q => ∃ x ∈ l, A x q := by
  induction l generalizing b with
  | nil => simpa using refl b
  | cons x l ih =>
    have hfirst := hf b x List.mem_cons_self
    have hrest := ih (fun b y hy => hf b y (List.mem_cons_of_mem x hy)) (f b x)
    simpa only [List.foldl_cons, List.mem_cons, exists_eq_or_imp] using hfirst.trans hrest

end Extended

/-- What is declared is not at fault. -/
theorem fault?_eq_none_of (hstart : start < b.stateNames.length)
    (hacc : ∀ q ∈ b.accepting, q < b.stateNames.length)
    (htrans : ∀ t ∈ b.transitions,
      t.source < b.stateNames.length ∧ t.target < b.stateNames.length ∧ t.letter ∈ b.alphabet) :
    b.fault? start = none := by
  rw [fault?, Option.or_eq_none_iff, List.findSome?_eq_none_iff, List.findSome?_eq_none_iff]
  refine ⟨List.forall_mem_cons.2 ⟨stateFault?_eq_none.2 hstart, ?_⟩, ?_⟩
  · intro q hq
    exact stateFault?_eq_none.2 (hacc q hq)
  · intro t ht
    obtain ⟨hsource, -, hletter⟩ := htrans t ht
    have hsiblings : (b.siblings t).findSome? b.stateFault? = none := by
      rw [List.findSome?_eq_none_iff]
      intro q hq
      obtain ⟨u, hu, rfl⟩ := List.mem_map.1 hq
      exact stateFault?_eq_none.2 (htrans u (List.mem_filter.1 hu).1).2.1
    rw [transitionFault?, stateFault?_eq_none.2 hsource, hsiblings, letterFault?_eq_none.2 hletter]
    rfl

theorem exists_build (hstart : b.start = some start) (hfault : b.fault? start = none) :
    ∃ m, b.build = .ok m ∧ m.table = b.table ∧ m.stateNames = b.stateNames ∧
      m.transitions = b.transitions ∧ m.start = start ∧ m.accepting = b.accepting := by
  unfold build
  split
  · next hnone =>
    rw [hstart] at hnone
    cases hnone
  · next start' hsome =>
    rw [hstart] at hsome
    cases hsome
    split
    · next e he =>
      rw [hfault] at he
      cases he
    · exact ⟨_, rfl, rfl, rfl, rfl, rfl, rfl⟩

/-- The parts of an automaton are those of the builder. -/
structure Builds (b : AutomatonBuilder) (m : Automaton) : Prop where
  table : m.table = b.table
  alphabet : m.alphabet = b.alphabet
  stateNames : m.stateNames = b.stateNames
  transitions : m.transitions = b.transitions
  start : b.start = some m.start
  accepting : m.accepting = b.accepting

theorem builds_of_build {m : Automaton} (h : b.build = .ok m) : b.Builds m := by
  unfold build at h
  split at h
  · cases h
  · next start hstart =>
    split at h
    · cases h
    · cases h
      exact ⟨rfl, rfl, rfl, rfl, hstart, rfl⟩

theorem nodup_of_build {m : Automaton} (h : b.build = .ok m) : m.stateNames.Nodup :=
  (builds_of_build h).stateNames ▸ b.nodup

end FormalLanguage.AutomatonBuilder
