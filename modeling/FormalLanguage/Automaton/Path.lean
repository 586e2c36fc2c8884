import FormalLanguage.Automaton.Basic

/-!
Paths of an automaton. Main statements: a run ends in the states that paths lead to, and a word is
accepted just if one of its paths ends in an accepting state.
-/
namespace FormalLanguage.Automaton

/-- A path from a state to another that spells a word. -/
inductive Path (m : Automaton) : Nat → Word → Nat → Prop
  | nil (q : Nat) : Path m q [] q
  | cons {q p r : Nat} {a : Terminal} {w : Word} (h : ⟨q, a, p⟩ ∈ m.transitions)
      (rest : Path m p w r) : Path m q (a :: w) r

variable {m : Automaton} {p q : Nat} {w : Word}

@[simp] theorem path_nil_iff : m.Path q [] p ↔ q = p :=
  ⟨fun h => by cases h; rfl, fun h => h ▸ .nil q⟩

@[simp] theorem path_cons_iff {a : Terminal} :
    m.Path q (a :: w) p ↔ ∃ r, ⟨q, a, r⟩ ∈ m.transitions ∧ m.Path r w p := by
  constructor
  · intro h
    cases h with
    | cons h rest => exact ⟨_, h, rest⟩
  · rintro ⟨r, h, rest⟩
    exact .cons h rest

theorem path_append_iff {u v : Word} :
    m.Path q (u ++ v) p ↔ ∃ r, m.Path q u r ∧ m.Path r v p := by
  induction u generalizing q with
  | nil => simp
  | cons a u ih =>
    simp only [List.cons_append, path_cons_iff, ih]
    constructor
    · rintro ⟨s, hs, r, hu, hv⟩
      exact ⟨r, ⟨s, hs, hu⟩, hv⟩
    · rintro ⟨r, ⟨s, hs, hu⟩, hv⟩
      exact ⟨s, hs, r, hu, hv⟩

theorem step_empty (a : Terminal) : m.step ∅ a = ∅ := by
  apply OrderedSet.ext
  simp

theorem follow_empty (w : Word) : m.follow ∅ w = ∅ := by
  cases w with
  | nil => rfl
  | cons a w =>
    simp only [follow, step_empty]
    rfl

/-- Leaving off early, when no states are left, makes no difference. -/
theorem follow_cons (states : StateSet) (a : Terminal) (w : Word) :
    m.follow states (a :: w) = m.follow (m.step states a) w := by
  simp only [follow]
  split
  · next hempty => rw [OrderedSet.eq_empty_of_isEmpty hempty, follow_empty]
  · rfl

theorem mem_follow {states : StateSet} : p ∈ m.follow states w ↔ ∃ q ∈ states, m.Path q w p := by
  induction w generalizing states with
  | nil => simp [follow]
  | cons a w ih =>
    rw [follow_cons, ih]
    simp only [mem_step, path_cons_iff]
    constructor
    · rintro ⟨r, ⟨q, hq, ht⟩, hp⟩
      exact ⟨q, hq, r, ht, hp⟩
    · rintro ⟨q, hq, r, ht, hp⟩
      exact ⟨r, ⟨q, hq, ht⟩, hp⟩

theorem mem_run_iff : p ∈ m.run w ↔ m.Path m.start w p := by
  simp [run, mem_follow]

theorem accepts_iff : m.accepts w = true ↔ ∃ p ∈ m.accepting, m.Path m.start w p := by
  simp only [accepts, OrderedSet.intersects_iff, mem_run_iff]
  exact exists_congr fun _ => And.comm

end FormalLanguage.Automaton
