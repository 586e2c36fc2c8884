/-! Computations that may fail: what their steps and their results have in common. -/
namespace FormalLanguage

universe u v

theorem of_exists_ok {ε : Type u} {α : Type v} {x : Except ε α} {P : α → Prop} {a : α}
    (hex : ∃ b, x = .ok b ∧ P b) (h : x = .ok a) : P a := by
  obtain ⟨b, hb, hP⟩ := hex
  rw [h] at hb
  cases hb
  exact hP

theorem exists_ok {ε : Type u} {α : Type v} {x : Except ε α} (h : x.toBool = true) :
    ∃ a, x = .ok a := by
  cases x with
  | error e => cases h
  | ok a => exact ⟨a, rfl⟩

theorem bind_eq_ok_iff {ε : Type u} {α β : Type v} {x : Except ε α} {f : α → Except ε β} {b : β} :
    (x >>= f) = .ok b ↔ ∃ a, x = .ok a ∧ f a = .ok b := by
  cases x with
  | error e => simp [bind, Except.bind]
  | ok a => simp [bind, Except.bind]

theorem bind_eq_error_iff {ε : Type u} {α β : Type v} {x : Except ε α} {f : α → Except ε β} {e : ε} :
    (x >>= f) = .error e ↔ x = .error e ∨ ∃ a, x = .ok a ∧ f a = .error e := by
  cases x with
  | error e => simp [bind, Except.bind]
  | ok a => simp [bind, Except.bind]

theorem map_eq_ok_iff {ε : Type u} {α β : Type v} {f : α → β} {x : Except ε α} {b : β} :
    x.map f = .ok b ↔ ∃ a, x = .ok a ∧ f a = b := by
  cases x with
  | error e => simp [Except.map]
  | ok a => simp [Except.map]

theorem map_eq_error_iff {ε : Type u} {α β : Type v} {f : α → β} {x : Except ε α} {e : ε} :
    x.map f = .error e ↔ x = .error e := by
  cases x with
  | error e => simp [Except.map]
  | ok a => simp [Except.map]

theorem mapError_eq_ok_iff {ε ε' : Type u} {α : Type v} {f : ε → ε'} {x : Except ε α} {a : α} :
    x.mapError f = .ok a ↔ x = .ok a := by
  constructor
  · intro h
    cases x with
    | error e => cases h
    | ok b =>
      cases h
      rfl
  · rintro rfl
    rfl

theorem mapM_eq_map {α β : Type u} {f : α → Option β} {k : α → β} {l : List α}
    (h : ∀ x ∈ l, f x = some (k x)) : l.mapM f = some (l.map k) := by
  induction l with
  | nil => rfl
  | cons x l ih =>
    rw [List.forall_mem_cons] at h
    simp [h.1, ih h.2]

theorem foldlM_eq_foldl {σ α : Type u} {f : σ → α → Option σ} {k : σ → α → σ} {l : List α}
    (h : ∀ x ∈ l, ∀ s, f s x = some (k s x)) (s : σ) : l.foldlM f s = some (l.foldl k s) := by
  induction l generalizing s with
  | nil => rfl
  | cons x l ih =>
    rw [List.forall_mem_cons] at h
    rw [List.foldlM_cons, h.1]
    exact ih h.2 (k s x)

/-- What a step keeps, with the list of what is done, a run over a list keeps. -/
theorem foldlM_invariant {ε : Type u} {σ α : Type v} {f : σ → α → Except ε σ} {l : List α}
    {P : List α → σ → Prop}
    (step : ∀ done x s t, x ∈ l → P done s → f s x = .ok t → P (done ++ [x]) t)
    {done : List α} {s t : σ} (hs : P done s) (h : l.foldlM f s = .ok t) : P (done ++ l) t := by
  induction l generalizing done s with
  | nil =>
    cases h
    rwa [List.append_nil]
  | cons x l ih =>
    rw [List.foldlM_cons, bind_eq_ok_iff] at h
    obtain ⟨s', hs', ht⟩ := h
    have hrest := ih (fun done y => fun s t hy => step done y s t (List.mem_cons_of_mem x hy))
      (step done x s s' List.mem_cons_self hs hs') ht
    rwa [List.append_assoc] at hrest

theorem foldlM_keeps {ε : Type u} {σ α : Type v} {f : σ → α → Except ε σ} {l : List α}
    {P : σ → Prop} (step : ∀ x s t, x ∈ l → P s → f s x = .ok t → P t) {s t : σ} (hs : P s)
    (h : l.foldlM f s = .ok t) : P t :=
  @foldlM_invariant ε σ α f l (fun _ => P) (fun _ => step) [] s t hs h

/-- A result has the one property, an error the other. -/
structure EndsIn {ε : Type u} {α : Type v} (x : Except ε α) (P : α → Prop) (E : ε → Prop) : Prop where
  of_ok : ∀ a, x = .ok a → P a
  of_error : ∀ e, x = .error e → E e

namespace EndsIn

variable {ε ε' : Type u} {σ α : Type v} {x : Except ε α} {P : α → Prop} {E : ε → Prop}

theorem ok {a : α} (h : P a) : EndsIn (.ok a) P E where
  of_ok := by
    rintro _ ⟨⟩
    exact h
  of_error := by rintro e ⟨⟩

theorem imp {Q : α → Prop} (hx : EndsIn x P E) (h : ∀ a, x = .ok a → P a → Q a) : EndsIn x Q E where
  of_ok a ha := h a ha (hx.of_ok a ha)
  of_error := hx.of_error

theorem bind {f : α → Except ε σ} {Q : σ → Prop} (hx : EndsIn x P E)
    (hf : ∀ a, x = .ok a → P a → EndsIn (f a) Q E) : EndsIn (x >>= f) Q E := by
  cases x with
  | error e =>
    constructor
    · rintro b ⟨⟩
    · rintro _ ⟨⟩
      exact hx.of_error e rfl
  | ok a => exact hf a rfl (hx.of_ok a rfl)

theorem mapError {f : ε → ε'} {E' : ε' → Prop} (hx : EndsIn x P E) (h : ∀ e, E e → E' (f e)) :
    EndsIn (x.mapError f) P E' := by
  cases x with
  | error e =>
    constructor
    · rintro a ⟨⟩
    · rintro _ ⟨⟩
      exact h e (hx.of_error e rfl)
  | ok a => exact ok (hx.of_ok a rfl)

/-- An invariant of each step, with the list of what is done, or an error that a step may end in. -/
theorem foldlM {f : σ → α → Except ε σ} {l : List α} {P : List α → σ → Prop}
    (step : ∀ done x s, x ∈ l → P done s → EndsIn (f s x) (P (done ++ [x])) E) {done : List α} {s : σ}
    (hs : P done s) : EndsIn (l.foldlM f s) (P (done ++ l)) E := by
  induction l generalizing done s with
  | nil =>
    rw [List.append_nil]
    exact .ok hs
  | cons x l ih =>
    rw [List.foldlM_cons, ← List.singleton_append, ← List.append_assoc]
    refine (step done x s List.mem_cons_self hs).bind fun t _ ht => ?_
    exact ih (fun done y t hy => step done y t (List.mem_cons_of_mem x hy)) ht

end EndsIn

end FormalLanguage
