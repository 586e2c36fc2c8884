import Mathlib.Data.List.Induction

/-!
What happens along a list of calls, given by the call, those before it and those after it. Main
statement: a property that each call brings about or keeps is there after a run just if some call
brought it about and all later ones kept it.
-/
namespace FormalLanguage

universe u v

variable {α : Type u} {l : List α} {x : α}

/-- A member of a longer list is the last one, or one that was there with one less after it. -/
theorem exists_split_concat {R : List α → α → List α → Prop} :
    (∃ before y later, l ++ [x] = before ++ y :: later ∧ R before y later) ↔
      R l x [] ∨ ∃ before y later, l = before ++ y :: later ∧ R before y (later ++ [x]) := by
  constructor
  · rintro ⟨before, y, later, heq, hR⟩
    rcases List.eq_nil_or_concat later with rfl | ⟨later, last, rfl⟩
    · obtain ⟨rfl, hxy⟩ := List.append_inj' heq rfl
      rw [List.singleton_inj] at hxy
      exact .inl (hxy ▸ hR)
    · rw [List.concat_eq_append] at heq hR
      rw [← List.cons_append, ← List.append_assoc] at heq
      obtain ⟨hl, hlast⟩ := List.append_inj' heq rfl
      rw [List.singleton_inj] at hlast
      exact .inr ⟨before, y, later, hl, hlast ▸ hR⟩
  · rintro (hR | ⟨before, y, later, rfl, hR⟩)
    · exact ⟨l, x, [], rfl, hR⟩
    · exact ⟨before, y, later ++ [x], by simp, hR⟩

theorem not_exists_split_nil {R : List α → α → List α → Prop} :
    ¬ ∃ before y later, [] = before ++ y :: later ∧ R before y later := by
  rintro ⟨before, y, later, heq, -⟩
  exact absurd heq.symm (by simp)

section Happens

variable {P : List α → α → Prop}

/-- Some member of the list has the property, together with the members before it. -/
def Happens (l : List α) (P : List α → α → Prop) : Prop :=
  ∃ before x later, l = before ++ x :: later ∧ P before x

theorem not_happens_nil : ¬ Happens [] P := not_exists_split_nil

theorem happens_concat : Happens (l ++ [x]) P ↔ Happens l P ∨ P l x :=
  exists_split_concat.trans or_comm

end Happens

section Lasts

variable {P Q : α → Prop}

/-- Some member of the list has the first property, and all members after it have the second. -/
def Lasts (l : List α) (P Q : α → Prop) : Prop :=
  ∃ before x later, l = before ++ x :: later ∧ P x ∧ ∀ y ∈ later, Q y

theorem not_lasts_nil : ¬ Lasts [] P Q := not_exists_split_nil

theorem lasts_concat : Lasts (l ++ [x]) P Q ↔ P x ∨ Q x ∧ Lasts l P Q := by
  refine exists_split_concat.trans (or_congr (and_iff_left (List.forall_mem_nil Q)) ?_)
  constructor
  · rintro ⟨before, y, later, hl, hy, hlater⟩
    obtain ⟨hold, hx⟩ := List.forall_mem_append.1 hlater
    exact ⟨List.forall_mem_singleton.1 hx, before, y, later, hl, hy, hold⟩
  · rintro ⟨hx, before, y, later, hl, hy, hold⟩
    exact ⟨before, y, later, hl, hy,
      List.forall_mem_append.2 ⟨hold, List.forall_mem_singleton.2 hx⟩⟩

/-- The induction along a run, from what a single call does to the state. -/
theorem foldl_iff_lasts {σ : Type v} {step : σ → α → σ} (start : σ) (holds : σ → Prop)
    (hstart : ¬ holds start) (hstep : ∀ s x, holds (step s x) ↔ P x ∨ Q x ∧ holds s) (l : List α) :
    holds (l.foldl step start) ↔ Lasts l P Q := by
  induction l using List.reverseRecOn with
  | nil => exact iff_of_false hstart not_lasts_nil
  | append_singleton l x ih =>
    rw [List.foldl_append, List.foldl_cons, List.foldl_nil, hstep, ih, lasts_concat]

end Lasts

end FormalLanguage
