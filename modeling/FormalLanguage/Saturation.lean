/-! Repeating a step until it changes nothing. A measure that every change lowers bounds the repeats. -/
namespace FormalLanguage

universe u

variable {α : Type u} [DecidableEq α]

/-- Repeats a step until nothing changes, at most `bound` times. -/
def saturate (step : α → α) : Nat → α → α
  | 0, a => a
  | bound + 1, a => if step a = a then a else saturate step bound (step a)

/-- If every change lowers a measure, the measure of the start is bound enough. -/
theorem step_saturate {step : α → α} {measure : α → Nat}
    (lower : ∀ a, step a ≠ a → measure (step a) < measure a) {bound : Nat} {a : α}
    (h : measure a ≤ bound) : step (saturate step bound a) = saturate step bound a := by
  induction bound generalizing a with
  | zero =>
    by_cases ha : step a = a
    · exact ha
    · exact absurd (lower a ha) (by omega)
  | succ bound ih =>
    unfold saturate
    split
    · assumption
    · next ha => exact ih (by have := lower a ha; omega)

/-- What the start has and every step keeps, the end has. -/
theorem saturate_induction {step : α → α} {P : α → Prop} (keep : ∀ a, P a → P (step a))
    (bound : Nat) {a : α} (h : P a) : P (saturate step bound a) := by
  induction bound generalizing a with
  | zero => exact h
  | succ bound ih =>
    unfold saturate
    split
    · exact h
    · exact ih (keep a h)

end FormalLanguage
