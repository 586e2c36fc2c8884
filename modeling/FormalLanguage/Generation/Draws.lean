/-!
Uniform picks from a source of 64-bit words: the high half of the product of a word and the number
of choices, with the words refused that would favour some choices.
-/
namespace FormalLanguage

universe u

/-- A source of words. -/
structure Source (σ : Type u) where
  next : σ → UInt64 × σ
  /-- How many words in a row may be refused. -/
  patience : σ → Nat

/-- The number `n` shifted to the left until it has 64 digits, less one. -/
def zone (n : Nat) : Nat := (n <<< (63 - Nat.log2 n)) - 1

/-- The pick that a word stands for. -/
def highPart (n : Nat) (h : 0 < n) (w : UInt64) : Fin n :=
  ⟨w.toNat * n / UInt64.size,
    Nat.div_lt_of_lt_mul (Nat.mul_lt_mul_of_pos_right w.toNat_lt_size h)⟩

namespace Source

variable {σ : Type u} (source : Source σ)

/-- Draws words until one is not refused. -/
def pickWithin (n : Nat) (h : 0 < n) : (attempts : Nat) → σ → Fin n × σ
  | 0, s => (⟨0, h⟩, s)
  | attempts + 1, s =>
    let (w, s) := source.next s
    if w.toNat * n % UInt64.size ≤ zone n then (highPart n h w, s) else pickWithin n h attempts s

/-- One of `n` choices. -/
def pick (n : Nat) (h : 0 < n) (s : σ) : Fin n × σ := source.pickWithin n h (source.patience s) s

end Source

/-- Recorded words, and zeros when they are used up. A zero is never refused. -/
def recorded : Source (List UInt64) where
  next
    | [] => (0, [])
    | w :: ws => (w, ws)
  patience ws := ws.length + 1

end FormalLanguage
