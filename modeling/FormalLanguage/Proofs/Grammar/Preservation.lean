import FormalLanguage.Proofs.Grammar.Substitution
import FormalLanguage.Proofs.Grammar.WellFormed

/-! Changes of a grammar that keep its language. -/
namespace FormalLanguage.Grammar

variable {g h k : Grammar} {w : Word}

/-- The changed grammar is well-formed, has the same start symbol and derives the same words. -/
structure Preserves (g h : Grammar) : Prop where
  wellFormed : h.WellFormed
  start : h.start = g.start
  generates : ∀ w, h.Generates w ↔ g.Generates w

theorem Preserves.refl (wf : g.WellFormed) : g.Preserves g := ⟨wf, rfl, fun _ => Iff.rfl⟩

theorem Preserves.trans (hgh : g.Preserves h) (hhk : h.Preserves k) : g.Preserves k where
  wellFormed := hhk.wellFormed
  start := hhk.start.trans hgh.start
  generates w := (hhk.generates w).trans (hgh.generates w)

/-- What the start symbol derives decides what the grammar derives. -/
theorem generates_congr (hstart : h.start = g.start)
    (hyields : ∀ start, g.start = some start →
      (h.Yields [.nonterminal start] w ↔ g.Yields [.nonterminal start] w)) :
    h.Generates w ↔ g.Generates w := by
  rw [generates_iff_yields, generates_iff_yields, hstart]
  constructor
  · rintro ⟨start, hs, hw⟩
    exact ⟨start, hs, (hyields start hs).1 hw⟩
  · rintro ⟨start, hs, hw⟩
    exact ⟨start, hs, (hyields start hs).2 hw⟩

end FormalLanguage.Grammar
