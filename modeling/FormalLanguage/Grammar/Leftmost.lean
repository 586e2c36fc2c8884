import FormalLanguage.Grammar.Derivation

/-!
Derivations that always replace the leftmost nonterminal, with the number of their steps. Every word
that is derived at all is derived in this way.
-/
namespace FormalLanguage.Grammar

/-- Replaces the leftmost nonterminal of a form by one of its bodies. -/
inductive LeftmostStep (g : Grammar) : Body → Body → Prop
  | replace {r : Rule} (h : r ∈ g.rules) (before : Word) (after : Body) :
      LeftmostStep g (.ofWord before ++ .nonterminal r.lhs :: after)
        (.ofWord before ++ r.body ++ after)

/-- Replaces leftmost nonterminals in the given number of steps. -/
inductive LeftmostDerives (g : Grammar) : Nat → Body → Body → Prop
  | refl (form : Body) : LeftmostDerives g 0 form form
  | head {m : Nat} {form next last : Body} (first : g.LeftmostStep form next)
      (rest : LeftmostDerives g m next last) : LeftmostDerives g (m + 1) form last

variable {g : Grammar} {form next last : Body} {w : Word} {k m : Nat}

theorem LeftmostStep.step (h : g.LeftmostStep form next) : g.Step form next := by
  cases h with
  | replace h before after => exact .replace h (.ofWord before) after

theorem LeftmostDerives.derives (h : g.LeftmostDerives m form last) : g.Derives form last := by
  induction h with
  | refl => exact .refl _
  | head first _ ih => exact .head first.step ih

theorem LeftmostDerives.trans (h : g.LeftmostDerives k form next)
    (h' : g.LeftmostDerives m next last) : g.LeftmostDerives (k + m) form last := by
  induction h with
  | refl => rwa [Nat.zero_add]
  | head first _ ih =>
    rw [Nat.succ_add]
    exact .head first (ih h')

/-- A word of a form is derived leftmost behind any word and in front of any form. -/
theorem exists_leftmost_of_yields (h : g.Yields form w) (before : Word) (after : Body) :
    ∃ m, g.LeftmostDerives m (.ofWord before ++ form ++ after)
      (.ofWord (before ++ w) ++ after) := by
  induction h generalizing before after with
  | nil => exact ⟨0, by simpa using LeftmostDerives.refl _⟩
  | @terminal a form w _ ih =>
    obtain ⟨m, hm⟩ := ih (before ++ [a]) after
    exact ⟨m, by simpa using hm⟩
  | @nonterminal r form u v hr _ _ ihu ihv =>
    obtain ⟨k, hk⟩ := ihu before (form ++ after)
    obtain ⟨m, hm⟩ := ihv (before ++ u) after
    have hfirst := LeftmostStep.replace hr before (form ++ after)
    have hbody : g.LeftmostDerives (k + 1)
        (.ofWord before ++ .nonterminal r.lhs :: (form ++ after))
        (.ofWord (before ++ u) ++ form ++ after) := by
      simpa using LeftmostDerives.head hfirst hk
    exact ⟨k + 1 + m, by simpa using hbody.trans hm⟩

theorem generates_iff_leftmost : g.Generates w ↔ ∃ start m, g.start = some start ∧
    g.LeftmostDerives m [.nonterminal start] (.ofWord w) := by
  constructor
  · rintro ⟨start, hstart, h⟩
    obtain ⟨m, hm⟩ := exists_leftmost_of_yields (yields_of_derives h) [] []
    exact ⟨start, m, hstart, by simpa using hm⟩
  · rintro ⟨start, m, hstart, h⟩
    exact ⟨start, hstart, h.derives⟩

end FormalLanguage.Grammar
