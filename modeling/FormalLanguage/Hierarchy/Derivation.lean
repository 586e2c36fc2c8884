import FormalLanguage.Hierarchy.PhraseGrammar

/-! Derivations of a phrase grammar: occurrences of left-hand sides are replaced. -/
namespace FormalLanguage.PhraseGrammar

/-- Replaces one occurrence of a left-hand side by its right-hand side. -/
inductive Step (g : PhraseGrammar) : Body → Body → Prop
  | replace {r : PhraseRule} (h : r ∈ g.rules) (before after : Body) :
      Step g (before ++ r.lhs ++ after) (before ++ r.rhs ++ after)

/-- Replaces any number of occurrences, one after the other. -/
inductive Derives (g : PhraseGrammar) : Body → Body → Prop
  | refl (form : Body) : Derives g form form
  | head {form next last : Body} (first : g.Step form next) (rest : Derives g next last) :
      Derives g form last

variable {g : PhraseGrammar} {form next last : Body}

theorem Derives.trans (h : g.Derives form next) (h' : g.Derives next last) :
    g.Derives form last := by
  induction h with
  | refl => exact h'
  | head first _ ih => exact .head first (ih h')

/-- A step goes on within a larger form. -/
theorem step_within (h : g.Step form next) (before after : Body) :
    g.Step (before ++ form ++ after) (before ++ next ++ after) := by
  cases h with
  | replace h b a => simpa using Step.replace h (before ++ b) (a ++ after)

end FormalLanguage.PhraseGrammar
