import FormalLanguage.Grammar.SymbolSet

/-! Removing empty bodies: each body is replaced by its variants without nullable symbols. -/
namespace FormalLanguage

/-- The body with each set of its nullable occurrences left out, one variant for each such set. -/
def omissions (nullable : Symbol → Bool) : Body → List Body
  | [] => [[]]
  | s :: body =>
    let kept := (omissions nullable body).map (s :: ·)
    if nullable s then omissions nullable body ++ kept else kept

namespace Grammar

variable (g : Grammar)

def omissionRules (nullable : Symbol → Bool) (r : Rule) : List Rule :=
  ((omissions nullable r.body).filter (· ≠ [])).map (Rule.mk r.lhs)

/-- No body is empty, except that of a start symbol that derives the empty word. -/
def eliminateEpsilon : Except GrammarError Grammar := do
  let start ← g.validStart
  let nullable := g.nullableSymbols
  let empty := if nullable.has (.nonterminal start) then [Rule.mk start []] else []
  return { g with
    rules := OrderedSet.ofList (g.rules.toList.flatMap (omissionRules nullable.has) ++ empty) }

end Grammar

end FormalLanguage
