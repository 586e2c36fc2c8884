import FormalLanguage.Grammar.Relation

/-! Removing bodies that are a single nonterminal. -/
namespace FormalLanguage

namespace Grammar

variable (g : Grammar)

/-- The bodies of `n` that are not a single nonterminal. -/
def properBodies (n : NonTerminal) : List Body :=
  (g.bodies n).filter fun body => ((Rule.mk n body).unit?).isNone

/-- The nonterminals of the table that unit rules lead to, other than `n` itself. -/
def unitTargets (units : Relation) (n : NonTerminal) : List NonTerminal :=
  ((units.row n.id).toList.filterMap fun id => (g.table.symbol? id).bind Symbol.nonterminal?).filter
    (· ≠ n)

/-- Empty bodies stay where they are; the other bodies are copied along the unit rules. -/
def unitFreeBodies (units : Relation) (n : NonTerminal) : List Body :=
  g.properBodies n ++ (g.unitTargets units n).flatMap fun target =>
    (g.properBodies target).filter (· ≠ [])

def eliminateUnit : Except GrammarError Grammar := do
  g.validate
  let units ← g.unitRelation
  return { g with
    rules := OrderedSet.ofList (g.nonterminals.toList.flatMap fun n =>
      (g.unitFreeBodies units n).map (Rule.mk n)) }

end Grammar

end FormalLanguage
