import FormalLanguage.Grammar.Relation
import FormalLanguage.Grammar.SymbolSet

/-! Removing nonterminals that the start symbol does not reach, or that derive no word. -/
namespace FormalLanguage

namespace Grammar

variable (g : Grammar)

/-- Keeps the nonterminals that the start symbol reaches, with their rules. -/
def eliminateUnreachable : Except GrammarError Grammar := do
  let start ← g.validStart
  let reach ← g.reachRelation
  return { g with
    nonterminals := g.nonterminals.filter fun n => reach.relatedId start.id n.id
    rules := g.rules.filter fun r => reach.relatedId start.id r.lhs.id }

/-- Keeps the nonterminals that derive a word and the start symbol, with the rules over them. -/
def eliminateNonGenerating : Except GrammarError Grammar := do
  let start ← g.validStart
  let productive := g.productiveSymbols
  return { g with
    nonterminals := g.nonterminals.filter fun n => productive.hasId n.id || n = start
    rules := g.rules.filter fun r => r.body.all productive.has }

end Grammar

end FormalLanguage
