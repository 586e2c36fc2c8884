import FormalLanguage.Grammar.Basic

/-! The text of a grammar: one line for each nonterminal, with its bodies between bars. -/
namespace FormalLanguage

namespace Grammar

variable (g : Grammar)

/-- Names stand together if each is a single character, and apart otherwise. -/
def joinNames (names : List String) : String :=
  if names.all fun name => name.length = 1 then String.join names
  else " ".intercalate names

/-- The text of a written body, if all its symbols have names. -/
def bodyText? : List Mark → Option String
  | [] => some epsilonText
  | marks => (marks.mapM g.table.markText?).map joinNames

def lineText? (lhs : NonTerminal) : Option String := do
  let name ← g.table.nameOf? (.nonterminal lhs)
  let bodies ← (g.bodies lhs).mapM fun body => g.bodyText? (body.map .symbol)
  return name ++ " -> " ++ " | ".intercalate bodies ++ "\n"

/-- The nonterminals with rules, the start symbol first. -/
def lineOrder : List NonTerminal :=
  (g.leftSides.toList.filter fun n => some n = g.start) ++
    g.leftSides.toList.filter fun n => some n ≠ g.start

/-- The text of the grammar, if all symbols of its rules have names. -/
def text? : Option String := (g.lineOrder.mapM g.lineText?).map String.join

end Grammar

end FormalLanguage
