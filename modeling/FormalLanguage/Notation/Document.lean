import FormalLanguage.Notation.Lexeme

/-!
Rules and directives of a text. A rule is a left-hand side, an arrow and alternatives between bars;
a line that starts with a bar continues the rule on the line above.
-/
namespace FormalLanguage.Notation

/-- A symbol as it is written. -/
structure Written where
  text : List Char
  quoted : Bool
  position : Position
deriving DecidableEq

def Written.name (w : Written) : String := String.ofList w.text

/-- Symbols of one line, at the position of the first. -/
structure Sequence where
  position : Position
  symbols : List Written
deriving DecidableEq

structure WrittenRule where
  lhs : Sequence
  alternatives : List Sequence
deriving DecidableEq

inductive Item where
  | rule (rule : WrittenRule)
  | directive (name : Named) (arguments : List Named)
deriving DecidableEq

/-- A sequence from its first symbol and the others. -/
def Sequence.ofSymbols (first : Written) (others : List Written) : Sequence :=
  ⟨first.position, first :: others⟩

mutual

/-- The alternatives after an arrow or a bar. -/
def alternatives (ending : Position) : List Lexeme → Except LoadError (List Sequence)
  | [] => .error ⟨.emptyAlternative, ending⟩
  | ⟨.bar, position⟩ :: _ => .error ⟨.emptyAlternative, position⟩
  | ⟨.arrow, position⟩ :: _ => .error ⟨.unexpectedArrow, position⟩
  | ⟨.word text, position⟩ :: rest => moreSymbols ending ⟨text, false, position⟩ [] rest
  | ⟨.literal text, position⟩ :: rest => moreSymbols ending ⟨text, true, position⟩ [] rest

/-- The alternatives from the middle of the first one. -/
def moreSymbols (ending : Position) (first : Written) (others : List Written) :
    List Lexeme → Except LoadError (List Sequence)
  | [] => .ok [.ofSymbols first others]
  | ⟨.bar, _⟩ :: rest => (.ofSymbols first others :: ·) <$> alternatives ending rest
  | ⟨.arrow, position⟩ :: _ => .error ⟨.unexpectedArrow, position⟩
  | ⟨.word text, position⟩ :: rest =>
    moreSymbols ending first (others ++ [⟨text, false, position⟩]) rest
  | ⟨.literal text, position⟩ :: rest =>
    moreSymbols ending first (others ++ [⟨text, true, position⟩]) rest

end

/-- The rule of a line from the middle of its left-hand side. -/
def ruleFrom (ending : Position) (first : Written) (others : List Written) :
    List Lexeme → Except LoadError WrittenRule
  | [] => .error ⟨.missingArrow, ending⟩
  | ⟨.bar, position⟩ :: _ => .error ⟨.unexpectedBar, position⟩
  | ⟨.arrow, _⟩ :: rest => (⟨.ofSymbols first others, ·⟩) <$> alternatives ending rest
  | ⟨.word text, position⟩ :: rest => ruleFrom ending first (others ++ [⟨text, false, position⟩]) rest
  | ⟨.literal text, position⟩ :: rest => ruleFrom ending first (others ++ [⟨text, true, position⟩]) rest

/-- The items of the lines, the rule of the line above being still open if there is one. -/
def itemsFrom (current : Option WrittenRule) : List Line → Except LoadError (List Item)
  | [] => .ok (current.toList.map .rule)
  | .directive name arguments _ :: lines => do
    let items ← itemsFrom none lines
    return current.toList.map .rule ++ .directive name arguments :: items
  | .lexemes [] _ :: lines => do
    let items ← itemsFrom none lines
    return current.toList.map .rule ++ items
  | .lexemes (⟨.arrow, position⟩ :: _) _ :: _ => .error ⟨.missingLeftHandSide, position⟩
  | .lexemes (⟨.bar, position⟩ :: rest) ending :: lines =>
    match current with
    | none => .error ⟨.alternativeWithoutRule, position⟩
    | some rule => do
      let more ← alternatives ending rest
      itemsFrom (some { rule with alternatives := rule.alternatives ++ more }) lines
  | .lexemes (⟨.word text, position⟩ :: rest) ending :: lines => do
    let rule ← ruleFrom ending ⟨text, false, position⟩ [] rest
    let items ← itemsFrom (some rule) lines
    return current.toList.map .rule ++ items
  | .lexemes (⟨.literal text, position⟩ :: rest) ending :: lines => do
    let rule ← ruleFrom ending ⟨text, true, position⟩ [] rest
    let items ← itemsFrom (some rule) lines
    return current.toList.map .rule ++ items

structure Document where
  rules : List WrittenRule := []
  start : Option Named := none
  nonterminals : List Named := []
  /-- Nothing unless terminals are declared. -/
  terminals : Option (List Named) := none
deriving DecidableEq

namespace Document

def addDirective (d : Document) (name : Named) (arguments : List Named) :
    Except LoadError Document :=
  if name.text = "%start".toList then
    if d.start.isSome then .error ⟨.startTwice, name.position⟩
    else
      match arguments with
      | [start] => .ok { d with start := some start }
      | _ => .error ⟨.startArity, name.position⟩
  else if name.text = "%nonterminals".toList then
    .ok { d with nonterminals := d.nonterminals ++ arguments }
  else if name.text = "%terminals".toList then
    .ok { d with terminals := some (d.terminals.getD [] ++ arguments) }
  else .error ⟨.unknownDirective name.name, name.position⟩

def addItem (d : Document) : Item → Except LoadError Document
  | .rule rule => .ok { d with rules := d.rules ++ [rule] }
  | .directive name arguments => d.addDirective name arguments

/-- Reads a text: its lexemes first, then the form of its lines, then its directives. -/
def parse (text : List Char) : Except LoadError Document := do
  let lines ← lexLines text
  let items ← itemsFrom none lines
  items.foldlM addItem {}

end Document

end FormalLanguage.Notation
