import FormalLanguage.Notation.Document

/-!
What written names stand for. Declared names and left-hand sides keep their kind; of the others,
those that start with an uppercase letter are nonterminals.
-/
namespace FormalLanguage.Notation

/-- The names whose kind is known before any body is read. -/
structure Scope where
  nonterminals : List (List Char)
  /-- Nothing unless terminals are declared; if they are, no other names are terminals. -/
  terminals : Option (List (List Char))
deriving DecidableEq

/-- The name of a left-hand side that is one unquoted name. -/
def WrittenRule.name? (r : WrittenRule) : Option (List Char) :=
  match r.lhs.symbols with
  | [w] => if w.quoted then none else some w.text
  | _ => none

/-- The declared names, together with the left-hand sides if these are single names. -/
def Document.scope (d : Document) (singleNames : Bool) : Scope where
  nonterminals := d.nonterminals.map Named.text ++
    if singleNames then d.rules.filterMap WrittenRule.name? else []
  terminals := d.terminals.map (·.map Named.text)

def bindTerminal (v : Vocabulary) (name : List Char) (p : Position) :
    Except LoadError (Terminal × Vocabulary) :=
  (v.terminal (String.ofList name)).mapError fun e => ⟨.naming e, p⟩

def bindNonTerminal (v : Vocabulary) (name : List Char) (p : Position) :
    Except LoadError (NonTerminal × Vocabulary) :=
  (v.nonterminal (String.ofList name)).mapError fun e => ⟨.naming e, p⟩

/-- The marker of the empty string is no name. -/
def isEpsilon (text : List Char) : Bool := text = epsilonText.toList

namespace Scope

variable (scope : Scope)

def isNonTerminal (name : List Char) : Bool :=
  name ∈ scope.nonterminals || ((scope.terminals.getD []).all (· ≠ name) && name.head?.any isUpper)

def isTerminal (name : List Char) : Bool :=
  match scope.terminals with
  | none => true
  | some names => name ∈ names

def isKnown (name : List Char) : Bool :=
  name ∈ scope.nonterminals || name ∈ scope.terminals.getD []

/-- The symbol that an unquoted name stands for. -/
def symbol (v : Vocabulary) (name : List Char) (p : Position) :
    Except LoadError (Symbol × Vocabulary) :=
  if scope.isNonTerminal name then (bindNonTerminal v name p).map fun (n, v) => (.nonterminal n, v)
  else if scope.isTerminal name then (bindTerminal v name p).map fun (a, v) => (.terminal a, v)
  else .error ⟨.undeclaredTerminal (String.ofList name), p⟩

def symbolList (v : Vocabulary) (p : Position) : List (List Char) → Except LoadError (Body × Vocabulary)
  | [] => .ok ([], v)
  | name :: names => do
    let (s, v) ← scope.symbol v name p
    let (body, v) ← symbolList v p names
    return (s :: body, v)

/-- The names in an unquoted text: a text that stands alone and is not known is split. -/
def names (alone : Bool) (text : List Char) : List (List Char) :=
  if isEpsilon text then []
  else if !alone || scope.isKnown text || text.length = 1 then [text]
  else (text.map fun c => [c]).filter fun name => !isEpsilon name

/-- The symbols that a written symbol stands for. A literal is a terminal. -/
def written (alone : Bool) (v : Vocabulary) (w : Written) : Except LoadError (Body × Vocabulary) :=
  if w.quoted then (bindTerminal v w.text w.position).map fun (a, v) => ([.terminal a], v)
  else scope.symbolList v w.position (scope.names alone w.text)

def writtenList (alone : Bool) (v : Vocabulary) : List Written → Except LoadError (Body × Vocabulary)
  | [] => .ok ([], v)
  | w :: ws => do
    let (first, v) ← scope.written alone v w
    let (rest, v) ← writtenList alone v ws
    return (first ++ rest, v)

/-- The symbols of a sequence. -/
def body (v : Vocabulary) (s : Sequence) : Except LoadError (Body × Vocabulary) :=
  scope.writtenList (s.symbols.length ≤ 1) v s.symbols

end Scope

end FormalLanguage.Notation
