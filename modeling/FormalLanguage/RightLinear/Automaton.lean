import FormalLanguage.Automaton.Builder
import FormalLanguage.Grammar.Printer
import FormalLanguage.Grammar.Relation
import FormalLanguage.Hierarchy.Linear
import FormalLanguage.RightLinear.Error

/-!
The automaton of a right-linear grammar: nonterminals are states, and a body `a` leads to an
accepting state of its own. Unit rules are followed in advance.
-/
namespace FormalLanguage.Grammar

variable (g : Grammar)

def nameText (s : Symbol) : Except ConversionError String :=
  match g.table.nameOf? s with
  | some name => .ok name
  | none => .error (.grammar .outOfRange)

/-- Refuses the first rule whose body is not right-linear. -/
def checkRightLinear : Except ConversionError Unit :=
  match g.rules.toList.find? fun r => !isRightLinearBody r.body with
  | none => .ok ()
  | some r => do
    let lhs ← g.nameText (.nonterminal r.lhs)
    match g.bodyText? r.marks with
    | some rhs => .error (.notRightLinear lhs rhs)
    | none => .error (.grammar .outOfRange)

def sinkCandidate (n : Nat) : String := if n = 0 then "end" else "end" ++ toString n

/-- The first of the names `end`, `end1`, … that no symbol has. -/
def sinkName : String :=
  (((List.range (g.table.size + 1)).map sinkCandidate).find? fun name =>
    (g.table.get? name).isNone).getD (sinkCandidate 0)

/-- The nonterminals by the number of their state. -/
def stateOrder (start : NonTerminal) : List NonTerminal :=
  start :: (g.nonterminals.erase start).toList

/-- The nonterminals that unit rules lead to from `n`, and `n` itself. -/
def unitSources (units : Relation) (n : NonTerminal) : List NonTerminal :=
  g.nonterminals.toList.filter fun k => k = n || units.relatedId n.id k.id

/-- What a body adds to the automaton at the state `q`, if `sink` is the state behind a body `a`. -/
def addBody (stateOf : NonTerminal → Nat) (sink q : Nat) (b : AutomatonBuilder) :
    Body → AutomatonBuilder
  | [] => b.accept q
  | [.terminal a] => (b.transition q a sink).accept sink
  | [.terminal a, .nonterminal n] => b.transition q a (stateOf n)
  | _ => b

/-- The bodies that the state of `n` stands for. -/
def stateBodies (units : Relation) (n : NonTerminal) : List Body :=
  (g.unitSources units n).flatMap g.bodies

def addLetters : Except ConversionError AutomatonBuilder :=
  (g.terminals.toList.foldlM AutomatonBuilder.addLetter (.empty g.table)).mapError .automaton

def addStates (order : List NonTerminal) (b : AutomatonBuilder) :
    Except ConversionError AutomatonBuilder :=
  order.foldlM (fun b n => do return (b.state (← g.nameText (.nonterminal n))).2) b

/-- The state behind the bodies `a`, declared if there are any. -/
def addSink (b : AutomatonBuilder) : Nat × AutomatonBuilder :=
  if g.rules.toList.any fun r => r.body.length = 1 && r.body.all Symbol.isTerminal then
    b.state g.sinkName
  else (0, b)

/-- Adds what the bodies of all nonterminals lead to. -/
def addBodies (units : Relation) (stateOf : NonTerminal → Nat) (sink : Nat) (b : AutomatonBuilder) :
    AutomatonBuilder :=
  g.nonterminals.toList.foldl
    (fun b n => (g.stateBodies units n).foldl (addBody stateOf sink (stateOf n)) b) b

/-- Declares all letters and states. The first result is the state behind the bodies `a`. -/
def declareStates (start : NonTerminal) : Except ConversionError (Nat × AutomatonBuilder) := do
  let b ← g.addLetters
  let b ← g.addStates (g.stateOrder start) b
  return g.addSink b

/-- The automaton of a right-linear grammar. -/
def toAutomaton : Except ConversionError Automaton := do
  let start ← g.validStart.mapError .grammar
  g.checkRightLinear
  let units ← g.unitRelation.mapError .grammar
  let (sink, b) ← g.declareStates start
  let stateOf := fun n => (g.stateOrder start).idxOf n
  let b := g.addBodies units stateOf sink b
  ((b.setStart (stateOf start)).build).mapError .automaton

end FormalLanguage.Grammar
