import FormalLanguage.RightLinear.Error

/-!
The right-linear grammar of an automaton: states are nonterminals of the same names. A step into an
accepting state also ends a word.
-/
namespace FormalLanguage.Automaton

variable (m : Automaton)

/-- The nonterminals of the states, in order. -/
def bindStates (g : Grammar) : List String → Except ConversionError (List NonTerminal × Grammar)
  | [] => .ok ([], g)
  | name :: names => do
    let (n, g) ← (g.nonterminal name).mapError .naming
    let (rest, g) ← bindStates g names
    return (n :: rest, g)

/-- The rules of a step, if both states have nonterminals. -/
def addStep (states : List NonTerminal) (g : Grammar) (t : Transition) : Grammar :=
  match states[t.source]?, states[t.target]? with
  | some lhs, some n =>
    let g := g.addRule lhs [.terminal t.letter, .nonterminal n]
    if m.isAccepting t.target then g.addRule lhs [.terminal t.letter] else g
  | _, _ => g

/-- An accepting start state derives the empty word. -/
def addStart (states : List NonTerminal) (g : Grammar) : Grammar :=
  match states[m.start]? with
  | some start =>
    (if m.isAccepting m.start then g.addRule start [] else g).setStart start
  | none => g

/-- The grammar of an automaton. It fails if a state has the name of a terminal, or no proper name. -/
def toGrammar : Except ConversionError Grammar := do
  let letters : Grammar := { table := m.table, terminals := m.alphabet }
  let (states, g) ← bindStates letters m.stateNames
  return m.addStart states (m.transitions.toList.foldl (m.addStep states) g)

end FormalLanguage.Automaton
