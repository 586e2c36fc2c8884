import FormalLanguage.Automaton.Basic

/-! The text of an automaton: its states, its letters, and one line for each state and letter. -/
namespace FormalLanguage.Automaton

/-- Names between braces. -/
def braced (names : List String) : String := "\x7b" ++ ",".intercalate names ++ "\x7d"

variable (m : Automaton)

def stateText (q : Nat) : String := (m.stateName? q).getD ""

def letterText (a : Terminal) : String := (m.table.nameOf? (.terminal a)).getD ""

def setText (states : StateSet) : String := braced (states.toList.map m.stateText)

def entryText (q : Nat) (a : Terminal) : String :=
  m.stateText q ++ " --" ++ m.letterText a ++ "--> " ++ m.setText (m.targets q a)

def lines : List String :=
  ["states: " ++ ", ".intercalate m.stateNames,
    "alphabet: " ++ ", ".intercalate (m.alphabet.toList.map m.letterText)] ++
  (m.entries.map fun (q, a) => m.entryText q a) ++
  ["start: " ++ m.stateText m.start, "final: " ++ m.setText m.accepting]

def text : String := String.join (m.lines.map (· ++ "\n"))

end FormalLanguage.Automaton
