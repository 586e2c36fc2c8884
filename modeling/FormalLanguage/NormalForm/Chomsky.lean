import FormalLanguage.NormalForm.Epsilon
import FormalLanguage.NormalForm.Unit
import FormalLanguage.NormalForm.Useful
import FormalLanguage.NormalForm.Binary
import FormalLanguage.NormalForm.Isolated

/-! The Chomsky normal form, reached stage by stage. -/
namespace FormalLanguage

/-- A step on the way to the normal form. -/
inductive Stage where
  | epsilon
  | unit
  | unreachable
  | nonGenerating
  | binary
  | mixedTerminals
deriving DecidableEq

namespace Stage

def run : Stage → Grammar → Except GrammarError Grammar
  | epsilon => Grammar.eliminateEpsilon
  | unit => Grammar.eliminateUnit
  | unreachable => Grammar.eliminateUnreachable
  | nonGenerating => Grammar.eliminateNonGenerating
  | binary => Grammar.binarize
  | mixedTerminals => Grammar.eliminateMixedTerminals

def description : Stage → String
  | epsilon => "after eliminating empty string productions"
  | unit => "after eliminating renaming"
  | unreachable => "after eliminating inaccessible symbols"
  | nonGenerating => "after eliminating non-productive symbols"
  | binary => "after shortening bodies"
  | mixedTerminals => "after eliminating mixed terminals"

/-- Nonterminals that derive nothing may be all that reached others, so these are looked for twice. -/
def pipeline : List Stage :=
  [epsilon, unit, unreachable, nonGenerating, unreachable, binary, mixedTerminals]

end Stage

namespace Grammar

/-- The grammar after each of the stages. -/
def runStages (g : Grammar) : List Stage → Except GrammarError (List (Stage × Grammar))
  | [] => .ok []
  | stage :: stages => do
    let next ← stage.run g
    let rest ← next.runStages stages
    return (stage, next) :: rest

/-- The grammar after each stage of the pipeline; the last one is in normal form. -/
def normalSteps (g : Grammar) : Except GrammarError (List (Stage × Grammar)) := do
  g.validate
  g.runStages Stage.pipeline

def toNormalForm (g : Grammar) : Except GrammarError Grammar := do
  g.validate
  Stage.pipeline.foldlM (fun g stage => stage.run g) g

/-- Bodies are a terminal, or two nonterminals, or empty if they are of the start symbol. -/
def normalRule (start : Option NonTerminal) (r : Rule) : Bool :=
  match r.body with
  | [.terminal _] => true
  | [.nonterminal _, .nonterminal _] => true
  | [] => some r.lhs = start
  | _ => false

def isNormalForm (g : Grammar) : Bool := g.rules.toList.all (normalRule g.start)

end Grammar

end FormalLanguage
