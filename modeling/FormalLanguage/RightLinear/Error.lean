import FormalLanguage.Automaton.Basic
import FormalLanguage.Grammar.Basic

/-! Why a grammar and an automaton do not correspond. -/
namespace FormalLanguage

inductive ConversionError where
  | notRightLinear (lhs rhs : String)
  | grammar (error : GrammarError)
  | automaton (error : AutomatonError)
  | naming (error : NameError)
deriving DecidableEq

def ConversionError.message : ConversionError → String
  | .notRightLinear lhs rhs => "rule `" ++ lhs ++ " -> " ++ rhs ++ "` is not right-linear"
  | .grammar error => error.message
  | .automaton error => error.message
  | .naming error => error.message

end FormalLanguage
