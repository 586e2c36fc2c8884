import FormalLanguage.Hierarchy.PhraseGrammar

/-! Why a text is no grammar, and where. -/
namespace FormalLanguage.Notation

/-- Lines and columns count from one, columns in characters. -/
structure Position where
  line : Nat
  col : Nat
deriving DecidableEq

inductive Reason where
  | unterminatedLiteral
  | emptyLiteral
  | emptyAlternative
  | alternativeWithoutRule
  | missingLeftHandSide
  | missingArrow
  | unexpectedArrow
  | unexpectedBar
  | startTwice
  | startArity
  | unknownDirective (name : String)
  | compoundLeftHandSide
  | undeclaredTerminal (name : String)
  | noStart
  | naming (error : NameError)
  | phrase (error : PhraseError)
deriving DecidableEq

def Reason.message : Reason → String
  | .unterminatedLiteral => "unterminated literal"
  | .emptyLiteral => "empty literal"
  | .emptyAlternative => "empty alternative, write `ε` for the empty string"
  | .alternativeWithoutRule => "alternative without a rule"
  | .missingLeftHandSide => "missing left-hand side"
  | .missingArrow => "expected `->`"
  | .unexpectedArrow => "unexpected arrow"
  | .unexpectedBar => "unexpected `|`"
  | .startTwice => "start symbol declared twice"
  | .startArity => "`%start` takes exactly one name"
  | .unknownDirective name => "unknown directive `" ++ name ++ "`"
  | .compoundLeftHandSide => "left-hand side must be a single nonterminal"
  | .undeclaredTerminal name => "undeclared terminal `" ++ name ++ "`"
  | .noStart => "no start symbol, add a rule or `%start`"
  | .naming error => error.message
  | .phrase error => error.message

structure LoadError where
  reason : Reason
  position : Position
deriving DecidableEq

def LoadError.message (e : LoadError) : String :=
  "Parse error at line " ++ toString e.position.line ++ " column " ++ toString e.position.col ++
    ": reason: " ++ e.reason.message

end FormalLanguage.Notation
