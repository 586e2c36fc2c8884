import FormalLanguage.Notation.Character
import FormalLanguage.Notation.Error

/-! Lines of a text, and their lexemes. A line that starts with a percent sign is a directive. -/
namespace FormalLanguage.Notation

inductive Token where
  | word (text : List Char)
  | literal (text : List Char)
  | arrow
  | bar
deriving DecidableEq

structure Lexeme where
  token : Token
  position : Position
deriving DecidableEq

structure Named where
  text : List Char
  position : Position
deriving DecidableEq

def Named.name (n : Named) : String := String.ofList n.text

/-- A line of a text: a directive with its arguments, or lexemes, up to the end of the line. -/
inductive Line where
  | directive (name : Named) (arguments : List Named) (ending : Position)
  | lexemes (lexemes : List Lexeme) (ending : Position)
deriving DecidableEq

/-- The lines of a text. A line ends with a line feed; a carriage return before it is dropped. -/
def splitLines : List Char → List (List Char)
  | [] => []
  | '\r' :: '\n' :: cs => [] :: splitLines cs
  | '\n' :: cs => [] :: splitLines cs
  | c :: cs =>
    match splitLines cs with
    | [] => [[c]]
    | line :: lines => (c :: line) :: lines

/-- The length of the arrow that a text starts with: `→`, `->` or `::=`. -/
def arrowLength? : List Char → Option Nat
  | '→' :: _ => some 1
  | '-' :: '>' :: _ => some 2
  | ':' :: ':' :: '=' :: _ => some 3
  | _ => none

def isSpecial (c : Char) : Bool := c = '|' || c = '"' || c = '#'

/-- The characters up to a blank, a bar, a quote, a comment or an arrow. -/
def wordChars : List Char → List Char
  | [] => []
  | c :: cs =>
    if isBlank c || isSpecial c || (arrowLength? (c :: cs)).isSome then [] else c :: wordChars cs

/-- What a text starts with, and how many characters it takes after the first. -/
inductive Opening where
  | blank
  | comment
  | token (token : Token) (more : Nat)
  | problem (reason : Reason)

/-- The literal whose opening quote has been passed. -/
def openLiteral (cs : List Char) : Opening :=
  let text := cs.takeWhile (· ≠ '"')
  if text.length = cs.length then .problem .unterminatedLiteral
  else if text.isEmpty then .problem .emptyLiteral
  else .token (.literal text) (text.length + 1)

def opening (c : Char) (cs : List Char) : Opening :=
  if isBlank c then .blank
  else if c = '#' then .comment
  else
    match arrowLength? (c :: cs) with
    | some n => .token .arrow (n - 1)
    | none =>
      if c = '|' then .token .bar 0
      else if c = '"' then openLiteral cs
      else .token (.word (c :: wordChars cs)) (wordChars cs).length

/-- The lexemes of a line from a column on, once `skip` more characters have been passed. -/
def scan (line : Nat) : (skip col : Nat) → List Char → Except LoadError (List Lexeme)
  | _, _, [] => .ok []
  | skip + 1, col, _ :: cs => scan line skip (col + 1) cs
  | 0, col, c :: cs =>
    match opening c cs with
    | .blank => scan line 0 (col + 1) cs
    | .comment => .ok []
    | .token token more => (⟨token, ⟨line, col⟩⟩ :: ·) <$> scan line more (col + 1) cs
    | .problem reason => .error ⟨reason, ⟨line, col⟩⟩

/-- The words of a directive line from a column on, up to a comment. -/
def scanWords (line : Nat) : (skip col : Nat) → List Char → List Named
  | _, _, [] => []
  | skip + 1, col, _ :: cs => scanWords line skip (col + 1) cs
  | 0, col, c :: cs =>
    if isBlank c then scanWords line 0 (col + 1) cs
    else if c = '#' then []
    else
      let more := cs.takeWhile fun d => !isBlank d && d ≠ '#'
      ⟨c :: more, ⟨line, col⟩⟩ :: scanWords line more.length (col + 1) cs

/-- Whether the first character that is not blank is a percent sign. -/
def isDirective (text : List Char) : Bool := (text.dropWhile isBlank).head? = some '%'

def scanLine (line : Nat) (text : List Char) : Except LoadError Line :=
  let ending := ⟨line, text.length + 1⟩
  match isDirective text, scanWords line 0 1 text with
  | true, name :: arguments => .ok (.directive name arguments ending)
  | _, _ => (Line.lexemes · ending) <$> scan line 0 1 text

def scanLines (line : Nat) : List (List Char) → Except LoadError (List Line)
  | [] => .ok []
  | text :: texts => do
    let first ← scanLine line text
    let rest ← scanLines (line + 1) texts
    return first :: rest

/-- The lines of a text with their lexemes. -/
def lexLines (text : List Char) : Except LoadError (List Line) := scanLines 1 (splitLines text)

end FormalLanguage.Notation
