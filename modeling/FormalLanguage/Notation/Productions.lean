import FormalLanguage.Notation.Document

/-!
The notation as productions over the signs of a whole text, each with what it makes of the values of
its parts. What recognizes the productions is a parameter: a text is scanned sign by sign as long as
the recognizer goes on, and the tree that it ends with is evaluated.
-/
namespace FormalLanguage.Notation

/-- What a text is made of: the lexemes of its lines, names of directives, ends of lines, the end. -/
inductive Sign where
  | token (token : Token)
  | percent (name : List Char)
  | newline
  | eof
deriving DecidableEq

structure Placed where
  sign : Sign
  position : Position
deriving DecidableEq

def Lexeme.placed (x : Lexeme) : Placed := ⟨.token x.token, x.position⟩

def Named.placed (n : Named) : Placed := ⟨.token (.word n.text), n.position⟩

/-- The signs of a line, its end among them. -/
def Line.signs : Line → List Placed
  | .directive name arguments ending =>
    ⟨.percent name.text, name.position⟩ :: (arguments.map Named.placed ++ [⟨.newline, ending⟩])
  | .lexemes row ending => row.map Lexeme.placed ++ [⟨.newline, ending⟩]

/-- The signs of a text, with its end on a line of its own. -/
def textSigns (lines : List Line) : List Placed :=
  lines.flatMap Line.signs ++ [⟨.eof, ⟨lines.length + 1, 1⟩⟩]

/-- What the productions tell signs apart by. -/
inductive Category where
  | word
  | quoted
  | arrow
  | bar
  | newline
  | percent
  | eof
deriving DecidableEq

def Sign.category : Sign → Category
  | .token (.word _) => .word
  | .token (.literal _) => .quoted
  | .token .arrow => .arrow
  | .token .bar => .bar
  | .percent _ => .percent
  | .newline => .newline
  | .eof => .eof

def Sign.describe : Sign → String
  | .token (.word text) => "`" ++ String.ofList text ++ "`"
  | .token (.literal text) => "literal \"" ++ String.ofList text ++ "\""
  | .token .arrow => "arrow"
  | .token .bar => "`|`"
  | .percent name => "directive `" ++ String.ofList name ++ "`"
  | .newline => "end of line"
  | .eof => "end of input"

/-- What a part of a text may be as a whole. -/
inductive Phrase where
  | start
  | items
  | item
  | rule
  | lhs
  | alternatives
  | alternative
  | symbol
  | directive
deriving DecidableEq

inductive Part where
  | sign (category : Category)
  | phrase (phrase : Phrase)
deriving DecidableEq

inductive Production where
  | startItems
  | startEmpty
  | itemsMore
  | itemsOne
  | itemNewline
  | itemDirective
  | itemRule
  | ruleArrow
  | ruleBar
  | lhsMore
  | lhsOne
  | alternativesMore
  | alternativesOne
  | alternativeMore
  | alternativeOne
  | symbolWord
  | symbolQuoted
  | directiveMore
  | directiveOne
deriving DecidableEq

namespace Production

def phrase : Production → Phrase
  | startItems | startEmpty => .start
  | itemsMore | itemsOne => .items
  | itemNewline | itemDirective | itemRule => .item
  | ruleArrow | ruleBar => .rule
  | lhsMore | lhsOne => .lhs
  | alternativesMore | alternativesOne => .alternatives
  | alternativeMore | alternativeOne => .alternative
  | symbolWord | symbolQuoted => .symbol
  | directiveMore | directiveOne => .directive

def parts : Production → List Part
  | startItems => [.phrase .items, .sign .eof]
  | startEmpty => [.sign .eof]
  | itemsMore => [.phrase .items, .phrase .item]
  | itemsOne => [.phrase .item]
  | itemNewline => [.sign .newline]
  | itemDirective => [.phrase .directive, .sign .newline]
  | itemRule => [.phrase .rule]
  | ruleArrow => [.phrase .lhs, .sign .arrow, .phrase .alternatives, .sign .newline]
  | ruleBar => [.phrase .rule, .sign .bar, .phrase .alternatives, .sign .newline]
  | lhsMore => [.phrase .lhs, .phrase .symbol]
  | lhsOne => [.phrase .symbol]
  | alternativesMore => [.phrase .alternatives, .sign .bar, .phrase .alternative]
  | alternativesOne => [.phrase .alternative]
  | alternativeMore => [.phrase .alternative, .phrase .symbol]
  | alternativeOne => [.phrase .symbol]
  | symbolWord => [.sign .word]
  | symbolQuoted => [.sign .quoted]
  | directiveMore => [.phrase .directive, .sign .word]
  | directiveOne => [.sign .percent]

end Production

inductive Value where
  | token (w : Written)
  | name (n : Named)
  | alternative (s : Sequence)
  | alternatives (ss : List Sequence)
  | rule (r : WrittenRule)
  | directive (name : Named) (arguments : List Named)
  | items (items : List Item)
  | none
deriving DecidableEq

def Value.item? : Value → Option Item
  | .rule r => some (.rule r)
  | .directive n arguments => some (.directive n arguments)
  | _ => Option.none

/-- The value of a sign. -/
def Placed.value (x : Placed) : Value :=
  match x.sign with
  | .token (.word text) => .token ⟨text, false, x.position⟩
  | .token (.literal text) => .token ⟨text, true, x.position⟩
  | .percent text => .name ⟨text, x.position⟩
  | _ => .none

/-- The value that a production makes of the first three values of its parts, if these fit. -/
def Production.combine : Production → Value → Value → Value → Option Value
  | startItems, .items items, _, _ => some (.items items)
  | startEmpty, _, _, _ => some (.items [])
  | itemsMore, .items items, item, _ => some (.items (items ++ item.item?.toList))
  | itemsOne, item, _, _ => some (.items item.item?.toList)
  | itemNewline, _, _, _ => some .none
  | itemDirective, directive, _, _ => some directive
  | itemRule, rule, _, _ => some rule
  | ruleArrow, .alternative lhs, _, .alternatives ss => some (.rule ⟨lhs, ss⟩)
  | ruleBar, .rule r, _, .alternatives ss =>
    some (.rule { r with alternatives := r.alternatives ++ ss })
  | lhsMore, .alternative s, .token w, _ => some (.alternative ⟨s.position, s.symbols ++ [w]⟩)
  | lhsOne, .token w, _, _ => some (.alternative ⟨w.position, [w]⟩)
  | alternativesMore, .alternatives ss, _, .alternative s => some (.alternatives (ss ++ [s]))
  | alternativesOne, .alternative s, _, _ => some (.alternatives [s])
  | alternativeMore, .alternative s, .token w, _ =>
    some (.alternative ⟨s.position, s.symbols ++ [w]⟩)
  | alternativeOne, .token w, _, _ => some (.alternative ⟨w.position, [w]⟩)
  | symbolWord, token, _, _ => some token
  | symbolQuoted, token, _, _ => some token
  | directiveMore, .directive n arguments, .token w, _ =>
    some (.directive n (arguments ++ [⟨w.text, w.position⟩]))
  | directiveOne, .name n, _, _ => some (.directive n [])
  | _, _, _, _ => Option.none

/-- Values that are missing count as no value. -/
def Production.value (p : Production) (values : List Value) : Option Value :=
  p.combine (values.getD 0 .none) (values.getD 1 .none) (values.getD 2 .none)

inductive Tree where
  | leaf (x : Placed)
  | node (p : Production) (children : List Tree)

mutual

/-- The value of a tree, from its leaves up. -/
def Tree.value : Tree → Option Value
  | .leaf x => some x.value
  | .node p children => (Tree.values children).bind p.value

def Tree.values : List Tree → Option (List Value)
  | [] => some []
  | t :: ts => t.value.bind fun v => (Tree.values ts).map (v :: ·)

end

/-- Trees for parts in a row, by the productions, with the signs at their leaves. -/
inductive Spans : List Part → List Tree → List Placed → Prop
  | nil : Spans [] [] []
  | leaf (x : Placed) {parts : List Part} {ts : List Tree} {xs : List Placed}
      (rest : Spans parts ts xs) :
      Spans (.sign x.sign.category :: parts) (.leaf x :: ts) (x :: xs)
  | node (p : Production) {parts : List Part} {children ts : List Tree} {xs ys : List Placed}
      (inner : Spans p.parts children xs) (rest : Spans parts ts ys) :
      Spans (.phrase p.phrase :: parts) (.node p children :: ts) (xs ++ ys)

/-- The tree shows that the signs are a whole text. -/
def TreeOf (t : Tree) (xs : List Placed) : Prop := Spans [.phrase .start] [t] xs

/-- The productions accept the signs as a whole text. -/
def Accepted (xs : List Placed) : Prop := ∃ t, TreeOf t xs

/-- A recognizer for the productions. -/
structure Recognizer where
  /-- Whether the signs can be scanned, one after the other, up to the last. -/
  scans : List Placed → Bool
  /-- The tree of the signs. -/
  tree? : List Placed → Option Tree

/--
What is relied on for some signs: scanning goes on as long as some whole text begins so, and there is
a tree in the end if the signs are a whole text.
-/
structure Recognizer.Recognizes (R : Recognizer) (xs : List Placed) : Prop where
  scans_iff : ∀ ys, ys <+: xs → (R.scans ys = true ↔ ∃ rest, Accepted (ys ++ rest))
  treeOf : ∀ t, R.tree? xs = some t → TreeOf t xs
  exists_tree : Accepted xs → ∃ t, R.tree? xs = some t

inductive SyntaxFault where
  /-- The sign at this place cannot be scanned. -/
  | unexpected (place : Nat)
  /-- The signs end too early. -/
  | incomplete
  /-- The values of some parts do not fit their production. -/
  | misfit
deriving DecidableEq

namespace Recognizer

variable (R : Recognizer) (xs : List Placed)

/-- The place of the first sign that cannot be scanned. -/
def refused? : Option Nat := (List.range xs.length).find? fun i => !R.scans (xs.take (i + 1))

/-- The items of a text by its signs. -/
def items : Except SyntaxFault (List Item) :=
  match R.refused? xs with
  | some place => .error (.unexpected place)
  | none =>
    match R.tree? xs with
    | none => .error .incomplete
    | some t =>
      match t.value with
      | some (.items items) => .ok items
      | some _ => .error .incomplete
      | none => .error .misfit

end Recognizer

/-- Whether alternatives are separated at the sign. -/
def Sign.separates (x : Sign) : Bool := x = .token .arrow ∨ x = .token .bar

/-- Whether no sign of a line comes before. -/
def startsLine (previous : Option Sign) : Bool := previous = none ∨ previous = some .newline

/-- Why a sign cannot follow the sign before it. -/
def refusal (previous : Option Sign) (x : Sign) : String :=
  if (x = .token .bar ∨ x = .newline) ∧ previous.any Sign.separates then
    "empty alternative, write `ε` for the empty string"
  else if x = .token .bar ∧ startsLine previous then "alternative without a rule"
  else if x = .token .arrow ∧ startsLine previous then "missing left-hand side"
  else if x = .newline then "expected `->`"
  else "unexpected " ++ x.describe

end FormalLanguage.Notation
