import FormalLanguage.Vocabulary

/-! Context-free grammars: a vocabulary, a set of rules and a start symbol. -/
namespace FormalLanguage

/-- A nonterminal and a body that may replace it. -/
structure Rule where
  lhs : NonTerminal
  body : Body
deriving DecidableEq

namespace Rule

instance : Ord Rule := ⟨compareLex (compareOn lhs) (compareOn body)⟩

instance : Std.TransOrd Rule :=
  inferInstanceAs (Std.TransCmp (compareLex (compareOn lhs) (compareOn body)))

instance : Std.LawfulEqOrd Rule where
  compare_self := Std.ReflOrd.compare_self
  eq_of_compare {a b} h := by
    have h' : (compare a.lhs b.lhs).then (compare a.body b.body) = .eq := h
    obtain ⟨hl, hb⟩ := Ordering.then_eq_eq.1 h'
    cases a; cases b
    simp_all

/-- The body as it is written, without markers. -/
def marks (r : Rule) : List Mark := r.body.map .symbol

/-- The nonterminal of a body that is a single nonterminal. -/
def unit? (r : Rule) : Option NonTerminal :=
  match r.body with
  | [.nonterminal n] => some n
  | _ => none

end Rule

inductive GrammarError where
  | missingStart
  | startNotInVocabulary (start : String)
  | unknownSymbol (lhs sym : String)
  | naming (error : NameError)
  /-- A symbol has an ID that the table never gave out. -/
  | outOfRange
deriving DecidableEq

def GrammarError.message : GrammarError → String
  | .missingStart => "grammar has no start symbol"
  | .startNotInVocabulary start => "start symbol `" ++ start ++ "` is not a nonterminal of the grammar"
  | .unknownSymbol lhs sym => "rule for `" ++ lhs ++ "` refers to unknown symbol `" ++ sym ++ "`"
  | .naming error => error.message
  | .outOfRange => "symbol ID out of range"

structure Grammar extends Vocabulary where
  rules : OrderedSet Rule := ∅
  start : Option NonTerminal := none
deriving DecidableEq

namespace Grammar

instance : Inhabited Grammar := ⟨{}⟩

variable (g : Grammar)

def terminal (name : String) : Except NameError (Terminal × Grammar) :=
  (g.toVocabulary.terminal name).map fun (a, v) => (a, { g with toVocabulary := v })

def nonterminal (name : String) : Except NameError (NonTerminal × Grammar) :=
  (g.toVocabulary.nonterminal name).map fun (n, v) => (n, { g with toVocabulary := v })

def fresh : Except NameError NonTerminal × Grammar :=
  let (n, v) := g.toVocabulary.fresh
  (n, { g with toVocabulary := v })

def add (s : Symbol) : Grammar := { g with toVocabulary := g.toVocabulary.add s }

def setStart (n : NonTerminal) : Grammar := { g with start := some n }

def addRule (lhs : NonTerminal) (body : Body) : Grammar :=
  { g with rules := g.rules.insert ⟨lhs, body⟩ }

/-- Adds a rule for each written body; markers are dropped. -/
def addAlternatives (lhs : NonTerminal) (bodies : List (List Mark)) : Grammar :=
  bodies.foldl (fun g marks => g.addRule lhs (Mark.strip marks)) g

/-- Whether a written body is that of a rule. No rule has a body with markers. -/
def hasRule (lhs : NonTerminal) (marks : List Mark) : Bool :=
  g.rules.toList.any fun r => r.lhs = lhs ∧ r.marks = marks

def retain (keep : Rule → Bool) : Grammar := { g with rules := g.rules.filter keep }

def clearRules : Grammar := { g with rules := ∅ }

/-- Takes a nonterminal out of use, together with its rules. Bodies keep it. -/
def removeNonTerminal (n : NonTerminal) : Grammar :=
  { g with
    nonterminals := g.nonterminals.erase n
    rules := g.rules.filter fun r => r.lhs ≠ n }

/-- The bodies of a nonterminal in order. -/
def bodies (n : NonTerminal) : List Body :=
  (g.rules.toList.filter fun r => r.lhs = n).map Rule.body

def numRules : Nat := g.rules.size

def isEmpty : Bool := g.rules.isEmpty

/-- The nonterminals that have rules, in order. -/
def leftSides : OrderedSet NonTerminal := OrderedSet.ofList (g.rules.toList.map Rule.lhs)

/-- The first symbol of a rule, left-hand side first, that is not in use. -/
def unknown? (r : Rule) : Option Symbol :=
  (.nonterminal r.lhs :: r.body).find? fun s => !g.uses s

/-- Checks that the start symbol and every symbol of a rule are in use. -/
def validate : Except GrammarError Unit :=
  match g.start with
  | none => .error .missingStart
  | some start =>
    if start ∉ g.nonterminals then
      .error (.startNotInVocabulary (g.table.describe (.nonterminal start)))
    else
      match g.rules.toList.findSome? fun r => (g.unknown? r).map (r, ·) with
      | some (r, s) =>
        .error (.unknownSymbol (g.table.describe (.nonterminal r.lhs)) (g.table.describe s))
      | none => .ok ()

/-- The start symbol of a grammar that passes the check. -/
def validStart : Except GrammarError NonTerminal := do
  g.validate
  match g.start with
  | some start => return start
  | none => throw .missingStart

/-- The check succeeds, and every symbol in use is one of the table. -/
structure WellFormed (g : Grammar) : Prop where
  valid : g.validate = .ok ()
  contains : ∀ s, g.uses s = true → g.table.contains s = true

variable {g}

theorem validate_eq_ok_iff : g.validate = .ok () ↔
    ∃ start, g.start = some start ∧ start ∈ g.nonterminals ∧
      ∀ r ∈ g.rules, r.lhs ∈ g.nonterminals ∧ ∀ s ∈ r.body, g.uses s = true := by
  unfold validate
  cases h : g.start with
  | none => simp
  | some start =>
    by_cases hs : start ∈ g.nonterminals
    · simp only [hs, not_true_eq_false, if_false, Option.some.injEq, exists_eq_left', true_and]
      cases hf : g.rules.toList.findSome? fun r => (g.unknown? r).map (r, ·) with
      | none =>
        simp only [true_iff]
        intro r hr
        have := List.findSome?_eq_none_iff.1 hf r hr
        simpa [unknown?, Vocabulary.uses] using this
      | some p =>
        obtain ⟨r, hr, hp⟩ := List.exists_of_findSome?_eq_some hf
        simp only [reduceCtorEq, false_iff]
        intro hall
        obtain ⟨hl, hb⟩ := hall r hr
        have : g.unknown? r = none := by simpa [unknown?, Vocabulary.uses, hl] using hb
        simp [this] at hp
    · simp [hs]

end Grammar

end FormalLanguage
