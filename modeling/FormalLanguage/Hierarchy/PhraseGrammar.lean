import FormalLanguage.Hierarchy.Linear

/-! Grammars whose rules replace sequences of symbols, and their level. -/
namespace FormalLanguage

structure PhraseRule where
  lhs : Body
  rhs : Body
deriving DecidableEq

namespace PhraseRule

instance : Ord PhraseRule := ⟨compareLex (compareOn lhs) (compareOn rhs)⟩

instance : Std.TransOrd PhraseRule :=
  inferInstanceAs (Std.TransCmp (compareLex (compareOn lhs) (compareOn rhs)))

instance : Std.LawfulEqOrd PhraseRule where
  compare_self := Std.ReflOrd.compare_self
  eq_of_compare {a b} h := by
    have h' : (compare a.lhs b.lhs).then (compare a.rhs b.rhs) = .eq := h
    obtain ⟨hl, hr⟩ := Ordering.then_eq_eq.1 h'
    cases a; cases b
    simp_all

/-- The nonterminal on the left, if nothing else stands there. -/
def single? (r : PhraseRule) : Option NonTerminal :=
  match r.lhs with
  | [.nonterminal n] => some n
  | _ => none

end PhraseRule

inductive PhraseError where
  | lhsWithoutNonTerminal (lhs : String)
  | naming (error : NameError)
deriving DecidableEq

def PhraseError.message : PhraseError → String
  | .lhsWithoutNonTerminal lhs => "left-hand side `" ++ lhs ++ "` has no nonterminal"
  | .naming error => error.message

/-- A grammar in which every left-hand side has a nonterminal. -/
structure PhraseGrammar extends Vocabulary where
  rules : OrderedSet PhraseRule
  start : Option NonTerminal
  lhs_nonterminal : ∀ r ∈ rules, r.lhs.any Symbol.isNonTerminal = true
deriving DecidableEq

namespace PhraseGrammar

/-- The grammar over a vocabulary that has no rules. -/
def empty (v : Vocabulary) : PhraseGrammar where
  toVocabulary := v
  rules := ∅
  start := none
  lhs_nonterminal r h := absurd h (OrderedSet.not_mem_empty r)

instance : Inhabited PhraseGrammar := ⟨empty {}⟩

variable (g : PhraseGrammar)

def terminal (name : String) : Except NameError (Terminal × PhraseGrammar) :=
  (g.toVocabulary.terminal name).map fun (a, v) => (a, { g with toVocabulary := v })

def nonterminal (name : String) : Except NameError (NonTerminal × PhraseGrammar) :=
  (g.toVocabulary.nonterminal name).map fun (n, v) => (n, { g with toVocabulary := v })

def setStart (n : NonTerminal) : PhraseGrammar := { g with start := some n }

def addRule (lhs rhs : Body) : Except PhraseError PhraseGrammar :=
  if h : lhs.any Symbol.isNonTerminal = true then
    .ok { g with
      rules := g.rules.insert ⟨lhs, rhs⟩
      lhs_nonterminal := fun r hr =>
        (OrderedSet.mem_insert.1 hr).elim (fun e => e ▸ h) (g.lhs_nonterminal r) }
  else .error (.lhsWithoutNonTerminal (" ".intercalate (lhs.map g.table.describe)))

def numRules : Nat := g.rules.size

/-- Every left-hand side is a single nonterminal. -/
def isContextFree : Bool := g.rules.toList.all fun r => r.single?.isSome

/-- The rule with a single nonterminal on the left. -/
def contextFreeRule? (r : PhraseRule) : Option Rule := r.single?.map fun n => ⟨n, r.rhs⟩

def toContextFree? : Option Grammar :=
  (g.rules.toList.mapM contextFreeRule?).map fun rules =>
    { toVocabulary := g.toVocabulary, rules := OrderedSet.ofList rules, start := g.start }

/-- Whether the start symbol stands on a right-hand side. -/
def startOnRight : Bool :=
  g.rules.toList.any fun r => r.rhs.any fun s => s.nonterminal?.isSome && s.nonterminal? = g.start

/-- Whether the rule erases a start symbol that stands on no right-hand side. -/
def erasesStart (r : PhraseRule) : Bool :=
  r.rhs.isEmpty && !g.startOnRight && r.single?.isSome && r.single? = g.start

/-- No rule makes a form shorter, except that the start symbol may be erased. -/
def isNonContracting : Bool :=
  g.rules.toList.all fun r => r.lhs.length ≤ r.rhs.length || g.erasesStart r

/-- The most restrictive level that the grammar belongs to. -/
def level : Level :=
  match g.toContextFree? with
  | some h => h.level
  | none => if g.isNonContracting then .contextSensitive else .unrestricted

end PhraseGrammar

end FormalLanguage
