import FormalLanguage.Grammar.Basic
import FormalLanguage.OrderedMap

/-!
The rules of a grammar as they are held: a map from left-hand sides to sets of bodies. Only an entry
tells that a nonterminal has rules, so that a set must not be left behind when it is empty.
-/
namespace FormalLanguage

/-- A rule as it can be written, whose body may have markers. -/
structure MarkedRule where
  lhs : NonTerminal
  marks : List Mark
deriving DecidableEq

namespace MarkedRule

/-- Rules are ordered by left-hand side, then by body. -/
instance : Ord MarkedRule := ⟨compareLex (compareOn lhs) (compareOn marks)⟩

instance : Std.TransOrd MarkedRule :=
  inferInstanceAs (Std.TransCmp (compareLex (compareOn lhs) (compareOn marks)))

instance : Std.LawfulEqOrd MarkedRule where
  compare_self := Std.ReflOrd.compare_self
  eq_of_compare {a b} h := by
    have h' : (compare a.lhs b.lhs).then (compare a.marks b.marks) = .eq := h
    obtain ⟨hl, hm⟩ := Ordering.then_eq_eq.1 h'
    cases a; cases b
    simp_all

end MarkedRule

/-- The rule as it is written, without markers. -/
def Rule.marked (r : Rule) : MarkedRule := ⟨r.lhs, r.marks⟩

structure RuleMap where
  bodies : OrderedMap NonTerminal (OrderedSet (List Mark)) := ∅

namespace RuleMap

def empty : RuleMap := {}

variable (m : RuleMap)

/-- Adds a body without its markers, and tells whether it is new. -/
def addRule (lhs : NonTerminal) (marks : List Mark) : Bool × RuleMap :=
  let body := marks.filter (· ≠ .epsilon)
  let bodies := (m.bodies.get? lhs).getD ∅
  (body ∉ bodies, ⟨m.bodies.insert lhs (bodies.insert body)⟩)

def hasRule (lhs : NonTerminal) (marks : List Mark) : Bool :=
  (m.bodies.get? lhs).any (marks ∈ ·)

/-- All rules: the bodies of one nonterminal after those of another one. -/
def rules : List MarkedRule :=
  m.bodies.entries.flatMap fun (n, bodies) => bodies.toList.map (⟨n, ·⟩)

def numRules : Nat := m.bodies.entries.foldr (fun (_, bodies) count => bodies.size + count) 0

/-- Takes bodies out of their sets, then entries whose sets are empty out of the map. -/
def retain (keep : MarkedRule → Bool) : RuleMap :=
  let kept := m.bodies.map fun n bodies => bodies.filter fun marks => keep ⟨n, marks⟩
  ⟨kept.filter fun _ bodies => !bodies.isEmpty⟩

def clearRules (_ : RuleMap) : RuleMap := empty

def removeNonTerminal (n : NonTerminal) : RuleMap := ⟨m.bodies.erase n⟩

def isEmpty : Bool := m.bodies.isEmpty

end RuleMap

end FormalLanguage
