import FormalLanguage.OrderedSet
import FormalLanguage.SymbolTable

/-! Finite automata, which may have many targets for a letter or none, and their runs. -/
namespace FormalLanguage

abbrev StateSet := OrderedSet Nat

/-- The state of a number, if there is one. States have 32 bits. -/
def stateOfNat? (n : Nat) : Option Nat := if n < UInt32.size then some n else none

/-- A step from a state to another on a letter. States are numbers. -/
structure Transition where
  source : Nat
  letter : Terminal
  target : Nat
deriving DecidableEq

namespace Transition

instance : Ord Transition :=
  ⟨compareLex (compareOn source) (compareLex (compareOn letter) (compareOn target))⟩

instance : Std.TransOrd Transition :=
  inferInstanceAs
    (Std.TransCmp (compareLex (compareOn source) (compareLex (compareOn letter) (compareOn target))))

instance : Std.LawfulEqOrd Transition where
  compare_self := Std.ReflOrd.compare_self
  eq_of_compare {a b} h := by
    have h' : (compare a.source b.source).then
        ((compare a.letter b.letter).then (compare a.target b.target)) = .eq := h
    obtain ⟨hs, h'⟩ := Ordering.then_eq_eq.1 h'
    obtain ⟨hl, ht⟩ := Ordering.then_eq_eq.1 h'
    cases a; cases b
    simp_all

end Transition

inductive AutomatonError where
  | missingStart
  | unknownState (state : Nat)
  | unknownLetter (letter : String)
  | naming (error : NameError)
deriving DecidableEq

def AutomatonError.message : AutomatonError → String
  | .missingStart => "automaton has no start state"
  | .unknownState state => "state #" ++ toString state ++ " is not in the state set"
  | .unknownLetter letter => "letter `" ++ letter ++ "` is not in the alphabet"
  | .naming error => error.message

/-- An automaton over a part of the terminals of a table. Every state it mentions has a name. -/
structure Automaton where
  table : SymbolTable
  alphabet : OrderedSet Terminal
  stateNames : List String
  transitions : OrderedSet Transition
  start : Nat
  accepting : StateSet
  contains_letter : ∀ a ∈ alphabet, table.contains (.terminal a) = true
  letter_mem : ∀ t ∈ transitions, t.letter ∈ alphabet
  source_lt : ∀ t ∈ transitions, t.source < stateNames.length
  target_lt : ∀ t ∈ transitions, t.target < stateNames.length
  start_lt : start < stateNames.length
  accepting_lt : ∀ q ∈ accepting, q < stateNames.length
deriving DecidableEq

namespace Automaton

variable (m : Automaton)

def numStates : Nat := m.stateNames.length

def stateName? (q : Nat) : Option String := m.stateNames[q]?

/-- The first state with this name. -/
def stateByName? (name : String) : Option Nat := m.stateNames.findIdx? (· = name)

/-- The letter of the alphabet with this name. -/
def letter? (name : String) : Option Terminal :=
  ((m.table.get? name).bind Symbol.terminal?).filter (· ∈ m.alphabet)

def isAccepting (q : Nat) : Bool := q ∈ m.accepting

def targets (q : Nat) (a : Terminal) : StateSet :=
  OrderedSet.ofList
    ((m.transitions.toList.filter fun t => t.source = q ∧ t.letter = a).map Transition.target)

/-- The states and letters that have targets, in order. -/
def entries : List (Nat × Terminal) :=
  (m.transitions.toList.map fun t => (t.source, t.letter)).eraseDups

/-- The states reached from any of `states` on a letter. -/
def step (states : StateSet) (a : Terminal) : StateSet :=
  OrderedSet.ofList (states.toList.flatMap fun q => (m.targets q a).toList)

/-- The states that a word leads to from any of `states`. Once none are left, the rest is not read. -/
def follow (states : StateSet) : Word → StateSet
  | [] => states
  | a :: word =>
    let next := m.step states a
    if next.isEmpty then next else follow next word

/-- The states reached by a word. -/
def run (word : Word) : StateSet := m.follow (OrderedSet.singleton m.start) word

def accepts (word : Word) : Bool := (m.run word).intersects m.accepting

/-- Reads one letter for each character. A character that is no letter rejects the text. -/
def acceptsText (text : String) : Bool :=
  match text.toList.mapM fun c => m.letter? (String.singleton c) with
  | some word => m.accepts word
  | none => false

/-- No state has two targets for a letter. -/
def isDeterministic : Bool := m.entries.all fun (q, a) => (m.targets q a).size ≤ 1

/-- Every state has a target for every letter. -/
def isComplete : Bool :=
  (List.range m.numStates).all fun q => m.alphabet.toList.all fun a => !(m.targets q a).isEmpty

variable {m}

@[simp] theorem mem_targets {q p : Nat} {a : Terminal} :
    p ∈ m.targets q a ↔ ⟨q, a, p⟩ ∈ m.transitions := by
  simp only [targets, OrderedSet.mem_ofList, List.mem_map, List.mem_filter, decide_eq_true_eq]
  constructor
  · rintro ⟨t, ⟨ht, rfl, rfl⟩, rfl⟩
    exact ht
  · intro h
    exact ⟨⟨q, a, p⟩, ⟨h, rfl, rfl⟩, rfl⟩

@[simp] theorem mem_step {states : StateSet} {a : Terminal} {p : Nat} :
    p ∈ m.step states a ↔ ∃ q ∈ states, ⟨q, a, p⟩ ∈ m.transitions := by
  simp only [step, OrderedSet.mem_ofList, List.mem_flatMap, OrderedSet.mem_toList, mem_targets]

end Automaton

end FormalLanguage
