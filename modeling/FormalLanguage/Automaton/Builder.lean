import FormalLanguage.Automaton.Basic

/-! Automata under construction. States and letters are checked when the automaton is built. -/
namespace FormalLanguage

/-- Transitions, start and accepting states may mention states and letters that are not declared. -/
structure AutomatonBuilder where
  table : SymbolTable
  alphabet : OrderedSet Terminal
  stateNames : List String
  transitions : OrderedSet Transition
  start : Option Nat
  accepting : StateSet
  contains_letter : ∀ a ∈ alphabet, table.contains (.terminal a) = true
  nodup : stateNames.Nodup

namespace AutomatonBuilder

/-- The builder over a table of which no terminal is a letter yet. -/
def empty (table : SymbolTable) : AutomatonBuilder where
  table
  alphabet := ∅
  stateNames := []
  transitions := ∅
  start := none
  accepting := ∅
  contains_letter a h := absurd h (OrderedSet.not_mem_empty a)
  nodup := List.nodup_nil

instance : Inhabited AutomatonBuilder := ⟨empty (.empty {})⟩

variable (b : AutomatonBuilder)

/-- The state with this name, which is declared now if it was not. -/
def state (name : String) : Nat × AutomatonBuilder :=
  match h : b.stateNames.findIdx? (· = name) with
  | some q => (q, b)
  | none =>
    (b.stateNames.length, { b with
      stateNames := b.stateNames ++ [name]
      nodup := by
        have hn := List.findIdx?_eq_none_iff.1 h
        refine List.nodup_append.2 ⟨b.nodup, by simp, fun x hx y hy hxy => ?_⟩
        rw [List.mem_singleton] at hy
        simpa [hxy, hy] using hn x hx })

/-- The letter with this name, which is in the alphabet from now on. -/
def letter (name : String) : Except AutomatonError (Terminal × AutomatonBuilder) :=
  match h : b.table.terminal name with
  | .error e => .error (.naming e)
  | .ok (a, table) => .ok (a, { b with
      table
      alphabet := b.alphabet.insert a
      contains_letter := fun x hx => by
        rcases OrderedSet.mem_insert.1 hx with rfl | hx
        · exact SymbolTable.contains_of_terminal h
        · exact SymbolTable.contains_terminal h (b.contains_letter x hx) })

/-- Puts a terminal of the table into the alphabet. -/
def addLetter (a : Terminal) : Except AutomatonError AutomatonBuilder :=
  if h : b.table.contains (.terminal a) = true then
    .ok { b with
      alphabet := b.alphabet.insert a
      contains_letter := fun x hx =>
        (OrderedSet.mem_insert.1 hx).elim (fun e => e ▸ h) (b.contains_letter x) }
  else .error (.unknownLetter (b.table.describeTerminal a))

def transition (source : Nat) (letter : Terminal) (target : Nat) : AutomatonBuilder :=
  { b with transitions := b.transitions.insert ⟨source, letter, target⟩ }

def setStart (q : Nat) : AutomatonBuilder := { b with start := some q }

def accept (q : Nat) : AutomatonBuilder := { b with accepting := b.accepting.insert q }

def stateFault? (q : Nat) : Option AutomatonError :=
  if q < b.stateNames.length then none else some (.unknownState q)

def letterFault? (a : Terminal) : Option AutomatonError :=
  if a ∈ b.alphabet then none else some (.unknownLetter (b.table.describeTerminal a))

/-- The targets that a transition shares its state and letter with. -/
def siblings (t : Transition) : List Nat :=
  (b.transitions.toList.filter fun u => u.source = t.source ∧ u.letter = t.letter).map
    Transition.target

/-- The source comes first, then all targets of its state and letter, then the letter. -/
def transitionFault? (t : Transition) : Option AutomatonError :=
  (b.stateFault? t.source).or (((b.siblings t).findSome? b.stateFault?).or (b.letterFault? t.letter))

/-- The first state or letter that is not declared. -/
def fault? (start : Nat) : Option AutomatonError :=
  ((start :: b.accepting.toList).findSome? b.stateFault?).or
    (b.transitions.toList.findSome? b.transitionFault?)

variable {b}

theorem stateFault?_eq_none {q : Nat} : b.stateFault? q = none ↔ q < b.stateNames.length := by
  simp [stateFault?]

theorem letterFault?_eq_none {a : Terminal} : b.letterFault? a = none ↔ a ∈ b.alphabet := by
  simp [letterFault?]

theorem mem_siblings {t : Transition} (h : t ∈ b.transitions) : t.target ∈ b.siblings t :=
  List.mem_map.2 ⟨t, List.mem_filter.2 ⟨h, by simp⟩, rfl⟩

theorem fault?_eq_none {start : Nat} (h : b.fault? start = none) :
    start < b.stateNames.length ∧ (∀ q ∈ b.accepting, q < b.stateNames.length) ∧
      ∀ t ∈ b.transitions,
        t.source < b.stateNames.length ∧ t.target < b.stateNames.length ∧ t.letter ∈ b.alphabet := by
  obtain ⟨hs, ht⟩ := Option.or_eq_none_iff.1 h
  rw [List.findSome?_eq_none_iff] at hs ht
  refine ⟨stateFault?_eq_none.1 (hs start List.mem_cons_self), fun q hq => ?_, fun t hmem => ?_⟩
  · exact stateFault?_eq_none.1 (hs q (List.mem_cons_of_mem start hq))
  · obtain ⟨h₁, h₂⟩ := Option.or_eq_none_iff.1 (ht t hmem)
    obtain ⟨h₂, h₃⟩ := Option.or_eq_none_iff.1 h₂
    rw [List.findSome?_eq_none_iff] at h₂
    exact ⟨stateFault?_eq_none.1 h₁, stateFault?_eq_none.1 (h₂ t.target (mem_siblings hmem)),
      letterFault?_eq_none.1 h₃⟩

variable (b)

/-- Checks that the start state, the accepting states and the transitions are declared. -/
def build : Except AutomatonError Automaton :=
  match b.start with
  | none => .error .missingStart
  | some start =>
    match h : b.fault? start with
    | some e => .error e
    | none => .ok {
        table := b.table
        alphabet := b.alphabet
        stateNames := b.stateNames
        transitions := b.transitions
        start
        accepting := b.accepting
        contains_letter := b.contains_letter
        letter_mem := fun t ht => ((fault?_eq_none h).2.2 t ht).2.2
        source_lt := fun t ht => ((fault?_eq_none h).2.2 t ht).1
        target_lt := fun t ht => ((fault?_eq_none h).2.2 t ht).2.1
        start_lt := (fault?_eq_none h).1
        accepting_lt := (fault?_eq_none h).2.1 }

end AutomatonBuilder

end FormalLanguage
