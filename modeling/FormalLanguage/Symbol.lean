/-! Terminals, nonterminals and the empty-string marker, with the order in which they are listed. -/
namespace FormalLanguage

/-- A symbol of the words of a language. -/
structure Terminal where
  id : Nat
deriving DecidableEq, Inhabited

/-- A symbol that rules replace. -/
structure NonTerminal where
  id : Nat
deriving DecidableEq, Inhabited

inductive Kind where
  | terminal
  | nonterminal
deriving DecidableEq

inductive Symbol where
  | terminal (t : Terminal)
  | nonterminal (n : NonTerminal)
deriving DecidableEq

/-- What is written in a rule: a symbol, or the marker of the empty string. -/
inductive Mark where
  | symbol (s : Symbol)
  | epsilon
deriving DecidableEq

abbrev Word := List Terminal

abbrev Body := List Symbol

/-- The text of the empty-string marker, which names no symbol. -/
def epsilonText : String := "ε"

/-- IDs stay below this number. -/
def idLimit : Nat := 4294967295

/-- The ID of a number, if there is one. Numbers count modulo 2^32. -/
def idOfNat? (n : Nat) : Option Nat :=
  let id := n % UInt32.size
  if id < idLimit then some id else none

/-- The text of an ID: the number that stands for it counts from one. -/
def idText (id : Nat) : String := "SymbolId(" ++ toString (id + 1) ++ ")"

namespace Terminal

instance : Ord Terminal := ⟨compareOn id⟩

instance : Std.TransOrd Terminal := inferInstanceAs (Std.TransCmp (compareOn id))

instance : Std.LawfulEqOrd Terminal where
  compare_self := Std.ReflOrd.compare_self (α := Nat)
  eq_of_compare {a b} h := by
    cases a; cases b
    exact congrArg mk (Std.LawfulEqOrd.eq_of_compare (α := Nat) h)

/-- The text of a terminal that no table names. -/
def rawText (t : Terminal) : String := "Terminal(" ++ idText t.id ++ ")"

end Terminal

namespace NonTerminal

instance : Ord NonTerminal := ⟨compareOn id⟩

instance : Std.TransOrd NonTerminal := inferInstanceAs (Std.TransCmp (compareOn id))

instance : Std.LawfulEqOrd NonTerminal where
  compare_self := Std.ReflOrd.compare_self (α := Nat)
  eq_of_compare {a b} h := by
    cases a; cases b
    exact congrArg mk (Std.LawfulEqOrd.eq_of_compare (α := Nat) h)

/-- The text of a nonterminal that no table names. -/
def rawText (n : NonTerminal) : String := "NonTerminal(" ++ idText n.id ++ ")"

end NonTerminal

def Kind.text : Kind → String
  | .terminal => "terminal"
  | .nonterminal => "nonterminal"

namespace Symbol

def ofKind : Kind → Nat → Symbol
  | .terminal, id => terminal ⟨id⟩
  | .nonterminal, id => nonterminal ⟨id⟩

def kind : Symbol → Kind
  | terminal _ => .terminal
  | nonterminal _ => .nonterminal

def id : Symbol → Nat
  | terminal t => t.id
  | nonterminal n => n.id

def terminal? : Symbol → Option Terminal
  | terminal t => some t
  | nonterminal _ => none

def nonterminal? : Symbol → Option NonTerminal
  | terminal _ => none
  | nonterminal n => some n

def isTerminal (s : Symbol) : Bool := s.terminal?.isSome

def isNonTerminal (s : Symbol) : Bool := s.nonterminal?.isSome

@[simp] theorem ofKind_kind_id (s : Symbol) : ofKind s.kind s.id = s := by cases s <;> rfl

@[simp] theorem kind_ofKind (k : Kind) (n : Nat) : (ofKind k n).kind = k := by cases k <;> rfl

@[simp] theorem id_ofKind (k : Kind) (n : Nat) : (ofKind k n).id = n := by cases k <;> rfl

/-- Terminals come before nonterminals. -/
def rank : Symbol → Nat
  | terminal _ => 0
  | nonterminal _ => 1

theorem eq_of_rank_of_id {a b : Symbol} (hr : a.rank = b.rank) (hi : a.id = b.id) : a = b := by
  cases a with
  | terminal s =>
    cases b with
    | terminal t => cases s; cases t; simpa [id] using hi
    | nonterminal n => simp [rank] at hr
  | nonterminal m =>
    cases b with
    | terminal t => simp [rank] at hr
    | nonterminal n => cases m; cases n; simpa [id] using hi

instance : Ord Symbol := ⟨compareLex (compareOn rank) (compareOn id)⟩

instance : Std.TransOrd Symbol :=
  inferInstanceAs (Std.TransCmp (compareLex (compareOn rank) (compareOn id)))

instance : Std.LawfulEqOrd Symbol where
  compare_self := Std.ReflOrd.compare_self
  eq_of_compare {a b} h := by
    have h' : (compare a.rank b.rank).then (compare a.id b.id) = .eq := h
    obtain ⟨hr, hi⟩ := Ordering.then_eq_eq.1 h'
    exact eq_of_rank_of_id (Std.LawfulEqOrd.eq_of_compare hr) (Std.LawfulEqOrd.eq_of_compare hi)

/-- The text of a symbol that no table names. -/
def rawText : Symbol → String
  | terminal t => "Terminal(" ++ t.rawText ++ ")"
  | nonterminal n => "NonTerminal(" ++ n.rawText ++ ")"

end Symbol

namespace Mark

def symbol? : Mark → Option Symbol
  | symbol s => some s
  | epsilon => none

/-- The symbols of a written body, without its markers. -/
def strip (marks : List Mark) : Body := marks.filterMap symbol?

@[simp] theorem strip_map_symbol (body : Body) : strip (body.map symbol) = body := by
  induction body with
  | nil => rfl
  | cons s body ih => simpa [strip, symbol?] using ih

/-- The marker comes after every symbol. -/
def rank : Mark → Nat
  | symbol s => s.rank
  | epsilon => 2

def id : Mark → Nat
  | symbol s => s.id
  | epsilon => 0

instance : Ord Mark := ⟨compareLex (compareOn rank) (compareOn id)⟩

instance : Std.TransOrd Mark :=
  inferInstanceAs (Std.TransCmp (compareLex (compareOn rank) (compareOn id)))

theorem eq_of_rank_of_id {a b : Mark} (hr : a.rank = b.rank) (hi : a.id = b.id) : a = b := by
  cases a with
  | symbol s =>
    cases b with
    | symbol t => exact congrArg symbol (Symbol.eq_of_rank_of_id hr hi)
    | epsilon => cases s <;> simp [rank, Symbol.rank] at hr
  | epsilon =>
    cases b with
    | symbol t => cases t <;> simp [rank, Symbol.rank] at hr
    | epsilon => rfl

instance : Std.LawfulEqOrd Mark where
  compare_self := Std.ReflOrd.compare_self
  eq_of_compare {a b} h := by
    have h' : (compare a.rank b.rank).then (compare a.id b.id) = .eq := h
    obtain ⟨hr, hi⟩ := Ordering.then_eq_eq.1 h'
    exact eq_of_rank_of_id (Std.LawfulEqOrd.eq_of_compare hr) (Std.LawfulEqOrd.eq_of_compare hi)

def rawText : Mark → String
  | symbol s => s.rawText
  | epsilon => "Epsilon"

end Mark

end FormalLanguage
