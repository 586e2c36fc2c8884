import FormalLanguage.Grammar.Basic
import FormalLanguage.Saturation

/-!
Sets of symbol IDs below a size that shows, and their closure under the rules of a grammar: the
least set that also has the left-hand side of every rule whose body has the property.
-/
namespace FormalLanguage

/-- IDs below a size. Sets of different sizes differ. -/
structure SymbolSet where
  size : Nat
  ids : OrderedSet Nat
  ids_lt : ∀ id ∈ ids, id < size
deriving DecidableEq

namespace SymbolSet

/-- The set of size zero. -/
def empty : SymbolSet := ⟨0, ∅, fun id h => absurd h (OrderedSet.not_mem_empty id)⟩

instance : EmptyCollection SymbolSet := ⟨empty⟩

instance : Inhabited SymbolSet := ⟨∅⟩

/-- All IDs below the size, or none. -/
def filled (size : Nat) (elem : Bool) : SymbolSet where
  size
  ids := if elem then OrderedSet.ofList (List.range size) else ∅
  ids_lt id h := by
    cases elem with
    | true => simpa using h
    | false => simp at h

variable (s : SymbolSet)

def hasId (id : Nat) : Bool := id ∈ s.ids

/-- Membership is by ID, whatever the kind. -/
def has (x : Symbol) : Bool := s.hasId x.id

/-- The marker is in no set. -/
def hasMark : Mark → Bool
  | .symbol x => s.has x
  | .epsilon => false

/-- Adds an ID; the set grows to hold it. -/
def insertId (id : Nat) : SymbolSet where
  size := max s.size (id + 1)
  ids := s.ids.insert id
  ids_lt i h := by
    rcases OrderedSet.mem_insert.1 h with rfl | h
    · omega
    · have := s.ids_lt i h
      omega

/-- Removes an ID; the set grows to have room for it. -/
def eraseId (id : Nat) : SymbolSet where
  size := max s.size (id + 1)
  ids := s.ids.erase id
  ids_lt i h := by
    have := s.ids_lt i (OrderedSet.mem_erase.1 h).1
    omega

def set (x : Symbol) (elem : Bool) : SymbolSet := if elem then s.insertId x.id else s.eraseId x.id

/-- Setting the marker does nothing. -/
def setMark (m : Mark) (elem : Bool) : SymbolSet :=
  match m with
  | .symbol x => s.set x elem
  | .epsilon => s

def union (t : SymbolSet) : SymbolSet where
  size := max s.size t.size
  ids := s.ids.union t.ids
  ids_lt i h := by
    rcases OrderedSet.mem_union.1 h with h | h
    · have := s.ids_lt i h
      omega
    · have := t.ids_lt i h
      omega

/-- Whether all IDs below the size are in the set. -/
def isFull : Bool := (List.range s.size).all s.hasId

/-- One character for each ID below the size. -/
def bits : String := String.ofList ((List.range s.size).map fun id => if s.hasId id then '1' else '0')

variable {s}

@[simp] theorem hasId_insertId {id i : Nat} :
    (s.insertId id).hasId i = true ↔ i = id ∨ s.hasId i = true := by
  simp [hasId, insertId]

theorem has_eq_hasId (x : Symbol) : s.has x = s.hasId x.id := rfl

end SymbolSet

/-- How a body has a property that symbols have. -/
inductive BodyTest where
  | all
  | any
deriving DecidableEq

/-- An empty body has no property. -/
def BodyTest.holds (test : BodyTest) (s : SymbolSet) (body : Body) : Bool :=
  !body.isEmpty && match test with
    | .all => body.all s.has
    | .any => body.any s.has

/-- A set that grows, and those of its IDs whose occurrences in bodies are yet to be looked at. -/
structure Closing where
  pending : List Nat
  members : SymbolSet
deriving DecidableEq

namespace Closing

/-- Every ID of the set is pending, the greatest one first. -/
def start (s : SymbolSet) : Closing := ⟨s.ids.toList.reverse, s⟩

/-- Adds the left-hand side of a rule, if the body has the property. It is the next one pending. -/
def apply (test : BodyTest) (c : Closing) (r : Rule) : Closing :=
  if test.holds c.members r.body && !c.members.hasId r.lhs.id then
    ⟨r.lhs.id :: c.pending, c.members.insertId r.lhs.id⟩
  else c

end Closing

namespace Grammar

variable (g : Grammar)

/-- The rules that have the ID in their bodies, each of them once. -/
def occurrences (id : Nat) : List Rule := g.rules.toList.filter fun r => r.body.any (·.id = id)

def visit (test : BodyTest) (c : Closing) (id : Nat) : Closing :=
  (g.occurrences id).foldl (Closing.apply test) c

/-- Visits the next ID that is pending, if there is one. -/
def visitNext (test : BodyTest) (c : Closing) : Closing :=
  match c.pending with
  | [] => c
  | id :: pending => g.visit test ⟨pending, c.members⟩ id

/--
The least set above `s` that has the left-hand side of every rule whose body has the property. There
is one visit for each ID of `s`, and one for each ID that is added, of which each rule adds at most one.
-/
def closure (test : BodyTest) (s : SymbolSet) : SymbolSet :=
  (saturate (g.visitNext test) (s.ids.size + g.numRules) (.start s)).members

/-- Adds the nonterminals that have an empty body. A set of size zero is sized to the table first. -/
def markNulling (s : SymbolSet) : SymbolSet :=
  let s := if s.size = 0 then .filled g.table.size false else s
  g.rules.toList.foldl (fun s r => if r.body.isEmpty then s.insertId r.lhs.id else s) s

/-- The terminals in use. -/
def terminalSymbols : SymbolSet :=
  g.terminals.toList.foldl (fun s a => s.insertId a.id) (.filled g.table.size false)

/-- The symbols in use. -/
def vocabularySymbols : SymbolSet :=
  g.nonterminals.toList.foldl (fun s n => s.insertId n.id) g.terminalSymbols

/-- The nonterminals that have an empty body. -/
def nullingSymbols : SymbolSet := g.markNulling (.filled g.table.size false)

/-- The nonterminals that derive the empty word. -/
def nullableSymbols : SymbolSet := g.closure .all g.nullingSymbols

/-- The symbols that derive a word. -/
def productiveSymbols : SymbolSet := g.closure .all (g.terminalSymbols.union g.nullingSymbols)

end Grammar

end FormalLanguage
