/-!
Sets of states as they are held: in a row, in increasing order and without repetition. A state is
looked up by halving the row.
-/
namespace FormalLanguage

/-- Where a state stands in a row, or where it would have to stand. -/
inductive RowPlace where
  | present (place : Nat)
  | absent (place : Nat)
deriving DecidableEq

structure StateRow where
  states : List Nat
deriving DecidableEq

namespace StateRow

/-- Looks a state up between two places of a row; the half that cannot have it is dropped. -/
def search (row : List Nat) (q low high : Nat) (hhigh : high ≤ row.length) : RowPlace :=
  if hlow : low < high then
    let middle := (low + high) / 2
    have hmiddle : middle < row.length := by omega
    match compare row[middle] q with
    | .eq => .present middle
    | .lt => search row q (middle + 1) high hhigh
    | .gt => search row q low middle (by omega)
  else .absent low
termination_by high - low

/-- Keeps one of the states that stand in a row and are the same. -/
def dropRepeats : List Nat → List Nat
  | p :: q :: states => if p = q then dropRepeats (q :: states) else p :: dropRepeats (q :: states)
  | states => states

def empty : StateRow := ⟨[]⟩

def singleton (q : Nat) : StateRow := ⟨[q]⟩

/-- The row of some states, which may be in any order and repeated. -/
def ofList (states : List Nat) : StateRow := ⟨dropRepeats states.mergeSort⟩

variable (r : StateRow)

def place (q : Nat) : RowPlace := search r.states q 0 r.states.length (Nat.le_refl _)

def contains (q : Nat) : Bool :=
  match r.place q with
  | .present _ => true
  | .absent _ => false

/-- Adds a state at its place, and tells whether it was absent. -/
def insert (q : Nat) : Bool × StateRow :=
  match r.place q with
  | .present _ => (false, r)
  | .absent i => (true, ⟨r.states.take i ++ q :: r.states.drop i⟩)

def extend (states : List Nat) : StateRow := ofList (r.states ++ states)

/-- Whether the rows share a state. -/
def intersects (other : StateRow) : Bool := r.states.any other.contains

def size : Nat := r.states.length

end StateRow

end FormalLanguage
