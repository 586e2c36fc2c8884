import FormalLanguage.Grammar.Basic

/-! Relations between the symbols of a table, by ID, and their closures. -/
namespace FormalLanguage

/-- A table with one row and one column for each ID below the size. -/
structure Relation where
  rows : List (OrderedSet Nat)
deriving DecidableEq

namespace Relation

def empty (size : Nat) : Relation := ⟨List.replicate size ∅⟩

variable (r : Relation)

def size : Nat := r.rows.length

/-- The IDs that the row is related to. IDs beyond the size are related to nothing. -/
def row (i : Nat) : OrderedSet Nat := (r.rows[i]?.getD ∅).filter (· < r.size)

def relatedId (i j : Nat) : Bool := j ∈ r.row i

/-- The marker is related to nothing. -/
def related : Mark → Mark → Bool
  | .symbol x, .symbol y => r.relatedId x.id y.id
  | _, _ => false

/-- Rows are this long: the size, rounded up to whole words of 32. -/
def width : Nat := (r.size + 31) / 32 * 32

/--
Relates two IDs. Cells are counted row after row, so a column past the width falls into a later
row; there is no cell past the last row.
-/
def relate (i j : Nat) : Except GrammarError Relation :=
  let cell := i * r.width + j
  if cell < r.size * r.width then
    .ok ⟨r.rows.modify (cell / r.width) (·.insert (cell % r.width))⟩
  else .error .outOfRange

/-- Relates the left-hand side of a rule to the symbols of its body. -/
def relateBody (rule : Rule) : Except GrammarError Relation :=
  rule.body.foldlM (fun r s => r.relate rule.lhs.id s.id) r

/-- Relates the left-hand side of a unit rule to its nonterminal; a loop relates nothing. -/
def relateUnit (rule : Rule) : Except GrammarError Relation :=
  match rule.unit? with
  | some n => if n = rule.lhs then .ok r else r.relate rule.lhs.id n.id
  | none => .ok r

/-- Adds what is reached by way of `k` to the rows that reach `k`. -/
def closeAt (k : Nat) : Relation :=
  let through := r.rows[k]?.getD ∅
  ⟨r.rows.map fun row => if k ∈ row then row.union through else row⟩

def transitiveClosure : Relation := (List.range r.size).foldl closeAt r

def reflexiveClosure : Relation := ⟨r.rows.mapIdx fun i row => row.insert i⟩

end Relation

namespace Grammar

variable (g : Grammar)

def emptyRelation : Relation := .empty g.table.size

/-- Relates `A` to the symbols of the bodies of `A`. -/
def directRelation : Except GrammarError Relation :=
  g.rules.toList.foldlM Relation.relateBody g.emptyRelation

/-- Relates `A` to the symbols of the sentential forms that `A` derives, itself among them. -/
def reachRelation : Except GrammarError Relation := do
  let r ← g.directRelation
  return r.transitiveClosure.reflexiveClosure

/-- Relates `A` to the nonterminals at the end of a chain of unit rules from `A`, loops left out. -/
def unitRelation : Except GrammarError Relation := do
  let r ← g.rules.toList.foldlM Relation.relateUnit g.emptyRelation
  return r.transitiveClosure

end Grammar

end FormalLanguage
