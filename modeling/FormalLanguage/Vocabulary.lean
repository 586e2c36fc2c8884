import FormalLanguage.OrderedSet
import FormalLanguage.SymbolTable

/-! The symbols that a grammar uses: a table of names, and the part of it in use. -/
namespace FormalLanguage

/-- The symbols in use need not come from the table, nor be all of it. -/
structure Vocabulary where
  table : SymbolTable := .empty {}
  nonterminals : OrderedSet NonTerminal := ∅
  terminals : OrderedSet Terminal := ∅
deriving DecidableEq

namespace Vocabulary

variable (v : Vocabulary)

/-- Whether the symbol is in use. -/
def uses : Symbol → Bool
  | .terminal a => a ∈ v.terminals
  | .nonterminal n => n ∈ v.nonterminals

def add : Symbol → Vocabulary
  | .terminal a => { v with terminals := v.terminals.insert a }
  | .nonterminal n => { v with nonterminals := v.nonterminals.insert n }

/-- The terminal with this name, which is in use from now on. -/
def terminal (name : String) : Except NameError (Terminal × Vocabulary) :=
  (v.table.terminal name).map fun (a, table) => (a, { v with table }.add (.terminal a))

/-- The nonterminal with this name, which is in use from now on. -/
def nonterminal (name : String) : Except NameError (NonTerminal × Vocabulary) :=
  (v.table.nonterminal name).map fun (n, table) => (n, { v with table }.add (.nonterminal n))

/-- A nonterminal with a fresh name, which is in use from now on. -/
def fresh : Except NameError NonTerminal × Vocabulary :=
  match v.table.fresh with
  | (.ok n, table) => (.ok n, { v with table }.add (.nonterminal n))
  | (.error e, table) => (.error e, { v with table })

variable {v}

theorem uses_terminal {a : Terminal} : v.uses (.terminal a) = true ↔ a ∈ v.terminals :=
  decide_eq_true_iff

theorem uses_nonterminal {n : NonTerminal} : v.uses (.nonterminal n) = true ↔ n ∈ v.nonterminals :=
  decide_eq_true_iff

theorem uses_add {s x : Symbol} : (v.add s).uses x = true ↔ x = s ∨ v.uses x = true := by
  cases s <;> cases x <;> simp [add, uses_terminal, uses_nonterminal]

end Vocabulary

end FormalLanguage
