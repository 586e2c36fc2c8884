import FormalLanguage.Grammar.Basic

/-! Fresh nonterminals that stand for a part of a body. Equal parts share one nonterminal. -/
namespace FormalLanguage

universe u

/-- A grammar under construction, and the nonterminals introduced so far with what they stand for. -/
structure Abbreviating (κ : Type u) where
  result : Grammar
  known : List (κ × NonTerminal) := []

namespace Abbreviating

variable {κ : Type u} [DecidableEq κ]

/-- The nonterminal that stands for `key`, introduced with the rule for its body if it is new. -/
def abbreviate (body : κ → Body) (key : κ) (a : Abbreviating κ) :
    Except GrammarError (NonTerminal × Abbreviating κ) :=
  match a.known.lookup key with
  | some n => .ok (n, a)
  | none =>
    match a.result.fresh with
    | (.ok n, result) => .ok (n, ⟨result.addRule n (body key), (key, n) :: a.known⟩)
    | (.error e, _) => .error (.naming e)

def addRule (lhs : NonTerminal) (body : Body) (a : Abbreviating κ) : Abbreviating κ :=
  { a with result := a.result.addRule lhs body }

end Abbreviating

end FormalLanguage
