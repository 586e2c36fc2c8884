import FormalLanguage.Grammar.Basic
import FormalLanguage.Hierarchy.Level

/-! Linear bodies, and the level of a context-free grammar. -/
namespace FormalLanguage

/-- Bodies of the form `ε`, `a`, `aB` or `B`. -/
def isRightLinearBody : Body → Bool
  | [] => true
  | [_] => true
  | [.terminal _, .nonterminal _] => true
  | _ => false

/-- Bodies of the form `ε`, `a`, `Ba` or `B`. -/
def isLeftLinearBody : Body → Bool
  | [] => true
  | [_] => true
  | [.nonterminal _, .terminal _] => true
  | _ => false

theorem isLeftLinearBody_reverse (body : Body) :
    isLeftLinearBody body.reverse = isRightLinearBody body := by
  match body with
  | [] => rfl
  | [_] => rfl
  | [.terminal _, .terminal _] => rfl
  | [.terminal _, .nonterminal _] => rfl
  | [.nonterminal _, .terminal _] => rfl
  | [.nonterminal _, .nonterminal _] => rfl
  | a :: b :: c :: rest =>
    have h : 3 ≤ (a :: b :: c :: rest).reverse.length := by simp
    match hr : (a :: b :: c :: rest).reverse with
    | [] | [_] | [_, _] => simp [hr] at h
    | _ :: _ :: _ :: _ => simp [isLeftLinearBody, isRightLinearBody]

namespace Grammar

variable (g : Grammar)

def isRightLinear : Bool := g.rules.toList.all fun r => isRightLinearBody r.body

def isLeftLinear : Bool := g.rules.toList.all fun r => isLeftLinearBody r.body

/-- The bodies are all right-linear or all left-linear. -/
def isRegular : Bool := g.isRightLinear || g.isLeftLinear

def level : Level := if g.isRegular then .regular else .contextFree

end Grammar

end FormalLanguage
