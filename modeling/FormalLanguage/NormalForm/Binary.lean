import FormalLanguage.NormalForm.Abbreviation

/-! Shortening bodies to two symbols: the leading pair is abbreviated until two symbols are left. -/
namespace FormalLanguage

namespace Grammar

def pairBody (pair : Symbol × Symbol) : Body := [pair.1, pair.2]

/-- Shortens the body `s :: t :: rest`. -/
def shorten (s t : Symbol) : Body → Abbreviating (Symbol × Symbol) →
    Except GrammarError (Body × Abbreviating (Symbol × Symbol))
  | [], a => .ok ([s, t], a)
  | u :: rest, a => do
    let (n, a) ← a.abbreviate pairBody (s, t)
    shorten (.nonterminal n) u rest a

def shortenRule (a : Abbreviating (Symbol × Symbol)) (r : Rule) :
    Except GrammarError (Abbreviating (Symbol × Symbol)) :=
  match r.body with
  | s :: t :: rest => do
    let (body, a) ← shorten s t rest a
    return a.addRule r.lhs body
  | body => .ok (a.addRule r.lhs body)

/-- No body has more than two symbols. -/
def binarize (g : Grammar) : Except GrammarError Grammar := do
  g.validate
  let a ← g.rules.toList.foldlM shortenRule ⟨g.clearRules, []⟩
  return a.result

end Grammar

end FormalLanguage
