import FormalLanguage.NormalForm.Abbreviation

/-! Moving terminals out of bodies of two or more symbols: each is abbreviated by a nonterminal. -/
namespace FormalLanguage

namespace Grammar

def terminalBody (a : Terminal) : Body := [.terminal a]

def isolate : Body → Abbreviating Terminal → Except GrammarError (Body × Abbreviating Terminal)
  | [], a => .ok ([], a)
  | .terminal t :: body, a => do
    let (n, a) ← a.abbreviate terminalBody t
    let (body, a) ← isolate body a
    return (.nonterminal n :: body, a)
  | s :: body, a => do
    let (body, a) ← isolate body a
    return (s :: body, a)

def isolateRule (a : Abbreviating Terminal) (r : Rule) :
    Except GrammarError (Abbreviating Terminal) :=
  if r.body.length < 2 then .ok (a.addRule r.lhs r.body)
  else do
    let (body, a) ← isolate r.body a
    return a.addRule r.lhs body

/-- Terminals stand alone in their bodies. -/
def eliminateMixedTerminals (g : Grammar) : Except GrammarError Grammar := do
  g.validate
  let a ← g.rules.toList.foldlM isolateRule ⟨g.clearRules, []⟩
  return a.result

end Grammar

end FormalLanguage
