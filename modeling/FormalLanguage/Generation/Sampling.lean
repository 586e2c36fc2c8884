import FormalLanguage.Grammar.SymbolSet

/-!
Words drawn at random: the leftmost nonterminal is replaced by one of its productive bodies until
none is left. What picks the bodies is a parameter.
-/
namespace FormalLanguage

inductive SamplingError where
  | limitExceeded
  | noStart
  /-- A nonterminal without a productive body was to be replaced. -/
  | noChoice
deriving DecidableEq

def SamplingError.message : SamplingError → String
  | .limitExceeded => "generation limit exceeded"
  | .noStart => "grammar has no productive start symbol"
  | .noChoice => "no body to choose from"

/-- How many terminals a word may have, and how many nonterminals may be replaced for it. -/
structure Limits where
  terminals : Nat := 1000
  expansions : Nat := 10000
deriving DecidableEq

/-- The terminals at the front of a form, and the rest. -/
def leadingTerminals : Body → Word × Body
  | .terminal a :: rest =>
    let (word, rest) := leadingTerminals rest
    (a :: word, rest)
  | rest => ([], rest)

namespace Grammar

universe u

variable {σ : Type u} (pick : (n : Nat) → 0 < n → σ → Fin n × σ) (g : Grammar)

/-- The bodies whose symbols all derive a word. -/
def choices (productive : SymbolSet) (n : NonTerminal) : List Body :=
  (g.bodies n).filter fun body => body.all productive.has

/-- Finishes a word from the form that follows it, replacing at most `left` nonterminals. -/
def finishWord (productive : SymbolSet) (maxTerminals : Nat) :
    (left : Nat) → Word → Body → σ → Except SamplingError Word × σ
  | left, word, form, s =>
    let (more, rest) := leadingTerminals form
    let word := word ++ more
    if maxTerminals < word.length then (.error .limitExceeded, s)
    else
      match rest with
      | .nonterminal n :: rest =>
        match left with
        | 0 => (.error .limitExceeded, s)
        | left + 1 =>
          if h : 0 < (g.choices productive n).length then
            let (i, s) := pick _ h s
            finishWord productive maxTerminals left word ((g.choices productive n)[i] ++ rest) s
          else (.error .noChoice, s)
      | _ => (.ok word, s)

/-- A word of the grammar, drawn within the limits. -/
def sample (limits : Limits) (s : σ) : Except SamplingError Word × σ :=
  let productive := g.productiveSymbols
  match g.start with
  | some start =>
    if productive.hasId start.id then
      finishWord pick g productive limits.terminals limits.expansions [] [.nonterminal start] s
    else (.error .noStart, s)
  | none => (.error .noStart, s)

end Grammar

end FormalLanguage
