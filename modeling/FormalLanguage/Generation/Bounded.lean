import FormalLanguage.Grammar.SymbolSet

/-! The words of a grammar up to a length, as the least sets that the rules do not enlarge. -/
namespace FormalLanguage

/-- The words of a language that are no longer than a bound. -/
structure BoundedLanguage where
  maxLength : Nat
  words : OrderedSet Word
deriving DecidableEq

/-- Words known to be derived, for each nonterminal. -/
abbrev WordTable := List (NonTerminal × OrderedSet Word)

namespace WordTable

/-- The words of a nonterminal; one that is not listed has none. -/
def wordsOf (t : WordTable) (n : NonTerminal) : OrderedSet Word := (t.lookup n).getD ∅

variable (maxLength : Nat) (t : WordTable)

/-- The words that begin with one of `heads` and end with a word of the symbol. -/
def extend (heads : OrderedSet Word) : Symbol → OrderedSet Word
  | .terminal a =>
    OrderedSet.ofList ((heads.toList.filter fun w => w.length < maxLength).map (· ++ [a]))
  | .nonterminal n =>
    OrderedSet.ofList (heads.toList.flatMap fun w =>
      ((t.wordsOf n).toList.filter fun v => w.length + v.length ≤ maxLength).map (w ++ ·))

/-- The words of a body. -/
def expand (body : Body) : OrderedSet Word := body.foldl (extend maxLength t) (OrderedSet.singleton [])

/-- Adds words to those of a nonterminal. -/
def addWords (n : NonTerminal) (words : OrderedSet Word) : WordTable :=
  t.map fun (m, known) => (m, if m = n then known.union words else known)

/-- Adds the words of the body of a rule to those of its left-hand side. -/
def growRule (r : Rule) : WordTable := t.addWords r.lhs (t.expand maxLength r.body)

/-- Applies the rules in order, each to the words found so far. -/
def grow (g : Grammar) : WordTable := g.rules.toList.foldl (growRule maxLength) t

end WordTable

namespace Grammar

variable (g : Grammar)

/--
Rounds after which no word is missing. Once all shorter words are known, the words of a length are
found nonterminal by nonterminal.
-/
def roundBound (maxLength : Nat) : Nat := g.leftSides.size * (maxLength + 1)

/-- Lists the nonterminals that have rules, without words. -/
def emptyWordTable : WordTable := g.leftSides.toList.map (·, ∅)

def wordTable (maxLength : Nat) : WordTable :=
  saturate (fun t => t.grow maxLength g) (g.roundBound maxLength) g.emptyWordTable

/-- The words of at most this length that the start symbol derives. -/
def boundedLanguage (maxLength : Nat) : BoundedLanguage where
  maxLength
  words := match g.start with
    | some start => (g.wordTable maxLength).wordsOf start
    | none => ∅

end Grammar

namespace BoundedLanguage

variable (l : BoundedLanguage)

def contains (w : Word) : Bool := w ∈ l.words

def withoutEmpty : BoundedLanguage := { l with words := l.words.erase [] }

/-- The words as texts, if all terminals have names. -/
def texts? (t : SymbolTable) : Option (List String) :=
  l.words.toList.mapM fun w => String.join <$> w.mapM fun a => t.nameOf? (.terminal a)

end BoundedLanguage

end FormalLanguage
