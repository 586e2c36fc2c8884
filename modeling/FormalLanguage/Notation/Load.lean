import FormalLanguage.Notation.Scope

/-! Grammars from their texts. Declared names are bound first, in the order of the text. -/
namespace FormalLanguage.Notation

/-- The nonterminal of a left-hand side, which is one unquoted name. -/
def bindLhs (v : Vocabulary) (r : WrittenRule) : Except LoadError (NonTerminal × Vocabulary) :=
  match r.lhs.symbols with
  | [w] =>
    if w.quoted || isEpsilon w.text then .error ⟨.compoundLeftHandSide, r.lhs.position⟩
    else bindNonTerminal v w.text w.position
  | _ => .error ⟨.compoundLeftHandSide, r.lhs.position⟩

def bindNonTerminals (v : Vocabulary) (names : List Named) : Except LoadError Vocabulary :=
  names.foldlM (fun v n => Prod.snd <$> bindNonTerminal v n.text n.position) v

def bindTerminals (v : Vocabulary) (names : List Named) : Except LoadError Vocabulary :=
  names.foldlM (fun v n => Prod.snd <$> bindTerminal v n.text n.position) v

def bindSides (v : Vocabulary) (rules : List WrittenRule) : Except LoadError Vocabulary :=
  rules.foldlM (fun v r => Prod.snd <$> bindLhs v r) v

/-- Binds the declared names, and the left-hand sides if these are single names. -/
def declare (d : Document) (singleNames : Bool) : Except LoadError Vocabulary := do
  let v ← bindNonTerminals {} d.nonterminals
  let v ← if singleNames then bindSides v d.rules else pure v
  bindTerminals v (d.terminals.getD [])

/-- The declared start symbol, or else the left-hand side of the first rule. -/
def bindStart (d : Document) (first : Option NonTerminal) (v : Vocabulary) :
    Except LoadError (NonTerminal × Vocabulary) :=
  match d.start, first with
  | some named, _ => bindNonTerminal v named.text named.position
  | none, some n => .ok (n, v)
  | none, none => .error ⟨.noStart, ⟨1, 1⟩⟩

def loadAlternative (scope : Scope) (lhs : NonTerminal) (g : Grammar) (s : Sequence) :
    Except LoadError Grammar := do
  let (body, v) ← scope.body g.toVocabulary s
  return { g with toVocabulary := v }.addRule lhs body

/-- Adds the rules, and gives the left-hand side of the first. -/
def loadRules (scope : Scope) (g : Grammar) :
    List WrittenRule → Except LoadError (Option NonTerminal × Grammar)
  | [] => .ok (none, g)
  | r :: rules => do
    let (lhs, v) ← bindLhs g.toVocabulary r
    let g ← r.alternatives.foldlM (loadAlternative scope lhs) { g with toVocabulary := v }
    let (_, g) ← loadRules scope g rules
    return (some lhs, g)

/-- Reads a context-free grammar: every left-hand side is one nonterminal. -/
def loadGrammar (text : String) : Except LoadError Grammar := do
  let d ← Document.parse text.toList
  let v ← declare d true
  let (first, g) ← loadRules (d.scope true) { toVocabulary := v } d.rules
  let (start, v) ← bindStart d first g.toVocabulary
  return { g with toVocabulary := v, start := some start }

def loadPhraseAlternative (scope : Scope) (lhs : Sequence) (symbols : Body) (g : PhraseGrammar)
    (s : Sequence) : Except LoadError PhraseGrammar := do
  let (rhs, v) ← scope.body g.toVocabulary s
  ({ g with toVocabulary := v }.addRule symbols rhs).mapError fun e => ⟨.phrase e, lhs.position⟩

/-- Adds the rules, and gives the left-hand side of the first if it is one nonterminal. -/
def loadPhraseRules (scope : Scope) (g : PhraseGrammar) :
    List WrittenRule → Except LoadError (Option NonTerminal × PhraseGrammar)
  | [] => .ok (none, g)
  | r :: rules => do
    let (lhs, v) ← scope.body g.toVocabulary r.lhs
    let g ← r.alternatives.foldlM (loadPhraseAlternative scope r.lhs lhs) { g with toVocabulary := v }
    let (_, g) ← loadPhraseRules scope g rules
    return ((PhraseRule.mk lhs []).single?, g)

/-- Reads a grammar whose left-hand sides are sequences of symbols. -/
def loadPhraseGrammar (text : String) : Except LoadError PhraseGrammar := do
  let d ← Document.parse text.toList
  let v ← declare d false
  let (first, g) ← loadPhraseRules (d.scope false) (.empty v) d.rules
  let (start, v) ← bindStart d first g.toVocabulary
  return { g with toVocabulary := v, start := some start }

end FormalLanguage.Notation
