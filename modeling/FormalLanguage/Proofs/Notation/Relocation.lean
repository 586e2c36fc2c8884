import FormalLanguage.Notation.Load
import FormalLanguage.Proofs.Notation.LineForm
import FormalLanguage.Proofs.Notation.Scanning

/-!
Positions in a text. Main statements: whatever is made of a text with its positions taken to others is
what is made of the text itself, with the positions taken there; so a grammar that is loaded does not
depend on positions, and an error only by its own.
-/
namespace FormalLanguage.Notation

variable {α β γ δ : Type} (f : Position → Position)

section Relocating

def Lexeme.relocate (x : Lexeme) : Lexeme := ⟨x.token, f x.position⟩

def Named.relocate (n : Named) : Named := ⟨n.text, f n.position⟩

def Line.relocate : Line → Line
  | directive name arguments ending =>
    .directive (name.relocate f) (arguments.map (Named.relocate f)) (f ending)
  | lexemes row ending => .lexemes (row.map (Lexeme.relocate f)) (f ending)

def Written.relocate (w : Written) : Written := { w with position := f w.position }

def Sequence.relocate (s : Sequence) : Sequence :=
  ⟨f s.position, s.symbols.map (Written.relocate f)⟩

def WrittenRule.relocate (r : WrittenRule) : WrittenRule :=
  ⟨r.lhs.relocate f, r.alternatives.map (Sequence.relocate f)⟩

def Item.relocate : Item → Item
  | rule r => .rule (r.relocate f)
  | directive name arguments => .directive (name.relocate f) (arguments.map (Named.relocate f))

def Document.relocate (d : Document) : Document where
  rules := d.rules.map (WrittenRule.relocate f)
  start := d.start.map (Named.relocate f)
  nonterminals := d.nonterminals.map (Named.relocate f)
  terminals := d.terminals.map (List.map (Named.relocate f))

def LoadError.relocate (e : LoadError) : LoadError := ⟨e.reason, f e.position⟩

/-- A result that is taken elsewhere, or its error. -/
def relocated (k : α → β) : Except LoadError α → Except LoadError β
  | .ok a => .ok (k a)
  | .error e => .error (e.relocate f)

variable {f} {k : α → β} {k' : γ → δ} {x : Except LoadError α}

theorem relocated_eq_ok_iff {b : β} :
    relocated f k x = .ok b ↔ ∃ a, x = .ok a ∧ k a = b := by
  cases x <;> simp [relocated]

theorem relocated_bind {m : α → Except LoadError γ} {m' : β → Except LoadError δ}
    (h : ∀ a, m' (k a) = relocated f k' (m a)) :
    (relocated f k x >>= m') = relocated f k' (x >>= m) := by
  cases x with
  | error e => rfl
  | ok a => exact h a

theorem relocated_map {m : α → γ} {m' : β → δ} (h : ∀ a, m' (k a) = k' (m a)) :
    (relocated f k x).map m' = relocated f k' (x.map m) := by
  cases x with
  | error e => rfl
  | ok a => exact congrArg Except.ok (h a)

theorem relocated_mapError {ε : Type} {e : ε → LoadError} {e' : ε → LoadError}
    {y : Except ε α} (h : ∀ a, e' a = (e a).relocate f) :
    y.mapError e' = relocated f id (y.mapError e) := by
  cases y with
  | error a => exact congrArg Except.error (h a)
  | ok a => rfl

theorem relocated_foldlM {σ τ : Type} {step : σ → α → Except LoadError σ}
    {step' : τ → β → Except LoadError τ} {s : σ → τ} (xs : List α)
    (h : ∀ a x, step' (s a) (k x) = relocated f s (step a x)) (a : σ) :
    (xs.map k).foldlM step' (s a) = relocated f s (xs.foldlM step a) := by
  induction xs generalizing a with
  | nil => rfl
  | cons x xs ih =>
    rw [List.map_cons, List.foldlM_cons, List.foldlM_cons, h]
    exact relocated_bind ih

end Relocating

variable {f} {first w : Written} {others : List Written} {ending : Position} {d : Document}
  {current : Option WrittenRule}

section Lines

theorem relocate_lexeme (w : Written) : w.lexeme.relocate f = (w.relocate f).lexeme := rfl

theorem alternatives_relocate (row : List Lexeme) :
    alternatives (f ending) (row.map (Lexeme.relocate f)) =
      relocated f (List.map (Sequence.relocate f)) (alternatives ending row) ∧
    ∀ first others, moreSymbols (f ending) (Written.relocate f first)
      (others.map (Written.relocate f)) (row.map (Lexeme.relocate f)) =
        relocated f (List.map (Sequence.relocate f)) (moreSymbols ending first others row) := by
  induction row with
  | nil => exact ⟨rfl, fun _ _ => rfl⟩
  | cons x row ih =>
    rcases lexeme_cases x with ⟨w, rfl⟩ | ⟨p, rfl⟩ | ⟨p, rfl⟩
    · rw [List.map_cons, relocate_lexeme]
      simp only [alternatives_symbol, moreSymbols_symbol]
      refine ⟨ih.2 w [], fun first others => ?_⟩
      rw [← ih.2 first (others ++ [w]), List.map_append]
      rfl
    · refine ⟨rfl, fun first others => ?_⟩
      have hrest := ih.1
      rw [List.map_cons, Lexeme.relocate, moreSymbols, moreSymbols, hrest]
      exact relocated_map fun ss => rfl
    · exact ⟨rfl, fun _ _ => rfl⟩

theorem ruleFrom_relocate (row : List Lexeme) (first : Written) (others : List Written) :
    ruleFrom (f ending) (first.relocate f) (others.map (Written.relocate f))
      (row.map (Lexeme.relocate f)) =
        relocated f (WrittenRule.relocate f) (ruleFrom ending first others row) := by
  induction row generalizing others with
  | nil => rfl
  | cons x row ih =>
    rcases lexeme_cases x with ⟨w, rfl⟩ | ⟨p, rfl⟩ | ⟨p, rfl⟩
    · rw [List.map_cons, relocate_lexeme, ruleFrom_symbol, ruleFrom_symbol, ← ih, List.map_append]
      rfl
    · rfl
    · rw [List.map_cons, Lexeme.relocate, ruleFrom, ruleFrom, (alternatives_relocate row).1]
      exact relocated_map fun ss => rfl

theorem relocate_open (current : Option WrittenRule) (items : List Item) :
    (current.map (WrittenRule.relocate f)).toList.map Item.rule ++ items.map (Item.relocate f) =
      (current.toList.map Item.rule ++ items).map (Item.relocate f) := by
  cases current <;> rfl

theorem itemsFrom_relocate (current : Option WrittenRule) (lines : List Line) :
    itemsFrom (current.map (WrittenRule.relocate f)) (lines.map (Line.relocate f)) =
      relocated f (List.map (Item.relocate f)) (itemsFrom current lines) := by
  induction lines generalizing current with
  | nil => cases current <;> rfl
  | cons line lines ih =>
    have hnone := ih none
    cases line with
    | directive name arguments ending =>
      rw [List.map_cons, Line.relocate, itemsFrom, itemsFrom]
      rw [Option.map_none] at hnone
      rw [hnone]
      exact relocated_bind fun items =>
        congrArg Except.ok (relocate_open current (.directive name arguments :: items))
    | lexemes row ending =>
      rcases row_cases row with rfl | ⟨w, rest, rfl⟩ | ⟨p, rest, rfl⟩ | ⟨p, rest, rfl⟩
      · rw [List.map_cons, Line.relocate, List.map_nil, itemsFrom, itemsFrom]
        rw [Option.map_none] at hnone
        rw [hnone]
        exact relocated_bind fun items => congrArg Except.ok (relocate_open current items)
      · rw [List.map_cons, Line.relocate, List.map_cons, relocate_lexeme, itemsFrom_symbol,
          itemsFrom_symbol]
        have hrule := @ruleFrom_relocate f ending rest w []
        rw [List.map_nil] at hrule
        rw [hrule]
        refine relocated_bind fun r => ?_
        have hrest := ih (some r)
        rw [Option.map_some] at hrest
        rw [hrest]
        exact relocated_bind fun items => congrArg Except.ok (relocate_open current items)
      · cases current with
        | none => rfl
        | some r =>
          rw [List.map_cons, Line.relocate, List.map_cons, Lexeme.relocate, Option.map_some, itemsFrom,
            itemsFrom, (alternatives_relocate rest).1]
          refine relocated_bind fun ss => ?_
          rw [← ih, Option.map_some, WrittenRule.relocate, WrittenRule.relocate, List.map_append]
      · rfl

end Lines

section Scanning

variable {m n : Nat} {l l' : List Char}

theorem relocated_append (row : List Lexeme) (x : Except LoadError (List Lexeme)) :
    relocated f (List.map (Lexeme.relocate f)) (x.map (row ++ ·)) =
      (relocated f (List.map (Lexeme.relocate f)) x).map (row.map (Lexeme.relocate f) ++ ·) :=
  (relocated_map fun _ => List.map_append.symm).symm

/-- Where the columns of two lines are told apart no longer, the same characters are read the same. -/
theorem scan_relocate (hf : ∀ c c', f ⟨m, c⟩ = f ⟨n, c'⟩) (skip col col' : Nat) (cs : List Char) :
    relocated f (List.map (Lexeme.relocate f)) (scan m skip col cs) =
      relocated f (List.map (Lexeme.relocate f)) (scan n skip col' cs) := by
  induction cs generalizing skip col col' with
  | nil => cases skip <;> rfl
  | cons c cs ih =>
    cases skip with
    | succ skip => exact ih skip (col + 1) (col' + 1)
    | zero =>
      rw [scan, scan]
      cases opening c cs with
      | blank => exact ih 0 (col + 1) (col' + 1)
      | comment => rfl
      | token token more =>
        have hplace : [Lexeme.mk token ⟨m, col⟩].map (Lexeme.relocate f) =
            [Lexeme.mk token ⟨n, col'⟩].map (Lexeme.relocate f) :=
          congrArg (fun p => [Lexeme.mk token p]) (hf col col')
        have hfirst := relocated_append (f := f) [⟨token, ⟨m, col⟩⟩] (scan m more (col + 1) cs)
        rw [ih more (col + 1) (col' + 1), hplace, ← relocated_append] at hfirst
        exact hfirst
      | problem reason => exact congrArg (fun p => Except.error (LoadError.mk reason p)) (hf col col')

theorem scanWords_relocate (hf : ∀ c c', f ⟨m, c⟩ = f ⟨n, c'⟩) (skip col col' : Nat)
    (cs : List Char) : (scanWords m skip col cs).map (Named.relocate f) =
      (scanWords n skip col' cs).map (Named.relocate f) := by
  induction cs generalizing skip col col' with
  | nil => cases skip <;> rfl
  | cons c cs ih =>
    cases skip with
    | succ skip => exact ih skip (col + 1) (col' + 1)
    | zero =>
      rw [scanWords, scanWords]
      split_ifs
      · exact ih 0 (col + 1) (col' + 1)
      · rfl
      · rw [List.map_cons, List.map_cons, ih, Named.relocate, Named.relocate, hf col col']

theorem scanLine_of_isDirective (h : isDirective l = true) : ∃ name arguments,
    scanWords n 0 1 l = name :: arguments ∧
      scanLine n l = .ok (.directive name arguments ⟨n, l.length + 1⟩) := by
  obtain ⟨name, arguments, hwords⟩ := List.exists_cons_of_ne_nil (@scanWords_ne_nil l n 1 h)
  refine ⟨name, arguments, hwords, ?_⟩
  rw [scanLine, h, hwords]

theorem relocated_lexemes (ending : Position) (x : Except LoadError (List Lexeme)) :
    relocated f (Line.relocate f) (x.map (Line.lexemes · ending)) =
      (relocated f (List.map (Lexeme.relocate f)) x).map (Line.lexemes · (f ending)) := by
  cases x <;> rfl

theorem scanLine_relocate (hf : ∀ c c', f ⟨m, c⟩ = f ⟨n, c'⟩) (l : List Char) :
    relocated f (Line.relocate f) (scanLine m l) = relocated f (Line.relocate f) (scanLine n l) := by
  have hending := hf (l.length + 1) (l.length + 1)
  cases hdirective : isDirective l with
  | true =>
    obtain ⟨name, arguments, hwords, hline⟩ := @scanLine_of_isDirective m l hdirective
    obtain ⟨name', arguments', hwords', hline'⟩ := @scanLine_of_isDirective n l hdirective
    have hsame := scanWords_relocate hf 0 1 1 l
    rw [hwords, hwords', List.map_cons, List.map_cons, List.cons.injEq] at hsame
    rw [hline, hline', relocated, relocated, Line.relocate, Line.relocate, hsame.1, hsame.2, hending]
  | false =>
    rw [scanLine_of_not_isDirective hdirective, scanLine_of_not_isDirective hdirective,
      relocated_lexemes, relocated_lexemes, scan_relocate hf 0 1 1 l, hending]

theorem scanLines_cons_relocate (n : Nat) (l : List Char) (texts : List (List Char)) :
    relocated f (List.map (Line.relocate f)) (scanLines n (l :: texts)) =
      (relocated f (Line.relocate f) (scanLine n l) >>= fun x =>
        relocated f (List.map (Line.relocate f)) (scanLines (n + 1) texts) >>= fun xs =>
          .ok (x :: xs)) := by
  symm
  exact relocated_bind fun x => relocated_bind fun xs => rfl

/-- A line that is read like another may stand in its place. -/
theorem scanLines_relocate (n : Nat) (before after : List (List Char))
    (h : relocated f (Line.relocate f) (scanLine (n + before.length) l) =
      relocated f (Line.relocate f) (scanLine (n + before.length) l')) :
    relocated f (List.map (Line.relocate f)) (scanLines n (before ++ l :: after)) =
      relocated f (List.map (Line.relocate f)) (scanLines n (before ++ l' :: after)) := by
  induction before generalizing n with
  | nil =>
    rw [List.nil_append, List.nil_append, scanLines_cons_relocate, scanLines_cons_relocate]
    exact congrArg (· >>= _) h
  | cons first before ih =>
    rw [List.length_cons, ← Nat.add_assoc, Nat.add_right_comm] at h
    rw [List.cons_append, List.cons_append, scanLines_cons_relocate, scanLines_cons_relocate, ih _ h]

end Scanning

section Documents

theorem addItem_relocate (d : Document) (item : Item) :
    (d.relocate f).addItem (item.relocate f) = relocated f (Document.relocate f) (d.addItem item) := by
  cases item with
  | rule r =>
    refine congrArg Except.ok ?_
    rw [Document.relocate, Document.relocate, List.map_append]
    rfl
  | directive name arguments =>
    show (d.relocate f).addDirective (name.relocate f) (arguments.map (Named.relocate f)) =
      relocated f (Document.relocate f) (d.addDirective name arguments)
    have hname : (name.relocate f).text = name.text := rfl
    have hset : (d.relocate f).start.isSome = d.start.isSome := Option.isSome_map
    unfold Document.addDirective
    rw [hname, hset]
    split_ifs
    · rfl
    · match arguments with
      | [start] => rfl
      | [] => rfl
      | _ :: _ :: _ => rfl
    · refine congrArg Except.ok ?_
      rw [Document.relocate, Document.relocate, List.map_append]
    · refine congrArg Except.ok ?_
      rw [Document.relocate, Document.relocate]
      cases d.terminals with
      | none => rfl
      | some names => simp
    · rfl

/-- Lines that are taken elsewhere make the document that is taken there. -/
theorem document_relocate (lines : List Line) :
    (itemsFrom none (lines.map (Line.relocate f)) >>= fun items =>
      items.foldlM Document.addItem {}) =
    relocated f (Document.relocate f)
      (itemsFrom none lines >>= fun items => items.foldlM Document.addItem {}) := by
  have hitems := @itemsFrom_relocate f none lines
  rw [Option.map_none] at hitems
  rw [hitems]
  exact relocated_bind fun items => relocated_foldlM items addItem_relocate {}

end Documents

section Names

variable {v : Vocabulary} {scope : Scope}

theorem bindTerminal_relocate (v : Vocabulary) (name : List Char) (p : Position) :
    bindTerminal v name (f p) = relocated f id (bindTerminal v name p) :=
  relocated_mapError fun _ => rfl

theorem bindNonTerminal_relocate (v : Vocabulary) (name : List Char) (p : Position) :
    bindNonTerminal v name (f p) = relocated f id (bindNonTerminal v name p) :=
  relocated_mapError fun _ => rfl

theorem symbol_relocate (scope : Scope) (v : Vocabulary) (name : List Char) (p : Position) :
    scope.symbol v name (f p) = relocated f id (scope.symbol v name p) := by
  unfold Scope.symbol
  rw [bindTerminal_relocate, bindNonTerminal_relocate]
  split_ifs
  · exact relocated_map fun _ => rfl
  · exact relocated_map fun _ => rfl
  · rfl

theorem symbolList_relocate (scope : Scope) (v : Vocabulary) (p : Position)
    (names : List (List Char)) :
    scope.symbolList v (f p) names = relocated f id (scope.symbolList v p names) := by
  induction names generalizing v with
  | nil => rfl
  | cons name names ih =>
    rw [Scope.symbolList, Scope.symbolList, symbol_relocate]
    refine relocated_bind fun q => ?_
    show (scope.symbolList q.2 (f p) names >>= _) = _
    rw [ih]
    exact relocated_bind fun _ => rfl

theorem written_relocate (scope : Scope) (alone : Bool) (v : Vocabulary) (w : Written) :
    scope.written alone v (w.relocate f) = relocated f id (scope.written alone v w) := by
  unfold Scope.written
  show (if w.quoted = true then (bindTerminal v w.text (f w.position)).map _
    else scope.symbolList v (f w.position) (scope.names alone w.text)) = _
  rw [bindTerminal_relocate, symbolList_relocate]
  split_ifs
  · exact relocated_map fun _ => rfl
  · rfl

theorem writtenList_relocate (scope : Scope) (alone : Bool) (v : Vocabulary) (ws : List Written) :
    scope.writtenList alone v (ws.map (Written.relocate f)) =
      relocated f id (scope.writtenList alone v ws) := by
  induction ws generalizing v with
  | nil => rfl
  | cons w ws ih =>
    rw [List.map_cons, Scope.writtenList, Scope.writtenList, written_relocate]
    refine relocated_bind fun q => ?_
    show (scope.writtenList alone q.2 (ws.map (Written.relocate f)) >>= _) = _
    rw [ih]
    exact relocated_bind fun _ => rfl

theorem body_relocate (scope : Scope) (v : Vocabulary) (s : Sequence) :
    scope.body v (s.relocate f) = relocated f id (scope.body v s) := by
  have halone : (s.relocate f).symbols.length = s.symbols.length := List.length_map _
  rw [Scope.body, Scope.body, halone]
  exact writtenList_relocate scope _ v s.symbols

theorem bindLhs_relocate (v : Vocabulary) (r : WrittenRule) :
    bindLhs v (r.relocate f) = relocated f id (bindLhs v r) := by
  obtain ⟨⟨p, symbols⟩, ss⟩ := r
  match symbols with
  | [w] =>
    show (if w.quoted || isEpsilon w.text then Except.error _
      else bindNonTerminal v w.text (f w.position)) = relocated f id
        (if w.quoted || isEpsilon w.text then Except.error _ else bindNonTerminal v w.text w.position)
    rw [bindNonTerminal_relocate]
    split_ifs <;> rfl
  | [] => rfl
  | _ :: _ :: _ => rfl

theorem name?_relocate (r : WrittenRule) : (r.relocate f).name? = r.name? := by
  obtain ⟨⟨p, symbols⟩, ss⟩ := r
  match symbols with
  | [w] => rfl
  | [] => rfl
  | _ :: _ :: _ => rfl

theorem scope_relocate (d : Document) (singleNames : Bool) :
    (d.relocate f).scope singleNames = d.scope singleNames := by
  have hnames (names : List Named) :
      (names.map (Named.relocate f)).map Named.text = names.map Named.text := by
    rw [List.map_map]
    rfl
  have hrules : (d.rules.map (WrittenRule.relocate f)).filterMap WrittenRule.name? =
      d.rules.filterMap WrittenRule.name? := by
    rw [List.filterMap_map]
    exact List.filterMap_congr fun r _ => name?_relocate r
  rw [Document.scope, Document.scope, Document.relocate, hnames, hrules]
  cases d.terminals with
  | none => rfl
  | some names => rw [Option.map_some, Option.map_some, Option.map_some, hnames]

end Names

section Loading

/-- What a document is loaded to. -/
def Document.grammar (d : Document) : Except LoadError Grammar := do
  let v ← declare d true
  let (first, g) ← loadRules (d.scope true) { toVocabulary := v } d.rules
  let (start, v) ← bindStart d first g.toVocabulary
  return { g with toVocabulary := v, start := some start }

/-- What a document is loaded to, if left-hand sides may be sequences. -/
def Document.phraseGrammar (d : Document) : Except LoadError PhraseGrammar := do
  let v ← declare d false
  let (first, g) ← loadPhraseRules (d.scope false) (.empty v) d.rules
  let (start, v) ← bindStart d first g.toVocabulary
  return { g with toVocabulary := v, start := some start }

theorem loadGrammar_eq (text : String) :
    loadGrammar text = Document.parse text.toList >>= Document.grammar := rfl

theorem parse_relocate (text : List Char) :
    relocated f (Document.relocate f) (Document.parse text) =
      relocated f (List.map (Line.relocate f)) (lexLines text) >>= fun lines =>
        itemsFrom none lines >>= fun items => items.foldlM Document.addItem {} :=
  (relocated_bind document_relocate).symm

theorem bindAll_relocate {bind : Vocabulary → List Char → Position → Except LoadError (α × Vocabulary)}
    (h : ∀ v name p, bind v name (f p) = relocated f id (bind v name p)) (v : Vocabulary)
    (names : List Named) :
    (names.map (Named.relocate f)).foldlM
      (fun v (n : Named) => Prod.snd <$> bind v n.text n.position) v =
    relocated f id (names.foldlM (fun v n => Prod.snd <$> bind v n.text n.position) v) := by
  refine relocated_foldlM (s := id) names (fun v n => ?_) v
  show (bind v n.text (f n.position)).map Prod.snd = _
  rw [h]
  exact relocated_map fun _ => rfl

theorem bindSides_relocate (v : Vocabulary) (rules : List WrittenRule) :
    bindSides v (rules.map (WrittenRule.relocate f)) = relocated f id (bindSides v rules) := by
  refine relocated_foldlM (s := id) rules (fun v r => ?_) v
  show (bindLhs v (r.relocate f)).map Prod.snd = _
  rw [bindLhs_relocate]
  exact relocated_map fun _ => rfl

theorem declare_relocate (d : Document) (singleNames : Bool) :
    declare (d.relocate f) singleNames = relocated f id (declare d singleNames) := by
  have hterminals : (d.relocate f).terminals.getD [] =
      (d.terminals.getD []).map (Named.relocate f) := by
    rw [Document.relocate]
    cases d.terminals <;> rfl
  have hlast (v : Vocabulary) : bindTerminals v ((d.relocate f).terminals.getD []) =
      relocated f id (bindTerminals v (d.terminals.getD [])) := by
    rw [hterminals]
    exact bindAll_relocate bindTerminal_relocate v _
  unfold declare
  have hfirst : bindNonTerminals {} (d.relocate f).nonterminals =
      relocated f id (bindNonTerminals {} d.nonterminals) :=
    bindAll_relocate bindNonTerminal_relocate {} d.nonterminals
  rw [hfirst]
  refine relocated_bind fun v => ?_
  cases singleNames with
  | false => exact hlast v
  | true =>
    show (bindSides v (d.rules.map (WrittenRule.relocate f)) >>= _) = _
    rw [bindSides_relocate]
    exact relocated_bind fun u => hlast u

/-- An error that is at no place of the text stands at its beginning. -/
theorem bindStart_relocate (hf : f ⟨1, 1⟩ = ⟨1, 1⟩) (d : Document) (first : Option NonTerminal)
    (v : Vocabulary) :
    bindStart (d.relocate f) first v = relocated f id (bindStart d first v) := by
  unfold bindStart
  rw [Document.relocate]
  cases d.start with
  | some named => exact bindNonTerminal_relocate v named.text named.position
  | none =>
    cases first with
    | none => exact congrArg (fun p => Except.error (LoadError.mk .noStart p)) hf.symm
    | some n => rfl

theorem loadAlternative_relocate (scope : Scope) (n : NonTerminal) (g : Grammar) (s : Sequence) :
    loadAlternative scope n g (s.relocate f) = relocated f id (loadAlternative scope n g s) := by
  rw [loadAlternative, loadAlternative, body_relocate]
  exact relocated_bind fun _ => rfl

theorem loadRules_relocate (scope : Scope) (g : Grammar) (rules : List WrittenRule) :
    loadRules scope g (rules.map (WrittenRule.relocate f)) =
      relocated f id (loadRules scope g rules) := by
  induction rules generalizing g with
  | nil => rfl
  | cons r rules ih =>
    rw [List.map_cons, loadRules, loadRules, bindLhs_relocate]
    refine relocated_bind fun q => ?_
    have halternatives := relocated_foldlM (s := id) (k := Sequence.relocate f) r.alternatives
      (loadAlternative_relocate (f := f) scope q.1) { g with toVocabulary := q.2 }
    show ((r.alternatives.map (Sequence.relocate f)).foldlM (loadAlternative scope q.1)
      { g with toVocabulary := q.2 } >>= _) = _
    rw [id_eq] at halternatives
    rw [halternatives]
    refine relocated_bind fun g => ?_
    show (loadRules scope g (rules.map (WrittenRule.relocate f)) >>= _) = _
    rw [ih]
    exact relocated_bind fun _ => rfl

theorem grammar_relocate (hf : f ⟨1, 1⟩ = ⟨1, 1⟩) (d : Document) :
    (d.relocate f).grammar = relocated f id d.grammar := by
  unfold Document.grammar
  rw [declare_relocate, scope_relocate]
  refine relocated_bind fun v => ?_
  have hrules := @loadRules_relocate f (d.scope true) { toVocabulary := v } d.rules
  show (loadRules (d.scope true) { toVocabulary := v } (d.rules.map (WrittenRule.relocate f)) >>= _) = _
  rw [hrules]
  refine relocated_bind fun q => ?_
  show (bindStart (d.relocate f) q.1 q.2.toVocabulary >>= _) = _
  rw [bindStart_relocate hf]
  exact relocated_bind fun _ => rfl

theorem loadPhraseAlternative_relocate (scope : Scope) (lhs : Sequence) (symbols : Body)
    (g : PhraseGrammar) (s : Sequence) :
    loadPhraseAlternative scope (lhs.relocate f) symbols g (s.relocate f) =
      relocated f id (loadPhraseAlternative scope lhs symbols g s) := by
  rw [loadPhraseAlternative, loadPhraseAlternative, body_relocate]
  exact relocated_bind fun _ => relocated_mapError fun _ => rfl

theorem loadPhraseRules_relocate (scope : Scope) (g : PhraseGrammar) (rules : List WrittenRule) :
    loadPhraseRules scope g (rules.map (WrittenRule.relocate f)) =
      relocated f id (loadPhraseRules scope g rules) := by
  induction rules generalizing g with
  | nil => rfl
  | cons r rules ih =>
    have hlhs : (r.relocate f).lhs = r.lhs.relocate f := rfl
    rw [List.map_cons, loadPhraseRules, loadPhraseRules, hlhs, body_relocate]
    refine relocated_bind fun q => ?_
    have halternatives := relocated_foldlM (s := id) (k := Sequence.relocate f) r.alternatives
      (loadPhraseAlternative_relocate (f := f) scope r.lhs q.1) { g with toVocabulary := q.2 }
    show ((r.alternatives.map (Sequence.relocate f)).foldlM
      (loadPhraseAlternative scope (r.lhs.relocate f) q.1) { g with toVocabulary := q.2 } >>= _) = _
    rw [id_eq] at halternatives
    rw [halternatives]
    refine relocated_bind fun g => ?_
    show (loadPhraseRules scope g (rules.map (WrittenRule.relocate f)) >>= _) = _
    rw [ih]
    exact relocated_bind fun _ => rfl

theorem phraseGrammar_relocate (hf : f ⟨1, 1⟩ = ⟨1, 1⟩) (d : Document) :
    (d.relocate f).phraseGrammar = relocated f id d.phraseGrammar := by
  unfold Document.phraseGrammar
  rw [declare_relocate, scope_relocate]
  refine relocated_bind fun v => ?_
  have hrules := @loadPhraseRules_relocate f (d.scope false) (.empty v) d.rules
  show (loadPhraseRules (d.scope false) (.empty v) (d.rules.map (WrittenRule.relocate f)) >>= _) = _
  rw [hrules]
  refine relocated_bind fun q => ?_
  show (bindStart (d.relocate f) q.1 q.2.toVocabulary >>= _) = _
  rw [bindStart_relocate hf]
  exact relocated_bind fun _ => rfl

theorem loadGrammar_relocate (hf : f ⟨1, 1⟩ = ⟨1, 1⟩) (text : String) :
    relocated f id (loadGrammar text) =
      relocated f (Document.relocate f) (Document.parse text.toList) >>= Document.grammar :=
  (relocated_bind (grammar_relocate hf)).symm

theorem loadPhraseGrammar_relocate (hf : f ⟨1, 1⟩ = ⟨1, 1⟩) (text : String) :
    relocated f id (loadPhraseGrammar text) =
      relocated f (Document.relocate f) (Document.parse text.toList) >>= Document.phraseGrammar :=
  (relocated_bind (phraseGrammar_relocate hf)).symm

end Loading

end FormalLanguage.Notation
