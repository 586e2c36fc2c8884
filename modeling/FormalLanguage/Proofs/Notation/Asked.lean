import FormalLanguage.Notation.Load
import FormalLanguage.Proofs.SymbolTable.Consistency

/-!
What a text asks for. Main statements: a grammar is loaded just if the names of its text can be bound
together, each with the kind that it is taken for, and the same is true of a phrase grammar; then its
rules are those of the text.
-/
namespace FormalLanguage.Notation

variable {v : Vocabulary} {scope : Scope} {name : List Char} {p : Position} {alone : Bool}
  {asked : List (Option Entry)} {x : Option Entry} {r : WrittenRule} {d : Document}

/-- A name with the kind that it is to have. -/
def entry (name : List Char) (kind : Kind) : Option Entry := some ⟨String.ofList name, kind⟩

/-- A computation that asks for what cannot be bound has to fail. -/
theorem asks_error {ε α : Type} {e : ε} {after : α → Vocabulary} {P : α → Prop} (hx : x ∈ asked)
    (hbad : ∀ e, x = some e → e.name = epsilonText) : v.Asks asked (.error e) after P := by
  constructor
  · rintro a ⟨⟩
  · intro _ _ hall
    obtain ⟨e, he, hname⟩ := hall.exists_entry x (.inr hx)
    exact hname (hbad e he)

theorem asks_undeclared {ε α : Type} {e : ε} {after : α → Vocabulary} {P : α → Prop}
    (hx : none ∈ asked) : v.Asks asked (.error e) after P :=
  asks_error hx (by rintro e ⟨⟩)

theorem asks_bindTerminal (v : Vocabulary) (name : List Char) (p : Position) :
    v.Asks [entry name .terminal] (bindTerminal v name p) Prod.snd
      (fun q => q.2.table.Means (entry name .terminal) (.terminal q.1)) :=
  (v.asks_terminal (String.ofList name)).mapError

theorem asks_bindNonTerminal (v : Vocabulary) (name : List Char) (p : Position) :
    v.Asks [entry name .nonterminal] (bindNonTerminal v name p) Prod.snd
      (fun q => q.2.table.Means (entry name .nonterminal) (.nonterminal q.1)) :=
  (v.asks_nonterminal (String.ofList name)).mapError

section Bodies

/-- What an unquoted name is to be bound to: nothing, if it is a terminal that was not declared. -/
def Scope.wish (scope : Scope) (name : List Char) : Option Entry :=
  if scope.isNonTerminal name then entry name .nonterminal
  else if scope.isTerminal name then entry name .terminal
  else none

def Scope.writtenWishes (scope : Scope) (alone : Bool) (w : Written) : List (Option Entry) :=
  if w.quoted then [entry w.text .terminal] else (scope.names alone w.text).map scope.wish

/-- What the names of a sequence are to be bound to. -/
def Scope.wishes (scope : Scope) (s : Sequence) : List (Option Entry) :=
  s.symbols.flatMap (scope.writtenWishes (s.symbols.length ≤ 1))

theorem asks_symbol (scope : Scope) (v : Vocabulary) (name : List Char) (p : Position) :
    v.Asks [scope.wish name] (scope.symbol v name p) Prod.snd
      (fun q => q.2.table.Means (scope.wish name) q.1) := by
  rw [Scope.wish, Scope.symbol]
  split_ifs
  · exact (asks_bindNonTerminal v name p).map (fun q => rfl) fun q hq => hq
  · exact (asks_bindTerminal v name p).map (fun q => rfl) fun q hq => hq
  · exact asks_undeclared (List.mem_singleton_self _)

theorem asks_symbolList (scope : Scope) (v : Vocabulary) (p : Position) (names : List (List Char)) :
    v.Asks (names.map scope.wish) (scope.symbolList v p names) Prod.snd
      (fun q => List.Forall₂ q.2.table.Means (names.map scope.wish) q.1) := by
  induction names generalizing v with
  | nil => exact .ok rfl .nil
  | cons name names ih =>
    rw [List.map_cons, ← List.singleton_append, Scope.symbolList]
    refine (asks_symbol scope v name p).bind ?_
    rintro ⟨s, u⟩ - hs
    refine (ih u).returns ?_
    rintro ⟨body, w⟩ htakes hbody
    exact ⟨_, rfl, rfl, .cons (hs.mono htakes.keeps) hbody⟩

theorem asks_written (scope : Scope) (alone : Bool) (v : Vocabulary) (w : Written) :
    v.Asks (scope.writtenWishes alone w) (scope.written alone v w) Prod.snd
      (fun q => List.Forall₂ q.2.table.Means (scope.writtenWishes alone w) q.1) := by
  rw [Scope.writtenWishes, Scope.written]
  split_ifs
  · exact (asks_bindTerminal v w.text w.position).map (fun q => rfl) fun q hq => .cons hq .nil
  · exact asks_symbolList scope v w.position _

theorem asks_writtenList (scope : Scope) (alone : Bool) (v : Vocabulary) (ws : List Written) :
    v.Asks (ws.flatMap (scope.writtenWishes alone)) (scope.writtenList alone v ws) Prod.snd
      (fun q => List.Forall₂ q.2.table.Means (ws.flatMap (scope.writtenWishes alone)) q.1) := by
  induction ws generalizing v with
  | nil => exact .ok rfl .nil
  | cons w ws ih =>
    rw [List.flatMap_cons, Scope.writtenList]
    refine (asks_written scope alone v w).bind ?_
    rintro ⟨first, u⟩ - hfirst
    refine (ih u).returns ?_
    rintro ⟨rest, w⟩ htakes hrest
    exact ⟨_, rfl, rfl, List.rel_append (SymbolTable.meansAll_mono hfirst htakes.keeps) hrest⟩

/-- A body asks for the names in it, and stands for them. -/
theorem asks_body (scope : Scope) (v : Vocabulary) (s : Sequence) :
    v.Asks (scope.wishes s) (scope.body v s) Prod.snd
      (fun q => List.Forall₂ q.2.table.Means (scope.wishes s) q.1) :=
  asks_writtenList scope _ v s.symbols

end Bodies

section Declarations

/-- What a left-hand side is to be bound to: nothing, if it is not one unquoted name. -/
def WrittenRule.side (r : WrittenRule) : Option Entry :=
  r.name?.bind fun name => entry name .nonterminal

theorem side_of_single {w : Written} (h : r.lhs.symbols = [w]) :
    r.side = if w.quoted then none else entry w.text .nonterminal := by
  rw [WrittenRule.side, WrittenRule.name?, h]
  show Option.bind (if w.quoted then none else some w.text) _ = _
  split <;> rfl

theorem side_eq_none (h : ∀ w, r.lhs.symbols ≠ [w]) : r.side = none := by
  rw [WrittenRule.side, WrittenRule.name?]
  split
  · next w hw => exact absurd hw (h w)
  · rfl

theorem asks_bindLhs (v : Vocabulary) (r : WrittenRule) :
    v.Asks [r.side] (bindLhs v r) Prod.snd
      (fun q => q.2.table.Means r.side (.nonterminal q.1)) := by
  have hside : r.side ∈ [r.side] := List.mem_singleton_self _
  unfold bindLhs
  split
  · next w hsymbols =>
    have hwish := side_of_single hsymbols
    split_ifs with hbad
    · refine asks_error hside fun e he => ?_
      rw [hwish, Option.ite_none_left_eq_some] at he
      obtain ⟨hword, ⟨⟩⟩ := he
      have hepsilon : w.text = epsilonText.toList := by simpa [hword, isEpsilon] using hbad
      rw [hepsilon, String.ofList_toList]
    · rw [Bool.or_eq_true, not_or] at hbad
      rw [if_neg hbad.1] at hwish
      rw [hwish]
      exact asks_bindNonTerminal v w.text w.position
  · next hsymbols =>
    exact asks_undeclared (side_eq_none hsymbols ▸ hside)

/-- The declared names, and the left-hand sides if these are single names. -/
def Document.declarations (d : Document) (singleNames : Bool) : List (Option Entry) :=
  d.nonterminals.map (fun n => entry n.text .nonterminal) ++
    ((if singleNames then d.rules.map WrittenRule.side else []) ++
      (d.terminals.getD []).map fun n => entry n.text .terminal)

theorem asks_all {γ : Type} {f : Vocabulary → γ → Except LoadError Vocabulary}
    {wish : γ → Option Entry}
    (step : ∀ (v : Vocabulary) c, v.Asks [wish c] (f v c) id fun _ => True) (v : Vocabulary)
    (names : List γ) : v.Asks (names.map wish) (names.foldlM f v) id fun _ => True := by
  rw [List.map_eq_flatMap]
  exact Vocabulary.Asks.foldlM (P := fun _ _ => True) (fun _ c v _ _ => step v c) [] trivial

theorem asks_declare (d : Document) (singleNames : Bool) :
    Vocabulary.Asks {} (d.declarations singleNames) (declare d singleNames) id fun _ => True := by
  have hbound {α : Type} {x : Except LoadError (α × Vocabulary)} {asked : List (Option Entry)}
      {v : Vocabulary} {P : α × Vocabulary → Prop} (hx : v.Asks asked x Prod.snd P) :
      v.Asks asked (Prod.snd <$> x) id fun _ => True := hx.map (fun _ => rfl) fun _ _ => trivial
  have hnonterminals := asks_all fun v (n : Named) =>
    hbound (asks_bindNonTerminal v n.text n.position)
  have hterminals := asks_all fun v (n : Named) => hbound (asks_bindTerminal v n.text n.position)
  have hsides := asks_all fun v r => hbound (asks_bindLhs v r)
  rw [Document.declarations, declare]
  refine (hnonterminals {} d.nonterminals).bind fun v _ _ => ?_
  cases singleNames with
  | true => exact (hsides v d.rules).bind fun u _ _ => hterminals u _
  | false => exact hterminals v _

/-- The nonterminal stands for the name, if there is one. -/
def Leads (t : SymbolTable) (x : Option Entry) : Option NonTerminal → Prop
  | none => x = none
  | some n => t.Means x (.nonterminal n)

/-- What the start symbol is to be bound to. -/
def Document.startWish (d : Document) (first : Option Entry) : Option Entry :=
  match d.start with
  | some named => entry named.text .nonterminal
  | none => first

theorem asks_bindStart {first : Option NonTerminal} (hfirst : Leads v.table x first) :
    v.Asks [d.startWish x] (bindStart d first v) Prod.snd
      (fun q => q.2.table.Means (d.startWish x) (.nonterminal q.1)) := by
  unfold Document.startWish bindStart
  cases d.start with
  | some named => exact asks_bindNonTerminal v named.text named.position
  | none =>
    cases first with
    | none =>
      have hnone : x = none := hfirst
      exact asks_undeclared (by simp [hnone])
    | some n => exact .ok_of_has rfl ⟨_, hfirst⟩ hfirst

end Declarations

section Conforming

variable {t u : SymbolTable} {R R' : PhraseRule → Prop} {b : PhraseRule}

/-- A rule in the names of its sides. -/
structure NamedRule where
  lhs : List (Option Entry)
  rhs : List (Option Entry)

variable {a : NamedRule} {as : List NamedRule}

/-- The sides of the rule stand for the names. -/
structure NamedRule.Means (t : SymbolTable) (a : NamedRule) (b : PhraseRule) : Prop where
  lhs : List.Forall₂ t.Means a.lhs b.lhs
  rhs : List.Forall₂ t.Means a.rhs b.rhs

/-- These are the rules that the names say, and no others. -/
structure Conforms (t : SymbolTable) (as : List NamedRule) (R : PhraseRule → Prop) : Prop where
  sound : ∀ b, R b → ∃ a ∈ as, a.Means t b
  complete : ∀ a ∈ as, ∃ b, R b ∧ a.Means t b

theorem conforms_nil (hR : ∀ b, ¬ R b) : Conforms t [] R where
  sound b hb := absurd hb (hR b)
  complete := List.forall_mem_nil _

theorem Conforms.congr (h : Conforms t as R) (hR : ∀ b, R' b ↔ R b) : Conforms t as R' where
  sound b hb := h.sound b ((hR b).1 hb)
  complete a ha := by
    obtain ⟨b, hb, hmeans⟩ := h.complete a ha
    exact ⟨b, (hR b).2 hb, hmeans⟩

theorem Conforms.mono (h : Conforms t as R) (htu : t.Extends u) : Conforms u as R where
  sound b hb := by
    obtain ⟨a, ha, hlhs, hrhs⟩ := h.sound b hb
    exact ⟨a, ha, SymbolTable.meansAll_mono hlhs htu, SymbolTable.meansAll_mono hrhs htu⟩
  complete a ha := by
    obtain ⟨b, hb, hlhs, hrhs⟩ := h.complete a ha
    exact ⟨b, hb, SymbolTable.meansAll_mono hlhs htu, SymbolTable.meansAll_mono hrhs htu⟩

theorem Conforms.insert (h : Conforms t as R) (hb : a.Means t b) (hR : ∀ c, R' c ↔ c = b ∨ R c) :
    Conforms t (as ++ [a]) R' where
  sound c hc := by
    rcases (hR c).1 hc with rfl | hc
    · exact ⟨a, List.mem_append_right as (List.mem_singleton_self a), hb⟩
    · obtain ⟨a', ha', hmeans⟩ := h.sound c hc
      exact ⟨a', List.mem_append_left _ ha', hmeans⟩
  complete a' ha' := by
    rcases List.mem_append.1 ha' with ha' | ha'
    · obtain ⟨c, hc, hmeans⟩ := h.complete a' ha'
      exact ⟨c, (hR c).2 (.inr hc), hmeans⟩
    · rw [List.mem_singleton.1 ha']
      exact ⟨b, (hR b).2 (.inl rfl), hb⟩

end Conforming

section Grammars

variable {g : Grammar} {n : NonTerminal} {as : List NamedRule}

/-- The rule with its left-hand side as a sequence. -/
def ofRule (r : Rule) : PhraseRule := ⟨[.nonterminal r.lhs], r.body⟩

/-- The rules of a grammar, as those of a phrase grammar. -/
def Includes (g : Grammar) (b : PhraseRule) : Prop := ∃ r ∈ g.rules, ofRule r = b

theorem includes_addRule {body : Body} (b : PhraseRule) :
    Includes (g.addRule n body) b ↔ b = ⟨[.nonterminal n], body⟩ ∨ Includes g b := by
  constructor
  · rintro ⟨r, hr, rfl⟩
    rcases OrderedSet.mem_insert.1 hr with rfl | hr
    · exact .inl rfl
    · exact .inr ⟨r, hr, rfl⟩
  · rintro (rfl | ⟨r, hr, rfl⟩)
    · exact ⟨⟨n, body⟩, OrderedSet.mem_insert.2 (.inl rfl), rfl⟩
    · exact ⟨r, OrderedSet.mem_insert.2 (.inr hr), rfl⟩

/-- What a rule asks for: its left-hand side, and then its alternatives. -/
def Scope.ruleWishes (scope : Scope) (r : WrittenRule) : List (Option Entry) :=
  r.side :: r.alternatives.flatMap scope.wishes

/-- The rules that are written as one. -/
def Scope.namedRules (scope : Scope) (r : WrittenRule) : List NamedRule :=
  r.alternatives.map fun s => ⟨[r.side], scope.wishes s⟩

theorem asks_loadAlternative (hn : g.table.Means x (.nonterminal n))
    (hg : Conforms g.table as (Includes g)) (s : Sequence) :
    g.toVocabulary.Asks (scope.wishes s) (loadAlternative scope n g s) Grammar.toVocabulary
      fun h => Conforms h.table (as ++ [⟨[x], scope.wishes s⟩]) (Includes h) := by
  refine (asks_body scope g.toVocabulary s).returns ?_
  rintro ⟨body, v⟩ htakes hbody
  have hrule : NamedRule.Means v.table ⟨[x], scope.wishes s⟩ ⟨[.nonterminal n], body⟩ :=
    ⟨.cons (hn.mono htakes.keeps) .nil, hbody⟩
  exact ⟨_, rfl, rfl, (hg.mono htakes.keeps).insert hrule includes_addRule⟩

theorem asks_loadAlternatives (hn : g.table.Means x (.nonterminal n))
    (hg : Conforms g.table as (Includes g)) (ss : List Sequence) :
    g.toVocabulary.Asks (ss.flatMap scope.wishes) (ss.foldlM (loadAlternative scope n) g)
      Grammar.toVocabulary
      fun h => Conforms h.table (as ++ ss.map fun s => ⟨[x], scope.wishes s⟩) (Includes h) := by
  induction ss generalizing g as with
  | nil => exact .ok rfl (by rwa [List.map_nil, List.append_nil])
  | cons s ss ih =>
    rw [List.flatMap_cons, List.foldlM_cons]
    refine (asks_loadAlternative hn hg s).bind fun h htakes hh => ?_
    have hrest := ih (hn.mono htakes.keeps) hh
    rwa [List.append_assoc] at hrest

/-- Rule by rule; the nonterminal that is handed on is that of the first. -/
theorem asks_loadRules (hg : Conforms g.table as (Includes g)) (rules : List WrittenRule) :
    g.toVocabulary.Asks (rules.flatMap scope.ruleWishes) (loadRules scope g rules)
      (fun q => q.2.toVocabulary) fun q =>
        Leads q.2.table (rules.head?.bind WrittenRule.side) q.1 ∧
          Conforms q.2.table (as ++ rules.flatMap scope.namedRules) (Includes q.2) := by
  induction rules generalizing g as with
  | nil => exact .ok rfl ⟨rfl, by rwa [List.flatMap_nil, List.append_nil]⟩
  | cons r rules ih =>
    rw [List.flatMap_cons, Scope.ruleWishes, ← List.singleton_append, List.append_assoc, loadRules]
    refine (asks_bindLhs g.toVocabulary r).bind ?_
    rintro ⟨n, v⟩ htakes hn
    refine (asks_loadAlternatives (g := { g with toVocabulary := v }) hn (hg.mono htakes.keeps)
      r.alternatives).bind fun next htakes' hnext => ?_
    refine (ih hnext).returns ?_
    rintro ⟨later, last⟩ htakes'' ⟨-, hlast⟩
    rw [List.append_assoc] at hlast
    exact ⟨_, rfl, rfl, (hn.mono htakes'.keeps).mono htakes''.keeps, hlast⟩

/-- What the text of a grammar asks for. -/
def Document.wishes (d : Document) : List (Option Entry) :=
  d.declarations true ++ (d.rules.flatMap (d.scope true).ruleWishes ++
    [d.startWish (d.rules.head?.bind WrittenRule.side)])

/-- The rules of the text, and its start symbol. -/
structure Loads (d : Document) (g : Grammar) : Prop where
  rules : Conforms g.table (d.rules.flatMap (d.scope true).namedRules) (Includes g)
  start : ∃ n, g.start = some n ∧
    g.table.Means (d.startWish (d.rules.head?.bind WrittenRule.side)) (.nonterminal n)

theorem asks_loadGrammar {text : String} (hparse : Document.parse text.toList = .ok d) :
    Vocabulary.Asks {} d.wishes (loadGrammar text) Grammar.toVocabulary (Loads d) := by
  rw [loadGrammar, hparse]
  refine (asks_declare d true).bind fun v _ _ => ?_
  have hinitial : Conforms v.table [] (Includes { toVocabulary := v }) := by
    refine conforms_nil ?_
    rintro b ⟨r, hr, -⟩
    exact OrderedSet.not_mem_empty r hr
  refine (asks_loadRules (g := { toVocabulary := v }) hinitial d.rules).bind ?_
  rintro ⟨first, g⟩ - ⟨hfirst, hrules⟩
  refine (asks_bindStart hfirst).returns ?_
  rintro ⟨n, u⟩ htakes hn
  exact ⟨_, rfl, rfl, hrules.mono htakes.keeps, n, rfl, hn⟩

end Grammars

section PhraseGrammars

variable {g : PhraseGrammar} {as : List NamedRule} {lhs : Sequence} {symbols : Body}

/-- Whether the name is that of a nonterminal. -/
def isNonTerminalWish (x : Option Entry) : Bool := x.any fun e => e.kind = .nonterminal

/-- A left-hand side without a nonterminal is refused, as if a name of it could not be bound. -/
def Scope.guard (scope : Scope) (lhs : Sequence) : List (Option Entry) :=
  if (scope.wishes lhs).any isNonTerminalWish then [] else [none]

theorem isNonTerminal_of_means {t : SymbolTable} {s : Symbol} (h : t.Means x s) :
    s.isNonTerminal = isNonTerminalWish x := by
  obtain ⟨e, rfl, -, hkind⟩ := h
  rw [isNonTerminalWish, Option.any_some, ← hkind]
  cases s <;> rfl

theorem any_of_means {t : SymbolTable} {xs : List (Option Entry)} {body : Body}
    (h : List.Forall₂ t.Means xs body) :
    body.any Symbol.isNonTerminal = xs.any isNonTerminalWish := by
  induction h with
  | nil => rfl
  | cons hs _ ih => rw [List.any_cons, List.any_cons, isNonTerminal_of_means hs, ih]

theorem asks_loadPhraseAlternative
    (hlhs : List.Forall₂ g.table.Means (scope.wishes lhs) symbols)
    (hg : Conforms g.table as (· ∈ g.rules)) (s : Sequence) :
    g.toVocabulary.Asks (scope.wishes s ++ scope.guard lhs)
      (loadPhraseAlternative scope lhs symbols g s) PhraseGrammar.toVocabulary
      fun h => Conforms h.table (as ++ [⟨scope.wishes lhs, scope.wishes s⟩]) (· ∈ h.rules) := by
  refine (asks_body scope g.toVocabulary s).bind ?_
  rintro ⟨rhs, v⟩ htakes hrhs
  refine .mapError ?_
  have hrule : NamedRule.Means v.table ⟨scope.wishes lhs, scope.wishes s⟩ ⟨symbols, rhs⟩ :=
    ⟨SymbolTable.meansAll_mono hlhs htakes.keeps, hrhs⟩
  have hany := any_of_means hlhs
  rw [Scope.guard, ← hany]
  unfold PhraseGrammar.addRule
  split_ifs with hnonterminal
  · exact .ok rfl ((hg.mono htakes.keeps).insert hrule fun c => OrderedSet.mem_insert)
  · exact asks_undeclared (List.mem_singleton_self _)

theorem asks_loadPhraseAlternatives
    (hlhs : List.Forall₂ g.table.Means (scope.wishes lhs) symbols)
    (hg : Conforms g.table as (· ∈ g.rules)) (ss : List Sequence) :
    g.toVocabulary.Asks (ss.flatMap fun s => scope.wishes s ++ scope.guard lhs)
      (ss.foldlM (loadPhraseAlternative scope lhs symbols) g) PhraseGrammar.toVocabulary
      fun h => Conforms h.table (as ++ ss.map fun s => ⟨scope.wishes lhs, scope.wishes s⟩)
        (· ∈ h.rules) := by
  induction ss generalizing g as with
  | nil => exact .ok rfl (by rwa [List.map_nil, List.append_nil])
  | cons s ss ih =>
    rw [List.flatMap_cons, List.foldlM_cons]
    refine (asks_loadPhraseAlternative hlhs hg s).bind fun h htakes hh => ?_
    have hrest := ih (SymbolTable.meansAll_mono hlhs htakes.keeps) hh
    rwa [List.append_assoc] at hrest

/-- The name of a nonterminal that stands alone. -/
def leadWish : List (Option Entry) → Option Entry
  | [x] => if isNonTerminalWish x then x else none
  | _ => none

theorem leads_single {t : SymbolTable} {xs : List (Option Entry)} {body : Body}
    (h : List.Forall₂ t.Means xs body) : Leads t (leadWish xs) (PhraseRule.mk body []).single? := by
  cases h with
  | nil => rfl
  | @cons x s xs body hs hrest =>
    cases hrest with
    | cons _ _ => cases s <;> rfl
    | nil =>
      have hkind := isNonTerminal_of_means hs
      cases s with
      | terminal a =>
        show leadWish [x] = none
        rw [leadWish, ← hkind]
        rfl
      | nonterminal n =>
        have hlead : leadWish [x] = x := by
          rw [leadWish, ← hkind]
          rfl
        rw [hlead]
        exact hs

def Scope.phraseWishes (scope : Scope) (r : WrittenRule) : List (Option Entry) :=
  scope.wishes r.lhs ++ r.alternatives.flatMap fun s => scope.wishes s ++ scope.guard r.lhs

/-- The rules that are written as one. -/
def Scope.namedPhrases (scope : Scope) (r : WrittenRule) : List NamedRule :=
  r.alternatives.map fun s => ⟨scope.wishes r.lhs, scope.wishes s⟩

theorem asks_loadPhraseRules (hg : Conforms g.table as (· ∈ g.rules)) (rules : List WrittenRule) :
    g.toVocabulary.Asks (rules.flatMap scope.phraseWishes) (loadPhraseRules scope g rules)
      (fun q => q.2.toVocabulary) fun q =>
        Leads q.2.table (rules.head?.bind fun r => leadWish (scope.wishes r.lhs)) q.1 ∧
          Conforms q.2.table (as ++ rules.flatMap scope.namedPhrases) (· ∈ q.2.rules) := by
  induction rules generalizing g as with
  | nil => exact .ok rfl ⟨rfl, by rwa [List.flatMap_nil, List.append_nil]⟩
  | cons r rules ih =>
    rw [List.flatMap_cons, Scope.phraseWishes, List.append_assoc, loadPhraseRules]
    refine (asks_body scope g.toVocabulary r.lhs).bind ?_
    rintro ⟨lhs, v⟩ htakes hlhs
    refine (asks_loadPhraseAlternatives (g := { g with toVocabulary := v }) hlhs
      (hg.mono htakes.keeps) r.alternatives).bind fun next htakes' hnext => ?_
    refine (ih hnext).returns ?_
    rintro ⟨later, last⟩ htakes'' ⟨-, hlast⟩
    rw [List.append_assoc] at hlast
    have hlhs' := SymbolTable.meansAll_mono (SymbolTable.meansAll_mono hlhs htakes'.keeps) htakes''.keeps
    exact ⟨_, rfl, rfl, leads_single hlhs', hlast⟩

/-- What the text of a phrase grammar asks for. -/
def Document.phraseWishes (d : Document) : List (Option Entry) :=
  d.declarations false ++ (d.rules.flatMap (d.scope false).phraseWishes ++
    [d.startWish (d.rules.head?.bind fun r => leadWish ((d.scope false).wishes r.lhs))])

/-- The rules of the text, and its start symbol. -/
structure LoadsPhrases (d : Document) (g : PhraseGrammar) : Prop where
  rules : Conforms g.table (d.rules.flatMap (d.scope false).namedPhrases) (· ∈ g.rules)
  start : ∃ n, g.start = some n ∧ g.table.Means
    (d.startWish (d.rules.head?.bind fun r => leadWish ((d.scope false).wishes r.lhs))) (.nonterminal n)

theorem asks_loadPhraseGrammar {text : String} (hparse : Document.parse text.toList = .ok d) :
    Vocabulary.Asks {} d.phraseWishes (loadPhraseGrammar text) PhraseGrammar.toVocabulary
      (LoadsPhrases d) := by
  rw [loadPhraseGrammar, hparse]
  refine (asks_declare d false).bind fun v _ _ => ?_
  have hinitial : Conforms v.table [] (· ∈ (PhraseGrammar.empty v).rules) :=
    conforms_nil OrderedSet.not_mem_empty
  refine (asks_loadPhraseRules (g := .empty v) hinitial d.rules).bind ?_
  rintro ⟨first, g⟩ - ⟨hfirst, hrules⟩
  refine (asks_bindStart hfirst).returns ?_
  rintro ⟨n, u⟩ htakes hn
  exact ⟨_, rfl, rfl, hrules.mono htakes.keeps, n, rfl, hn⟩

end PhraseGrammars

end FormalLanguage.Notation
