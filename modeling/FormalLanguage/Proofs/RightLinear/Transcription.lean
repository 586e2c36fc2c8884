import Mathlib.Data.List.Forall2
import Mathlib.Data.List.GetD
import Mathlib.Data.Set.Function
import FormalLanguage.Automaton.Path
import FormalLanguage.Proofs.Grammar.Substitution
import FormalLanguage.Proofs.RightLinear.Construction
import FormalLanguage.RightLinear.Grammar

/-!
The grammar of an automaton. Main statement: it passes its check and is right-linear, and it derives
the words that the automaton accepts if no two states have the same name.
-/
namespace FormalLanguage.Automaton

variable {m : Automaton} {g h : Grammar} {names : List String} {states : List NonTerminal}
  {name : String} {n : NonTerminal} {symbolOf : Nat → NonTerminal} {p q : Nat} {r : Rule} {w : Word}

/-- The second grammar has nonterminals of these names besides those of the first. -/
structure Bound (g h : Grammar) (names : List String) (states : List NonTerminal) : Prop where
  rules : h.rules = g.rules
  terminals : h.terminals = g.terminals
  mem_nonterminals : ∀ n, n ∈ h.nonterminals ↔ n ∈ states ∨ n ∈ g.nonterminals
  keeps : g.table.Extends h.table
  named : List.Forall₂ (fun name n => h.table.get? name = some (.nonterminal n)) names states

namespace Bound

theorem refl (g : Grammar) : Bound g g [] [] :=
  ⟨rfl, rfl, by simp, .refl g.table, .nil⟩

theorem trans {k : Grammar} {names' : List String} {states' : List NonTerminal}
    (hb : Bound g h names states) (hb' : Bound h k names' states') :
    Bound g k (names ++ names') (states ++ states') where
  rules := hb'.rules.trans hb.rules
  terminals := hb'.terminals.trans hb.terminals
  mem_nonterminals n := by
    rw [hb'.mem_nonterminals, hb.mem_nonterminals, List.mem_append, or_left_comm, or_assoc]
  keeps := hb.keeps.trans hb'.keeps
  named := List.rel_append (hb.named.imp fun name _ hn => hb'.keeps name _ hn) hb'.named

/-- The nonterminals that are bound are symbols of the table. -/
theorem contains_nonterminal (hb : Bound g h names states) (hold : n ∉ g.nonterminals)
    (hn : n ∈ h.nonterminals) : h.table.contains (.nonterminal n) = true := by
  obtain ⟨i, hi, rfl⟩ := List.mem_iff_getElem.1 (((hb.mem_nonterminals n).1 hn).resolve_right hold)
  exact SymbolTable.contains_of_get? (hb.named.get (hb.named.length_eq ▸ hi) hi)

end Bound

theorem nonterminal_eq (g : Grammar) (name : String) : g.nonterminal name =
    (g.table.nonterminal name).map fun (n, t) =>
      (n, { g with table := t, nonterminals := g.nonterminals.insert n }) := by
  unfold Grammar.nonterminal Vocabulary.nonterminal
  cases g.table.nonterminal name <;> rfl

theorem bound_of_nonterminal (hn : g.nonterminal name = .ok (n, h)) :
    g.table.Binds h.table name n ∧ Bound g h [name] [n] := by
  rw [nonterminal_eq] at hn
  cases ht : g.table.nonterminal name with
  | error e =>
    rw [ht] at hn
    cases hn
  | ok pair =>
    rw [ht] at hn
    cases hn
    have hbinds := SymbolTable.binds_of_nonterminal ht
    refine ⟨hbinds, rfl, rfl, ?_, hbinds.keeps, .cons hbinds.get?_self .nil⟩
    intro k
    rw [OrderedSet.mem_insert, List.mem_singleton]

theorem bound_of_bindStates (hb : bindStates g names = .ok (states, h)) :
    Bound g h names states := by
  induction names generalizing g states with
  | nil =>
    cases hb
    exact .refl _
  | cons name names ih =>
    obtain ⟨⟨n, next⟩, hn, hb⟩ := bind_eq_ok_iff.1 hb
    obtain ⟨⟨rest, last⟩, hrest, hb⟩ := bind_eq_ok_iff.1 hb
    cases hb
    exact (bound_of_nonterminal (mapError_eq_ok_iff.1 hn)).2.trans (ih hrest)

/-- Names that may be bound can all be bound: one does not take another's away. -/
theorem exists_bindStates (hnames : ∀ name ∈ names, g.table.Bindable name) :
    ∃ states h, bindStates g names = .ok (states, h) := by
  induction names generalizing g with
  | nil => exact ⟨[], g, rfl⟩
  | cons name names ih =>
    rw [List.forall_mem_cons] at hnames
    obtain ⟨n, t, ht⟩ := SymbolTable.exists_nonterminal hnames.1
    obtain ⟨next, hn⟩ : ∃ next, g.nonterminal name = .ok (n, next) := by
      rw [nonterminal_eq, ht]
      exact ⟨_, rfl⟩
    have hbinds := (bound_of_nonterminal hn).1
    obtain ⟨states, h, hrest⟩ := ih fun other ho => hbinds.bindable (hnames.2 other ho)
    refine ⟨n :: states, h, ?_⟩
    rw [bindStates, hn]
    show (bindStates next names >>= _) = _
    rw [hrest]
    rfl

/-- The nonterminal of a state, by its number. -/
def symbolAt (states : List NonTerminal) (q : Nat) : NonTerminal := states.getD q default

theorem symbolAt_eq (hq : q < states.length) : symbolAt states q = states[q] :=
  List.getD_eq_getElem states default hq

/-- The rules of a transition: it goes on from its target, and may end there. -/
inductive StepRule (m : Automaton) (symbolOf : Nat → NonTerminal) (t : Transition) : Rule → Prop
  | goOn : StepRule m symbolOf t
      ⟨symbolOf t.source, [.terminal t.letter, .nonterminal (symbolOf t.target)]⟩
  | stop (h : t.target ∈ m.accepting) : StepRule m symbolOf t
      ⟨symbolOf t.source, [.terminal t.letter]⟩

theorem stepRule_iff {t : Transition} : m.StepRule symbolOf t r ↔
    r = ⟨symbolOf t.source, [.terminal t.letter, .nonterminal (symbolOf t.target)]⟩ ∨
      t.target ∈ m.accepting ∧ r = ⟨symbolOf t.source, [.terminal t.letter]⟩ := by
  constructor
  · intro hr
    cases hr with
    | goOn => exact .inl rfl
    | stop hacc => exact .inr ⟨hacc, rfl⟩
  · rintro (rfl | ⟨hacc, rfl⟩)
    · exact .goOn
    · exact .stop hacc

/-- The second grammar has these rules besides those of the first. -/
structure Extended (g h : Grammar) (R : Rule → Prop) : Prop where
  toVocabulary : h.toVocabulary = g.toVocabulary
  mem_rules : ∀ r, r ∈ h.rules ↔ r ∈ g.rules ∨ R r

theorem Extended.trans {k : Grammar} {R R' : Rule → Prop} (he : Extended g h R)
    (he' : Extended h k R') : Extended g k fun r => R r ∨ R' r where
  toVocabulary := he'.toVocabulary.trans he.toVocabulary
  mem_rules r := by rw [he'.mem_rules, he.mem_rules, or_assoc]

theorem extended_addStep {t : Transition} (hsource : t.source < states.length)
    (htarget : t.target < states.length) (g : Grammar) :
    Extended g (m.addStep states g t) (m.StepRule (symbolAt states) t) := by
  simp only [addStep, List.getElem?_eq_getElem hsource, List.getElem?_eq_getElem htarget,
    isAccepting, decide_eq_true_eq]
  have hs := symbolAt_eq hsource
  have ht := symbolAt_eq htarget
  split
  · next hacc =>
    refine ⟨rfl, fun r => ?_⟩
    simp only [Grammar.addRule, OrderedSet.mem_insert, stepRule_iff, hs, ht, hacc, true_and]
    grind
  · next hacc =>
    refine ⟨rfl, fun r => ?_⟩
    simp only [Grammar.addRule, OrderedSet.mem_insert, stepRule_iff, hs, ht, hacc, false_and,
      or_false]
    exact or_comm

theorem extended_foldl_addStep {l : List Transition}
    (hl : ∀ t ∈ l, t.source < states.length ∧ t.target < states.length) (g : Grammar) :
    Extended g (l.foldl (m.addStep states) g)
      fun r => ∃ t ∈ l, m.StepRule (symbolAt states) t r := by
  induction l generalizing g with
  | nil => exact ⟨rfl, fun r => by simp⟩
  | cons t l ih =>
    rw [List.forall_mem_cons] at hl
    have hfirst := extended_addStep (m := m) hl.1.1 hl.1.2 g
    have hrest := ih hl.2 (m.addStep states g t)
    simpa only [List.foldl_cons, List.mem_cons, exists_eq_or_imp] using hfirst.trans hrest

/-- The start state has its nonterminal for start symbol, and an empty body if it accepts. -/
theorem extended_addStart (hstart : m.start < states.length) (g : Grammar) :
    Extended g (m.addStart states g)
        (fun r => m.start ∈ m.accepting ∧ r = ⟨symbolAt states m.start, []⟩) ∧
      (m.addStart states g).start = some (symbolAt states m.start) := by
  simp only [addStart, List.getElem?_eq_getElem hstart, symbolAt_eq hstart, isAccepting,
    decide_eq_true_eq]
  split
  · next hacc =>
    refine ⟨⟨rfl, fun r => ?_⟩, rfl⟩
    rw [and_iff_right hacc, or_comm]
    exact OrderedSet.mem_insert
  · next hacc =>
    refine ⟨⟨rfl, fun r => ?_⟩, rfl⟩
    rw [or_iff_left fun h => hacc h.1]
    exact Iff.rfl

/-- The rules of an automaton: those of its transitions, and an empty body if the start accepts. -/
def RuleOf (m : Automaton) (symbolOf : Nat → NonTerminal) (r : Rule) : Prop :=
  (∃ t ∈ m.transitions, m.StepRule symbolOf t r) ∨
    m.start ∈ m.accepting ∧ r = ⟨symbolOf m.start, []⟩

/-- All rules are over the nonterminals of the states and the letters. -/
theorem uses_of_ruleOf (hstates : ∀ q < m.numStates, symbolOf q ∈ g.nonterminals)
    (hletters : ∀ a ∈ m.alphabet, a ∈ g.terminals) (hr : m.RuleOf symbolOf r) :
    r.lhs ∈ g.nonterminals ∧ ∀ s ∈ r.body, g.uses s = true := by
  rcases hr with ⟨t, ht, hstep⟩ | ⟨-, rfl⟩
  · have hsource := hstates _ (m.source_lt t ht)
    have hletter := Vocabulary.uses_terminal.2 (hletters _ (m.letter_mem t ht))
    have htarget := Vocabulary.uses_nonterminal.2 (hstates _ (m.target_lt t ht))
    cases hstep with
    | goOn => exact ⟨hsource, by simp [hletter, htarget]⟩
    | stop => exact ⟨hsource, by simp [hletter]⟩
  · exact ⟨hstates _ m.start_lt, by simp⟩

/-- A grammar with a nonterminal for each state, which has the rules of the automaton. -/
structure Transcribed (m : Automaton) (g : Grammar) (symbolOf : Nat → NonTerminal) : Prop where
  wellFormed : g.WellFormed
  start : g.start = some (symbolOf m.start)
  mem_rules : ∀ r, r ∈ g.rules ↔ m.RuleOf symbolOf r

namespace Transcribed

theorem rightLinear (ht : m.Transcribed g symbolOf) (hr : r ∈ g.rules) : RightLinear r.body := by
  rcases (ht.mem_rules r).1 hr with ⟨t, -, hr⟩ | ⟨-, rfl⟩
  · cases hr with
    | goOn => exact .pair _ _
    | stop => exact .terminal _
  · exact .empty

/--
A path to an accepting state spells a word of the nonterminal. Only the start state has the empty
word: the end of any other path is taken together with the letter before it.
-/
theorem yields_of_path (ht : m.Transcribed g symbolOf) (hw : w ≠ [] ∨ q = m.start)
    (hp : p ∈ m.accepting) (hpath : m.Path q w p) : g.Yields [.nonterminal (symbolOf q)] w := by
  rw [Grammar.yields_nonterminal_iff]
  induction w generalizing q with
  | nil =>
    rw [path_nil_iff] at hpath
    obtain rfl := hw.resolve_left (fun h => h rfl)
    subst hpath
    exact ⟨_, (ht.mem_rules _).2 (.inr ⟨hp, rfl⟩), rfl, .nil⟩
  | cons a w ih =>
    obtain ⟨next, hstep, hrest⟩ := path_cons_iff.1 hpath
    by_cases hend : w = []
    -- The state behind the last letter need not have an empty body: the letter ends the word.
    · subst hend
      rw [path_nil_iff] at hrest
      subst hrest
      exact ⟨_, (ht.mem_rules _).2 (.inl ⟨_, hstep, .stop hp⟩), rfl, .terminal a .nil⟩
    · have hnext := ih (.inl hend) hrest
      rw [← Grammar.yields_nonterminal_iff] at hnext
      exact ⟨_, (ht.mem_rules _).2 (.inl ⟨_, hstep, .goOn⟩), rfl, .terminal a hnext⟩

/-- A nonterminal that stands for one state only has the bodies of that state. -/
theorem body_cases (ht : m.Transcribed g symbolOf)
    (hinj : Set.InjOn symbolOf {q | q < m.numStates}) (hq : q < m.numStates) {body : Body}
    (hr : ⟨symbolOf q, body⟩ ∈ g.rules) :
    (∃ a p, ⟨q, a, p⟩ ∈ m.transitions ∧ (body = [.terminal a, .nonterminal (symbolOf p)] ∨
      p ∈ m.accepting ∧ body = [.terminal a])) ∨ q = m.start ∧ q ∈ m.accepting ∧ body = [] := by
  rcases (ht.mem_rules _).1 hr with ⟨t, hmem, hstep⟩ | ⟨hacc, heq⟩
  · left
    have hsource : symbolOf q = symbolOf t.source → q = t.source := hinj hq (m.source_lt t hmem)
    rcases stepRule_iff.1 hstep with heq | ⟨hacc, heq⟩
    · obtain ⟨hlhs, rfl⟩ := Rule.mk.inj heq
      obtain rfl := hsource hlhs
      exact ⟨t.letter, t.target, hmem, .inl rfl⟩
    · obtain ⟨hlhs, rfl⟩ := Rule.mk.inj heq
      obtain rfl := hsource hlhs
      exact ⟨t.letter, t.target, hmem, .inr ⟨hacc, rfl⟩⟩
  · right
    obtain ⟨hlhs, rfl⟩ := Rule.mk.inj heq
    obtain rfl := hinj hq m.start_lt hlhs
    exact ⟨rfl, hacc, rfl⟩

/-- What such a nonterminal yields is spelled by a path of its state. -/
theorem path_of_yields (ht : m.Transcribed g symbolOf)
    (hinj : Set.InjOn symbolOf {q | q < m.numStates}) (hq : q < m.numStates)
    (hw : g.Yields [.nonterminal (symbolOf q)] w) :
    ∃ p ∈ m.accepting, m.Path q w p := by
  induction w generalizing q with
  | nil =>
    obtain ⟨⟨_, body⟩, hr, rfl, hbody⟩ := Grammar.yields_nonterminal_iff.1 hw
    rcases ht.body_cases hinj hq hr with ⟨a, p, -, rfl | ⟨-, rfl⟩⟩ | ⟨-, hacc, -⟩
    · cases hbody
    · cases hbody
    · exact ⟨q, hacc, .nil q⟩
  | cons a w ih =>
    obtain ⟨⟨_, body⟩, hr, rfl, hbody⟩ := Grammar.yields_nonterminal_iff.1 hw
    rcases ht.body_cases hinj hq hr with ⟨b, next, hstep, rfl | ⟨hacc, rfl⟩⟩ | ⟨-, -, rfl⟩
    · cases hbody with
      | terminal _ hnext =>
        obtain ⟨p, hp, hpath⟩ := ih (m.target_lt _ hstep) hnext
        exact ⟨p, hp, .cons hstep hpath⟩
    · cases hbody with
      | terminal _ hnil =>
        cases hnil
        exact ⟨next, hacc, .cons hstep (.nil next)⟩
    · cases hbody

/-- Words that are accepted are derived, whatever the names of the states are. -/
theorem generates_of_accepts (ht : m.Transcribed g symbolOf) (hw : m.accepts w = true) :
    g.Generates w := by
  obtain ⟨p, hp, hpath⟩ := accepts_iff.1 hw
  exact (Grammar.generates_iff_of_start ht.start).2 (ht.yields_of_path (.inr rfl) hp hpath)

theorem generates_iff_accepts (ht : m.Transcribed g symbolOf)
    (hinj : Set.InjOn symbolOf {q | q < m.numStates}) :
    g.Generates w ↔ m.accepts w = true := by
  constructor
  · intro hw
    rw [Grammar.generates_iff_of_start ht.start] at hw
    exact accepts_iff.2 (ht.path_of_yields hinj m.start_lt hw)
  · exact ht.generates_of_accepts

end Transcribed

theorem extended_rules (hlen : states.length = m.numStates) (g : Grammar) :
    Extended g (m.addStart states (m.transitions.toList.foldl (m.addStep states) g))
        (m.RuleOf (symbolAt states)) ∧
      (m.addStart states (m.transitions.toList.foldl (m.addStep states) g)).start =
        some (symbolAt states m.start) := by
  have hlt : ∀ q < m.numStates, q < states.length := fun q hq => hlen ▸ hq
  have hstates : ∀ t ∈ m.transitions.toList,
      t.source < states.length ∧ t.target < states.length :=
    fun t ht => ⟨hlt _ (m.source_lt t ht), hlt _ (m.target_lt t ht)⟩
  have hsteps := extended_foldl_addStep (m := m) hstates g
  obtain ⟨hend, hstart⟩ := extended_addStart (hlt _ m.start_lt)
    (m.transitions.toList.foldl (m.addStep states) g)
  exact ⟨hsteps.trans hend, hstart⟩

theorem transcribed_of_bound
    (hb : Bound { table := m.table, terminals := m.alphabet } h m.stateNames states)
    (hext : Extended h g (m.RuleOf (symbolAt states)))
    (hstart : g.start = some (symbolAt states m.start)) : m.Transcribed g (symbolAt states) := by
  have hstates : ∀ q < m.numStates, symbolAt states q ∈ g.nonterminals := by
    intro q hq
    have hq' : q < states.length := hb.named.length_eq ▸ hq
    rw [hext.toVocabulary, hb.mem_nonterminals, symbolAt_eq hq']
    exact .inl (List.getElem_mem hq')
  have hletters : ∀ a, a ∈ g.terminals ↔ a ∈ m.alphabet := by
    intro a
    rw [hext.toVocabulary, hb.terminals]
  have hrules : ∀ r, r ∈ g.rules ↔ m.RuleOf (symbolAt states) r := by
    intro r
    rw [hext.mem_rules, hb.rules]
    exact or_iff_right (OrderedSet.not_mem_empty r)
  refine ⟨⟨?_, ?_⟩, hstart, hrules⟩
  · refine Grammar.validate_eq_ok_iff.2 ⟨_, hstart, hstates _ m.start_lt, fun r hr => ?_⟩
    exact uses_of_ruleOf hstates (fun a => (hletters a).2) ((hrules r).1 hr)
  · intro s hs
    cases s with
    | terminal a =>
      rw [Vocabulary.uses_terminal, hletters] at hs
      rw [hext.toVocabulary]
      exact hb.keeps.contains (m.contains_letter a hs)
    | nonterminal n =>
      rw [hext.toVocabulary] at hs ⊢
      exact hb.contains_nonterminal (OrderedSet.not_mem_empty n) (Vocabulary.uses_nonterminal.1 hs)

/-- Two states have the same nonterminal only if they have the same name. -/
theorem Bound.symbolAt_inj (hb : Bound g h names states) (hnames : names.Nodup) :
    Set.InjOn (symbolAt states) {q | q < names.length} := by
  have hnamed : ∀ q (hq : q < names.length),
      h.table.get? names[q] = some (.nonterminal (symbolAt states q)) := by
    intro q hq
    have hq' : q < states.length := hb.named.length_eq ▸ hq
    rw [symbolAt_eq hq']
    exact hb.named.get hq hq'
  intro p hp q hq heq
  have hname := SymbolTable.name_eq_of_get? (hnamed p hp) (heq ▸ hnamed q hq)
  exact hnames.getElem_inj_iff.1 hname

theorem transcribed_of_toGrammar (hg : m.toGrammar = .ok g) : ∃ symbolOf,
    m.Transcribed g symbolOf ∧
      (m.stateNames.Nodup → Set.InjOn symbolOf {q | q < m.numStates}) := by
  obtain ⟨⟨states, h⟩, hbind, hrest⟩ := bind_eq_ok_iff.1 hg
  have hb := bound_of_bindStates hbind
  cases hrest
  obtain ⟨hext, hstart⟩ := extended_rules hb.named.length_eq.symm h
  exact ⟨symbolAt states, transcribed_of_bound hb hext hstart, hb.symbolAt_inj⟩

/-- An automaton has a grammar if each of its states has a proper name that no terminal has. -/
theorem exists_toGrammar (hnames : ∀ name ∈ m.stateNames, m.table.Bindable name) :
    ∃ g, m.toGrammar = .ok g := by
  obtain ⟨states, h, hbind⟩ :=
    exists_bindStates (g := { table := m.table, terminals := m.alphabet }) hnames
  refine ⟨m.addStart states (m.transitions.toList.foldl (m.addStep states) h), ?_⟩
  rw [toGrammar]
  show (bindStates _ _ >>= _) = _
  rw [hbind]
  rfl

/--
The states of an automaton that was built have different names. If they do, the grammar of the
automaton passes its check, is right-linear, and derives the words that are accepted.
-/
theorem toGrammar_generates_accepted :
    ((∃ b : AutomatonBuilder, b.build = .ok m) ∨ (∃ h : Grammar, h.toAutomaton = .ok m) →
      m.stateNames.Nodup) ∧
    (m.stateNames.Nodup → ∀ g, m.toGrammar = .ok g → g.validate = .ok () ∧
      (∀ r ∈ g.rules, RightLinear r.body) ∧ ∀ w, g.Generates w ↔ m.accepts w = true) := by
  constructor
  · rintro (⟨b, hb⟩ | ⟨h, hh⟩)
    · exact AutomatonBuilder.nodup_of_build hb
    · obtain ⟨b, hb⟩ := Grammar.exists_build_of_toAutomaton hh
      exact AutomatonBuilder.nodup_of_build hb
  · intro hnames g hg
    obtain ⟨symbolOf, ht, hinj⟩ := transcribed_of_toGrammar hg
    exact ⟨ht.wellFormed.valid, fun r => ht.rightLinear,
      fun w => ht.generates_iff_accepts (hinj hnames)⟩

/-- The letter `a`, and no states yet. -/
def oneLetter : AutomatonBuilder where
  table :=
    { entries := [⟨"a", .terminal⟩]
      nameSpace := {}
      position := 0
      nodup := by decide
      passed := fun _ h => absurd h (Nat.not_lt_zero _) }
  alphabet := OrderedSet.ofList [⟨0⟩]
  stateNames := []
  transitions := ∅
  start := none
  accepting := ∅
  contains_letter := by
    intro a ha
    obtain rfl := List.mem_singleton.1 (OrderedSet.mem_ofList.1 ha)
    rfl
  nodup := List.nodup_nil

/-- Words of even length. The start state accepts, and it is entered again. -/
def evenLength : AutomatonBuilder :=
  { oneLetter with
    stateNames := ["even", "odd"]
    transitions := OrderedSet.ofList [⟨0, ⟨0⟩, 1⟩, ⟨1, ⟨0⟩, 0⟩]
    start := some 0
    accepting := OrderedSet.ofList [0]
    nodup := by decide }

theorem evenLength_grammar : ∃ m g, evenLength.build = .ok m ∧ m.toGrammar = .ok g ∧
    g.validate = .ok () ∧ g.Generates [] ∧ ¬ g.Generates [⟨0⟩] ∧ g.Generates [⟨0⟩, ⟨0⟩] := by
  obtain ⟨m, hm⟩ := exists_ok (show evenLength.build.toBool = true by decide +kernel)
  have hgrammar : (evenLength.build.map fun m => m.toGrammar.toBool) = .ok true := by
    decide +kernel
  have haccepts : (evenLength.build.map fun m =>
      (m.accepts [], m.accepts [⟨0⟩], m.accepts [⟨0⟩, ⟨0⟩])) = .ok (true, false, true) := by
    decide +kernel
  rw [hm] at hgrammar haccepts
  obtain ⟨g, hg⟩ := exists_ok (Except.ok.inj hgrammar)
  obtain ⟨hempty, haccepts⟩ := Prod.mk.inj (Except.ok.inj haccepts)
  obtain ⟨hone, htwo⟩ := Prod.mk.inj haccepts
  obtain ⟨hnames, hlanguage⟩ := toGrammar_generates_accepted (m := m)
  obtain ⟨hvalid, -, hwords⟩ := hlanguage (hnames (.inl ⟨_, hm⟩)) g hg
  refine ⟨m, g, hm, hg, hvalid, (hwords _).2 hempty, fun h => ?_, (hwords _).2 htwo⟩
  rw [(hwords _).1 h] at hone
  cases hone

end FormalLanguage.Automaton
