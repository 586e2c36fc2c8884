import Mathlib.Tactic.Tauto
import FormalLanguage.Proofs.Notation.Asked
import FormalLanguage.Proofs.Notation.Reload
import FormalLanguage.Proofs.Notation.Texts

/-!
Texts that can be loaded in two ways. Main statement: if every left-hand side is one uppercase letter,
then a text is one of a grammar just if it is one of a phrase grammar, and the two are the same by the
names and kinds of their symbols.
-/
namespace FormalLanguage

open Notation

section ByName

variable {t u : SymbolTable} {s s' : Symbol} {x : Option Entry} {v w : Vocabulary}
  {body body' : Body} {xs : List (Option Entry)}

theorem named_of_means (h : t.Means x s) (h' : u.Means x s') : t.named s = u.named s' := by
  obtain ⟨e, rfl, hget, hkind⟩ := h
  obtain ⟨_, ⟨⟩, hget', hkind'⟩ := h'
  rw [SymbolTable.named, SymbolTable.named, hkind, hkind', (SymbolTable.get?_eq_some_iff.1 hget).2,
    (SymbolTable.get?_eq_some_iff.1 hget').2]

theorem map_named_of_means (h : List.Forall₂ t.Means xs body) (h' : List.Forall₂ u.Means xs body') :
    body.map t.named = body'.map u.named := by
  induction h generalizing body' with
  | nil =>
    cases h'
    rfl
  | cons hs _ ih =>
    cases h' with
    | cons hs' hrest => rw [List.map_cons, List.map_cons, named_of_means hs hs', ih hrest]

/-- A symbol in use has its like in a vocabulary with the same names. -/
theorem Vocabulary.Sound.exists_like (hv : v.Sound) (hw : w.Sound)
    (hhas : ∀ x, v.table.Has x → w.table.Has x) (hs : v.uses s = true) :
    ∃ s', w.uses s' = true ∧ w.table.named s' = v.table.named s := by
  obtain ⟨name, -, hget⟩ := v.table.coherent.named s ((hv.uses_iff s).1 hs)
  have hmeans : v.table.Means (some ⟨name, s.kind⟩) s := ⟨_, rfl, hget, rfl⟩
  obtain ⟨s', hs'⟩ := hhas _ ⟨s, hmeans⟩
  refine ⟨s', (hw.uses_iff s').2 ?_, named_of_means hs' hmeans⟩
  obtain ⟨_, ⟨⟩, hget', -⟩ := hs'
  exact SymbolTable.contains_of_get? hget'

namespace Grammar

variable {g h : Grammar} {r r' : Rule} {a : NamedRule} {as : List NamedRule}

theorem namedRule_of_means (hr : a.Means g.table (ofRule r)) (hr' : a.Means h.table (ofRule r')) :
    g.namedRule r = h.namedRule r' := by
  have hlhs := map_named_of_means hr.lhs hr'.lhs
  exact Prod.ext (List.cons.inj hlhs).1 (map_named_of_means hr.rhs hr'.rhs)

/-- Each rule of a grammar has its like in one that conforms to the same. -/
theorem exists_like (hg : Conforms g.table as (Includes g)) (hh : Conforms h.table as (Includes h))
    (hr : r ∈ g.rules) : ∃ r' ∈ h.rules, h.namedRule r' = g.namedRule r := by
  obtain ⟨a, ha, hmeans⟩ := hg.sound _ ⟨r, hr, rfl⟩
  obtain ⟨_, ⟨r', hr', rfl⟩, hmeans'⟩ := hh.complete a ha
  exact ⟨r', hr', namedRule_of_means hmeans' hmeans⟩

/-- The same rules, the same symbols in use and the same start symbol, by names and kinds. -/
structure SameByName (g h : Grammar) : Prop where
  rules : ∀ x, (∃ r ∈ g.rules, g.namedRule r = x) ↔ ∃ r ∈ h.rules, h.namedRule r = x
  symbols : ∀ x, (∃ s, g.uses s = true ∧ g.table.named s = x) ↔
    ∃ s, h.uses s = true ∧ h.table.named s = x
  start : ∃ n n', g.start = some n ∧ h.start = some n' ∧
    g.table.named (.nonterminal n) = h.table.named (.nonterminal n')

end Grammar

end ByName

namespace PhraseGrammar

variable {g : PhraseGrammar}

theorem exists_mapM {α β : Type} {f : α → Option β} {l : List α} (h : ∀ x ∈ l, ∃ y, f x = some y) :
    ∃ ys, l.mapM f = some ys ∧ ∀ y, y ∈ ys ↔ ∃ x ∈ l, f x = some y := by
  induction l with
  | nil => exact ⟨[], rfl, by simp⟩
  | cons x l ih =>
    rw [List.forall_mem_cons] at h
    obtain ⟨y, hy⟩ := h.1
    obtain ⟨ys, hys, hmem⟩ := ih h.2
    refine ⟨y :: ys, by rw [List.mapM_cons, hy, hys]; rfl, fun z => ?_⟩
    rw [List.mem_cons, hmem, List.exists_mem_cons_iff, hy, Option.some.injEq, eq_comm (a := z)]

theorem contextFreeRule?_eq_some_iff {r : PhraseRule} {x : Rule} :
    contextFreeRule? r = some x ↔ ofRule x = r := by
  constructor
  · intro hx
    obtain ⟨n, hn, rfl⟩ := Option.map_eq_some_iff.1 hx
    rw [PhraseRule.single?] at hn
    split at hn
    · next m hlhs =>
      cases hn
      rw [ofRule, ← hlhs]
    · cases hn
  · rintro rfl
    rfl

/-- The context-free grammar has the same rules, if all left-hand sides are single nonterminals. -/
theorem exists_toContextFree (h : ∀ r ∈ g.rules, ∃ n, r.lhs = [.nonterminal n]) : ∃ k,
    g.toContextFree? = some k ∧ k.toVocabulary = g.toVocabulary ∧ k.start = g.start ∧
      ∀ b, Includes k b ↔ b ∈ g.rules := by
  have hall : ∀ r ∈ g.rules.toList, ∃ x, contextFreeRule? r = some x := by
    rintro ⟨lhs, rhs⟩ hr
    obtain ⟨n, hn⟩ := h _ (OrderedSet.mem_toList.1 hr)
    cases hn
    exact ⟨⟨n, rhs⟩, rfl⟩
  obtain ⟨rules, hrules, hmem⟩ := exists_mapM hall
  have hlike (x : Rule) : x ∈ OrderedSet.ofList rules ↔ ofRule x ∈ g.rules := by
    rw [OrderedSet.mem_ofList, hmem]
    constructor
    · rintro ⟨r, hr, hx⟩
      rw [contextFreeRule?_eq_some_iff.1 hx]
      exact OrderedSet.mem_toList.1 hr
    · intro hx
      exact ⟨_, OrderedSet.mem_toList.2 hx, rfl⟩
  refine ⟨{ g with rules := OrderedSet.ofList rules }, by rw [toContextFree?, hrules]; rfl, rfl, rfl, ?_⟩
  intro b
  constructor
  · rintro ⟨x, hx, rfl⟩
    exact (hlike x).1 hx
  · intro hb
    obtain ⟨x, hx⟩ := hall b (OrderedSet.mem_toList.2 hb)
    have hsame := contextFreeRule?_eq_some_iff.1 hx
    exact ⟨x, (hlike x).2 (hsame ▸ hb), hsame⟩

end PhraseGrammar

namespace Notation

variable {d : Document} {r : WrittenRule} {name : List Char} {s : Sequence} {c : Char}

/-- The left-hand side is one unquoted uppercase letter. -/
def WrittenRule.isCapital (r : WrittenRule) : Bool :=
  match r.lhs.symbols with
  | [⟨[c], false, _⟩] => isUpper c
  | _ => false

/-- All left-hand sides are such letters, and none of them is declared to be a terminal. -/
structure Document.Capital (d : Document) : Prop where
  isCapital : ∀ r ∈ d.rules, r.isCapital = true
  undeclared : ∀ r ∈ d.rules, ∀ name ∈ r.name?, name ∉ (d.terminals.getD []).map Named.text

theorem exists_letter (h : r.isCapital = true) :
    ∃ c p, r.lhs.symbols = [⟨[c], false, p⟩] ∧ isUpper c = true := by
  rw [WrittenRule.isCapital] at h
  split at h
  · next c p hsymbols => exact ⟨c, p, hsymbols, h⟩
  · cases h

theorem name?_eq {p : Position} (h : r.lhs.symbols = [⟨[c], false, p⟩]) : r.name? = some [c] := by
  rw [WrittenRule.name?, h]
  rfl

theorem isEpsilon_of_isUpper (h : isUpper c = true) : isEpsilon [c] = false := by
  rw [isEpsilon, decide_eq_false_iff_not]
  intro heq
  rw [(List.cons.inj heq).1] at h
  exact absurd h (by decide)

/-- A letter on the left asks for a nonterminal with its name, in a grammar. -/
theorem side_eq {p : Position} (h : r.lhs.symbols = [⟨[c], false, p⟩]) :
    r.side = entry [c] .nonterminal := by
  rw [side_of_single h]
  rfl

theorem wishes_lhs {scope : Scope} {p : Position} (h : r.lhs.symbols = [⟨[c], false, p⟩])
    (hc : isUpper c = true) : scope.wishes r.lhs = [scope.wish [c]] := by
  have hnames : scope.names true [c] = [[c]] := by
    rw [Scope.names, isEpsilon_of_isUpper hc]
    simp
  rw [Scope.wishes, h]
  show (scope.names true [c]).map scope.wish ++ [] = _
  rw [hnames]
  rfl

/-- An uppercase letter is a nonterminal, unless it is declared to be a terminal. -/
theorem isNonTerminal_letter {scope : Scope} (hc : isUpper c = true)
    (hfree : [c] ∉ scope.terminals.getD []) : scope.isNonTerminal [c] = true := by
  rw [Scope.isNonTerminal, Bool.or_eq_true, Bool.and_eq_true, List.all_eq_true]
  refine .inr ⟨fun name hname => ?_, hc⟩
  exact decide_eq_true fun heq => hfree (heq ▸ hname)

theorem isTerminal_of_mem {scope : Scope} (h : name ∈ scope.terminals.getD []) :
    scope.isTerminal name = true := by
  rw [Scope.isTerminal]
  split
  · rfl
  · next names hnames =>
    rw [hnames] at h
    exact decide_eq_true h

section Scopes

theorem terminals_scope (d : Document) (singleNames : Bool) :
    (d.scope singleNames).terminals.getD [] = (d.terminals.getD []).map Named.text := by
  rw [Document.scope]
  cases d.terminals <;> rfl

/-- The names of the left-hand sides are letters that are nonterminals in any case. -/
theorem exists_letter_of_mem (hd : d.Capital) (h : name ∈ d.rules.filterMap WrittenRule.name?) :
    ∃ c, name = [c] ∧ isUpper c = true ∧ [c] ∉ (d.terminals.getD []).map Named.text := by
  obtain ⟨r, hr, hname⟩ := List.mem_filterMap.1 h
  obtain ⟨c, p, hsymbols, hc⟩ := exists_letter (hd.isCapital r hr)
  have hundeclared := hd.undeclared r hr name hname
  rw [name?_eq hsymbols] at hname
  cases hname
  exact ⟨c, rfl, hc, hundeclared⟩

theorem decide_mem_scope (h : name ∉ d.rules.filterMap WrittenRule.name?) :
    decide (name ∈ (d.scope true).nonterminals) = decide (name ∈ (d.scope false).nonterminals) := by
  have htrue : (d.scope true).nonterminals =
      d.nonterminals.map Named.text ++ d.rules.filterMap WrittenRule.name? := rfl
  have hfalse : (d.scope false).nonterminals = d.nonterminals.map Named.text ++ [] := rfl
  rw [decide_eq_decide, htrue, hfalse, List.append_nil, List.mem_append]
  exact or_iff_left h

/-- The kind of a name is the same, whether the left-hand sides are known before or not. -/
theorem isNonTerminal_scope (hd : d.Capital) (name : List Char) :
    (d.scope true).isNonTerminal name = (d.scope false).isNonTerminal name := by
  by_cases hside : name ∈ d.rules.filterMap WrittenRule.name?
  · obtain ⟨c, rfl, hc, hfree⟩ := exists_letter_of_mem hd hside
    rw [isNonTerminal_letter hc (terminals_scope d true ▸ hfree),
      isNonTerminal_letter hc (terminals_scope d false ▸ hfree)]
  · rw [Scope.isNonTerminal, decide_mem_scope hside]
    rfl

/-- A word is taken apart in the same way. -/
theorem names_scope (hd : d.Capital) (alone : Bool) (text : List Char) :
    (d.scope true).names alone text = (d.scope false).names alone text := by
  by_cases hlength : text.length = 1
  · simp only [Scope.names, hlength, decide_true, Bool.or_true]
  · have hside : text ∉ d.rules.filterMap WrittenRule.name? := by
      intro h
      obtain ⟨c, rfl, -⟩ := exists_letter_of_mem hd h
      exact hlength rfl
    rw [Scope.names, Scope.isKnown, decide_mem_scope hside]
    rfl

theorem wishes_scope (hd : d.Capital) (s : Sequence) :
    (d.scope true).wishes s = (d.scope false).wishes s := by
  have hwish : (d.scope true).wish = (d.scope false).wish := by
    funext name
    rw [Scope.wish, isNonTerminal_scope hd]
    rfl
  refine List.flatMap_congr fun w _ => ?_
  rw [Scope.writtenWishes, Scope.writtenWishes, names_scope hd, hwish]

end Scopes

section Agreeing

/-- Both ways, the left-hand sides ask for the nonterminals with their names. -/
theorem wishes_side (hd : d.Capital) (hr : r ∈ d.rules) :
    (d.scope false).wishes r.lhs = [r.side] ∧ (d.scope false).guard r.lhs = [] ∧
      leadWish ((d.scope false).wishes r.lhs) = r.side := by
  obtain ⟨c, p, hsymbols, hc⟩ := exists_letter (hd.isCapital r hr)
  have hfree : [c] ∉ (d.scope false).terminals.getD [] := by
    rw [terminals_scope]
    exact hd.undeclared r hr [c] (name?_eq hsymbols)
  have hwishes : (d.scope false).wishes r.lhs = [entry [c] .nonterminal] := by
    rw [wishes_lhs hsymbols hc, Scope.wish, if_pos (isNonTerminal_letter hc hfree)]
  rw [Scope.guard, hwishes, side_eq hsymbols]
  exact ⟨rfl, rfl, rfl⟩

theorem ruleWishes_eq (hd : d.Capital) (hr : r ∈ d.rules) :
    (d.scope true).ruleWishes r = (d.scope false).phraseWishes r := by
  obtain ⟨hlhs, hguard, -⟩ := wishes_side hd hr
  rw [Scope.ruleWishes, Scope.phraseWishes, hlhs, hguard, List.singleton_append]
  refine congrArg _ (List.flatMap_congr fun s _ => ?_)
  rw [wishes_scope hd, List.append_nil]

theorem namedRules_eq (hd : d.Capital) : d.rules.flatMap (d.scope true).namedRules =
    d.rules.flatMap (d.scope false).namedPhrases := by
  refine List.flatMap_congr fun r hr => List.map_congr_left fun s _ => ?_
  rw [(wishes_side hd hr).1, wishes_scope hd]

theorem startWish_eq (hd : d.Capital) : d.startWish (d.rules.head?.bind WrittenRule.side) =
    d.startWish (d.rules.head?.bind fun r => leadWish ((d.scope false).wishes r.lhs)) := by
  cases hrules : d.rules with
  | nil => rfl
  | cons r rules =>
    have hr : r ∈ d.rules := by rw [hrules]; exact List.mem_cons_self
    exact congrArg d.startWish (wishes_side hd hr).2.2.symm

/-- The same names are asked for. -/
theorem mem_wishes_iff (hd : d.Capital) (x : Option Entry) : x ∈ d.wishes ↔ x ∈ d.phraseWishes := by
  have hrules : d.rules.flatMap (d.scope true).ruleWishes =
      d.rules.flatMap (d.scope false).phraseWishes :=
    List.flatMap_congr fun r hr => ruleWishes_eq hd hr
  have hsides (hx : x ∈ d.rules.map WrittenRule.side) :
      x ∈ d.rules.flatMap (d.scope false).phraseWishes := by
    obtain ⟨r, hr, rfl⟩ := List.mem_map.1 hx
    rw [← hrules]
    exact List.mem_flatMap.2 ⟨r, hr, List.mem_cons_self⟩
  rw [Document.wishes, Document.phraseWishes, hrules, startWish_eq hd, Document.declarations,
    Document.declarations]
  simp only [List.mem_append, if_true, Bool.false_eq_true, if_false, List.not_mem_nil]
  tauto

end Agreeing

section Clashing

variable {v : Vocabulary} {asked : List (Option Entry)}

theorem not_consistent_of_kinds (h : entry name .nonterminal ∈ asked)
    (h' : entry name .terminal ∈ asked) : ¬ Consistent (v.Wanted asked) := by
  intro hall
  cases hall.eq_of_name _ _ (.inr h) (.inr h') rfl

theorem not_consistent_of_none (h : none ∈ asked) : ¬ Consistent (v.Wanted asked) := by
  intro hall
  obtain ⟨e, ⟨⟩, -⟩ := hall.exists_entry none (.inr h)

theorem entry_mem_declarations (singleNames : Bool)
    (h : name ∈ (d.terminals.getD []).map Named.text) :
    entry name .terminal ∈ d.declarations singleNames := by
  obtain ⟨n, hn, rfl⟩ := List.mem_map.1 h
  exact List.mem_append_right _ (List.mem_append_right _ (List.mem_map.2 ⟨n, hn, rfl⟩))

/-- A grammar asks for a nonterminal and a terminal with the same name. -/
theorem not_consistent_wishes {p : Position} (hr : r ∈ d.rules)
    (hsymbols : r.lhs.symbols = [⟨[c], false, p⟩])
    (hdeclared : [c] ∈ (d.terminals.getD []).map Named.text) :
    ¬ Consistent (v.Wanted d.wishes) := by
  refine not_consistent_of_kinds ?_ (List.mem_append_left _ (entry_mem_declarations true hdeclared))
  have hside : entry [c] .nonterminal ∈ d.rules.map WrittenRule.side :=
    List.mem_map.2 ⟨r, hr, side_eq hsymbols⟩
  exact List.mem_append_left _ (List.mem_append_right _ (List.mem_append_left _ hside))

/-- A phrase grammar asks for both too, or has a left-hand side without a nonterminal. -/
theorem not_consistent_phraseWishes {p : Position} (hr : r ∈ d.rules)
    (hsymbols : r.lhs.symbols = [⟨[c], false, p⟩]) (hc : isUpper c = true)
    (halternatives : r.alternatives ≠ []) (hdeclared : [c] ∈ (d.terminals.getD []).map Named.text) :
    ¬ Consistent (v.Wanted d.phraseWishes) := by
  by_cases hnonterminal : [c] ∈ d.nonterminals.map Named.text
  · obtain ⟨n, hn, hname⟩ := List.mem_map.1 hnonterminal
    refine not_consistent_of_kinds (List.mem_append_left _ (List.mem_append_left _ ?_))
      (List.mem_append_left _ (entry_mem_declarations false hdeclared))
    exact List.mem_map.2 ⟨n, hn, by rw [hname]⟩
  · have hterminal : (d.scope false).wish [c] = entry [c] .terminal := by
      have hkind : (d.scope false).isNonTerminal [c] = false := by
        rw [Scope.isNonTerminal, Bool.or_eq_false_iff, Bool.and_eq_false_iff, List.all_eq_false]
        refine ⟨decide_eq_false ?_, .inl ⟨[c], ?_, by simp⟩⟩
        · exact fun h => hnonterminal (by rwa [Document.scope, if_neg Bool.false_ne_true,
            List.append_nil] at h)
        · rwa [terminals_scope]
      have hmem : [c] ∈ (d.scope false).terminals.getD [] := by rwa [terminals_scope]
      rw [Scope.wish, hkind, if_neg Bool.false_ne_true, if_pos (isTerminal_of_mem hmem)]
    have hguard : (d.scope false).guard r.lhs = [none] := by
      rw [Scope.guard, wishes_lhs hsymbols hc, hterminal]
      rfl
    obtain ⟨s, ss, hss⟩ := List.exists_cons_of_ne_nil halternatives
    refine not_consistent_of_none (List.mem_append_right _ (List.mem_append_left _ ?_))
    refine List.mem_flatMap.2 ⟨r, hr, List.mem_append_right _ (List.mem_flatMap.2 ⟨s, ?_, ?_⟩)⟩
    · rw [hss]
      exact List.mem_cons_self
    · rw [hguard]
      exact List.mem_append_right _ (List.mem_singleton_self _)

end Clashing

/-- The left-hand sides of the rules that the text says are single nonterminals. -/
theorem exists_nonterminal_of_conforms {t : SymbolTable} {R : PhraseRule → Prop} (hd : d.Capital)
    (h : Conforms t (d.rules.flatMap (d.scope true).namedRules) R) {b : PhraseRule} (hb : R b) :
    ∃ n, b.lhs = [.nonterminal n] := by
  obtain ⟨a, ha, hlhs, -⟩ := h.sound b hb
  obtain ⟨r, hr, ha⟩ := List.mem_flatMap.1 ha
  obtain ⟨s, -, rfl⟩ := List.mem_map.1 ha
  obtain ⟨c, p, hsymbols, -⟩ := exists_letter (hd.isCapital r hr)
  rw [side_eq hsymbols] at hlhs
  obtain ⟨x, rest, hx, hrest, heq⟩ := List.forall₂_cons_left_iff.1 hlhs
  rw [List.forall₂_nil_left_iff.1 hrest] at heq
  obtain ⟨_, ⟨⟩, -, hkind⟩ := hx
  cases x with
  | terminal a => cases hkind
  | nonterminal n => exact ⟨n, heq⟩

/-- What a text is loaded to in the two ways is the same. -/
theorem exists_same {g : Grammar} {p : PhraseGrammar} (hd : d.Capital) (hg : Loads d g)
    (hp : LoadsPhrases d p) (hgs : g.toVocabulary.Sound) (hps : p.toVocabulary.Sound)
    (hhas : ∀ x, g.table.Has x ↔ p.table.Has x) : ∃ h, p.toContextFree? = some h ∧ g.SameByName h := by
  obtain ⟨hrules, n, hn, hmeans⟩ := hg
  obtain ⟨hprules, n', hn', hmeans'⟩ := hp
  rw [← namedRules_eq hd] at hprules
  rw [← startWish_eq hd] at hmeans'
  obtain ⟨h, hh, hvocabulary, hstart, hincludes⟩ :=
    PhraseGrammar.exists_toContextFree fun b hb => exists_nonterminal_of_conforms hd hprules hb
  rw [← hvocabulary] at hprules hmeans' hps hhas
  have hhrules : Conforms h.table (d.rules.flatMap (d.scope true).namedRules) (Includes h) :=
    hprules.congr hincludes
  refine ⟨h, hh, fun x => ⟨?_, ?_⟩, fun x => ⟨?_, ?_⟩, n, n', hn, hstart.trans hn',
    named_of_means hmeans hmeans'⟩
  · rintro ⟨r, hr, rfl⟩
    exact Grammar.exists_like hrules hhrules hr
  · rintro ⟨r, hr, rfl⟩
    exact Grammar.exists_like hhrules hrules hr
  · rintro ⟨s, hs, rfl⟩
    exact hgs.exists_like hps (fun x => (hhas x).1) hs
  · rintro ⟨s, hs, rfl⟩
    exact hps.exists_like hgs (fun x => (hhas x).2) hs

/--
A text in which every left-hand side is one uppercase letter is that of a grammar just if it is that of
a phrase grammar, and then the phrase grammar is context-free and the same as the grammar.
-/
theorem loads_agree {text : String} (hparse : Document.parse text.toList = .ok d)
    (hcapital : ∀ r ∈ d.rules, r.isCapital = true) :
    ((∃ g, loadGrammar text = .ok g) ↔ ∃ p, loadPhraseGrammar text = .ok p) ∧
    ∀ g p, loadGrammar text = .ok g → loadPhraseGrammar text = .ok p →
      ∃ h, p.toContextFree? = some h ∧ g.SameByName h := by
  have hgrammar := asks_loadGrammar hparse
  have hphrase := asks_loadPhraseGrammar hparse
  rw [hgrammar.exists_iff Vocabulary.sound_empty, hphrase.exists_iff Vocabulary.sound_empty]
  by_cases hd : d.Capital
  · refine ⟨⟨fun h => h.mono ?_, fun h => h.mono ?_⟩, fun g p hg hp => ?_⟩
    · exact fun x => Or.imp_right (mem_wishes_iff hd x).2
    · exact fun x => Or.imp_right (mem_wishes_iff hd x).1
    · obtain ⟨hgtakes, hg⟩ := hgrammar.of_ok g hg
      obtain ⟨hptakes, hp⟩ := hphrase.of_ok p hp
      refine exists_same hd hg hp (hgtakes.sound Vocabulary.sound_empty)
        (hptakes.sound Vocabulary.sound_empty) fun x => ?_
      rw [hgtakes.has_iff, hptakes.has_iff, mem_wishes_iff hd]
  · -- a left-hand side that is declared to be a terminal is refused both ways
    obtain ⟨r, hr, name, hname, hdeclared⟩ : ∃ r ∈ d.rules, ∃ name ∈ r.name?,
        name ∈ (d.terminals.getD []).map Named.text := by
      by_contra hnone
      exact hd ⟨hcapital, fun r hr name hname hmem => hnone ⟨r, hr, name, hname, hmem⟩⟩
    obtain ⟨c, p, hsymbols, hc⟩ := exists_letter (hcapital r hr)
    rw [name?_eq hsymbols] at hname
    cases hname
    have hno := not_consistent_wishes (v := {}) hr hsymbols hdeclared
    have hno' := not_consistent_phraseWishes (v := {}) hr hsymbols hc
      (alternatives_of_parse hparse hr) hdeclared
    refine ⟨⟨fun h => absurd h hno, fun h => absurd h hno'⟩, fun g p hg _ => ?_⟩
    exact absurd ((hgrammar.exists_iff Vocabulary.sound_empty).1 ⟨g, hg⟩) hno

/-- The two ways number the symbols differently: a left-hand side that occurs late is known early. -/
def lettersText : String := "S -> aT | \"b\"\nT -> S | ε"

theorem lettersText_agrees : ∃ d, Document.parse lettersText.toList = .ok d ∧
    (∀ r ∈ d.rules, r.isCapital = true) ∧
    ∃ g p h, loadGrammar lettersText = .ok g ∧ loadPhraseGrammar lettersText = .ok p ∧
      p.toContextFree? = some h ∧ g.SameByName h ∧
      g.table.names = ["S", "T", "a", "b"] ∧ p.table.names = ["S", "a", "T", "b"] := by
  obtain ⟨d, hd⟩ : ∃ d, Document.parse lettersText.toList = .ok d := exists_ok (by decide +kernel)
  have hcapital : ∀ r ∈ d.rules, r.isCapital = true := by
    have hall : ((Document.parse lettersText.toList).map fun d => d.rules.all (·.isCapital)) =
        .ok true := by decide +kernel
    rw [hd] at hall
    exact List.all_eq_true.1 (Except.ok.inj hall)
  have hgnames : ((loadGrammar lettersText).map fun g => g.table.names) =
      .ok ["S", "T", "a", "b"] := by decide +kernel
  have hpnames : ((loadPhraseGrammar lettersText).map fun p => p.table.names) =
      .ok ["S", "a", "T", "b"] := by decide +kernel
  obtain ⟨g, hg, hgnames⟩ := map_eq_ok_iff.1 hgnames
  obtain ⟨p, hp, hpnames⟩ := map_eq_ok_iff.1 hpnames
  obtain ⟨h, hh, hsame⟩ := (loads_agree hd hcapital).2 g p hg hp
  exact ⟨d, hd, hcapital, g, p, h, hg, hp, hh, hsame, hgnames, hpnames⟩

end Notation

end FormalLanguage
