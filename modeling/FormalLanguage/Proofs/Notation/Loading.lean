import FormalLanguage.Proofs.NormalForm.Failure
import FormalLanguage.Proofs.Notation.Asked
import FormalLanguage.Proofs.Notation.Texts
import FormalLanguage.Proofs.RightLinear.Construction

/-!
What a grammar that was loaded can be relied on for. Main statement: it passes its check, its
vocabulary is its whole table, its names are proper ones, and its start symbol is the one that the text
declares, or else the left-hand side of the first rule. So no stage and no conversion finds fault with
its symbols.
-/
namespace FormalLanguage

/-- All symbols of the table are in use, and no others; no name is empty or that of the marker. -/
structure Vocabulary.Full (v : Vocabulary) : Prop where
  uses_iff : ∀ s, v.uses s = true ↔ v.table.contains s = true
  proper : ∀ name ∈ v.table.names, name ≠ "" ∧ name ≠ epsilonText

namespace Notation

variable {scope : Scope} {name : List Char} {kind : Kind} {x : Option Entry} {s : Symbol}
  {t : Sequence} {r : WrittenRule} {g : Grammar} {n : NonTerminal} {d : Document} {items : List Item}

section Names

theorem ofList_ne_empty (hname : name ≠ []) : String.ofList name ≠ "" := by
  intro heq
  exact hname (String.ofList_injective heq)

/-- A text that is not empty is taken apart into names that are not. -/
theorem ne_nil_of_names {alone : Bool} {text : List Char} (htext : text ≠ [])
    (h : name ∈ scope.names alone text) : name ≠ [] := by
  rw [Scope.names] at h
  split_ifs at h
  · cases h
  · rw [List.mem_singleton.1 h]
    exact htext
  · obtain ⟨c, -, rfl⟩ := List.mem_map.1 (List.mem_of_mem_filter h)
    exact List.cons_ne_nil _ _

/-- The name is not empty. -/
def Proper (x : Option Entry) : Prop := ∀ e, x = some e → e.name ≠ ""

theorem proper_entry (hname : name ≠ []) : Proper (entry name kind) := by
  rintro e ⟨⟩
  exact ofList_ne_empty hname

theorem proper_none : Proper none := by rintro e ⟨⟩

theorem proper_wish (hname : name ≠ []) : Proper (scope.wish name) := by
  rw [Scope.wish]
  split_ifs
  · exact proper_entry hname
  · exact proper_entry hname
  · exact proper_none

/-- No name that a sequence asks for is empty. -/
theorem proper_of_mem_wishes (htexts : ∀ text ∈ t.texts, text ≠ []) (hx : x ∈ scope.wishes t) :
    Proper x := by
  obtain ⟨w, hw, hx⟩ := List.mem_flatMap.1 hx
  have htext : w.text ≠ [] := htexts _ (List.mem_map_of_mem hw)
  rw [Scope.writtenWishes] at hx
  split_ifs at hx
  · rw [List.mem_singleton.1 hx]
    exact proper_entry htext
  · obtain ⟨name, hname, rfl⟩ := List.mem_map.1 hx
    exact proper_wish (ne_nil_of_names htext hname)

/-- A left-hand side that is bound is one name. -/
theorem exists_of_side {e : Entry} (h : r.side = some e) :
    ∃ w, r.lhs.symbols = [w] ∧ e.name = w.name := by
  by_cases hsingle : ∃ w, r.lhs.symbols = [w]
  · obtain ⟨w, hw⟩ := hsingle
    rw [side_of_single hw, Option.ite_none_left_eq_some] at h
    obtain ⟨-, ⟨⟩⟩ := h
    exact ⟨w, hw, rfl⟩
  · rw [side_eq_none fun w hw => hsingle ⟨w, hw⟩] at h
    cases h

theorem proper_side (htexts : ∀ text ∈ r.lhs.texts, text ≠ []) : Proper r.side := by
  intro e he
  obtain ⟨w, hw, hname⟩ := exists_of_side he
  rw [hname]
  refine ofList_ne_empty (htexts _ ?_)
  rw [Sequence.texts, hw]
  exact List.mem_singleton_self _

theorem proper_of_mem_ruleWishes (htexts : ∀ text ∈ r.texts, text ≠ [])
    (hx : x ∈ scope.ruleWishes r) : Proper x := by
  rw [WrittenRule.texts, List.forall_mem_append] at htexts
  rcases List.mem_cons.1 hx with rfl | hx
  · exact proper_side htexts.1
  · obtain ⟨s, hs, hx⟩ := List.mem_flatMap.1 hx
    exact proper_of_mem_wishes (fun text h => htexts.2 text (List.mem_flatMap.2 ⟨s, hs, h⟩)) hx

/-- No name that a text asks for is empty. -/
theorem proper_of_mem_document (htexts : ∀ text ∈ d.texts, text ≠ []) (hx : x ∈ d.wishes) :
    Proper x := by
  simp only [Document.texts, List.map_append, List.forall_mem_append, List.forall_mem_map,
    List.mem_flatMap, forall_exists_index, and_imp] at htexts
  obtain ⟨hrules, ⟨hstart, hnonterminals⟩, hterminals⟩ := htexts
  have hrule (r : WrittenRule) (hr : r ∈ d.rules) : ∀ text ∈ r.texts, text ≠ [] :=
    fun text => hrules text r hr
  have hside (r : WrittenRule) (hr : r ∈ d.rules) : Proper r.side :=
    proper_side fun text htext => hrule r hr text (List.mem_append_left _ htext)
  simp only [Document.wishes, Document.declarations, List.mem_append, if_true] at hx
  rcases hx with (hx | hx | hx) | hx | hx
  · obtain ⟨named, hnamed, rfl⟩ := List.mem_map.1 hx
    exact proper_entry (hnonterminals named hnamed)
  · obtain ⟨r, hr, rfl⟩ := List.mem_map.1 hx
    exact hside r hr
  · obtain ⟨named, hnamed, rfl⟩ := List.mem_map.1 hx
    exact proper_entry (hterminals named hnamed)
  · obtain ⟨r, hr, hx⟩ := List.mem_flatMap.1 hx
    exact proper_of_mem_ruleWishes (hrule r hr) hx
  · rw [List.mem_singleton.1 hx, Document.startWish]
    split
    · next named hnamed => exact proper_entry (hstart named (by simp [hnamed]))
    · cases hhead : d.rules.head? with
      | none => exact proper_none
      | some r => exact hside r (List.mem_of_head? hhead)

end Names

section Rules

/-- The vocabulary is the whole table, and the rules are over it. -/
structure Grounded (g : Grammar) : Prop where
  full : g.toVocabulary.Full
  rules : ∀ r ∈ g.rules, ∀ s ∈ Symbol.nonterminal r.lhs :: r.body, g.table.contains s = true

/-- The table of a grammar that was loaded has what its text asks for, and nothing else. -/
theorem has_iff_mem_wishes (htakes : Vocabulary.Takes {} g.toVocabulary d.wishes) (x : Option Entry) :
    g.table.Has x ↔ x ∈ d.wishes := by
  have hempty : ¬ ({} : Vocabulary).table.Has x := by
    rintro ⟨_, _, -, hnone, -⟩
    cases hnone
  exact (htakes.has_iff x).trans (or_iff_right hempty)

/-- The names that a grammar was loaded with are those that its text asked for. -/
theorem full_of_takes (htexts : ∀ text ∈ d.texts, text ≠ [])
    (h : Vocabulary.Takes {} g.toVocabulary d.wishes) : g.toVocabulary.Full := by
  have hsound := h.sound Vocabulary.sound_empty
  refine ⟨hsound.uses_iff, fun name hname => ?_⟩
  cases hget : g.table.get? name with
  | none => exact absurd hname (SymbolTable.get?_eq_none_iff.1 hget)
  | some s =>
    have hhas : g.table.Has (some ⟨name, s.kind⟩) := SymbolTable.has_iff.2 ⟨s, hget, rfl⟩
    have hasked := (has_iff_mem_wishes h _).1 hhas
    refine ⟨proper_of_mem_document htexts hasked _ rfl, ?_⟩
    rintro rfl
    cases hsound.unreserved.symm.trans hget

/-- The rules of a text are over the table. -/
theorem contains_of_conforms {as : List NamedRule} (h : Conforms g.table as (Includes g)) :
    ∀ r ∈ g.rules, ∀ s ∈ Symbol.nonterminal r.lhs :: r.body, g.table.contains s = true := by
  intro r hr
  obtain ⟨a, -, hlhs, hrhs⟩ := h.sound _ ⟨r, hr, rfl⟩
  rw [List.forall_mem_cons]
  exact ⟨SymbolTable.contains_of_means hlhs _ (List.mem_singleton_self _),
    SymbolTable.contains_of_means hrhs⟩

end Rules

section Start

/-- The name of the start symbol: that of the only directive for it, or else of the first rule. -/
inductive StartName (items : List Item) : String → Prop
  | directive {named : Named} (h : declared "%start" items = [[named]]) :
      StartName items named.name
  | firstRule {r : WrittenRule} {rules : List WrittenRule} {written : Written}
      (hnone : declared "%start" items = []) (hrules : items.filterMap Item.rule? = r :: rules)
      (hlhs : r.lhs.symbols = [written]) : StartName items written.name

/-- The start symbol is bound to the name that the items say. -/
theorem exists_startName {table : SymbolTable} (hd : d.Gathers items)
    (h : table.Means (d.startWish (d.rules.head?.bind WrittenRule.side)) s) :
    ∃ name, StartName items name ∧ table.get? name = some s := by
  have hdeclared := hd.start
  obtain ⟨e, he, hget, -⟩ := h
  rw [Document.startWish] at he
  cases hstart : d.start with
  | some named =>
    rw [hstart] at he hdeclared
    cases he
    exact ⟨_, .directive hdeclared, hget⟩
  | none =>
    rw [hstart] at he hdeclared
    cases hrules : d.rules with
    | nil =>
      rw [hrules] at he
      cases he
    | cons r rules =>
      rw [hrules] at he
      obtain ⟨w, hw, hname⟩ := exists_of_side he
      rw [hname] at hget
      exact ⟨_, .firstRule hdeclared (hd.rules ▸ hrules) hw, hget⟩

end Start

/-- A grammar that is loaded is over its whole table, and starts with what the items say. -/
theorem grounded_of_loadGrammar {text : String} (h : loadGrammar text = .ok g) : Grounded g ∧
    ∃ lines items start name, lexLines text.toList = .ok lines ∧ itemsFrom none lines = .ok items ∧
      StartName items name ∧ g.start = some start ∧
        g.table.get? name = some (.nonterminal start) := by
  obtain ⟨d, hparse, -⟩ := bind_eq_ok_iff.1 h
  obtain ⟨lines, items, hlines, hitems, hd, htexts⟩ := exists_gathers hparse
  obtain ⟨htakes, hrules, n, hn, hmeans⟩ := (asks_loadGrammar hparse).of_ok g h
  obtain ⟨name, hname, hget⟩ := exists_startName hd hmeans
  exact ⟨⟨full_of_takes htexts htakes, contains_of_conforms hrules⟩, lines, items, n, name, hlines,
    hitems, hname, hn, hget⟩

/-- All symbols of the table are in use, so those of the rules are. -/
theorem Grounded.wellFormed (hg : Grounded g) (hstart : g.start = some n)
    (hn : g.table.contains (.nonterminal n) = true) : g.WellFormed := by
  have huses : ∀ s, g.table.contains s = true → g.uses s = true := fun s => (hg.full.uses_iff s).2
  refine ⟨Grammar.validate_eq_ok_iff.2 ⟨n, hstart, ?_, fun r hr => ⟨?_, fun s hs => ?_⟩⟩, ?_⟩
  · exact Vocabulary.uses_nonterminal.1 (huses _ hn)
  · exact Vocabulary.uses_nonterminal.1 (huses _ (hg.rules r hr _ List.mem_cons_self))
  · exact huses s (hg.rules r hr s (List.mem_cons_of_mem _ hs))
  · exact fun s => (hg.full.uses_iff s).1

/--
A grammar that is loaded passes its check. It uses the symbols of its table and no others, none of
their names is empty or that of the marker, and it starts with what the text says. No stage and no
conversion finds fault with its symbols: fresh names may run out, and a body may not be right-linear.
-/
theorem wellFormed_of_loadGrammar {text : String} (h : loadGrammar text = .ok g) :
    g.validate = .ok () ∧
    (∀ s, g.uses s = true ↔ g.table.contains s = true) ∧
    (∀ name ∈ g.table.names, name ≠ "" ∧ name ≠ epsilonText) ∧
    (∃ lines items start name, lexLines text.toList = .ok lines ∧
      itemsFrom none lines = .ok items ∧ StartName items name ∧ g.start = some start ∧
        g.table.get? name = some (.nonterminal start)) ∧
    (∀ stage e, Stage.run stage g = .error e → ∃ capacity, e = .naming (.namesExhausted capacity)) ∧
    (∀ e, g.toNormalForm = .error e → ∃ capacity, e = .naming (.namesExhausted capacity)) ∧
    (∀ e, g.toAutomaton = .error e → ∃ lhs rhs, e = .notRightLinear lhs rhs) := by
  obtain ⟨hg, hnamed⟩ := grounded_of_loadGrammar h
  have wf : g.WellFormed := by
    obtain ⟨_, _, start, name, -, -, -, hstart, hget⟩ := hnamed
    exact hg.wellFormed hstart (SymbolTable.contains_of_get? hget)
  exact ⟨wf.valid, hg.full.uses_iff, hg.full.proper, hnamed, Grammar.failsForNames_run wf,
    Grammar.failsForNames_toNormalForm wf, fun _ => Grammar.toAutomaton_eq_notRightLinear wf⟩

/-- A start symbol that is declared, a literal, an empty body, a continuation, and a word to split. -/
def declaredText : String := "%start T\nS -> \"ab\" T | ε\n   | bT\nT → c"

theorem declaredText_wellFormed : ∃ g, loadGrammar declaredText = .ok g ∧ g.validate = .ok () ∧
    (∀ s, g.uses s = true ↔ g.table.contains s = true) ∧
    (∀ name ∈ g.table.names, name ≠ "" ∧ name ≠ epsilonText) ∧
      ∃ lines items start name, lexLines declaredText.toList = .ok lines ∧
        itemsFrom none lines = .ok items ∧ StartName items name ∧ g.start = some start ∧
          g.table.get? name = some (.nonterminal start) := by
  obtain ⟨g, hg⟩ : ∃ g, loadGrammar declaredText = .ok g := exists_ok (by decide +kernel)
  obtain ⟨hvalid, huses, hnames, hstart, -⟩ := wellFormed_of_loadGrammar hg
  exact ⟨g, hg, hvalid, huses, hnames, hstart⟩

end Notation

end FormalLanguage
