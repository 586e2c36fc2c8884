import Mathlib.Control.Monad.Basic
import FormalLanguage.Grammar.Basic
import FormalLanguage.Proofs.SymbolTable

/-! What a grammar that passes its check, over symbols of its table, can be relied on for. -/
namespace FormalLanguage.Grammar

variable {g h : Grammar} {r : Rule} {s x y : Symbol} {start : NonTerminal}

theorem mem_bodies {n : NonTerminal} {body : Body} : body ∈ g.bodies n ↔ ⟨n, body⟩ ∈ g.rules := by
  simp only [bodies, List.mem_map, List.mem_filter, decide_eq_true_eq]
  constructor
  · rintro ⟨r, ⟨hr, rfl⟩, rfl⟩
    exact hr
  · intro h
    exact ⟨⟨n, body⟩, ⟨h, rfl⟩, rfl⟩

theorem validStart_of_valid (hv : g.validate = .ok ()) (hstart : g.start = some start) :
    g.validStart = .ok start := by
  simp only [validStart, hv, hstart]
  rfl

namespace WellFormed

theorem exists_start (wf : g.WellFormed) :
    ∃ start, g.start = some start ∧ start ∈ g.nonterminals := by
  obtain ⟨start, hstart, hmem, -⟩ := validate_eq_ok_iff.1 wf.valid
  exact ⟨start, hstart, hmem⟩

theorem start_mem (wf : g.WellFormed) (hstart : g.start = some start) : start ∈ g.nonterminals := by
  obtain ⟨start', hstart', hmem⟩ := wf.exists_start
  rw [hstart] at hstart'
  cases hstart'
  exact hmem

theorem lhs_mem (wf : g.WellFormed) (hr : r ∈ g.rules) : r.lhs ∈ g.nonterminals := by
  obtain ⟨_, -, -, hrules⟩ := validate_eq_ok_iff.1 wf.valid
  exact (hrules r hr).1

theorem uses_lhs (wf : g.WellFormed) (hr : r ∈ g.rules) : g.uses (.nonterminal r.lhs) = true :=
  Vocabulary.uses_nonterminal.2 (wf.lhs_mem hr)

theorem uses_body (wf : g.WellFormed) (hr : r ∈ g.rules) (hs : s ∈ r.body) : g.uses s = true := by
  obtain ⟨_, -, -, hrules⟩ := validate_eq_ok_iff.1 wf.valid
  exact (hrules r hr).2 s hs

theorem id_lt (wf : g.WellFormed) (hs : g.uses s = true) : s.id < g.table.size :=
  SymbolTable.lt_size_of_contains (wf.contains s hs)

theorem eq_of_id (wf : g.WellFormed) (hx : g.uses x = true) (hy : g.uses y = true)
    (hid : x.id = y.id) : x = y :=
  SymbolTable.eq_of_contains (wf.contains x hx) (wf.contains y hy) hid

theorem validStart_eq (wf : g.WellFormed) (hstart : g.start = some start) :
    g.validStart = .ok start :=
  validStart_of_valid wf.valid hstart

end WellFormed

theorem wellFormed_iff : g.WellFormed ↔ g.validate = .ok () ∧
    (∀ a ∈ g.terminals.toList, g.table.contains (.terminal a) = true) ∧
    ∀ n ∈ g.nonterminals.toList, g.table.contains (.nonterminal n) = true := by
  constructor
  · intro wf
    refine ⟨wf.valid, ?_, ?_⟩
    · intro a ha
      exact wf.contains _ (Vocabulary.uses_terminal.2 ha)
    · intro n hn
      exact wf.contains _ (Vocabulary.uses_nonterminal.2 hn)
  · rintro ⟨hvalid, hterm, hnonterm⟩
    refine ⟨hvalid, ?_⟩
    intro s hs
    cases s with
    | terminal a => exact hterm a (Vocabulary.uses_terminal.1 hs)
    | nonterminal n => exact hnonterm n (Vocabulary.uses_nonterminal.1 hs)

instance : Decidable g.WellFormed := decidable_of_iff _ wellFormed_iff.symm

/-- Changing the rules keeps a grammar well-formed if the new rules are over the symbols in use. -/
theorem wellFormed_of_rules (wf : g.WellFormed) (hv : h.toVocabulary = g.toVocabulary)
    (hstart : h.start = g.start)
    (hr : ∀ r ∈ h.rules, r.lhs ∈ g.nonterminals ∧ ∀ s ∈ r.body, g.uses s = true) :
    h.WellFormed := by
  obtain ⟨start, hs, hmem⟩ := wf.exists_start
  refine ⟨validate_eq_ok_iff.2 ⟨start, hstart.trans hs, ?_, ?_⟩, ?_⟩
  · rw [hv]
    exact hmem
  · intro r hmem'
    rw [hv]
    exact hr r hmem'
  · rw [hv]
    exact wf.contains

/-- Grammars that have the same rules, besides the same symbols and start symbol, are equal. -/
theorem eq_of_mem_rules (hv : h.toVocabulary = g.toVocabulary) (hstart : h.start = g.start)
    (hr : ∀ r, r ∈ h.rules ↔ r ∈ g.rules) : h = g := by
  have hrules : h.rules = g.rules := OrderedSet.ext hr
  obtain ⟨vocabulary, rules, start⟩ := h
  cases hv
  cases hrules
  cases hstart
  rfl

end FormalLanguage.Grammar
