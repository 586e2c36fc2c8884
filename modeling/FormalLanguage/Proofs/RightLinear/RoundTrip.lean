import FormalLanguage.Proofs.RightLinear.Language
import FormalLanguage.Proofs.RightLinear.Transcription

/-!
From grammars to automata and back. Main statement: a right-linear grammar in which no nonterminal
has the name of the marker has an automaton, the automaton has a grammar, and so on, all with the
same words. The grammar of an automaton that was built has an automaton for the same words.
-/
namespace FormalLanguage

namespace Grammar

variable {g : Grammar} {name : String}

theorem sinkCandidate_ne_epsilonText (i : Nat) : sinkCandidate i ≠ epsilonText := by
  intro h
  have hlists := congrArg String.toList h
  unfold sinkCandidate at hlists
  split at hlists
  · revert hlists
    decide
  · rw [String.toList_append] at hlists
    cases hlists

theorem exists_sinkName (g : Grammar) : ∃ i, g.sinkName = sinkCandidate i := by
  unfold sinkName
  cases hfind : ((List.range (g.table.size + 1)).map sinkCandidate).find? fun name =>
      (g.table.get? name).isNone with
  | none => exact ⟨0, rfl⟩
  | some name =>
    obtain ⟨i, -, rfl⟩ := List.mem_map.1 (List.mem_of_find?_eq_some hfind)
    exact ⟨i, rfl⟩

/-- The names of states are free for nonterminals: they have them, or no symbol does. -/
theorem bindable_of_namesState (wf : g.WellFormed)
    (hproper : ∀ n ∈ g.nonterminals, g.table.nameOf? (.nonterminal n) ≠ some epsilonText)
    (hname : g.NamesState name) : g.table.Bindable name := by
  rcases hname with rfl | ⟨n, hn, rfl⟩
  · obtain ⟨i, hi⟩ := g.exists_sinkName
    refine ⟨hi ▸ sinkCandidate_ne_epsilonText i, fun s hs => ?_⟩
    rw [SymbolTable.get?_eq_none_iff.2 g.sinkName_not_mem] at hs
    cases hs
  · have hname := nameOf?_eq wf hn
    refine ⟨fun heq => hproper n hn (heq ▸ hname), fun s hs => ?_⟩
    have hget := SymbolTable.get?_eq_some_iff.2
      ⟨wf.contains _ (Vocabulary.uses_nonterminal.2 hn), hname⟩
    rw [hget] at hs
    cases hs
    rfl

end Grammar

/-- The grammar of an automaton whose states have different names has an automaton again. -/
theorem Automaton.exists_toGrammar_toAutomaton {m : Automaton} {g : Grammar}
    (hnames : m.stateNames.Nodup) (hg : m.toGrammar = .ok g) :
    ∃ m', g.toAutomaton = .ok m' ∧ ∀ w, (g.Generates w ↔ m.accepts w = true) ∧
      (m'.accepts w = true ↔ m.accepts w = true) := by
  obtain ⟨symbolOf, ht, hinj⟩ := transcribed_of_toGrammar hg
  have hright : ∀ r ∈ g.rules, RightLinear r.body := fun r => ht.rightLinear
  obtain ⟨m', hm', stateOf, sink, hr⟩ := Grammar.exists_toAutomaton ht.wellFormed hright
  refine ⟨m', hm', fun w => ?_⟩
  have hwords := ht.generates_iff_accepts (w := w) (hinj hnames)
  exact ⟨hwords, (hr.accepts_iff_generates ht.wellFormed hright).trans hwords⟩

/--
A right-linear grammar can be taken to an automaton, back and there again, if no nonterminal of it
has the name of the marker. An automaton that was built comes back from its grammar, if it has one.
All of them have the same words.
-/
theorem roundTrip_keeps_language :
    (∀ g : Grammar, g.WellFormed → (∀ r ∈ g.rules, RightLinear r.body) →
      (∀ n ∈ g.nonterminals, g.table.nameOf? (.nonterminal n) ≠ some epsilonText) →
      ∃ m g' m', g.toAutomaton = .ok m ∧ m.toGrammar = .ok g' ∧ g'.toAutomaton = .ok m' ∧
        ∀ w, (m.accepts w = true ↔ g.Generates w) ∧ (g'.Generates w ↔ g.Generates w) ∧
          (m'.accepts w = true ↔ g.Generates w)) ∧
    ∀ (b : AutomatonBuilder) (m : Automaton) (h : Grammar), b.build = .ok m →
      m.toGrammar = .ok h → ∃ m', h.toAutomaton = .ok m' ∧ ∀ w, m'.accepts w = m.accepts w := by
  constructor
  · intro g wf hright hproper
    obtain ⟨m, hm, stateOf, sink, hr⟩ := Grammar.exists_toAutomaton wf hright
    have hbindable : ∀ name ∈ m.stateNames, m.table.Bindable name := by
      intro name hname
      rw [hr.table]
      exact Grammar.bindable_of_namesState wf hproper (hr.named name hname)
    obtain ⟨g', hg'⟩ := Automaton.exists_toGrammar hbindable
    obtain ⟨b, hb⟩ := Grammar.exists_build_of_toAutomaton hm
    obtain ⟨m', hm', hwords⟩ :=
      Automaton.exists_toGrammar_toAutomaton (AutomatonBuilder.nodup_of_build hb) hg'
    refine ⟨m, g', m', hm, hg', hm', fun w => ?_⟩
    have hacc : m.accepts w = true ↔ g.Generates w := hr.accepts_iff_generates wf hright
    exact ⟨hacc, (hwords w).1.trans hacc, (hwords w).2.trans hacc⟩
  · intro b m h hb hh
    obtain ⟨m', hm', hwords⟩ :=
      Automaton.exists_toGrammar_toAutomaton (AutomatonBuilder.nodup_of_build hb) hh
    exact ⟨m', hm', fun w => Bool.eq_iff_iff.2 (hwords w).2⟩

/-- On the way back from its automaton, the sink of the grammar is a nonterminal like any other. -/
theorem endCycle_roundTrip :
    (∃ m g' m', Grammar.endCycle.toAutomaton = .ok m ∧ m.toGrammar = .ok g' ∧
      g'.toAutomaton = .ok m' ∧ m.stateNames = ["S", "end", "end2"] ∧
      m'.stateNames = ["S", "end", "end2", "end3"] ∧
      ∀ w, m'.accepts w = true ↔ Grammar.endCycle.Generates w) ∧
    ∃ m h m', Automaton.evenLength.build = .ok m ∧ m.toGrammar = .ok h ∧
      h.toAutomaton = .ok m' ∧ ∀ w, m'.accepts w = m.accepts w := by
  obtain ⟨hgrammars, hautomata⟩ := roundTrip_keeps_language
  constructor
  · have wf : Grammar.endCycle.WellFormed := by decide +kernel
    have hright : ∀ r ∈ Grammar.endCycle.rules.toList, isRightLinearBody r.body = true := by
      decide +kernel
    have hproper : ∀ n ∈ Grammar.endCycle.nonterminals.toList,
        Grammar.endCycle.table.nameOf? (.nonterminal n) ≠ some epsilonText := by
      decide +kernel
    obtain ⟨m, g', m', hm, hg', hm', hwords⟩ := hgrammars Grammar.endCycle wf
      (fun r hr => isRightLinearBody_iff.1 (hright r hr)) hproper
    have hnames : (Grammar.endCycle.toAutomaton >>= fun m => m.toGrammar >>= fun g' =>
        g'.toAutomaton.map fun m' => (m.stateNames, m'.stateNames)) =
        .ok (["S", "end", "end2"], ["S", "end", "end2", "end3"]) := by
      decide +kernel
    rw [hm] at hnames
    change (m.toGrammar >>= _) = _ at hnames
    rw [hg'] at hnames
    change g'.toAutomaton.map _ = _ at hnames
    rw [hm'] at hnames
    obtain ⟨hfirst, hlast⟩ := Prod.mk.inj (Except.ok.inj hnames)
    exact ⟨m, g', m', hm, hg', hm', hfirst, hlast, fun w => (hwords w).2.2⟩
  · obtain ⟨m, hm⟩ := exists_ok (show Automaton.evenLength.build.toBool = true by decide +kernel)
    have hgrammar : (Automaton.evenLength.build.map fun m => m.toGrammar.toBool) = .ok true := by
      decide +kernel
    rw [hm] at hgrammar
    obtain ⟨h, hh⟩ := exists_ok (Except.ok.inj hgrammar)
    obtain ⟨m', hm', hwords⟩ := hautomata _ m h hm hh
    exact ⟨m, h, m', hm, hh, hm', hwords⟩

end FormalLanguage
