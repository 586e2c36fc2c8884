import FormalLanguage.Proofs.Automaton.Subset
import FormalLanguage.Proofs.RightLinear.Transcription

/-!
The grammar of a deterministic automaton, whose states are named by the sets they stand for. Main
statement: it derives every word that is accepted, and no other word if no two sets have the same
text. They have different texts if no name has a comma.
-/
namespace FormalLanguage.Automaton

variable {m : Automaton} {p q : Nat} {s t : StateSet} {names names' : List String} {w : Word}

theorem splitOn_intercalate_comma (hne : names ≠ [])
    (hcomma : ∀ name ∈ names, ',' ∉ name.toList) :
    (",".intercalate names).toList.splitOn ',' = names.map String.toList := by
  rw [String.toList_intercalate]
  exact List.splitOn_intercalate ',' (List.forall_mem_map.2 hcomma) (by simpa using hne)

/-- Names without commas can be read off the text that has them between braces. -/
theorem eq_of_braced (hne : names ≠ []) (hne' : names' ≠ [])
    (hcomma : ∀ name ∈ names, ',' ∉ name.toList) (hcomma' : ∀ name ∈ names', ',' ∉ name.toList)
    (h : braced names = braced names') : names = names' := by
  have hjoined : ",".intercalate names = ",".intercalate names' :=
    (String.append_right_inj _).1 ((String.append_left_inj _).1 h)
  have hlists : names.map String.toList = names'.map String.toList := by
    rw [← splitOn_intercalate_comma hne hcomma, hjoined, splitOn_intercalate_comma hne' hcomma']
  exact (List.map_injective_iff.2 fun _ _ => String.toList_inj.1) hlists

theorem stateText_eq (hq : q < m.stateNames.length) : m.stateText q = m.stateNames[q] := by
  rw [stateText, stateName?, List.getElem?_eq_getElem hq]
  rfl

theorem stateText_inj (hnames : m.stateNames.Nodup) (hp : p < m.numStates) (hq : q < m.numStates)
    (h : m.stateText p = m.stateText q) : p = q := by
  rw [stateText_eq hp, stateText_eq hq] at h
  exact hnames.getElem_inj_iff.1 h

theorem mem_map_stateText (hnames : m.stateNames.Nodup) (hs : ∀ p ∈ s, p < m.numStates)
    (hq : q < m.numStates) : m.stateText q ∈ s.toList.map m.stateText ↔ q ∈ s := by
  rw [List.mem_map]
  constructor
  · rintro ⟨p, hp, heq⟩
    rwa [← stateText_inj hnames (hs p hp) hq heq]
  · intro hmem
    exact ⟨q, hmem, rfl⟩

/-- Sets of states have different texts if the states have different names, without commas. -/
theorem setText_inj (hnames : m.stateNames.Nodup)
    (hcomma : ∀ name ∈ m.stateNames, ',' ∉ name.toList)
    (hs : ∀ q ∈ s, q < m.numStates) (ht : ∀ q ∈ t, q < m.numStates) (hsne : s.isEmpty = false)
    (htne : t.isEmpty = false) (h : m.setText s = m.setText t) : s = t := by
  have hcommas : ∀ u : StateSet, (∀ q ∈ u, q < m.numStates) →
      ∀ name ∈ u.toList.map m.stateText, ',' ∉ name.toList := by
    intro u hu name hname
    obtain ⟨q, hq, rfl⟩ := List.mem_map.1 hname
    rw [stateText_eq (hu q hq)]
    exact hcomma _ (List.getElem_mem _)
  have hmaps : s.toList.map m.stateText = t.toList.map m.stateText := by
    apply eq_of_braced _ _ (hcommas s hs) (hcommas t ht) h
    · simpa [OrderedSet.isEmpty] using hsne
    · simpa [OrderedSet.isEmpty] using htne
  apply OrderedSet.ext
  intro q
  constructor
  · intro hq
    rw [← mem_map_stateText hnames ht (hs q hq), ← hmaps]
    exact List.mem_map_of_mem hq
  · intro hq
    rw [← mem_map_stateText hnames hs (ht q hq), hmaps]
    exact List.mem_map_of_mem hq

/-- No two states of the deterministic automaton have the same name, if no name has a comma. -/
theorem nodup_stateNames_determinize (hnames : m.stateNames.Nodup)
    (hcomma : ∀ name ∈ m.stateNames, ',' ∉ name.toList) :
    m.determinize.automaton.stateNames.Nodup := by
  have hd : m.Discovered m.subsets := by
    simpa using (searching_subsets m).discovered
  apply hd.nodup.map_on
  intro s hs t ht h
  exact setText_inj hnames hcomma (hd.states_lt s hs) (hd.states_lt t ht) (hd.not_isEmpty s hs)
    (hd.not_isEmpty t ht) h

theorem accepts_determinize (m : Automaton) (w : Word) :
    m.determinize.automaton.accepts w = m.accepts w := by
  rcases reach_cases m w with ⟨q, -, hsub, hrun⟩ | ⟨-, hnone, hrun⟩
  · rw [accepts, hrun, intersects_singleton]
    exact isAccepting_eq hsub
  · rw [accepts, accepts, hrun, hnone]
    rfl

/--
The grammar of the deterministic automaton derives every word that is accepted. It derives no other
word if the sets that the states are named by have different texts, as they have unless the name of
a state has a comma.
-/
theorem determinized_grammar (b : AutomatonBuilder) (hb : b.build = .ok m) :
    ((∀ name ∈ m.stateNames, ',' ∉ name.toList) → m.determinize.automaton.stateNames.Nodup) ∧
    ∀ g, m.determinize.automaton.toGrammar = .ok g →
      (∀ w, m.accepts w = true → g.Generates w) ∧
      (m.determinize.automaton.stateNames.Nodup →
        ∀ w, g.Generates w ↔ m.accepts w = true) := by
  refine ⟨nodup_stateNames_determinize (AutomatonBuilder.nodup_of_build hb), fun g hg => ?_⟩
  obtain ⟨symbolOf, ht, hinj⟩ := transcribed_of_toGrammar hg
  constructor
  · intro w hw
    exact ht.generates_of_accepts ((accepts_determinize m w).trans hw)
  · intro hnames w
    rw [ht.generates_iff_accepts (hinj hnames), accepts_determinize]

/-- Two steps on one letter, of which one leads to the accepting state. -/
def forked : AutomatonBuilder :=
  { oneLetter with
    stateNames := ["s", "p", "q"]
    transitions := OrderedSet.ofList [⟨0, ⟨0⟩, 1⟩, ⟨0, ⟨0⟩, 2⟩]
    start := some 0
    accepting := OrderedSet.ofList [1]
    nodup := by decide }

theorem forked_determinized : ∃ m g, forked.build = .ok m ∧
    m.determinize.automaton.stateNames = ["\x7bs\x7d", "\x7bp,q\x7d"] ∧
    m.determinize.automaton.toGrammar = .ok g ∧ ∀ w, g.Generates w ↔ m.accepts w = true := by
  obtain ⟨m, hm⟩ := exists_ok (show forked.build.toBool = true by decide +kernel)
  have hnames : (forked.build.map fun m =>
      (m.stateNames, m.determinize.automaton.stateNames,
        m.determinize.automaton.toGrammar.toBool)) =
      .ok (["s", "p", "q"], ["\x7bs\x7d", "\x7bp,q\x7d"], true) := by
    decide +kernel
  rw [hm] at hnames
  obtain ⟨hnames, hrest⟩ := Prod.mk.inj (Except.ok.inj hnames)
  obtain ⟨hsubsets, hgrammar⟩ := Prod.mk.inj hrest
  obtain ⟨g, hg⟩ := exists_ok hgrammar
  obtain ⟨hdistinct, hlanguage⟩ := determinized_grammar forked hm
  have hcomma : ∀ name ∈ m.stateNames, ',' ∉ name.toList := by
    rw [hnames]
    decide
  exact ⟨m, g, hm, hsubsets, hg, (hlanguage g hg).2 (hdistinct hcomma)⟩

/-- A start state with the text of the set of the other two. -/
def commaNamed : AutomatonBuilder :=
  { forked with
    stateNames := ["p,q", "p", "q"]
    nodup := by decide }

/-- Both sets have one nonterminal, so the start symbol derives what should follow it again. -/
theorem commaNamed_merged : ∃ m g, commaNamed.build = .ok m ∧
    m.determinize.automaton.stateNames = ["\x7bp,q\x7d", "\x7bp,q\x7d"] ∧
    m.determinize.automaton.toGrammar = .ok g ∧
    g.Generates [⟨0⟩, ⟨0⟩] ∧ m.accepts [⟨0⟩, ⟨0⟩] = false := by
  obtain ⟨m, hm⟩ := exists_ok (show commaNamed.build.toBool = true by decide +kernel)
  have hrun : (commaNamed.build.map fun m =>
      (m.determinize.automaton.stateNames, m.accepts [⟨0⟩, ⟨0⟩])) =
      .ok (["\x7bp,q\x7d", "\x7bp,q\x7d"], false) := by
    decide +kernel
  have hgrammar : (commaNamed.build.map fun m =>
      m.determinize.automaton.toGrammar.map fun g => (g.start, g.rules.toList)) =
      .ok (.ok (some ⟨1⟩,
        [⟨⟨1⟩, [.terminal ⟨0⟩]⟩, ⟨⟨1⟩, [.terminal ⟨0⟩, .nonterminal ⟨1⟩]⟩])) := by
    decide +kernel
  rw [hm] at hrun hgrammar
  obtain ⟨hnames, haccepts⟩ := Prod.mk.inj (Except.ok.inj hrun)
  obtain ⟨g, hg, heq⟩ := map_eq_ok_iff.1 (Except.ok.inj hgrammar)
  obtain ⟨hstart, hrules⟩ := Prod.mk.inj heq
  have hrule : ∀ r ∈ g.rules.toList, r ∈ g.rules := fun r => OrderedSet.mem_toList.1
  rw [hrules, List.forall_mem_cons, List.forall_mem_singleton] at hrule
  have hone : g.Yields [.nonterminal ⟨1⟩] [⟨0⟩] := .nonterminal hrule.1 (.terminal _ .nil) .nil
  have htwo : g.Yields [.nonterminal ⟨1⟩] [⟨0⟩, ⟨0⟩] :=
    .nonterminal hrule.2 (.terminal _ hone) .nil
  exact ⟨m, g, hm, hnames, hg, (Grammar.generates_iff_of_start hstart).2 htwo, haccepts⟩

end FormalLanguage.Automaton
