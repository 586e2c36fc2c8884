import FormalLanguage.Automaton.Path
import FormalLanguage.Proofs.Grammar.Substitution
import FormalLanguage.Proofs.RightLinear.Construction

/-!
The language of the automaton of a right-linear grammar. Main statement: the automaton exists just
if the grammar is right-linear, and it accepts the words that the grammar derives.
-/
namespace FormalLanguage.Grammar

variable {g : Grammar} {m : Automaton} {stateOf : NonTerminal → Nat} {sink p q : Nat}
  {n k : NonTerminal} {a : Terminal} {form : Body} {w : Word}

namespace Rendered

/-- A nonterminal accepts just if unit rules lead to an empty body. -/
theorem accepting_iff (hm : g.Rendered m stateOf sink) (hn : n ∈ g.nonterminals) :
    stateOf n ∈ m.accepting ↔ ∃ k, Relation.ReflTransGen g.UnitStep n k ∧ ⟨k, []⟩ ∈ g.rules := by
  rw [hm.mem_accepting]
  constructor
  · rintro ⟨n', hn', k, body, hk, hrule, hend⟩
    generalize hq : stateOf n = q at hend
    cases hend with
    | empty =>
      cases hm.numbered.injective n hn n' hn' hq
      exact ⟨k, hk, hrule⟩
    | terminal a => exact absurd hq (hm.numbered.ne_sink ⟨_, hrule, a, rfl⟩ n hn)
  · rintro ⟨k, hk, hrule⟩
    exact ⟨n, hn, k, [], hk, hrule, .empty⟩

/-- A nonterminal moves along the bodies that begin with a letter and that unit rules lead to. -/
theorem transition_iff (hm : g.Rendered m stateOf sink) (hn : n ∈ g.nonterminals) :
    ⟨stateOf n, a, q⟩ ∈ m.transitions ↔ ∃ k, Relation.ReflTransGen g.UnitStep n k ∧
      ((⟨k, [.terminal a]⟩ ∈ g.rules ∧ q = sink) ∨
        ∃ next, ⟨k, [.terminal a, .nonterminal next]⟩ ∈ g.rules ∧ q = stateOf next) := by
  rw [hm.mem_transitions]
  constructor
  · rintro ⟨n', hn', k, body, hk, hrule, hedge⟩
    generalize ht : Transition.mk (stateOf n) a q = t at hedge
    cases hedge with
    | terminal b =>
      obtain ⟨hq, rfl, rfl⟩ := Transition.mk.inj ht
      cases hm.numbered.injective n hn n' hn' hq
      exact ⟨k, hk, .inl ⟨hrule, rfl⟩⟩
    | pair b next =>
      obtain ⟨hq, rfl, rfl⟩ := Transition.mk.inj ht
      cases hm.numbered.injective n hn n' hn' hq
      exact ⟨k, hk, .inr ⟨next, hrule, rfl⟩⟩
  · rintro ⟨k, hk, ⟨hrule, rfl⟩ | ⟨next, hrule, rfl⟩⟩
    · exact ⟨n, hn, k, _, hk, hrule, .terminal a⟩
    · exact ⟨n, hn, k, _, hk, hrule, .pair a next⟩

/-- No transition leaves the sink. -/
theorem path_sink (hm : g.Rendered m stateOf sink) (hneeds : g.NeedsSink)
    (hpath : m.Path sink w p) : w = [] := by
  cases hpath with
  | nil => rfl
  | cons ht _ =>
    obtain ⟨n, hn, k, body, -, -, hedge⟩ := (hm.mem_transitions _).1 ht
    generalize ht' : Transition.mk sink _ _ = t at hedge
    have hsource : stateOf n = sink := by
      cases hedge <;> exact (Transition.mk.inj ht').1.symm
    exact absurd hsource (hm.numbered.ne_sink hneeds n hn)

theorem sink_mem (hm : g.Rendered m stateOf sink) (wf : g.WellFormed)
    (hrule : ⟨n, [.terminal a]⟩ ∈ g.rules) : sink ∈ m.accepting :=
  (hm.mem_accepting sink).2 ⟨n, wf.lhs_mem hrule, n, _, .refl, hrule, .terminal a⟩

/-- A path from the state of a nonterminal to an accepting state spells a word of it. -/
theorem yields_of_path (hm : g.Rendered m stateOf sink) (wf : g.WellFormed)
    (hn : n ∈ g.nonterminals) (hp : p ∈ m.accepting) (hpath : m.Path (stateOf n) w p) :
    g.Yields [.nonterminal n] w := by
  induction w generalizing n with
  | nil =>
    rw [Automaton.path_nil_iff] at hpath
    obtain ⟨k, hk, hrule⟩ := (hm.accepting_iff hn).1 (hpath ▸ hp)
    exact yields_of_unitSteps hk (yields_nonterminal_iff.2 ⟨_, hrule, rfl, .nil⟩)
  | cons a w ih =>
    obtain ⟨q, ht, hrest⟩ := Automaton.path_cons_iff.1 hpath
    obtain ⟨k, hk, ⟨hrule, rfl⟩ | ⟨next, hrule, rfl⟩⟩ := (hm.transition_iff hn).1 ht
    · rw [hm.path_sink ⟨_, hrule, a, rfl⟩ hrest]
      exact yields_of_unitSteps hk (yields_nonterminal_iff.2 ⟨_, hrule, rfl, .terminal a .nil⟩)
    · have hnext : next ∈ g.nonterminals :=
        Vocabulary.uses_nonterminal.1 (wf.uses_body hrule (by simp))
      have hbody : g.Yields [.terminal a, .nonterminal next] (a :: w) :=
        .terminal a (ih hnext hrest)
      exact yields_of_unitSteps hk (yields_nonterminal_iff.2 ⟨_, hrule, rfl, hbody⟩)

end Rendered

/-- The automaton reads the word as the body says, up to an accepting state. -/
inductive Reads (m : Automaton) (stateOf : NonTerminal → Nat) : Body → Word → Prop
  | empty : Reads m stateOf [] []
  | terminal (a : Terminal) : Reads m stateOf [.terminal a] [a]
  | unit (n : NonTerminal) {w : Word} (h : ∃ p ∈ m.accepting, m.Path (stateOf n) w p) :
      Reads m stateOf [.nonterminal n] w
  | pair (a : Terminal) (n : NonTerminal) {w : Word}
      (h : ∃ p ∈ m.accepting, m.Path (stateOf n) w p) :
      Reads m stateOf [.terminal a, .nonterminal n] (a :: w)

namespace Rendered

/-- What is accepted from a nonterminal is accepted from those that have it as a unit. -/
theorem accepts_of_unit (hm : g.Rendered m stateOf sink) (wf : g.WellFormed)
    (hrule : ⟨n, [.nonterminal k]⟩ ∈ g.rules) (h : ∃ p ∈ m.accepting, m.Path (stateOf k) w p) :
    ∃ p ∈ m.accepting, m.Path (stateOf n) w p := by
  by_cases hnk : n = k
  · rwa [hnk]
  have hn := wf.lhs_mem hrule
  have hk : k ∈ g.nonterminals :=
    Vocabulary.uses_nonterminal.1 (wf.uses_body hrule (List.mem_singleton.2 rfl))
  have hstep : g.UnitStep n k := ⟨hrule, hnk⟩
  obtain ⟨p, hp, hpath⟩ := h
  cases w with
  | nil =>
    rw [Automaton.path_nil_iff] at hpath
    obtain ⟨last, hlast, hempty⟩ := (hm.accepting_iff hk).1 (hpath ▸ hp)
    exact ⟨stateOf n, (hm.accepting_iff hn).2 ⟨last, hlast.head hstep, hempty⟩, .nil _⟩
  | cons a w =>
    obtain ⟨q, ht, hrest⟩ := Automaton.path_cons_iff.1 hpath
    obtain ⟨last, hlast, hbody⟩ := (hm.transition_iff hk).1 ht
    exact ⟨p, hp, .cons ((hm.transition_iff hn).2 ⟨last, hlast.head hstep, hbody⟩) hrest⟩

/-- What a body reads, its left-hand side accepts. -/
theorem accepts_of_rule (hm : g.Rendered m stateOf sink) (wf : g.WellFormed) {r : Rule}
    (hr : r ∈ g.rules) (h : Reads m stateOf r.body w) :
    ∃ p ∈ m.accepting, m.Path (stateOf r.lhs) w p := by
  obtain ⟨lhs, body⟩ := r
  have hlhs := wf.lhs_mem hr
  cases h with
  | empty => exact ⟨stateOf lhs, (hm.accepting_iff hlhs).2 ⟨lhs, .refl, hr⟩, .nil _⟩
  | terminal a =>
    have ht := (hm.transition_iff hlhs).2 ⟨lhs, .refl, .inl ⟨hr, rfl⟩⟩
    exact ⟨sink, hm.sink_mem wf hr, .cons ht (.nil sink)⟩
  | unit n h => exact hm.accepts_of_unit wf hr h
  | pair a n h =>
    obtain ⟨p, hp, hrest⟩ := h
    have ht := (hm.transition_iff hlhs).2 ⟨lhs, .refl, .inr ⟨n, hr, rfl⟩⟩
    exact ⟨p, hp, .cons ht hrest⟩

/-- The automaton reads every word that a right-linear form yields. -/
theorem reads_of_yields (hm : g.Rendered m stateOf sink) (wf : g.WellFormed)
    (hright : ∀ r ∈ g.rules, RightLinear r.body) (hform : RightLinear form)
    (hw : g.Yields form w) : Reads m stateOf form w := by
  induction hw with
  | nil => exact .empty
  | terminal a _ ih =>
    cases hform with
    | terminal =>
      cases ih .empty
      exact .terminal a
    | pair _ n =>
      cases ih (.unit n) with
      | unit _ h => exact .pair a n h
  | nonterminal hr _ hv ihu _ =>
    cases hform
    rw [yields_nil_iff.1 hv, List.append_nil]
    exact .unit _ (hm.accepts_of_rule wf hr (ihu (hright _ hr)))

theorem accepts_iff_generates (hm : g.Rendered m stateOf sink) (wf : g.WellFormed)
    (hright : ∀ r ∈ g.rules, RightLinear r.body) : m.accepts w = true ↔ g.Generates w := by
  obtain ⟨start, hstart, hmstart⟩ := hm.start
  rw [Automaton.accepts_iff, generates_iff_of_start hstart, hmstart]
  constructor
  · rintro ⟨p, hp, hpath⟩
    exact hm.yields_of_path wf (wf.start_mem hstart) hp hpath
  · intro hw
    cases hm.reads_of_yields wf hright (.unit start) hw with
    | unit _ h => exact h

end Rendered

/--
A grammar has an automaton just if it is right-linear, and else its first rule that is not is
refused. The automaton accepts the words of the grammar.
-/
theorem toAutomaton_accepts_language (wf : g.WellFormed) :
    ((∃ m, g.toAutomaton = .ok m) ↔ ∀ r ∈ g.rules, RightLinear r.body) ∧
    (∀ before r after, g.rules.toList = before ++ r :: after →
      (∀ s ∈ before, RightLinear s.body) → ¬ RightLinear r.body →
      ∃ lhs rhs, g.table.nameOf? (.nonterminal r.lhs) = some lhs ∧
        g.bodyText? r.marks = some rhs ∧ g.toAutomaton = .error (.notRightLinear lhs rhs)) ∧
    ∀ m, g.toAutomaton = .ok m → ∀ w, m.accepts w = true ↔ g.Generates w := by
  refine ⟨⟨?_, ?_⟩, ?_, ?_⟩
  · rintro ⟨m, h⟩
    exact rightLinear_of_toAutomaton wf h
  · intro hright
    obtain ⟨m, h, -⟩ := exists_toAutomaton wf hright
    exact ⟨m, h⟩
  · intro before r after hrules hbefore hr
    obtain ⟨lhs, rhs, hlhs, hrhs, hcheck⟩ := checkRightLinear_eq_error wf hrules hbefore hr
    exact ⟨lhs, rhs, hlhs, hrhs, toAutomaton_eq_error wf hcheck⟩
  · intro m h w
    have hright := rightLinear_of_toAutomaton wf h
    obtain ⟨m', h', stateOf, sink, hm⟩ := exists_toAutomaton wf hright
    rw [h] at h'
    cases h'
    exact hm.accepts_iff_generates wf hright

/-- A right-linear grammar with a cycle of unit rules, in which names of the sink are taken. -/
def endCycle : Grammar where
  table :=
    { entries := [⟨"end", .nonterminal⟩, ⟨"S", .nonterminal⟩, ⟨"end1", .terminal⟩]
      nameSpace := {}
      position := 0
      nodup := by decide
      passed := fun _ h => absurd h (Nat.not_lt_zero _) }
  terminals := OrderedSet.ofList [⟨2⟩]
  nonterminals := OrderedSet.ofList [⟨0⟩, ⟨1⟩]
  rules := OrderedSet.ofList
    [⟨⟨0⟩, []⟩,
      ⟨⟨0⟩, [.nonterminal ⟨1⟩]⟩,
      ⟨⟨1⟩, [.terminal ⟨2⟩]⟩,
      ⟨⟨1⟩, [.nonterminal ⟨0⟩]⟩,
      ⟨⟨1⟩, [.terminal ⟨2⟩, .nonterminal ⟨1⟩]⟩]
  start := some ⟨1⟩

theorem endCycle_automaton : endCycle.WellFormed ∧ ∃ m, endCycle.toAutomaton = .ok m ∧
    m.stateNames = ["S", "end", "end2"] ∧ ∀ w, m.accepts w = true ↔ endCycle.Generates w := by
  have wf : endCycle.WellFormed := by decide +kernel
  obtain ⟨-, -, hlanguage⟩ := toAutomaton_accepts_language wf
  have hnames : (endCycle.toAutomaton.map Automaton.stateNames) = .ok ["S", "end", "end2"] := by
    decide +kernel
  obtain ⟨m, hm⟩ := exists_ok (show endCycle.toAutomaton.toBool = true by decide +kernel)
  rw [hm] at hnames
  exact ⟨wf, m, hm, Except.ok.inj hnames, hlanguage m hm⟩

end FormalLanguage.Grammar
