import FormalLanguage.NormalForm.Unit
import FormalLanguage.Proofs.Grammar.Reachability
import FormalLanguage.Proofs.NormalForm.Epsilon

/-!
Removing bodies that are a single nonterminal. Main statements: the rules that result are the other
rules, copied along the unit rules, and after the removal of empty bodies no word is lost.
-/
namespace FormalLanguage.Grammar

variable {g h : Grammar} {r : Rule} {form : Body} {w : Word} {n m start : NonTerminal}

/-- A body that is not a single nonterminal. -/
def Proper (body : Body) : Prop := ∀ n, body ≠ [.nonterminal n]

/-- The rules of the second grammar are those of the first one copied along its unit rules. -/
structure UnitFreed (g h : Grammar) : Prop where
  vocabulary : h.toVocabulary = g.toVocabulary
  start : h.start = g.start
  mem_rules : ∀ r, r ∈ h.rules ↔ Proper r.body ∧
    (r ∈ g.rules ∨ r.body ≠ [] ∧ ∃ n, Relation.TransGen g.UnitStep r.lhs n ∧ ⟨n, r.body⟩ ∈ g.rules)

theorem mem_properBodies {body : Body} :
    body ∈ g.properBodies n ↔ ⟨n, body⟩ ∈ g.rules ∧ Proper body := by
  have hunit : (Rule.unit? ⟨n, body⟩).isNone = true ↔ Proper body := by
    rw [Option.isNone_iff_eq_none, Option.eq_none_iff_forall_ne_some]
    exact forall_congr' fun m => not_congr unit?_eq_some_iff
  rw [properBodies, List.mem_filter, mem_bodies, hunit]

theorem mem_unitTargets (wf : g.WellFormed) {units : Relation}
    (hunits : ∀ A B, units.relatedId A.id B.id = true ↔ Relation.TransGen g.UnitStep A B) :
    m ∈ g.unitTargets units n ↔ Relation.TransGen g.UnitStep n m ∧ m ≠ n := by
  rw [unitTargets, List.mem_filter, decide_eq_true_eq, ← hunits]
  refine and_congr_left fun _ => ?_
  simp only [List.mem_filterMap, OrderedSet.mem_toList, Option.bind_eq_some_iff]
  constructor
  · rintro ⟨id, hid, s, hs, hm⟩
    cases s with
    | terminal a => cases hm
    | nonterminal k =>
      cases hm
      have hk : m.id = id := SymbolTable.id_of_symbol? hs
      simpa [Relation.relatedId, hk] using hid
  · intro hrel
    have hmem := target_mem_of_unitSteps wf ((hunits n m).1 hrel)
    have hsym := SymbolTable.contains_iff.1 (wf.contains _ (Vocabulary.uses_nonterminal.2 hmem))
    exact ⟨m.id, by simpa [Relation.relatedId] using hrel, .nonterminal m, hsym, rfl⟩

theorem exists_eliminateUnit (wf : g.WellFormed) :
    ∃ h, g.eliminateUnit = .ok h ∧ g.UnitFreed h := by
  obtain ⟨units, hok, -, hunits⟩ := exists_unitRelation wf.below
  rw [eliminateUnit, wf.valid, hok]
  refine ⟨_, rfl, rfl, rfl, ?_⟩
  rintro ⟨lhs, body⟩
  simp only [OrderedSet.mem_ofList, List.mem_flatMap, OrderedSet.mem_toList, List.mem_map,
    Rule.mk.injEq, unitFreeBodies, List.mem_append, List.mem_filter, decide_eq_true_eq,
    mem_properBodies, mem_unitTargets wf hunits]
  constructor
  · rintro ⟨n, -, body', hbody, rfl, rfl⟩
    rcases hbody with ⟨hrule, hproper⟩ | ⟨m, ⟨hnm, -⟩, ⟨hrule, hproper⟩, hne⟩
    · exact ⟨hproper, .inl hrule⟩
    · exact ⟨hproper, .inr ⟨hne, m, hnm, hrule⟩⟩
  · rintro ⟨hproper, hrule | ⟨hne, m, hnm, hrule⟩⟩
    · exact ⟨lhs, wf.lhs_mem hrule, body, .inl ⟨hrule, hproper⟩, rfl, rfl⟩
    · refine ⟨lhs, source_mem_of_unitSteps wf hnm, body, ?_, rfl, rfl⟩
      by_cases hm : m = lhs
      · subst m
        exact .inl ⟨hrule, hproper⟩
      · exact .inr ⟨m, ⟨hnm, hm⟩, ⟨hrule, hproper⟩, hne⟩

namespace UnitFreed

theorem wellFormed (hu : g.UnitFreed h) (wf : g.WellFormed) : h.WellFormed := by
  refine wellFormed_of_rules wf hu.vocabulary hu.start ?_
  intro r hr
  obtain ⟨-, hrule | ⟨-, n, hn, hrule⟩⟩ := (hu.mem_rules r).1 hr
  · exact ⟨wf.lhs_mem hrule, fun s hs => wf.uses_body hrule hs⟩
  · exact ⟨source_mem_of_unitSteps wf hn, fun s hs => wf.uses_body hrule hs⟩

/-- Nothing new is derived. -/
theorem yields_old (hu : g.UnitFreed h) (hw : h.Yields form w) : g.Yields form w := by
  apply hw.of_rules
  intro r hr u hbody
  obtain ⟨-, hrule | ⟨-, n, hn, hrule⟩⟩ := (hu.mem_rules r).1 hr
  · exact yields_nonterminal_iff.2 ⟨r, hrule, rfl, hbody⟩
  · exact yields_of_unitSteps hn.to_reflTransGen (yields_nonterminal_iff.2 ⟨_, hrule, rfl, hbody⟩)

/-- A nonempty word is derived along a unit rule as it is from its nonterminal. -/
theorem yields_along (hu : g.UnitFreed h) (hrule : ⟨n, [.nonterminal m]⟩ ∈ g.rules) (hne : w ≠ [])
    (hw : h.Yields [.nonterminal m] w) : h.Yields [.nonterminal n] w := by
  by_cases hnm : n = m
  · exact hnm ▸ hw
  · obtain ⟨r, hr, rfl, hbody⟩ := yields_nonterminal_iff.1 hw
    have hbody_ne : r.body ≠ [] := by
      intro hnil
      rw [hnil, yields_nil_iff] at hbody
      exact hne hbody
    obtain ⟨hproper, hold⟩ := (hu.mem_rules r).1 hr
    have hreach : ∃ k, Relation.TransGen g.UnitStep n k ∧ ⟨k, r.body⟩ ∈ g.rules := by
      rcases hold with hold | ⟨-, k, hk, hold⟩
      · exact ⟨r.lhs, .single ⟨hrule, hnm⟩, hold⟩
      · exact ⟨k, .head ⟨hrule, hnm⟩ hk, hold⟩
    have hnew : ⟨n, r.body⟩ ∈ h.rules := (hu.mem_rules _).2 ⟨hproper, .inr ⟨hbody_ne, hreach⟩⟩
    exact yields_nonterminal_iff.2 ⟨_, hnew, rfl, hbody⟩

/-- Every nonterminal keeps its nonempty words, if omissions give no new rules. -/
theorem yields_new (hu : g.UnitFreed h) (hg : g.OmissionClosed) (hne : w ≠ [])
    (hw : g.Yields [.nonterminal n] w) : h.Yields [.nonterminal n] w := by
  refine yields_of_omissions (p := g.nullableSymbols.has) ?_ ?_ hne hw
  · intro m hm
    exact nullable_of_yields hm rfl _ (List.mem_singleton.2 rfl)
  · intro r hr part hpart hpart_ne u hu_ne hyields
    have hmem := hg.omission_mem r hr part hpart hpart_ne
    by_cases hproper : Proper part
    · have hnew : ⟨r.lhs, part⟩ ∈ h.rules := (hu.mem_rules _).2 ⟨hproper, .inl hmem⟩
      exact yields_nonterminal_iff.2 ⟨_, hnew, rfl, hyields⟩
    · obtain ⟨m, hm⟩ : ∃ m, part = [.nonterminal m] := by simpa [Proper] using hproper
      subst part
      exact hu.yields_along hmem hu_ne hyields

/-- The start symbol keeps all of its words, if omissions give no new rules. -/
theorem yields_start (hu : g.UnitFreed h) (hg : g.OmissionClosed) (hstart : g.start = some start) :
    h.Yields [.nonterminal start] w ↔ g.Yields [.nonterminal start] w := by
  refine ⟨hu.yields_old, ?_⟩
  intro hw
  by_cases hne : w = []
  · subst w
    have hrule := hg.empty_mem_rules hstart hw
    have hnew : ⟨start, []⟩ ∈ h.rules := (hu.mem_rules _).2 ⟨by simp [Proper], .inl hrule⟩
    exact yields_nonterminal_iff.2 ⟨_, hnew, rfl, .nil⟩
  · exact hu.yields_new hg hne hw

theorem preserves (hu : g.UnitFreed h) (wf : g.WellFormed) (hg : g.OmissionClosed) :
    g.Preserves h where
  wellFormed := hu.wellFormed wf
  start := hu.start
  generates _ := generates_congr hu.start fun _ hstart => hu.yields_start hg hstart

end UnitFreed

/-- A unit rule leads from the first nonterminal to the second one. It may be a loop. -/
def UnitLink (g : Grammar) (n m : NonTerminal) : Prop := ⟨n, [.nonterminal m]⟩ ∈ g.rules

theorem unitSteps_of_link (hlink : g.UnitLink n m) : Relation.ReflTransGen g.UnitStep n m := by
  by_cases hnm : n = m
  · subst m
    exact .refl
  · exact .single ⟨hlink, hnm⟩

/-- Loops may be left out of a chain of unit rules. -/
theorem unitSteps_of_links (hlinks : Relation.TransGen g.UnitLink n m) :
    Relation.ReflTransGen g.UnitStep n m := by
  induction hlinks with
  | single hlink => exact unitSteps_of_link hlink
  | tail _ hlink ih => exact ih.trans (unitSteps_of_link hlink)

namespace UnitFreed

/-- Loops do not matter for what is copied. -/
theorem mem_rules_iff_links (hu : g.UnitFreed h) : r ∈ h.rules ↔ Proper r.body ∧
    (r ∈ g.rules ∨ r.body ≠ [] ∧ ∃ n, Relation.TransGen g.UnitLink r.lhs n ∧
      ⟨n, r.body⟩ ∈ g.rules) := by
  rw [hu.mem_rules]
  refine and_congr_right fun _ => ?_
  constructor
  · rintro (hold | ⟨hne, n, hsteps, hrule⟩)
    · exact .inl hold
    · exact .inr ⟨hne, n, Relation.TransGen.mono (fun _ _ hstep => hstep.1) _ _ hsteps, hrule⟩
  · rintro (hold | ⟨hne, n, hlinks, hrule⟩)
    · exact .inl hold
    · rcases Relation.reflTransGen_iff_eq_or_transGen.1 (unitSteps_of_links hlinks) with rfl | hsteps
      · exact .inl hrule
      · exact .inr ⟨hne, n, hsteps, hrule⟩

/-- Without empty bodies every nonterminal keeps all of its words. -/
theorem yields_iff (hu : g.UnitFreed h) (hne : ∀ r ∈ g.rules, r.body ≠ []) :
    h.Yields [.nonterminal n] w ↔ g.Yields [.nonterminal n] w := by
  refine ⟨hu.yields_old, ?_⟩
  intro hw
  by_cases hempty : w = []
  · obtain ⟨r, hr, hbody⟩ := exists_empty_rule hw hempty (List.cons_ne_nil _ _)
    exact absurd hbody (hne r hr)
  · exact hu.yields_new (.of_no_empty hne) hempty hw

end UnitFreed

/--
What results is the rules that are no unit rules, and copies of their nonempty bodies along the unit
rules. If there are no empty bodies every nonterminal keeps its words; if empty bodies were removed
before, the start symbol does.
-/
theorem eliminateUnit_copies_bodies (wf : g.WellFormed) :
    ∃ h, g.eliminateUnit = .ok h ∧
      (∀ n body, ⟨n, body⟩ ∈ h.rules ↔ Proper body ∧ (⟨n, body⟩ ∈ g.rules ∨
        body ≠ [] ∧ ∃ m, Relation.TransGen g.UnitLink n m ∧ ⟨m, body⟩ ∈ g.rules)) ∧
      ((∀ r ∈ g.rules, r.body ≠ []) → ∀ n w,
        (h.Derives [.nonterminal n] (.ofWord w) ↔ g.Derives [.nonterminal n] (.ofWord w))) ∧
      ∀ f : Grammar, f.WellFormed → f.eliminateEpsilon = .ok g →
        ∀ w, h.Generates w ↔ g.Generates w := by
  obtain ⟨h, hok, hu⟩ := exists_eliminateUnit wf
  refine ⟨h, hok, fun n body => hu.mem_rules_iff_links, ?_, ?_⟩
  · intro hne n w
    rw [derives_iff_yields, derives_iff_yields]
    exact hu.yields_iff hne
  · intro f hf hfreed
    have hclosed := (of_exists_ok (exists_eliminateEpsilon hf) hfreed).omissionClosed hf
    exact (hu.preserves wf hclosed).generates

/-- Unit rules lead from `S` to `A`, from `A` to `B` and back to `S`, and from `A` to itself. -/
def ringed : Grammar where
  table :=
    { entries := [⟨"S", .nonterminal⟩, ⟨"A", .nonterminal⟩, ⟨"B", .nonterminal⟩, ⟨"a", .terminal⟩]
      nameSpace := {}
      position := 0
      nodup := by decide
      passed := fun _ h => absurd h (Nat.not_lt_zero _) }
  terminals := OrderedSet.ofList [⟨3⟩]
  nonterminals := OrderedSet.ofList [⟨0⟩, ⟨1⟩, ⟨2⟩]
  rules := OrderedSet.ofList
    [⟨⟨0⟩, [.nonterminal ⟨1⟩]⟩, ⟨⟨1⟩, [.nonterminal ⟨1⟩]⟩, ⟨⟨1⟩, [.nonterminal ⟨2⟩]⟩,
      ⟨⟨2⟩, [.nonterminal ⟨0⟩]⟩, ⟨⟨2⟩, [.terminal ⟨3⟩, .nonterminal ⟨0⟩]⟩, ⟨⟨1⟩, [.terminal ⟨3⟩]⟩]
  start := some ⟨0⟩

theorem ringed_copies : ringed.WellFormed ∧ (∀ r ∈ ringed.rules, r.body ≠ []) ∧
    (∃ h, ringed.eliminateUnit = .ok h ∧ ⟨⟨0⟩, [.terminal ⟨3⟩, .nonterminal ⟨0⟩]⟩ ∈ h.rules ∧
      ∀ n w, h.Derives [.nonterminal n] (.ofWord w) ↔
        ringed.Derives [.nonterminal n] (.ofWord w)) ∧
    entwined.WellFormed ∧ ∃ g h, entwined.eliminateEpsilon = .ok g ∧ g.WellFormed ∧
      g.eliminateUnit = .ok h ∧ ∀ w, h.Generates w ↔ g.Generates w := by
  have wf : ringed.WellFormed := by decide +kernel
  have hne : ∀ r ∈ ringed.rules.toList, r.body ≠ [] := by decide +kernel
  obtain ⟨h, hok, hrules, hwords, -⟩ := eliminateUnit_copies_bodies wf
  have hcopied : ⟨⟨0⟩, [.terminal ⟨3⟩, .nonterminal ⟨0⟩]⟩ ∈ h.rules := by
    rw [hrules]
    refine ⟨by simp [Proper], .inr ⟨List.cons_ne_nil _ _, ⟨2⟩, ?_, by decide +kernel⟩⟩
    have hfirst : ringed.UnitLink ⟨0⟩ ⟨1⟩ := by
      rw [UnitLink]
      decide +kernel
    have hsecond : ringed.UnitLink ⟨1⟩ ⟨2⟩ := by
      rw [UnitLink]
      decide +kernel
    exact .tail (.single hfirst) hsecond
  have wf' : entwined.WellFormed := by decide +kernel
  obtain ⟨g, hfreed, he⟩ := exists_eliminateEpsilon wf'
  obtain ⟨k, hok', -, -, hstart⟩ := eliminateUnit_copies_bodies (he.wellFormed wf')
  exact ⟨wf, hne, ⟨h, hok, hcopied, hwords hne⟩, wf', g, k, hfreed, he.wellFormed wf', hok',
    hstart entwined wf' hfreed⟩

end FormalLanguage.Grammar
