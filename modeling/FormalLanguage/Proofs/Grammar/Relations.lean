import FormalLanguage.Proofs.Grammar.Reachability
import FormalLanguage.Proofs.Grammar.Trim

/-!
The two relations of a grammar over symbols of its table, be it valid or not. Main statement: a
symbol reaches itself and what stands in the forms that it derives, and a nonterminal is related by
unit rules to the end of each chain of them, loops left out.
-/
namespace FormalLanguage.Grammar

variable {g : Grammar} {r : Relation} {x y : Symbol} {A B : NonTerminal} {i : Nat}

/-- The symbols of the rules are symbols of the table. They need not be in use. -/
structure RulesContained (g : Grammar) : Prop where
  lhs : ∀ r ∈ g.rules, g.table.contains (.nonterminal r.lhs) = true
  body : ∀ r ∈ g.rules, ∀ s ∈ r.body, g.table.contains s = true

theorem WellFormed.rulesContained (wf : g.WellFormed) : g.RulesContained where
  lhs _ hr := wf.contains _ (wf.uses_lhs hr)
  body _ hr _ hs := wf.contains _ (wf.uses_body hr hs)

namespace RulesContained

theorem below (hg : g.RulesContained) : ∀ rule ∈ g.rules, Below g.table.size rule := by
  intro rule hrule
  exact ⟨SymbolTable.lt_size_of_contains (hg.lhs rule hrule),
    fun s hs => SymbolTable.lt_size_of_contains (hg.body rule hrule s hs)⟩

/-- Chains of IDs are chains of symbols, since a table has one symbol for each ID. -/
theorem directSteps_iff_reaches (hg : g.RulesContained) (hx : g.table.contains x = true)
    (hy : g.table.contains y = true) :
    Relation.ReflTransGen g.DirectStep x.id y.id ↔ g.Reaches x y := by
  constructor
  · intro hchain
    generalize hid : y.id = id at hchain
    induction hchain generalizing y with
    | refl =>
      rw [SymbolTable.eq_of_contains hy hx hid]
      exact .refl
    | tail _ hlast ih =>
      obtain ⟨rule, hrule, s, hs, rfl, rfl⟩ := hlast
      rw [SymbolTable.eq_of_contains hy (hg.body rule hrule s hs) hid]
      exact (ih (hg.lhs rule hrule) rfl).trans (reaches_body hrule hs)
  · refine Relation.ReflTransGen.lift Symbol.id ?_ _ _
    rintro _ z ⟨rule, hrule, rfl, hz⟩
    exact ⟨rule, hrule, z, hz, rfl, rfl⟩

/-- A symbol whose ID begins a chain of unit rules is the nonterminal at its beginning. -/
theorem eq_of_unitSteps (hg : g.RulesContained) (hx : g.table.contains x = true)
    (h : Relation.TransGen g.UnitStep A B) (hid : x.id = A.id) : x = .nonterminal A := by
  obtain ⟨C, ⟨hrule, -⟩, -⟩ := Relation.TransGen.head'_iff.1 h
  exact SymbolTable.eq_of_contains hx (hg.lhs _ hrule) hid

/-- Unit rules lead to nonterminals of the table. -/
theorem contains_of_unitSteps (hg : g.RulesContained) (h : Relation.TransGen g.UnitStep A B) :
    g.table.contains (.nonterminal B) = true := by
  obtain ⟨C, -, hrule, -⟩ := Relation.TransGen.tail'_iff.1 h
  exact hg.body _ hrule _ (List.mem_singleton.2 rfl)

end RulesContained

/-- A row has the IDs of the symbols that it is related to. -/
theorem mem_row_iff (hsize : r.size = g.table.size) : i ∈ r.row x.id ↔
    ∃ y, g.table.contains y = true ∧ y.id = i ∧ r.related (.symbol x) (.symbol y) = true := by
  have hrow (j : Nat) : r.relatedId x.id j = true ↔ j ∈ r.row x.id := decide_eq_true_iff
  constructor
  · intro hi
    have hlt : i < g.table.size := hsize ▸ (Relation.relatedId_iff.1 ((hrow i).2 hi)).2
    have hsym := SymbolTable.symbol?_eq_some hlt
    have hid := SymbolTable.id_of_symbol? hsym
    refine ⟨_, SymbolTable.contains_iff.2 (by rw [hid, hsym]), hid, ?_⟩
    rw [Relation.related, hid]
    exact (hrow i).2 hi
  · rintro ⟨y, -, rfl, hy⟩
    exact (hrow y.id).1 hy

/-- A cycle of unit rules that are no loops leads by way of another nonterminal. -/
theorem unitSteps_self_iff : Relation.TransGen g.UnitStep A A ↔
    ∃ B, B ≠ A ∧ Relation.TransGen g.UnitStep A B ∧ Relation.TransGen g.UnitStep B A := by
  constructor
  · intro h
    obtain ⟨B, hstep, hrest⟩ := Relation.TransGen.head'_iff.1 h
    have hne : A ≠ B := hstep.2
    refine ⟨B, hne.symm, .single hstep, ?_⟩
    exact (Relation.reflTransGen_iff_eq_or_transGen.1 hrest).resolve_left hne
  · rintro ⟨B, -, hAB, hBA⟩
    exact hAB.trans hBA

/--
The relations of a grammar have a row and a column for each symbol of the table. The one relates a
symbol to itself and to the symbols of the forms that it derives. The other one relates nonterminals
that a chain of unit rules connects, loops left out, and thus none to itself but on a longer cycle.
-/
theorem related_iff_derives (hg : g.RulesContained) :
    ∃ reach units, g.reachRelation = .ok reach ∧ g.unitRelation = .ok units ∧
      reach.size = g.table.size ∧ units.size = g.table.size ∧
      (∀ x y, g.table.contains x = true → g.table.contains y = true →
        (reach.related (.symbol x) (.symbol y) = true ↔
          y = x ∨ ∃ form, g.Derives [x] form ∧ y ∈ form)) ∧
      (∀ x y, g.table.contains x = true → g.table.contains y = true →
        (units.related (.symbol x) (.symbol y) = true ↔
          ∃ A B, x = .nonterminal A ∧ y = .nonterminal B ∧ Relation.TransGen g.UnitStep A B)) ∧
      (∀ A, units.relatedId A.id A.id = true ↔
        ∃ B, B ≠ A ∧ Relation.TransGen g.UnitStep A B ∧ Relation.TransGen g.UnitStep B A) ∧
      ∀ r ∈ [reach, units], ∀ x i, i ∈ r.row x.id ↔
        ∃ y, g.table.contains y = true ∧ y.id = i ∧ r.related (.symbol x) (.symbol y) = true := by
  obtain ⟨reach, hreach, hsize, hrelated⟩ := exists_reachRelation hg.below
  obtain ⟨units, hunits, hsize', hsteps⟩ := exists_unitRelation hg.below
  refine ⟨reach, units, hreach, hunits, hsize, hsize', ?_, ?_, ?_, ?_⟩
  · intro x y hx hy
    have hrow : reach.related (.symbol x) (.symbol y) = true ↔ g.Reaches x y :=
      (hrelated x.id y.id (SymbolTable.lt_size_of_contains hx)
        (SymbolTable.lt_size_of_contains hy)).trans (hg.directSteps_iff_reaches hx hy)
    rw [hrow, ← reaches_iff_exists_form]
    exact (or_iff_right_of_imp fun heq => heq ▸ .refl).symm
  · intro x y hx hy
    have hrow : units.related (.symbol x) (.symbol y) = true ↔
        Relation.TransGen g.UnitStep ⟨x.id⟩ ⟨y.id⟩ := hsteps ⟨x.id⟩ ⟨y.id⟩
    rw [hrow]
    constructor
    · intro h
      exact ⟨_, _, hg.eq_of_unitSteps hx h rfl,
        SymbolTable.eq_of_contains hy (hg.contains_of_unitSteps h) rfl, h⟩
    · rintro ⟨A, B, rfl, rfl, h⟩
      exact h
  · intro A
    rw [hsteps A A, unitSteps_self_iff]
  · intro r hr x i
    simp only [List.mem_cons, List.not_mem_nil, or_false] at hr
    rcases hr with rfl | rfl
    · exact mem_row_iff hsize
    · exact mem_row_iff hsize'

/--
No symbol is in use, and there is no start symbol. Unit rules lead from `X` to `Y` and back, and
from `Y` and `Z` to themselves.
-/
def knotted : Grammar where
  table :=
    { entries := [⟨"X", .nonterminal⟩, ⟨"Y", .nonterminal⟩, ⟨"Z", .nonterminal⟩, ⟨"b", .terminal⟩]
      nameSpace := {}
      position := 0
      nodup := by decide
      passed := fun _ h => absurd h (Nat.not_lt_zero _) }
  rules := OrderedSet.ofList
    [⟨⟨0⟩, [.nonterminal ⟨1⟩]⟩, ⟨⟨1⟩, [.nonterminal ⟨0⟩]⟩, ⟨⟨1⟩, [.nonterminal ⟨1⟩]⟩,
      ⟨⟨2⟩, [.nonterminal ⟨2⟩]⟩, ⟨⟨2⟩, [.terminal ⟨3⟩, .nonterminal ⟨0⟩]⟩]

/-- `X` is on a cycle, `Z` has nothing but a loop, and a form that `Z` derives has `Y`. -/
theorem knotted_related : knotted.RulesContained ∧ knotted.validate = .error .missingStart ∧
    ∃ reach units, knotted.reachRelation = .ok reach ∧ knotted.unitRelation = .ok units ∧
      units.relatedId 0 0 = true ∧ ¬ units.relatedId 2 2 = true ∧ reach.relatedId 2 2 = true ∧
      reach.relatedId 2 1 = true := by
  have hlhs : ∀ r ∈ knotted.rules.toList, knotted.table.contains (.nonterminal r.lhs) = true := by
    decide +kernel
  have hbody : ∀ r ∈ knotted.rules.toList, ∀ s ∈ r.body, knotted.table.contains s = true := by
    decide +kernel
  have hg : knotted.RulesContained := ⟨hlhs, hbody⟩
  have hX : knotted.UnitStep ⟨0⟩ ⟨1⟩ := ⟨by decide +kernel, by decide⟩
  have hY : knotted.UnitStep ⟨1⟩ ⟨0⟩ := ⟨by decide +kernel, by decide⟩
  have hZ : ∀ r ∈ knotted.rules.toList, r.lhs = ⟨2⟩ → r.unit? = none ∨ r.unit? = some ⟨2⟩ := by
    decide +kernel
  obtain ⟨reach, units, hreach, hunits, -, -, hforms, -, hcycle, -⟩ := related_iff_derives hg
  refine ⟨hg, rfl, reach, units, hreach, hunits, ?_, ?_, ?_, ?_⟩
  · exact (hcycle ⟨0⟩).2 ⟨⟨1⟩, by decide, .single hX, .single hY⟩
  · intro h
    obtain ⟨_, -, hchain, -⟩ := (hcycle ⟨2⟩).1 h
    obtain ⟨C, ⟨hrule, hne⟩, -⟩ := Relation.TransGen.head'_iff.1 hchain
    rcases hZ _ hrule rfl with hnone | hsome
    · cases hnone
    · exact hne (Option.some.inj hsome).symm
  · exact (hforms (.nonterminal ⟨2⟩) (.nonterminal ⟨2⟩) rfl rfl).2 (.inl rfl)
  · refine (hforms (.nonterminal ⟨2⟩) (.nonterminal ⟨1⟩) rfl rfl).2 (.inr ?_)
    have hrule : ⟨⟨2⟩, [.terminal ⟨3⟩, .nonterminal ⟨0⟩]⟩ ∈ knotted.rules := by decide +kernel
    exact ⟨[.terminal ⟨3⟩, .nonterminal ⟨1⟩],
      (Derives.of_rule hrule).trans (.single (.replace hX.1 [.terminal ⟨3⟩] [])),
      List.mem_cons_of_mem _ List.mem_cons_self⟩

end FormalLanguage.Grammar
