import Mathlib.Logic.Relation
import FormalLanguage.Grammar.Derivation
import FormalLanguage.Grammar.Relation
import FormalLanguage.Proofs.Grammar.WellFormed

/-!
The relations between symbols and their closures. Main statements: the closure relates what chains
of related IDs connect, so that the two relations of a grammar say which symbols its bodies lead to
and where its unit rules lead.
-/
namespace FormalLanguage

universe u

namespace Relation

variable {r r' : Relation} {i j k n : Nat}

/-- The row of `i` has `j`, whether the size shows it or not. -/
def Has (r : Relation) (i j : Nat) : Prop := j ∈ r.rows[i]?.getD ∅

theorem relatedId_iff : r.relatedId i j = true ↔ r.Has i j ∧ j < r.size := by
  simp [relatedId, row, Has]

theorem lt_size_of_has (h : r.Has i j) : i < r.size := by
  by_contra hge
  rw [Has, List.getElem?_eq_none (Nat.le_of_not_lt hge)] at h
  exact OrderedSet.not_mem_empty j h

@[simp] theorem not_has_empty (size : Nat) : ¬ (empty size).Has i j := by
  intro h
  have hi : i < (List.replicate size (∅ : OrderedSet Nat)).length := lt_size_of_has h
  rw [List.length_replicate] at hi
  rw [Has, empty, List.getElem?_replicate_of_lt hi] at h
  exact OrderedSet.not_mem_empty j h

theorem le_width (r : Relation) : r.size ≤ r.width := by
  unfold width
  omega

/-- A relation that relates, besides what another one of the size does, what `E` says. -/
def Extended (r r' : Relation) (E : Nat → Nat → Prop) : Prop :=
  r'.size = r.size ∧ ∀ i j, r'.Has i j ↔ r.Has i j ∨ E i j

theorem exists_relate (hi : i < r.size) (hj : j < r.size) :
    ∃ r', r.relate i j = .ok r' ∧ r.Extended r' fun x y => x = i ∧ y = j := by
  have hw : j < r.width := Nat.lt_of_lt_of_le hj r.le_width
  have hrow : (i * r.width + j) / r.width = i := by
    rw [Nat.mul_comm, Nat.mul_add_div (by omega), Nat.div_eq_of_lt hw, Nat.add_zero]
  have hcol : (i * r.width + j) % r.width = j := by
    rw [Nat.mul_comm, Nat.mul_add_mod, Nat.mod_eq_of_lt hw]
  have hcell : i * r.width + j < r.size * r.width := by
    calc i * r.width + j < (i + 1) * r.width := by rw [Nat.succ_mul]; omega
      _ ≤ r.size * r.width := Nat.mul_le_mul_right _ hi
  refine ⟨⟨r.rows.modify i (·.insert j)⟩, ?_, by simp [size], ?_⟩
  · simp only [relate, hrow, hcol, hcell, if_true]
  · intro x y
    by_cases hx : x = i
    · subst x
      have hget : r.rows[i]? = some r.rows[i] := List.getElem?_eq_getElem hi
      simp [Has, hget, or_comm]
    · have hne : ¬ i = x := fun h => hx h.symm
      simp [Has, hne, hx]

/-- Adding to a relation for each member of a list adds what each of them says. -/
theorem exists_foldlM {α : Type u} {f : Relation → α → Except GrammarError Relation}
    {E : α → Nat → Nat → Prop} {size : Nat} {l : List α}
    (hf : ∀ r x, x ∈ l → r.size = size → ∃ r', f r x = .ok r' ∧ r.Extended r' (E x))
    (hr : r.size = size) :
    ∃ r', l.foldlM f r = .ok r' ∧ r.Extended r' fun i j => ∃ x ∈ l, E x i j := by
  induction l generalizing r with
  | nil => exact ⟨r, rfl, rfl, by simp⟩
  | cons x l ih =>
    obtain ⟨r₁, h₁, hsize₁, hhas₁⟩ := hf r x List.mem_cons_self hr
    obtain ⟨r₂, h₂, hsize₂, hhas₂⟩ :=
      ih (fun r y hy => hf r y (List.mem_cons_of_mem x hy)) (hsize₁.trans hr)
    refine ⟨r₂, ?_, hsize₂.trans hsize₁, ?_⟩
    · rw [List.foldlM_cons, h₁]
      exact h₂
    · intro i j
      rw [hhas₂, hhas₁, or_assoc]
      simp only [List.mem_cons, exists_eq_or_imp]

@[simp] theorem size_closeAt : (r.closeAt k).size = r.size := by
  simp [closeAt, size]

theorem has_closeAt : (r.closeAt k).Has i j ↔ r.Has i j ∨ r.Has i k ∧ r.Has k j := by
  by_cases hi : i < r.size
  · have hget : r.rows[i]? = some r.rows[i] := List.getElem?_eq_getElem hi
    simp only [Has, closeAt, List.getElem?_map, hget, Option.map_some, Option.getD_some]
    split
    · next hk => simp [hk]
    · next hk => simp [hk]
  · have hnone : r.rows[i]? = none := List.getElem?_eq_none (Nat.le_of_not_lt hi)
    simp [Has, closeAt, hnone]

/-- The relation closed at the IDs below `n`, one after the other. -/
def closedBelow (r : Relation) (n : Nat) : Relation := (List.range n).foldl closeAt r

theorem closedBelow_succ : r.closedBelow (n + 1) = (r.closedBelow n).closeAt n := by
  simp [closedBelow, List.range_succ]

@[simp] theorem size_closedBelow : (r.closedBelow n).size = r.size := by
  induction n with
  | zero => rfl
  | succ n ih => rw [closedBelow_succ, size_closeAt, ih]

theorem has_closedBelow_of_has (h : r.Has i j) : (r.closedBelow n).Has i j := by
  induction n with
  | zero => exact h
  | succ n ih =>
    rw [closedBelow_succ, has_closeAt]
    exact .inl ih

theorem transGen_of_closedBelow (h : (r.closedBelow n).Has i j) : Relation.TransGen r.Has i j := by
  induction n generalizing i j with
  | zero => exact .single h
  | succ n ih =>
    rw [closedBelow_succ, has_closeAt] at h
    rcases h with h | ⟨hi, hj⟩
    · exact ih h
    · exact (ih hi).trans (ih hj)

/-- After the IDs below `n`, chains by way of them are closed. -/
theorem closedBelow_trans (hk : k < n) (hi : (r.closedBelow n).Has i k)
    (hj : (r.closedBelow n).Has k j) : (r.closedBelow n).Has i j := by
  induction n generalizing i j k with
  | zero => omega
  | succ n ih =>
    rw [closedBelow_succ, has_closeAt] at hi hj ⊢
    by_cases hkn : k = n
    · subst k
      -- Closing at `n` adds nothing to the column and the row of `n`.
      have hin : (r.closedBelow n).Has i n := hi.elim id And.left
      have hnj : (r.closedBelow n).Has n j := hj.elim id And.right
      exact .inr ⟨hin, hnj⟩
    · have hlt : k < n := by omega
      rcases hi with hi | ⟨hin, hnk⟩
      · rcases hj with hj | ⟨hkn, hnj⟩
        · exact .inl (ih hlt hi hj)
        · exact .inr ⟨ih hlt hi hkn, hnj⟩
      · rcases hj with hj | ⟨_, hnj⟩
        · exact .inr ⟨hin, ih hlt hnk hj⟩
        · exact .inr ⟨hin, hnj⟩

/-- The closure of a relation relates what chains connect. -/
theorem has_transitiveClosure :
    r.transitiveClosure.Has i j ↔ Relation.TransGen r.Has i j := by
  constructor
  · exact transGen_of_closedBelow
  · intro h
    induction h with
    | single h => exact has_closedBelow_of_has h
    | tail _ hbc ih => exact closedBelow_trans (lt_size_of_has hbc) ih (has_closedBelow_of_has hbc)

@[simp] theorem size_transitiveClosure : r.transitiveClosure.size = r.size := size_closedBelow

@[simp] theorem size_reflexiveClosure : r.reflexiveClosure.size = r.size := by
  simp [reflexiveClosure, size]

theorem has_reflexiveClosure : r.reflexiveClosure.Has i j ↔ r.Has i j ∨ j = i ∧ i < r.size := by
  by_cases hi : i < r.size
  · have hget : r.rows[i]? = some r.rows[i] := List.getElem?_eq_getElem hi
    simp [Has, reflexiveClosure, hget, hi, or_comm]
  · have hnone : r.rows[i]? = none := List.getElem?_eq_none (Nat.le_of_not_lt hi)
    simp [Has, reflexiveClosure, hnone, hi]

end Relation

namespace Grammar

variable {g : Grammar} {A B : NonTerminal} {i j : Nat}

/-- A unit rule leads from one nonterminal to another. -/
def UnitStep (g : Grammar) (A B : NonTerminal) : Prop := ⟨A, [.nonterminal B]⟩ ∈ g.rules ∧ A ≠ B

/-- The rule is a unit rule between the nonterminals of these IDs, which differ. -/
def UnitRule (rule : Rule) (i j : Nat) : Prop := rule = ⟨⟨i⟩, [.nonterminal ⟨j⟩]⟩ ∧ i ≠ j

/-- The first ID is that of the left-hand side, the second one that of a symbol of the body. -/
def BodyRule (rule : Rule) (i j : Nat) : Prop := ∃ s ∈ rule.body, i = rule.lhs.id ∧ j = s.id

/-- The ID of a left-hand side, and that of a symbol of a body of it. -/
def DirectStep (g : Grammar) (i j : Nat) : Prop := ∃ rule ∈ g.rules, BodyRule rule i j

theorem unit?_eq_some_iff {r : Rule} : r.unit? = some A ↔ r.body = [.nonterminal A] := by
  unfold Rule.unit?
  split
  · next n h => simp [h]
  · next h =>
    simp only [reduceCtorEq, false_iff]
    exact h A

/-- What the end of a chain of unit rules yields, its beginning does. -/
theorem yields_of_unitSteps (hAB : Relation.ReflTransGen g.UnitStep A B) {w : Word}
    (hw : g.Yields [.nonterminal B] w) : g.Yields [.nonterminal A] w := by
  induction hAB using Relation.ReflTransGen.head_induction_on with
  | refl => exact hw
  | head hstep _ ih => exact yields_nonterminal_iff.2 ⟨_, hstep.1, rfl, ih⟩

theorem size_emptyRelation : g.emptyRelation.size = g.table.size := by
  simp [emptyRelation, Relation.empty, Relation.size]

/-- The IDs of the rule are below the number. -/
def Below (size : Nat) (rule : Rule) : Prop := rule.lhs.id < size ∧ ∀ s ∈ rule.body, s.id < size

theorem WellFormed.below (wf : g.WellFormed) : ∀ rule ∈ g.rules, Below g.table.size rule := by
  intro rule hrule
  exact ⟨wf.id_lt (wf.uses_lhs hrule), fun s hs => wf.id_lt (wf.uses_body hrule hs)⟩

theorem exists_relateUnit {r : Relation} {rule : Rule} (hrule : Below r.size rule) :
    ∃ r', r.relateUnit rule = .ok r' ∧ r.Extended r' (UnitRule rule) := by
  unfold Relation.relateUnit
  cases hunit : rule.unit? with
  | none =>
    refine ⟨r, rfl, rfl, fun i j => (or_iff_left ?_).symm⟩
    rintro ⟨rfl, -⟩
    cases hunit
  | some n =>
    have hbody := unit?_eq_some_iff.1 hunit
    by_cases hn : n = rule.lhs
    · refine ⟨r, by simp [hn], rfl, fun i j => (or_iff_left ?_).symm⟩
      rintro ⟨rfl, hne⟩
      cases hunit
      exact hne (congrArg NonTerminal.id hn).symm
    · have hid : n.id < r.size := hrule.2 (.nonterminal n) (by simp [hbody])
      obtain ⟨r', hr', hsize', hhas'⟩ := Relation.exists_relate hrule.1 hid
      refine ⟨r', by simpa [hn] using hr', hsize', ?_⟩
      intro i j
      rw [hhas']
      refine or_congr_right ⟨?_, ?_⟩
      · rintro ⟨rfl, rfl⟩
        refine ⟨by rw [← hbody], ?_⟩
        intro hid
        exact hn (congrArg NonTerminal.mk hid.symm)
      · rintro ⟨rfl, -⟩
        cases hunit
        exact ⟨rfl, rfl⟩

theorem source_mem_of_unitSteps (wf : g.WellFormed) (h : Relation.TransGen g.UnitStep A B) :
    A ∈ g.nonterminals := by
  obtain ⟨C, ⟨hrule, -⟩, -⟩ := Relation.TransGen.head'_iff.1 h
  exact wf.lhs_mem hrule

/-- Unit rules lead to nonterminals in use. -/
theorem target_mem_of_unitSteps (wf : g.WellFormed) (h : Relation.TransGen g.UnitStep A B) :
    B ∈ g.nonterminals := by
  obtain ⟨C, -, hrule, -⟩ := Relation.TransGen.tail'_iff.1 h
  exact Vocabulary.uses_nonterminal.1 (wf.uses_body hrule (List.mem_singleton.2 rfl))

/-- Rules over IDs of the table relate what they say. -/
theorem exists_relation {f : Relation → Rule → Except GrammarError Relation}
    {E : Rule → Nat → Nat → Prop}
    (hf : ∀ {r : Relation} {rule}, Below r.size rule → ∃ r', f r rule = .ok r' ∧ r.Extended r' (E rule))
    (hrules : ∀ rule ∈ g.rules, Below g.table.size rule) :
    ∃ r, g.rules.toList.foldlM f g.emptyRelation = .ok r ∧
      g.emptyRelation.Extended r fun i j => ∃ rule ∈ g.rules.toList, E rule i j := by
  apply Relation.exists_foldlM _ size_emptyRelation
  intro r rule hrule hsize
  exact hf (hsize ▸ hrules rule hrule)

theorem target_lt_of_unitSteps (hrules : ∀ rule ∈ g.rules, Below g.table.size rule)
    (h : Relation.TransGen g.UnitStep A B) : B.id < g.table.size := by
  obtain ⟨C, -, hrule, -⟩ := Relation.TransGen.tail'_iff.1 h
  exact (hrules _ hrule).2 (.nonterminal B) (List.mem_singleton.2 rfl)

/-- The unit relation relates the nonterminals that unit rules, loops left out, connect. -/
theorem exists_unitRelation (hrules : ∀ rule ∈ g.rules, Below g.table.size rule) :
    ∃ units, g.unitRelation = .ok units ∧ units.size = g.table.size ∧
      ∀ A B, units.relatedId A.id B.id = true ↔ Relation.TransGen g.UnitStep A B := by
  obtain ⟨r, hr, hsize, hhas⟩ := exists_relation exists_relateUnit hrules
  have hstep : ∀ i j, r.Has i j ↔ g.UnitStep ⟨i⟩ ⟨j⟩ := by
    intro i j
    rw [hhas]
    simp only [emptyRelation, Relation.not_has_empty, false_or, UnitStep, UnitRule,
      OrderedSet.mem_toList]
    constructor
    · rintro ⟨rule, hrule, rfl, hij⟩
      exact ⟨hrule, fun h => hij (congrArg NonTerminal.id h)⟩
    · rintro ⟨hrule, hij⟩
      exact ⟨_, hrule, rfl, fun h => hij (congrArg NonTerminal.mk h)⟩
  have hall : r.transitiveClosure.size = g.table.size := by
    rw [Relation.size_transitiveClosure, hsize, size_emptyRelation]
  refine ⟨r.transitiveClosure, by rw [unitRelation, hr]; rfl, hall, ?_⟩
  intro A B
  rw [Relation.relatedId_iff, Relation.has_transitiveClosure]
  constructor
  · rintro ⟨h, -⟩
    exact h.lift NonTerminal.mk fun i j hij => (hstep i j).1 hij
  · intro h
    exact ⟨h.lift NonTerminal.id fun A B hAB => (hstep A.id B.id).2 hAB,
      hall ▸ target_lt_of_unitSteps hrules h⟩

theorem exists_relateBody {r : Relation} {rule : Rule} (hrule : Below r.size rule) :
    ∃ r', r.relateBody rule = .ok r' ∧ r.Extended r' (BodyRule rule) := by
  apply Relation.exists_foldlM _ rfl
  intro r' s hs hsize
  exact Relation.exists_relate (hsize ▸ hrule.1) (hsize ▸ hrule.2 s hs)

/-- The reachability relation relates the IDs that chains of bodies connect. -/
theorem exists_reachRelation (hrules : ∀ rule ∈ g.rules, Below g.table.size rule) :
    ∃ reach, g.reachRelation = .ok reach ∧ reach.size = g.table.size ∧
      ∀ i j, i < g.table.size → j < g.table.size →
        (reach.relatedId i j = true ↔ Relation.ReflTransGen g.DirectStep i j) := by
  obtain ⟨r, hr, hsize, hhas⟩ := exists_relation exists_relateBody hrules
  have hstep : r.Has = g.DirectStep := by
    funext i j
    rw [hhas]
    simp [emptyRelation, DirectStep, OrderedSet.mem_toList]
  rw [size_emptyRelation] at hsize
  refine ⟨r.transitiveClosure.reflexiveClosure, by rw [reachRelation, directRelation, hr]; rfl, ?_, ?_⟩
  · rw [Relation.size_reflexiveClosure, Relation.size_transitiveClosure, hsize]
  · intro i j hi hj
    rw [← hsize] at hi hj
    rw [Relation.relatedId_iff, Relation.size_reflexiveClosure, Relation.size_transitiveClosure,
      and_iff_left hj, Relation.has_reflexiveClosure, Relation.has_transitiveClosure,
      Relation.size_transitiveClosure, and_iff_left hi, hstep,
      Relation.reflTransGen_iff_eq_or_transGen, or_comm]

end Grammar

end FormalLanguage
