import FormalLanguage.Proofs.Hierarchy.Noncontracting
import FormalLanguage.Proofs.Hierarchy.Regular
import FormalLanguage.Proofs.Notation.Agreement

/-!
Levels of grammars that gain rules. Main statement: neither a grammar nor a phrase grammar is at a
higher level once a rule has been added to it.
-/
namespace FormalLanguage

open Notation

variable {l : Level} {P Q : Body → Prop}

/-- Bodies that are all right-linear, or all left-linear. -/
def Linear (P : Body → Prop) : Prop :=
  (∀ body, P body → isRightLinearBody body = true) ∨ ∀ body, P body → isLeftLinearBody body = true

theorem Linear.mono (hQ : Linear Q) (h : ∀ body, P body → Q body) : Linear P :=
  hQ.imp (fun hright body hbody => hright body (h body hbody))
    fun hleft body hbody => hleft body (h body hbody)

namespace Grammar

variable {g h : Grammar} {n : NonTerminal} {body : Body}

def HasBody (g : Grammar) (body : Body) : Prop := ∃ r ∈ g.rules, r.body = body

theorem linear_hasBody_iff : Linear g.HasBody ↔ g.level = .regular := by
  have hall (p : Body → Bool) :
      (∀ body, g.HasBody body → p body = true) ↔ ∀ r ∈ g.rules, p r.body = true := by
    constructor
    · intro h r hr
      exact h r.body ⟨r, hr, rfl⟩
    · rintro h _ ⟨r, hr, rfl⟩
      exact h r hr
  rw [level_eq_regular_iff, Linear, hall, hall]

/-- A grammar is context-free at least; only the highest level asks for more. -/
theorem le_level_iff : l ≤ g.level ↔ (l = .regular → Linear g.HasBody) := by
  rw [linear_hasBody_iff, level]
  split <;> cases l <;> decide

theorem level_le_of_subset (hrules : ∀ r ∈ g.rules, r ∈ h.rules) : h.level ≤ g.level := by
  refine le_level_iff.2 fun hregular => (le_level_iff.1 (Nat.le_refl _) hregular).mono ?_
  rintro _ ⟨r, hr, rfl⟩
  exact ⟨r, hrules r hr, rfl⟩

end Grammar

namespace PhraseGrammar

variable {g h k : PhraseGrammar} {lhs rhs : Body}

/-- Every left-hand side is a single nonterminal. -/
def SingleSides (g : PhraseGrammar) : Prop := ∀ r ∈ g.rules, ∃ n, r.lhs = [.nonterminal n]

def HasBody (g : PhraseGrammar) (body : Body) : Prop := ∃ r ∈ g.rules, r.rhs = body

section Levels

theorem exists_of_mapM {α β : Type} {f : α → Option β} {xs : List α} {ys : List β}
    (hys : xs.mapM f = some ys) : ∀ x ∈ xs, ∃ y, f x = some y := by
  induction xs generalizing ys with
  | nil => exact List.forall_mem_nil _
  | cons x xs ih =>
    simp only [List.mapM_cons, Option.bind_eq_bind, Option.bind_eq_some_iff] at hys
    obtain ⟨y, hy, ys, hys, -⟩ := hys
    rw [List.forall_mem_cons]
    exact ⟨⟨y, hy⟩, ih hys⟩

theorem singleSides_of_toContextFree? {c : Grammar} (hc : g.toContextFree? = some c) :
    g.SingleSides := by
  intro r hr
  obtain ⟨rules, hrules, -⟩ := Option.map_eq_some_iff.1 hc
  obtain ⟨x, hx⟩ := exists_of_mapM hrules r hr
  have hrule : ofRule x = r := contextFreeRule?_eq_some_iff.1 hx
  exact ⟨x.lhs, by rw [← hrule, ofRule]⟩

/-- With single nonterminals on the left, the level is that of a grammar with these rules. -/
theorem le_level_iff_of_singleSides (hg : g.SingleSides) :
    l ≤ g.level ↔ (l = .regular → Linear g.HasBody) := by
  obtain ⟨c, hc, -, -, hrules⟩ := exists_toContextFree hg
  have hbodies : c.HasBody = g.HasBody := by
    funext body
    refine propext ⟨?_, ?_⟩
    · rintro ⟨r, hr, rfl⟩
      exact ⟨ofRule r, (hrules _).1 ⟨r, hr, rfl⟩, rfl⟩
    · rintro ⟨_, hb, rfl⟩
      obtain ⟨r, hr, rfl⟩ := (hrules _).2 hb
      exact ⟨r, hr, rfl⟩
  have hlevel : g.level = c.level := by rw [level, hc]
  rw [hlevel, Grammar.le_level_iff, hbodies]

theorem level_of_not_singleSides (hg : ¬g.SingleSides) :
    g.level = if g.isNonContracting then .contextSensitive else .unrestricted := by
  have hnone : g.toContextFree? = none := by
    cases hc : g.toContextFree? with
    | none => rfl
    | some c => exact absurd (singleSides_of_toContextFree? hc) hg
  rw [level, hnone]

/-- What a phrase grammar has to meet for a level. -/
def Meets (g : PhraseGrammar) : Level → Prop
  | .unrestricted => True
  | .contextSensitive => g.SingleSides ∨ g.isNonContracting = true
  | .contextFree => g.SingleSides
  | .regular => g.SingleSides ∧ Linear g.HasBody

/-- The level is the highest of those that the grammar meets. -/
theorem le_level_iff : l ≤ g.level ↔ g.Meets l := by
  by_cases hg : g.SingleSides
  · rw [le_level_iff_of_singleSides hg]
    cases l <;> simp [Meets, hg]
  · rw [level_of_not_singleSides hg]
    cases hcontract : g.isNonContracting <;> cases l <;> simp [Meets, hg, hcontract] <;> decide

end Levels

section Growing

theorem startOnRight_eq_false {n : NonTerminal} (hstart : g.start = some n)
    (habsent : ∀ s ∈ g.rules, .nonterminal n ∉ s.rhs) : g.startOnRight = false := by
  refine List.any_eq_false.2 fun s hs hright => ?_
  obtain ⟨x, hx, hsame⟩ := List.any_eq_true.1 hright
  simp only [Bool.and_eq_true, decide_eq_true_eq, hstart] at hsame
  cases x with
  | terminal a => cases hsame.2
  | nonterminal m =>
    cases hsame.2
    exact habsent s hs hx

/-- No rule shortens a form but the erasure of a start symbol that stands on no right-hand side. -/
theorem isNonContracting_iff : g.isNonContracting = true ↔ ∀ r ∈ g.rules,
    r.lhs.length ≤ r.rhs.length ∨
      ∃ n, g.start = some n ∧ r = erasure n ∧ ∀ s ∈ g.rules, .nonterminal n ∉ s.rhs := by
  constructor
  · intro hg r hr
    rcases rule_cases hg hr with hlen | ⟨n, hstart, heq, hright⟩
    · exact .inl hlen
    · exact .inr ⟨n, hstart, heq, fun s hs => not_mem_rhs hstart hright hs⟩
  · intro hall
    refine List.all_eq_true.2 fun r hr => Bool.or_eq_true_iff.2 ?_
    rcases hall r hr with hlen | ⟨n, hstart, rfl, habsent⟩
    · exact .inl (decide_eq_true hlen)
    · have hright := startOnRight_eq_false hstart habsent
      exact .inr (by simp [erasesStart, erasure, PhraseRule.single?, hright, hstart])

/-- The rules of the one grammar are among those of the other, with the same start symbol. -/
structure Within (g h : PhraseGrammar) : Prop where
  rules : ∀ r ∈ g.rules, r ∈ h.rules
  start : g.start = h.start

theorem within_of_addRule (hh : g.addRule lhs rhs = .ok h) : g.Within h := by
  unfold addRule at hh
  split at hh
  · cases hh
    exact ⟨fun r hr => OrderedSet.mem_insert.2 (.inr hr), rfl⟩
  · cases hh

/-- A rule may mention the start symbol, so that its erasure counts from then on, never the converse. -/
theorem Within.isNonContracting (hgh : g.Within h) (hh : h.isNonContracting = true) :
    g.isNonContracting = true := by
  rw [isNonContracting_iff] at hh ⊢
  intro r hr
  refine (hh r (hgh.rules r hr)).imp_right ?_
  rintro ⟨n, hstart, heq, habsent⟩
  exact ⟨n, hgh.start.trans hstart, heq, fun s hs => habsent s (hgh.rules s hs)⟩

theorem Within.meets (hgh : g.Within h) (hh : h.Meets l) : g.Meets l := by
  have hsides (hsingle : h.SingleSides) : g.SingleSides :=
    fun r hr => hsingle r (hgh.rules r hr)
  have hbodies (body : Body) : g.HasBody body → h.HasBody body := by
    rintro ⟨r, hr, rfl⟩
    exact ⟨r, hgh.rules r hr, rfl⟩
  cases l with
  | unrestricted => trivial
  | contextSensitive => exact hh.imp hsides hgh.isNonContracting
  | contextFree => exact hsides hh
  | regular => exact ⟨hsides hh.1, hh.2.mono hbodies⟩

theorem Within.level_le (hgh : g.Within h) : h.level ≤ g.level :=
  le_level_iff.2 (hgh.meets (le_level_iff.1 (Nat.le_refl _)))

theorem within_of_foldlM {rules : List PhraseRule}
    (hh : rules.foldlM (fun k r => k.addRule r.lhs r.rhs) g = .ok h) : g.Within h := by
  refine foldlM_keeps (P := g.Within) (fun r k k' _ hk hk' => ?_) ⟨fun _ => id, rfl⟩ hh
  have hstep := within_of_addRule hk'
  exact ⟨fun r hr => hstep.rules r (hk.rules r hr), hk.start.trans hstep.start⟩

/-- Along any rules that are added one after the other, the level only falls. -/
theorem level_le_of_foldlM {rules : List PhraseRule}
    (hh : rules.foldlM (fun k r => k.addRule r.lhs r.rhs) g = .ok h) : h.level ≤ g.level :=
  (within_of_foldlM hh).level_le

end Growing

end PhraseGrammar

/--
A rule that is added never raises the level: not that of a phrase grammar, whatever rules it has and
whatever sides the rule has, and not that of a grammar.
-/
theorem level_le_of_addRule :
    (∀ (g h : PhraseGrammar) (lhs rhs : Body), g.addRule lhs rhs = .ok h → h.level ≤ g.level) ∧
    ∀ (g : Grammar) (n : NonTerminal) (body : Body), (g.addRule n body).level ≤ g.level := by
  constructor
  · intro g h lhs rhs hh
    exact (PhraseGrammar.within_of_addRule hh).level_le
  · intro g n body
    exact Grammar.level_le_of_subset fun r hr => OrderedSet.mem_insert.2 (.inr hr)

/-- A rule that brings the start symbol back: its erasure, which was there before, counts from then on. -/
theorem equalCounts_level_falls : ∃ h,
    PhraseGrammar.equalCounts.addRule [.nonterminal ⟨1⟩] [.nonterminal ⟨0⟩] = .ok h ∧
      PhraseGrammar.equalCounts.level = .contextSensitive ∧ h.level = .unrestricted ∧
      h.level ≤ PhraseGrammar.equalCounts.level := by
  obtain ⟨h, hh⟩ : ∃ h,
      PhraseGrammar.equalCounts.addRule [.nonterminal ⟨1⟩] [.nonterminal ⟨0⟩] = .ok h :=
    exists_ok (by decide +kernel)
  have hlevel : (PhraseGrammar.equalCounts.addRule [.nonterminal ⟨1⟩] [.nonterminal ⟨0⟩]).map
      PhraseGrammar.level = .ok .unrestricted := by decide +kernel
  rw [hh] at hlevel
  exact ⟨h, hh, by decide +kernel, Except.ok.inj hlevel, level_le_of_addRule.1 _ h _ _ hh⟩

end FormalLanguage
