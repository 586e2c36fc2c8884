import FormalLanguage.NormalForm.Isolated
import FormalLanguage.Proofs.NormalForm.Abbreviation

/-!
Moving terminals out of bodies of two or more symbols. Main statements: no word is lost or new, and
terminals stand alone in their bodies.
-/
namespace FormalLanguage.Grammar

open Abbreviating

variable {g k : Grammar} {done : List Rule} {a b : Abbreviating Terminal} {r : Rule}
  {s : Symbol} {body form : Body}

/-- The isolated form of a body expands to the body. -/
theorem isolate_spec (ha : Abbreviates terminalBody g done a)
    (hbody : ∀ x ∈ body, a.result.uses x = true) (h : isolate body a = .ok (form, b)) :
    Grows terminalBody a b ∧ Abbreviates terminalBody g done b ∧
      (∀ x ∈ form, b.result.uses x = true) ∧
      form.flatMap (expand terminalBody b.known) = body.flatMap (expand terminalBody a.known) := by
  induction body generalizing a form with
  | nil =>
    cases h
    exact ⟨.refl terminalBody _, ha, hbody, rfl⟩
  | cons s body ih =>
    rw [List.forall_mem_cons] at hbody
    obtain ⟨hs, hbody⟩ := hbody
    cases s with
    | terminal t =>
      simp only [isolate, bind_eq_ok_iff] at h
      obtain ⟨⟨n, a'⟩, habbr, ⟨rest, b'⟩, hrest, heq⟩ := h
      cases heq
      have hkey : ∀ x ∈ terminalBody t, a.result.uses x = true := by simpa [terminalBody] using hs
      obtain ⟨hgrows, ha', hmem⟩ := ha.abbreviate hkey habbr
      obtain ⟨hgrows', hb, huses, hflat⟩ := ih ha' (fun x hx => hgrows.uses x (hbody x hx)) hrest
      have hn : a'.result.uses (.nonterminal n) = true :=
        Vocabulary.uses_nonterminal.2 ((ha'.mem_nonterminals n).2 (.inr ⟨_, hmem, rfl⟩))
      have hexpand : expand terminalBody b'.known (.nonterminal n) = [.terminal t] := by
        rw [hgrows'.expand_eq _ hn, ha'.expand_known _ hmem]
        simp [terminalBody, expand_terminal]
      refine ⟨hgrows.trans hgrows', hb, ?_, ?_⟩
      · rw [List.forall_mem_cons]
        exact ⟨hgrows'.uses _ hn, huses⟩
      · rw [List.flatMap_cons, List.flatMap_cons, hexpand, hflat, hgrows.flatMap_eq hbody,
          expand_terminal]
    | nonterminal m =>
      simp only [isolate, bind_eq_ok_iff] at h
      obtain ⟨⟨rest, b'⟩, hrest, heq⟩ := h
      cases heq
      obtain ⟨hgrows, hb, huses, hflat⟩ := ih ha hbody hrest
      refine ⟨hgrows, hb, ?_, ?_⟩
      · rw [List.forall_mem_cons]
        exact ⟨hgrows.uses _ hs, huses⟩
      · rw [List.flatMap_cons, List.flatMap_cons, hflat, hgrows.expand_eq _ hs]

/-- A short rule is added as it is, a longer one with the terminals of its body isolated. -/
theorem isolateRule_cases (h : isolateRule a r = .ok b) :
    (r.body.length < 2 ∧ b = a.addRule r.lhs r.body) ∨
      ∃ form c, 2 ≤ r.body.length ∧ isolate r.body a = .ok (form, c) ∧
        b = c.addRule r.lhs form := by
  unfold isolateRule at h
  split at h
  · next hless =>
    cases h
    exact .inl ⟨hless, rfl⟩
  · next hlong =>
    rw [bind_eq_ok_iff] at h
    obtain ⟨⟨form, c⟩, hiso, hb⟩ := h
    cases hb
    exact .inr ⟨form, c, Nat.not_lt.1 hlong, hiso, rfl⟩

theorem isolateRule_spec (wf : g.WellFormed) (ha : Abbreviates terminalBody g done a)
    (hr : r ∈ g.rules) (h : isolateRule a r = .ok b) :
    Abbreviates terminalBody g (done ++ [r]) b := by
  have huses : ∀ x ∈ r.body, a.result.uses x = true :=
    fun x hx => ha.uses_of_uses (wf.uses_body hr hx)
  have hself := ha.flatMap_old fun x hx => wf.uses_body hr hx
  obtain ⟨-, rfl⟩ | ⟨form, c, -, hiso, rfl⟩ := isolateRule_cases h
  · exact ha.addRule (wf.lhs_mem hr) huses hself
  · obtain ⟨-, hc, huses', heq⟩ := isolate_spec ha huses hiso
    exact hc.addRule (wf.lhs_mem hr) huses' (heq.trans hself)

/-- The result comes from isolating the terminals of one rule after the other. -/
theorem exists_isolated (h : g.eliminateMixedTerminals = .ok k) :
    ∃ a, a.result = k ∧ g.rules.toList.foldlM isolateRule ⟨g.clearRules, []⟩ = .ok a := by
  simp only [eliminateMixedTerminals, bind_eq_ok_iff] at h
  obtain ⟨-, -, a, hfold, ha⟩ := h
  cases ha
  exact ⟨a, rfl, hfold⟩

theorem abbreviates_isolated (wf : g.WellFormed)
    (hfold : g.rules.toList.foldlM isolateRule ⟨g.clearRules, []⟩ = .ok a) :
    Abbreviates terminalBody g g.rules.toList a := by
  exact foldlM_invariant (fun done r a b hr ha hab => isolateRule_spec wf ha hr hab)
    (Abbreviates.init wf) hfold

theorem preserves_eliminateMixedTerminals (wf : g.WellFormed)
    (h : g.eliminateMixedTerminals = .ok k) : g.Preserves k := by
  obtain ⟨a, rfl, hfold⟩ := exists_isolated h
  exact (abbreviates_isolated wf hfold).preserves wf

section Invariants

variable {P : Abbreviating Terminal → Prop}

theorem keeps_isolate
    (hP : ∀ {a b key n}, P a → a.abbreviate terminalBody key = .ok (n, b) → P b) (ha : P a)
    (h : isolate body a = .ok (form, b)) : P b := by
  induction body generalizing a form with
  | nil =>
    cases h
    exact ha
  | cons s body ih =>
    cases s with
    | terminal t =>
      simp only [isolate, bind_eq_ok_iff] at h
      obtain ⟨⟨n, a'⟩, habbr, ⟨rest, b'⟩, hrest, heq⟩ := h
      cases heq
      exact ih (hP ha habbr) hrest
    | nonterminal m =>
      simp only [isolate, bind_eq_ok_iff] at h
      obtain ⟨⟨rest, b'⟩, hrest, heq⟩ := h
      cases heq
      exact ih ha hrest

theorem keeps_isolateRule (hP : Invariant terminalBody P) (ha : P a) (h : isolateRule a r = .ok b) :
    P b := by
  obtain ⟨-, rfl⟩ | ⟨form, c, -, hiso, rfl⟩ := isolateRule_cases h
  · exact hP.addRule ha r.lhs r.body
  · exact hP.addRule (keeps_isolate hP.abbreviate ha hiso) r.lhs form

theorem keeps_eliminateMixedTerminals (hP : Invariant terminalBody P)
    (hstart : P ⟨g.clearRules, []⟩) (h : g.eliminateMixedTerminals = .ok k) :
    ∃ a, a.result = k ∧ P a := by
  obtain ⟨a, rfl, hfold⟩ := exists_isolated h
  exact ⟨a, rfl, foldlM_keeps (fun _ _ _ _ ha hab => keeps_isolateRule hP ha hab) hstart hfold⟩

end Invariants

/-- A body of nonterminals only is as long as the body that it was made from. -/
theorem shape_isolate (h : isolate body a = .ok (form, b)) :
    form.length = body.length ∧ ∀ x ∈ form, x.isNonTerminal = true := by
  induction body generalizing a form with
  | nil =>
    cases h
    exact ⟨rfl, by simp⟩
  | cons s body ih =>
    cases s with
    | terminal t =>
      simp only [isolate, bind_eq_ok_iff] at h
      obtain ⟨⟨n, a'⟩, -, ⟨rest, b'⟩, hrest, heq⟩ := h
      cases heq
      obtain ⟨hlen, hall⟩ := ih hrest
      exact ⟨by simp [hlen], List.forall_mem_cons.2 ⟨rfl, hall⟩⟩
    | nonterminal m =>
      simp only [isolate, bind_eq_ok_iff] at h
      obtain ⟨⟨rest, b'⟩, hrest, heq⟩ := h
      cases heq
      obtain ⟨hlen, hall⟩ := ih hrest
      exact ⟨by simp [hlen], List.forall_mem_cons.2 ⟨rfl, hall⟩⟩

theorem rule_of_isolate (h : isolate body a = .ok (form, b)) (hr : r ∈ b.result.rules) :
    r ∈ a.result.rules ∨ ∃ t, r.body = [.terminal t] := by
  refine keeps_isolate
    (P := fun b => ∀ r ∈ b.result.rules, r ∈ a.result.rules ∨ ∃ t, r.body = [.terminal t])
    (fun ha habbr r hr => ?_) (fun r => .inl) h r hr
  rcases rule_of_abbreviate habbr hr with hr | hbody
  · exact ha r hr
  · exact .inr ⟨_, hbody⟩

/-- The rule is that of a terminal, or a short one that was given, or has no terminals at all. -/
def IsolatedOf (g : Grammar) (r : Rule) : Prop :=
  (∃ t, r.body = [.terminal t]) ∨ (r.body.length < 2 ∧ r ∈ g.rules) ∨
    2 ≤ r.body.length ∧ (∀ x ∈ r.body, x.isNonTerminal = true) ∧
      ∃ x ∈ g.rules, x.body.length = r.body.length

theorem isolatedOf_isolateRule {x : Rule} (hx : x ∈ g.rules) (h : isolateRule a x = .ok b)
    (ha : ∀ r ∈ a.result.rules, g.IsolatedOf r) : ∀ r ∈ b.result.rules, g.IsolatedOf r := by
  intro r hr
  obtain ⟨hless, rfl⟩ | ⟨form, c, hlong, hiso, rfl⟩ := isolateRule_cases h
  · rcases OrderedSet.mem_insert.1 hr with rfl | hr
    · exact .inr (.inl ⟨hless, hx⟩)
    · exact ha r hr
  · rcases OrderedSet.mem_insert.1 hr with rfl | hr
    · obtain ⟨hlen, hall⟩ := shape_isolate hiso
      exact .inr (.inr ⟨hlen ▸ hlong, hall, x, hx, hlen.symm⟩)
    · exact (rule_of_isolate hiso hr).elim (ha r) .inl

/-- Terminals stand alone in their bodies. -/
theorem isolatedOf_eliminateMixedTerminals (h : g.eliminateMixedTerminals = .ok k) :
    ∀ r ∈ k.rules, g.IsolatedOf r := by
  obtain ⟨a, rfl, hfold⟩ := exists_isolated h
  refine foldlM_keeps (P := fun a => ∀ r ∈ a.result.rules, g.IsolatedOf r)
    (fun x _ _ hx ha hab => isolatedOf_isolateRule hx hab ha) ?_ hfold
  exact fun r hr => absurd hr (OrderedSet.not_mem_empty r)

end FormalLanguage.Grammar
