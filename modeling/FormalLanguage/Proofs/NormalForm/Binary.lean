import FormalLanguage.NormalForm.Binary
import FormalLanguage.Proofs.NormalForm.Abbreviation

/-!
Shortening bodies to two symbols. Main statements: no word is lost or new, bodies have at most two
symbols, and those with fewer are as they were.
-/
namespace FormalLanguage.Grammar

open Abbreviating

variable {g k : Grammar} {done : List Rule} {a b : Abbreviating (Symbol × Symbol)} {r : Rule}
  {s t : Symbol} {rest form : Body}

/-- The short form of a body expands to the body. -/
theorem shorten_spec (ha : Abbreviates pairBody g done a)
    (hform : ∀ x ∈ s :: t :: rest, a.result.uses x = true)
    (h : shorten s t rest a = .ok (form, b)) :
    Grows pairBody a b ∧ Abbreviates pairBody g done b ∧ (∀ x ∈ form, b.result.uses x = true) ∧
      form.flatMap (expand pairBody b.known) =
        (s :: t :: rest).flatMap (expand pairBody a.known) := by
  induction rest generalizing s t a with
  | nil =>
    cases h
    exact ⟨.refl pairBody _, ha, hform, rfl⟩
  | cons u rest ih =>
    rw [shorten, bind_eq_ok_iff] at h
    obtain ⟨⟨n, a'⟩, habbr, hshort⟩ := h
    simp only [List.forall_mem_cons] at hform
    obtain ⟨hs, ht, hu, hrest⟩ := hform
    have hpair : ∀ x ∈ pairBody (s, t), a.result.uses x = true := by simp [pairBody, hs, ht]
    obtain ⟨hgrows, ha', hmem⟩ := ha.abbreviate hpair habbr
    have hn : a'.result.uses (.nonterminal n) = true :=
      Vocabulary.uses_nonterminal.2 ((ha'.mem_nonterminals n).2 (.inr ⟨_, hmem, rfl⟩))
    obtain ⟨hgrows', hb, huses, heq⟩ := ih ha' (by
      simp only [List.forall_mem_cons]
      exact ⟨hn, hgrows.uses u hu, fun x hx => hgrows.uses x (hrest x hx)⟩) hshort
    refine ⟨hgrows.trans hgrows', hb, huses, heq.trans ?_⟩
    calc (.nonterminal n :: u :: rest).flatMap (expand pairBody a'.known)
        = (pairBody (s, t)).flatMap (expand pairBody a'.known) ++
            (u :: rest).flatMap (expand pairBody a'.known) := by
          rw [List.flatMap_cons, ha'.expand_known _ hmem]
      _ = (pairBody (s, t)).flatMap (expand pairBody a.known) ++
            (u :: rest).flatMap (expand pairBody a.known) := by
          rw [hgrows.flatMap_eq hpair, hgrows.flatMap_eq (by simpa using ⟨hu, hrest⟩)]
      _ = (s :: t :: u :: rest).flatMap (expand pairBody a.known) := by
          simp [pairBody]

theorem length_shorten (h : shorten s t rest a = .ok (form, b)) : form.length = 2 := by
  induction rest generalizing s t a with
  | nil =>
    cases h
    rfl
  | cons u rest ih =>
    rw [shorten, bind_eq_ok_iff] at h
    obtain ⟨⟨n, a'⟩, -, hshort⟩ := h
    exact ih hshort

/-- A short rule is added as it is, a longer one with its body shortened. -/
theorem shortenRule_cases (h : shortenRule a r = .ok b) :
    (r.body.length < 2 ∧ b = a.addRule r.lhs r.body) ∨
      ∃ s t rest form c, r.body = s :: t :: rest ∧ shorten s t rest a = .ok (form, c) ∧
        b = c.addRule r.lhs form := by
  unfold shortenRule at h
  split at h
  · next s t rest hbody =>
    rw [bind_eq_ok_iff] at h
    obtain ⟨⟨form, c⟩, hshort, hb⟩ := h
    cases hb
    exact .inr ⟨s, t, rest, form, c, hbody, hshort, rfl⟩
  · next hbody =>
    cases h
    refine .inl ⟨?_, rfl⟩
    match hcases : r.body with
    | [] | [_] => simp
    | s :: t :: rest => exact absurd hcases (hbody s t rest)

theorem shortenRule_spec (wf : g.WellFormed) (ha : Abbreviates pairBody g done a) (hr : r ∈ g.rules)
    (h : shortenRule a r = .ok b) : Abbreviates pairBody g (done ++ [r]) b := by
  have huses : ∀ x ∈ r.body, a.result.uses x = true :=
    fun x hx => ha.uses_of_uses (wf.uses_body hr hx)
  have hself := ha.flatMap_old fun x hx => wf.uses_body hr hx
  obtain ⟨-, rfl⟩ | ⟨s, t, rest, form, c, hbody, hshort, rfl⟩ := shortenRule_cases h
  · exact ha.addRule (wf.lhs_mem hr) huses hself
  · rw [hbody] at huses
    obtain ⟨-, hc, huses', heq⟩ := shorten_spec ha huses hshort
    exact hc.addRule (wf.lhs_mem hr) huses' (by rw [heq, ← hbody, hself])

/-- The result comes from shortening one rule after the other. -/
theorem exists_shortened (h : g.binarize = .ok k) :
    ∃ a, a.result = k ∧ g.rules.toList.foldlM shortenRule ⟨g.clearRules, []⟩ = .ok a := by
  simp only [binarize, bind_eq_ok_iff] at h
  obtain ⟨-, -, a, hfold, ha⟩ := h
  cases ha
  exact ⟨a, rfl, hfold⟩

theorem abbreviates_shortened (wf : g.WellFormed)
    (hfold : g.rules.toList.foldlM shortenRule ⟨g.clearRules, []⟩ = .ok a) :
    Abbreviates pairBody g g.rules.toList a := by
  exact foldlM_invariant (fun done r a b hr ha hab => shortenRule_spec wf ha hr hab)
    (Abbreviates.init wf) hfold

theorem preserves_binarize (wf : g.WellFormed) (h : g.binarize = .ok k) : g.Preserves k := by
  obtain ⟨a, rfl, hfold⟩ := exists_shortened h
  exact (abbreviates_shortened wf hfold).preserves wf

section Invariants

variable {P : Abbreviating (Symbol × Symbol) → Prop}

theorem keeps_shorten
    (hP : ∀ {a b key n}, P a → a.abbreviate pairBody key = .ok (n, b) → P b) (ha : P a)
    (h : shorten s t rest a = .ok (form, b)) : P b := by
  induction rest generalizing s t a with
  | nil =>
    cases h
    exact ha
  | cons u rest ih =>
    rw [shorten, bind_eq_ok_iff] at h
    obtain ⟨⟨n, a'⟩, habbr, hshort⟩ := h
    exact ih (hP ha habbr) hshort

theorem keeps_shortenRule (hP : Invariant pairBody P) (ha : P a) (h : shortenRule a r = .ok b) :
    P b := by
  obtain ⟨-, rfl⟩ | ⟨s, t, rest, form, c, -, hshort, rfl⟩ := shortenRule_cases h
  · exact hP.addRule ha r.lhs r.body
  · exact hP.addRule (keeps_shorten hP.abbreviate ha hshort) r.lhs form

theorem keeps_binarize (hP : Invariant pairBody P) (hstart : P ⟨g.clearRules, []⟩)
    (h : g.binarize = .ok k) : ∃ a, a.result = k ∧ P a := by
  obtain ⟨a, rfl, hfold⟩ := exists_shortened h
  exact ⟨a, rfl, foldlM_keeps (fun _ _ _ _ ha hab => keeps_shortenRule hP ha hab) hstart hfold⟩

end Invariants

theorem rule_of_shorten (h : shorten s t rest a = .ok (form, b)) (hr : r ∈ b.result.rules) :
    r ∈ a.result.rules ∨ r.body.length = 2 := by
  refine keeps_shorten (P := fun b => ∀ r ∈ b.result.rules, r ∈ a.result.rules ∨ r.body.length = 2)
    (fun ha habbr r hr => ?_) (fun r => .inl) h r hr
  rcases rule_of_abbreviate habbr hr with hr | hbody
  · exact ha r hr
  · exact .inr (by rw [hbody]; rfl)

/-- A short rule is one of the rules that were given. -/
def ShortOf (g : Grammar) (r : Rule) : Prop :=
  r.body.length = 2 ∨ r.body.length < 2 ∧ r ∈ g.rules

theorem shortOf_shortenRule {x : Rule} (hx : x ∈ g.rules) (h : shortenRule a x = .ok b)
    (ha : ∀ r ∈ a.result.rules, g.ShortOf r) : ∀ r ∈ b.result.rules, g.ShortOf r := by
  intro r hr
  obtain ⟨hless, rfl⟩ | ⟨s, t, rest, form, c, -, hshort, rfl⟩ := shortenRule_cases h
  · rcases OrderedSet.mem_insert.1 hr with rfl | hr
    · exact .inr ⟨hless, hx⟩
    · exact ha r hr
  · rcases OrderedSet.mem_insert.1 hr with rfl | hr
    · exact .inl (length_shorten hshort)
    · exact (rule_of_shorten hshort hr).elim (ha r) .inl

/-- Bodies have at most two symbols; with fewer than two, they are bodies that were given. -/
theorem shortOf_binarize (h : g.binarize = .ok k) : ∀ r ∈ k.rules, g.ShortOf r := by
  obtain ⟨a, rfl, hfold⟩ := exists_shortened h
  refine foldlM_keeps (P := fun a => ∀ r ∈ a.result.rules, g.ShortOf r)
    (fun x _ _ hx ha hab => shortOf_shortenRule hx hab ha) ?_ hfold
  exact fun r hr => absurd hr (OrderedSet.not_mem_empty r)

end FormalLanguage.Grammar
