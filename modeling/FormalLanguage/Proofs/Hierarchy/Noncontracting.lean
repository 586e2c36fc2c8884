import Mathlib.Data.List.Chain
import FormalLanguage.Hierarchy.Derivation

/-!
Forms of a context-sensitive grammar. Main statement: along a derivation from the start symbol no
form is shorter than the one before it, unless the start symbol is erased at once.
-/
namespace FormalLanguage.PhraseGrammar

variable {g : PhraseGrammar} {form next last : Body} {r : PhraseRule} {n : NonTerminal}

/-- The rule that erases a nonterminal. -/
def erasure (n : NonTerminal) : PhraseRule := ⟨[.nonterminal n], []⟩

/-- No nonterminal that a rule erases stands in the form. -/
def Settled (g : PhraseGrammar) (form : Body) : Prop :=
  ∀ n, erasure n ∈ g.rules → .nonterminal n ∉ form

theorem lhs_ne_nil (hr : r ∈ g.rules) : r.lhs ≠ [] := by
  intro hnil
  have hlhs := g.lhs_nonterminal r hr
  simp [hnil] at hlhs

theorem lhs_of_single? (h : r.single? = some n) : r.lhs = [.nonterminal n] := by
  unfold PhraseRule.single? at h
  split at h
  · next hlhs =>
    cases h
    exact hlhs
  · cases h

theorem not_mem_rhs (hstart : g.start = some n) (hright : g.startOnRight = false)
    (hr : r ∈ g.rules) : .nonterminal n ∉ r.rhs := by
  intro hmem
  have hsome : g.startOnRight = true := by
    refine List.any_eq_true.2 ⟨r, hr, List.any_eq_true.2 ⟨_, hmem, ?_⟩⟩
    simp [Symbol.nonterminal?, hstart]
  simp [hright] at hsome

/-- A rule that shortens a form erases the start symbol, which then stands on no right-hand side. -/
theorem rule_cases (hg : g.isNonContracting = true) (hr : r ∈ g.rules) :
    r.lhs.length ≤ r.rhs.length ∨
      ∃ n, g.start = some n ∧ r = erasure n ∧ g.startOnRight = false := by
  have hrule := List.all_eq_true.1 hg r hr
  rw [Bool.or_eq_true, decide_eq_true_eq] at hrule
  rcases hrule with hlen | herase
  · exact .inl hlen
  · simp only [erasesStart, Bool.and_eq_true, Bool.not_eq_true', decide_eq_true_eq] at herase
    obtain ⟨⟨⟨hrhs, hright⟩, hsome⟩, heq⟩ := herase
    obtain ⟨n, hn⟩ := Option.isSome_iff_exists.1 hsome
    refine .inr ⟨n, heq ▸ hn, ?_, hright⟩
    obtain ⟨lhs, rhs⟩ := r
    rw [erasure, PhraseRule.mk.injEq]
    exact ⟨lhs_of_single? hn, List.isEmpty_iff.1 hrhs⟩

/-- Only the start symbol is erased, and no right-hand side brings it back. -/
theorem of_erasure (hg : g.isNonContracting = true) (h : erasure n ∈ g.rules) :
    g.start = some n ∧ g.startOnRight = false := by
  rcases rule_cases hg h with hlen | ⟨m, hstart, heq, hright⟩
  · simp [erasure] at hlen
  · simp only [erasure, PhraseRule.mk.injEq, List.cons.injEq, Symbol.nonterminal.injEq] at heq
    exact ⟨heq.1.1 ▸ hstart, hright⟩

theorem settled_rhs (hg : g.isNonContracting = true) (hr : r ∈ g.rules) : g.Settled r.rhs := by
  intro n herase
  obtain ⟨hstart, hright⟩ := of_erasure hg herase
  exact not_mem_rhs hstart hright hr

theorem settled_step (hg : g.isNonContracting = true) (hform : g.Settled form)
    (hstep : g.Step form next) : g.Settled next := by
  cases hstep with
  | replace hr before after =>
    intro n herase hmem
    have hold := hform n herase
    simp only [List.mem_append, not_or] at hold hmem
    rcases hmem with (hmem | hmem) | hmem
    · exact hold.1.1 hmem
    · exact settled_rhs hg hr n herase hmem
    · exact hold.2 hmem

theorem length_le_of_step (hg : g.isNonContracting = true) (hform : g.Settled form)
    (hstep : g.Step form next) : form.length ≤ next.length := by
  cases hstep with
  | replace hr before after =>
    rcases rule_cases hg hr with hlen | ⟨n, -, rfl, -⟩
    · simp only [List.length_append]
      omega
    · exact absurd (by simp [erasure]) (hform n hr)

theorem length_le_of_derives (hg : g.isNonContracting = true) (hform : g.Settled form)
    (h : g.Derives form last) : form.length ≤ last.length := by
  induction h with
  | refl => exact Nat.le_refl _
  | head first _ ih =>
    exact Nat.le_trans (length_le_of_step hg hform first) (ih (settled_step hg hform first))

theorem isChain_length_le (hg : g.isNonContracting = true) {forms : List Body}
    (hform : g.Settled form) (h : List.IsChain g.Step (form :: forms)) :
    List.IsChain (fun form next => form.length ≤ next.length) (form :: forms) := by
  induction forms generalizing form with
  | nil => exact .singleton _
  | cons next forms ih =>
    obtain ⟨hstep, hrest⟩ := List.isChain_cons_cons.1 h
    exact .cons_cons (length_le_of_step hg hform hstep) (ih (settled_step hg hform hstep) hrest)

/-- A nonterminal alone is replaced by the right-hand side of a rule for it. -/
theorem rule_of_step (h : g.Step [.nonterminal n] next) : ⟨[.nonterminal n], next⟩ ∈ g.rules := by
  generalize hform : [Symbol.nonterminal n] = form at h
  cases h with
  | @replace r hr before after =>
    have hlen := congrArg List.length hform
    have hlhs : 0 < r.lhs.length := List.length_pos_iff.2 (lhs_ne_nil hr)
    simp only [List.length_append, List.length_singleton] at hlen
    obtain rfl : before = [] := List.length_eq_zero_iff.1 (by omega)
    obtain rfl : after = [] := List.length_eq_zero_iff.1 (by omega)
    simpa using hr

theorem not_step_nil : ¬ g.Step [] next := by
  intro h
  generalize hform : ([] : Body) = form at h
  cases h with
  | replace hr before after =>
    simp only [List.nil_eq, List.append_eq_nil_iff] at hform
    exact lhs_ne_nil hr hform.1.2

theorem isNonContracting_of_level (h : g.level = .contextSensitive) : g.isNonContracting = true := by
  unfold level at h
  split at h
  · unfold Grammar.level at h
    split at h <;> cases h
  · by_contra hnot
    simp [hnot] at h

/--
In a context-sensitive grammar a derivation from a nonterminal erases it in its only step, which may
happen to the start symbol, or none of its forms is shorter than the one before. So the empty word is
derived just from a start symbol that a rule erases.
-/
theorem length_le_of_contextSensitive (h : g.level = .contextSensitive) (n : NonTerminal) :
    (∀ forms, List.IsChain g.Step ([.nonterminal n] :: forms) →
      (g.start = some n ∧ erasure n ∈ g.rules ∧ forms = [[]]) ∨
        List.IsChain (fun form next => form.length ≤ next.length) ([.nonterminal n] :: forms)) ∧
    (g.Derives [.nonterminal n] [] ↔ g.start = some n ∧ erasure n ∈ g.rules) := by
  have hg := isNonContracting_of_level h
  refine ⟨?_, ?_, ?_⟩
  · intro forms hchain
    match forms with
    | [] => exact .inr (.singleton _)
    | [] :: [] =>
      have herase := rule_of_step (List.isChain_cons_cons.1 hchain).1
      exact .inl ⟨(of_erasure hg herase).1, herase, rfl⟩
    | [] :: next :: forms =>
      obtain ⟨-, hrest⟩ := List.isChain_cons_cons.1 hchain
      exact absurd (List.isChain_cons_cons.1 hrest).1 not_step_nil
    | (s :: form) :: forms =>
      obtain ⟨hstep, hrest⟩ := List.isChain_cons_cons.1 hchain
      have hsettled := settled_rhs hg (rule_of_step hstep)
      exact .inr (.cons_cons (Nat.le_add_left 1 form.length) (isChain_length_le hg hsettled hrest))
  · intro hderives
    cases hderives with
    | head first rest =>
      have hrule := rule_of_step first
      have hlen := length_le_of_derives hg (settled_rhs hg hrule) rest
      obtain rfl := List.eq_nil_of_length_eq_zero (Nat.le_zero.1 hlen)
      exact ⟨(of_erasure hg hrule).1, hrule⟩
  · rintro ⟨-, herase⟩
    exact .head (Step.replace herase [] []) (.refl _)

/-- The words `aⁿbⁿcⁿ`, the empty one included. Terminals swap places with nonterminals. -/
def equalCounts : PhraseGrammar where
  table :=
    { entries := [⟨"S", .nonterminal⟩, ⟨"T", .nonterminal⟩, ⟨"B", .nonterminal⟩, ⟨"a", .terminal⟩,
        ⟨"b", .terminal⟩, ⟨"c", .terminal⟩]
      nameSpace := {}
      position := 0
      nodup := by decide
      passed := fun _ h => absurd h (Nat.not_lt_zero _) }
  nonterminals := OrderedSet.ofList [⟨0⟩, ⟨1⟩, ⟨2⟩]
  terminals := OrderedSet.ofList [⟨3⟩, ⟨4⟩, ⟨5⟩]
  rules := OrderedSet.ofList
    [erasure ⟨0⟩,
      ⟨[.nonterminal ⟨0⟩], [.nonterminal ⟨1⟩]⟩,
      ⟨[.nonterminal ⟨1⟩], [.terminal ⟨3⟩, .nonterminal ⟨1⟩, .nonterminal ⟨2⟩, .terminal ⟨5⟩]⟩,
      ⟨[.nonterminal ⟨1⟩], [.terminal ⟨3⟩, .terminal ⟨4⟩, .terminal ⟨5⟩]⟩,
      ⟨[.terminal ⟨5⟩, .nonterminal ⟨2⟩], [.nonterminal ⟨2⟩, .terminal ⟨5⟩]⟩,
      ⟨[.terminal ⟨4⟩, .nonterminal ⟨2⟩], [.terminal ⟨4⟩, .terminal ⟨4⟩]⟩]
  start := some ⟨0⟩
  lhs_nonterminal := by simp [erasure, Symbol.isNonTerminal, Symbol.nonterminal?]

theorem equalCounts_derives_nil : equalCounts.level = .contextSensitive ∧
    equalCounts.Derives [.nonterminal ⟨0⟩] [] ∧ ¬ equalCounts.Derives [.nonterminal ⟨1⟩] [] := by
  have hlevel : equalCounts.level = .contextSensitive := by decide +kernel
  have hstart := (length_le_of_contextSensitive hlevel ⟨0⟩).2
  have hother := (length_le_of_contextSensitive hlevel ⟨1⟩).2
  refine ⟨hlevel, hstart.2 (by decide +kernel), fun h => ?_⟩
  exact absurd (hother.1 h).1 (by decide)

end FormalLanguage.PhraseGrammar
