import FormalLanguage.NormalForm.Chomsky
import FormalLanguage.Proofs.NormalForm.Binary
import FormalLanguage.Proofs.NormalForm.Isolated
import FormalLanguage.Proofs.NormalForm.Unit
import FormalLanguage.Proofs.NormalForm.Useful

/-!
The Chomsky normal form. Main statements: no stage of the pipeline changes the language, and what
comes out at its end is in normal form, with an empty body just if the empty word is derived.
-/
namespace FormalLanguage.Grammar

variable {g h k : Grammar} {r : Rule} {stage : Stage} {stages : List Stage}
  {steps : List (Stage × Grammar)} {start : NonTerminal}

/-- Every stage keeps the language, the removal of unit rules after that of empty bodies. -/
theorem preserves_run (wf : g.WellFormed) (hunit : stage = .unit → g.OmissionClosed)
    (h : stage.run g = .ok k) : g.Preserves k := by
  cases stage with
  | epsilon => exact (of_exists_ok (exists_eliminateEpsilon wf) h).preserves wf
  | unit => exact (of_exists_ok (exists_eliminateUnit wf) h).preserves wf (hunit rfl)
  | unreachable => exact (of_exists_ok (exists_eliminateUnreachable wf) h).preserves wf
  | nonGenerating => exact (of_exists_ok (exists_eliminateNonGenerating wf) h).preserves wf
  | binary => exact preserves_binarize wf h
  | mixedTerminals => exact preserves_eliminateMixedTerminals wf h

theorem runStages_cons_iff : g.runStages (stage :: stages) = .ok steps ↔
    ∃ next rest, stage.run g = .ok next ∧ next.runStages stages = .ok rest ∧
      steps = (stage, next) :: rest := by
  simp only [runStages, bind_eq_ok_iff]
  constructor
  · rintro ⟨next, hnext, rest, hrest, hsteps⟩
    cases hsteps
    exact ⟨next, rest, hnext, hrest, rfl⟩
  · rintro ⟨next, rest, hnext, hrest, rfl⟩
    exact ⟨next, hnext, rest, hrest, rfl⟩

theorem preserves_runStages (wf : g.WellFormed) (hunit : Stage.unit ∉ stages)
    (h : g.runStages stages = .ok steps) : ∀ p ∈ steps, g.Preserves p.2 := by
  induction stages generalizing g steps with
  | nil =>
    cases h
    simp
  | cons stage stages ih =>
    obtain ⟨next, rest, hnext, hrest, rfl⟩ := runStages_cons_iff.1 h
    rw [List.mem_cons, not_or] at hunit
    have hpres := preserves_run wf (fun heq => absurd heq.symm hunit.1) hnext
    rw [List.forall_mem_cons]
    exact ⟨hpres, fun p hp => hpres.trans (ih hpres.wellFormed hunit.2 hrest p hp)⟩

/-- The stages in a row end in the grammar of the last one, or fail as the first that fails. -/
theorem foldlM_run (g : Grammar) (stages : List Stage) :
    stages.foldlM (fun g stage => stage.run g) g =
      (g.runStages stages).map fun steps => (steps.getLast?.map Prod.snd).getD g := by
  induction stages generalizing g with
  | nil => rfl
  | cons stage stages ih =>
    rw [List.foldlM_cons, runStages]
    cases stage.run g with
    | error e => rfl
    | ok next =>
      show stages.foldlM (fun g stage => stage.run g) next = _
      rw [ih]
      cases hrest : next.runStages stages with
      | error e => simp [bind, Except.bind, hrest, Except.map]
      | ok rest =>
        simp only [bind, Except.bind, hrest, Except.map, pure, Except.pure, List.getLast?_cons]
        cases rest.getLast? <;> rfl

theorem fst_runStages (h : g.runStages stages = .ok steps) : steps.map Prod.fst = stages := by
  induction stages generalizing g steps with
  | nil =>
    cases h
    rfl
  | cons stage stages ih =>
    obtain ⟨next, rest, -, hrest, rfl⟩ := runStages_cons_iff.1 h
    rw [List.map_cons, ih hrest]

theorem normalSteps_eq_ok_iff (wf : g.WellFormed) :
    g.normalSteps = .ok steps ↔ g.runStages Stage.pipeline = .ok steps := by
  rw [normalSteps, wf.valid]
  rfl

theorem toNormalForm_eq (wf : g.WellFormed) :
    g.toNormalForm = g.normalSteps.map fun steps => (steps.getLast?.map Prod.snd).getD g := by
  rw [toNormalForm, normalSteps, wf.valid]
  exact foldlM_run g Stage.pipeline

theorem preserves_normalSteps (wf : g.WellFormed) (h : g.normalSteps = .ok steps) :
    ∀ p ∈ steps, g.Preserves p.2 := by
  rw [normalSteps_eq_ok_iff wf] at h
  obtain ⟨h₁, rest₁, hepsilon, hrun₁, rfl⟩ := runStages_cons_iff.1 h
  obtain ⟨h₂, rest₂, hunit, hrun₂, rfl⟩ := runStages_cons_iff.1 hrun₁
  have hfreed := of_exists_ok (exists_eliminateEpsilon wf) hepsilon
  have hpres₁ := hfreed.preserves wf
  have hpres₂ := hpres₁.trans
    (preserves_run hpres₁.wellFormed (fun _ => hfreed.omissionClosed wf) hunit)
  have hrest := preserves_runStages hpres₂.wellFormed (by decide) hrun₂
  simp only [List.forall_mem_cons]
  exact ⟨hpres₁, hpres₂, fun p hp => hpres₂.trans (hrest p hp)⟩

/-- Only the start symbol has an empty body, and no body is a single nonterminal. -/
structure ProperRules (g : Grammar) : Prop where
  proper : ∀ r ∈ g.rules, Proper r.body
  start_of_empty : ∀ r ∈ g.rules, r.body = [] → g.start = some r.lhs

theorem UnitFreed.properRules (hu : g.UnitFreed h) (hg : g.OmissionClosed) : h.ProperRules where
  proper r hr := ((hu.mem_rules r).1 hr).1
  start_of_empty r hr hbody := by
    rcases ((hu.mem_rules r).1 hr).2 with hold | ⟨hne, -⟩
    · exact hu.start.trans (hg.start_of_empty r hold hbody)
    · exact absurd hbody hne

theorem Restricted.properRules {keep : NonTerminal → Prop} {keepRule : Rule → Prop}
    (hr : g.Restricted h keep keepRule) (hg : g.ProperRules) : h.ProperRules where
  proper r hmem := hg.proper r ((hr.mem_rules r).1 hmem).1
  start_of_empty r hmem hbody :=
    hr.start.trans (hg.start_of_empty r ((hr.mem_rules r).1 hmem).1 hbody)

/-- A single terminal, two nonterminals, or the empty body of the start symbol. -/
inductive NormalRule (start : Option NonTerminal) : Rule → Prop
  | terminal (n : NonTerminal) (t : Terminal) : NormalRule start ⟨n, [.terminal t]⟩
  | pair (n m k : NonTerminal) : NormalRule start ⟨n, [.nonterminal m, .nonterminal k]⟩
  | empty (n : NonTerminal) (h : start = some n) : NormalRule start ⟨n, []⟩

theorem normalRule_of_normalRule {s : Option NonTerminal} (h : NormalRule s r) :
    normalRule s r = true := by
  cases h with
  | terminal => rfl
  | pair => rfl
  | empty n h => simp [normalRule, h]

/-- Isolating the terminals of short proper bodies leads to the normal form. -/
theorem normalRule_of_isolatedOf (hg : g.ProperRules) (hh : ∀ r ∈ h.rules, g.ShortOf r)
    (hk : h.IsolatedOf r) : NormalRule g.start r := by
  obtain ⟨lhs, body⟩ := r
  rcases hk with ⟨t, rfl⟩ | ⟨hlen, hmem⟩ | ⟨hlen, hall, x, hx, hxlen⟩
  · exact .terminal lhs t
  · have hold : ⟨lhs, body⟩ ∈ g.rules := by
      rcases hh _ hmem with htwo | ⟨-, hold⟩
      · omega
      · exact hold
    match body with
    | [] => exact .empty lhs (hg.start_of_empty _ hold rfl)
    | [.terminal t] => exact .terminal lhs t
    | [.nonterminal n] => exact absurd rfl (hg.proper _ hold n)
  · have htwo : body.length = 2 := by
      rcases hh x hx with h | ⟨h, -⟩ <;> simp only at hlen hxlen <;> omega
    match body with
    | [.nonterminal m, .nonterminal n] => exact .pair lhs m n
    | [.terminal t, _] => simp [Symbol.isNonTerminal, Symbol.nonterminal?] at hall
    | [_, .terminal t] => simp [Symbol.isNonTerminal, Symbol.nonterminal?] at hall

/-- What the stages before the last two leave to be done: only the shape of long bodies is wrong. -/
structure Prepared (g h : Grammar) : Prop where
  preserves : g.Preserves h
  properRules : h.ProperRules
  trim : h.Trim

theorem exists_prepared (wf : g.WellFormed) (h : g.toNormalForm = .ok k) :
    ∃ h₅ h₆ : Grammar, g.Prepared h₅ ∧ h₅.binarize = .ok h₆ ∧
      h₆.eliminateMixedTerminals = .ok k := by
  rw [toNormalForm, wf.valid] at h
  simp only [Stage.pipeline, List.foldlM_cons, List.foldlM_nil, bind_eq_ok_iff] at h
  obtain ⟨_, -, h₁, hepsilon, h₂, hunit, h₃, hreach, h₄, hprod, h₅, hreach', h₆, hbin, k', hiso,
    hk⟩ := h
  cases hk
  -- One stage after the other: its specification, and with it that the language is kept.
  have hfreed := of_exists_ok (exists_eliminateEpsilon wf) hepsilon
  have hclosed := hfreed.omissionClosed wf
  have hpres₁ := hfreed.preserves wf
  have hunits := of_exists_ok (exists_eliminateUnit hpres₁.wellFormed) hunit
  have hpres₂ := hpres₁.trans (hunits.preserves hpres₁.wellFormed hclosed)
  have hreached := of_exists_ok (exists_eliminateUnreachable hpres₂.wellFormed) hreach
  have hpres₃ := hpres₂.trans (hreached.preserves hpres₂.wellFormed)
  have hkept := of_exists_ok (exists_eliminateNonGenerating hpres₃.wellFormed) hprod
  have hpres₄ := hpres₃.trans (hkept.preserves hpres₃.wellFormed)
  have hreached' := of_exists_ok (exists_eliminateUnreachable hpres₄.wellFormed) hreach'
  have hpres₅ := hpres₄.trans (hreached'.preserves hpres₄.wellFormed)
  have hproper₂ := hunits.properRules hclosed
  have hproper₃ := Restricted.properRules hreached hproper₂
  have hproper₄ := Restricted.properRules hkept hproper₃
  have hproper₅ := Restricted.properRules hreached' hproper₄
  exact ⟨h₅, h₆, ⟨hpres₅, hproper₅, hkept.trim hreached' hpres₃.wellFormed⟩, hbin, hiso⟩

/-- Before the last two stages the rules are proper, and the pipeline keeps the language. -/
theorem exists_properRules (wf : g.WellFormed) (h : g.toNormalForm = .ok k) :
    g.Preserves k ∧ ∃ h₅ h₆ : Grammar, h₅.ProperRules ∧ h₅.start = g.start ∧
      h₅.binarize = .ok h₆ ∧ h₆.eliminateMixedTerminals = .ok k := by
  obtain ⟨h₅, h₆, hprep, hbin, hiso⟩ := exists_prepared wf h
  have hpres₆ := hprep.preserves.trans (preserves_binarize hprep.preserves.wellFormed hbin)
  have hpres := hpres₆.trans (preserves_eliminateMixedTerminals hpres₆.wellFormed hiso)
  exact ⟨hpres, h₅, h₆, hprep.properRules, hprep.preserves.start, hbin, hiso⟩

/-- The start symbol of a grammar in normal form derives the empty word by its empty body only. -/
theorem start_empty_iff (hk : ∀ r ∈ k.rules, NormalRule k.start r) (hstart : k.start = some start) :
    ⟨start, []⟩ ∈ k.rules ↔ k.Yields [.nonterminal start] [] := by
  constructor
  · intro hr
    exact yields_nonterminal_iff.2 ⟨_, hr, rfl, .nil⟩
  · intro hw
    obtain ⟨⟨lhs, body⟩, hr, hbody⟩ := exists_empty_rule hw rfl (List.cons_ne_nil _ _)
    cases hbody
    have hlhs : k.start = some lhs := by
      cases hk _ hr with
      | empty _ h => exact h
    rw [hstart] at hlhs
    cases hlhs
    exact hr

/--
The pipeline keeps the language at every stage, and its last grammar is the one that is computed
without the steps.
-/
theorem normalSteps_keep_language (wf : g.WellFormed) :
    (∀ steps, g.normalSteps = .ok steps →
      steps.map Prod.fst = Stage.pipeline ∧
      (∀ p ∈ steps, p.2.validate = .ok () ∧ p.2.start = g.start ∧
        ∀ w, p.2.Generates w ↔ g.Generates w) ∧
      ∃ p, steps.getLast? = some p ∧ g.toNormalForm = .ok p.2) ∧
    ∀ e, g.toNormalForm = .error e ↔ g.normalSteps = .error e := by
  constructor
  · intro steps h
    have hstages := fst_runStages ((normalSteps_eq_ok_iff wf).1 h)
    refine ⟨hstages, ?_, ?_⟩
    · intro p hp
      have hpres := preserves_normalSteps wf h p hp
      exact ⟨hpres.wellFormed.valid, hpres.start, hpres.generates⟩
    · cases hlast : steps.getLast? with
      | none =>
        rw [List.getLast?_eq_none_iff.1 hlast] at hstages
        cases hstages
      | some p =>
        refine ⟨p, rfl, ?_⟩
        rw [toNormalForm_eq wf, h]
        simp [Except.map, hlast]
  · intro e
    rw [toNormalForm_eq wf]
    cases g.normalSteps with
    | error e' => simp [Except.map]
    | ok steps => simp [Except.map]

/-- Balanced words: the start symbol is nullable, stands within bodies and is its own unit. -/
def balanced : Grammar where
  table :=
    { entries := [⟨"S", .nonterminal⟩, ⟨"A", .nonterminal⟩, ⟨"a", .terminal⟩, ⟨"b", .terminal⟩]
      nameSpace := {}
      position := 0
      nodup := by decide
      passed := fun _ h => absurd h (Nat.not_lt_zero _) }
  terminals := OrderedSet.ofList [⟨2⟩, ⟨3⟩]
  nonterminals := OrderedSet.ofList [⟨0⟩, ⟨1⟩]
  rules := OrderedSet.ofList
    [⟨⟨0⟩, []⟩,
      ⟨⟨0⟩, [.terminal ⟨2⟩, .nonterminal ⟨0⟩, .terminal ⟨3⟩]⟩,
      ⟨⟨0⟩, [.nonterminal ⟨1⟩]⟩,
      ⟨⟨1⟩, [.nonterminal ⟨0⟩]⟩]
  start := some ⟨0⟩

theorem balanced_steps : balanced.WellFormed ∧ ∃ steps, balanced.normalSteps = .ok steps ∧
    steps.length = 7 ∧ ∀ p ∈ steps, ∀ w, p.2.Generates w ↔ balanced.Generates w := by
  have wf : balanced.WellFormed := by decide +kernel
  obtain ⟨steps, hsteps⟩ : ∃ steps, balanced.normalSteps = .ok steps :=
    exists_ok (by decide +kernel)
  obtain ⟨hstages, hkeep, -⟩ := (normalSteps_keep_language wf).1 steps hsteps
  refine ⟨wf, steps, hsteps, ?_, fun p hp => (hkeep p hp).2.2⟩
  rw [← List.length_map (f := Prod.fst), hstages]
  rfl

/--
What the pipeline ends in is in normal form, and the start symbol has the empty body just if the
empty word is derived.
-/
theorem normal_of_toNormalForm (wf : g.WellFormed) (h : g.toNormalForm = .ok k) :
    (∀ r ∈ k.rules, NormalRule k.start r) ∧ k.isNormalForm = true ∧
      (∃ start, g.start = some start ∧ k.start = some start ∧
        (⟨start, []⟩ ∈ k.rules ↔ g.Derives [.nonterminal start] [])) ∧
      k.validate = .ok () := by
  obtain ⟨hpres, h₅, h₆, hproper, hstart₅, hbin, hiso⟩ := exists_properRules wf h
  have hnormal : ∀ r ∈ k.rules, NormalRule k.start r := by
    intro r hr
    rw [hpres.start, ← hstart₅]
    exact normalRule_of_isolatedOf hproper (shortOf_binarize hbin)
      (isolatedOf_eliminateMixedTerminals hiso r hr)
  refine ⟨hnormal, ?_, ?_, hpres.wellFormed.valid⟩
  · rw [isNormalForm, List.all_eq_true]
    exact fun r hr => normalRule_of_normalRule (hnormal r hr)
  · obtain ⟨start, hstart, -⟩ := wf.exists_start
    have hk : k.start = some start := hpres.start.trans hstart
    refine ⟨start, hstart, hk, ?_⟩
    calc ⟨start, []⟩ ∈ k.rules ↔ k.Yields [.nonterminal start] [] := start_empty_iff hnormal hk
      _ ↔ k.Generates [] := (generates_iff_of_start hk).symm
      _ ↔ g.Generates [] := hpres.generates []
      _ ↔ g.Yields [.nonterminal start] [] := generates_iff_of_start hstart
      _ ↔ g.Derives [.nonterminal start] [] := derives_iff_yields.symm

theorem balanced_normal : balanced.WellFormed ∧ ∃ k, balanced.toNormalForm = .ok k ∧
    (∀ r ∈ k.rules, NormalRule k.start r) ∧ ⟨⟨0⟩, []⟩ ∈ k.rules := by
  have wf : balanced.WellFormed := by decide +kernel
  obtain ⟨k, hk⟩ : ∃ k, balanced.toNormalForm = .ok k := exists_ok (by decide +kernel)
  obtain ⟨hrules, -, ⟨start, hstart, -, hempty⟩, -⟩ := normal_of_toNormalForm wf hk
  cases hstart
  have hrule : ⟨⟨0⟩, []⟩ ∈ balanced.rules := by decide +kernel
  exact ⟨wf, k, hk, hrules, hempty.2 (Derives.of_rule hrule)⟩

end FormalLanguage.Grammar
