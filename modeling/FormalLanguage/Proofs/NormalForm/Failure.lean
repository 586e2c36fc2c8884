import FormalLanguage.Proofs.NormalForm.Chomsky

/-!
Why a pass refuses a well-formed grammar. Main statement: no stage does, and no stages in a row do,
unless no fresh name is left.
-/
namespace FormalLanguage

universe u

/-- There is a result, unless no fresh name was left. -/
def FailsForNames {α : Type u} (x : Except GrammarError α) : Prop :=
  ∀ e, x = .error e → ∃ capacity, e = .naming (.namesExhausted capacity)

namespace FailsForNames

variable {α β : Type u}

theorem ok (a : α) : FailsForNames (.ok a) := nofun

theorem bind {x : Except GrammarError α} {f : α → Except GrammarError β} (hx : FailsForNames x)
    (hf : ∀ a, x = .ok a → FailsForNames (f a)) : FailsForNames (x >>= f) := by
  cases x with
  | error e =>
    rintro _ ⟨⟩
    exact hx e rfl
  | ok a => exact hf a rfl

theorem foldlM {f : β → α → Except GrammarError β} (step : ∀ b a, FailsForNames (f b a)) (b : β)
    (l : List α) : FailsForNames (l.foldlM f b) := by
  induction l generalizing b with
  | nil => exact ok b
  | cons a l ih =>
    rw [List.foldlM_cons]
    exact (step b a).bind fun b' _ => ih b'

end FailsForNames

namespace Grammar

variable {g k : Grammar} {stage : Stage} {body : Body}

theorem fresh_eq_error {e : NameError} (h : g.fresh = (.error e, k)) :
    e = .namesExhausted g.table.nameSpace.capacity :=
  SymbolTable.fresh_eq_error (table_of_fresh h)

theorem failsForNames_abbreviate {κ : Type} [DecidableEq κ] (body : κ → Body) (key : κ)
    (a : Abbreviating κ) : FailsForNames (a.abbreviate body key) := by
  rw [Abbreviating.abbreviate]
  split
  · exact .ok _
  · split
    · exact .ok _
    · next e result hfresh =>
      rintro _ ⟨⟩
      exact ⟨_, congrArg _ (fresh_eq_error hfresh)⟩

theorem failsForNames_shorten (s t : Symbol) (body : Body) (a : Abbreviating (Symbol × Symbol)) :
    FailsForNames (shorten s t body a) := by
  induction body generalizing s t a with
  | nil => exact .ok _
  | cons u rest ih => exact (failsForNames_abbreviate pairBody (s, t) a).bind fun _ _ => ih _ _ _

theorem failsForNames_shortenRule (a : Abbreviating (Symbol × Symbol)) (r : Rule) :
    FailsForNames (shortenRule a r) := by
  unfold shortenRule
  split
  · exact (failsForNames_shorten _ _ _ a).bind fun _ _ => .ok _
  · exact .ok _

theorem failsForNames_isolate (body : Body) (a : Abbreviating Terminal) :
    FailsForNames (isolate body a) := by
  induction body generalizing a with
  | nil => exact .ok _
  | cons s body ih =>
    cases s with
    | terminal t =>
      exact (failsForNames_abbreviate terminalBody t a).bind fun _ _ => (ih _).bind fun _ _ => .ok _
    | nonterminal n => exact (ih a).bind fun _ _ => .ok _

theorem failsForNames_isolateRule (a : Abbreviating Terminal) (r : Rule) :
    FailsForNames (isolateRule a r) := by
  unfold isolateRule
  split
  · exact .ok _
  · exact (failsForNames_isolate _ a).bind fun _ _ => .ok _

/-- A well-formed grammar comes out of every stage, unless no fresh name is left. -/
theorem failsForNames_run (wf : g.WellFormed) (stage : Stage) : FailsForNames (stage.run g) := by
  have hresult {P : Grammar → Prop} (h : ∃ k, stage.run g = .ok k ∧ P k) :
      FailsForNames (stage.run g) := by
    obtain ⟨k, hk, -⟩ := h
    exact hk ▸ .ok k
  cases stage with
  | epsilon => exact hresult (exists_eliminateEpsilon wf)
  | unit => exact hresult (exists_eliminateUnit wf)
  | unreachable => exact hresult (exists_eliminateUnreachable wf)
  | nonGenerating => exact hresult (exists_eliminateNonGenerating wf)
  | binary =>
    rw [Stage.run, binarize, wf.valid]
    exact (FailsForNames.foldlM failsForNames_shortenRule _ _).bind fun _ _ => .ok _
  | mixedTerminals =>
    rw [Stage.run, eliminateMixedTerminals, wf.valid]
    exact (FailsForNames.foldlM failsForNames_isolateRule _ _).bind fun _ _ => .ok _

theorem wellFormed_run (wf : g.WellFormed) (h : stage.run g = .ok k) : k.WellFormed := by
  by_cases hunit : stage = .unit
  · subst hunit
    exact (of_exists_ok (exists_eliminateUnit wf) h).wellFormed wf
  · exact (preserves_run wf (fun heq => absurd heq hunit) h).wellFormed

/-- Stages in any order, one after the other. -/
theorem failsForNames_stages (wf : g.WellFormed) (stages : List Stage) :
    FailsForNames (stages.foldlM (fun g stage => stage.run g) g) := by
  induction stages generalizing g with
  | nil => exact .ok g
  | cons stage stages ih =>
    rw [List.foldlM_cons]
    exact (failsForNames_run wf stage).bind fun _ hnext => ih (wellFormed_run wf hnext)

theorem failsForNames_toNormalForm (wf : g.WellFormed) : FailsForNames g.toNormalForm := by
  rw [toNormalForm, wf.valid]
  exact failsForNames_stages wf Stage.pipeline

end Grammar

end FormalLanguage
