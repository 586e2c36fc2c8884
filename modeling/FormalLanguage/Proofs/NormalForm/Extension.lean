import FormalLanguage.Proofs.NormalForm.Failure
import FormalLanguage.Proofs.SymbolTable.FreeNames
import FormalLanguage.Proofs.SymbolTable.Requests

/-!
What the passes leave of the symbols. Main statement: a pass never renames a symbol or takes it out of
the table, and what it brings in are nonterminals under names that were free, all of them in use.
-/
namespace FormalLanguage

universe u

namespace Grammar

variable {g h k : Grammar} {n : NonTerminal}

/-- The second table has the nonterminal, and the first one does not. -/
def NewIn (g h : Grammar) (n : NonTerminal) : Prop :=
  h.table.contains (.nonterminal n) = true ∧ ¬ g.table.contains (.nonterminal n) = true

/-- The table, the start symbol and the terminals are the same, and no nonterminal comes into use. -/
structure Narrows (g h : Grammar) : Prop where
  table : h.table = g.table
  start : h.start = g.start
  terminals : h.terminals = g.terminals
  nonterminals : ∀ n ∈ h.nonterminals, n ∈ g.nonterminals

namespace Narrows

theorem trans (hgh : g.Narrows h) (hhk : h.Narrows k) : g.Narrows k where
  table := hhk.table.trans hgh.table
  start := hhk.start.trans hgh.start
  terminals := hhk.terminals.trans hgh.terminals
  nonterminals n hn := hgh.nonterminals n (hhk.nonterminals n hn)

theorem of_vocabulary (hv : h.toVocabulary = g.toVocabulary) (hstart : h.start = g.start) :
    g.Narrows h where
  table := by rw [hv]
  start := hstart
  terminals := by rw [hv]
  nonterminals n hn := by rwa [hv] at hn

theorem of_restricted {keep : NonTerminal → Prop} {keepRule : Rule → Prop}
    (hr : g.Restricted h keep keepRule) : g.Narrows h where
  table := hr.table
  start := hr.start
  terminals := hr.terminals
  nonterminals n hn := ((hr.mem_nonterminals n).1 hn).1

end Narrows

/-- The table has entries of nonterminals added to it, under names that it did not have. -/
def TableGrows (g h : Grammar) : Prop :=
  ∃ names : List String, h.table.entries = g.table.entries ++ names.map (Entry.mk · .nonterminal) ∧
    ∀ name ∈ names, name ∉ g.table.names

/-- Besides the nonterminals in use those are that were added to the table. -/
structure Enlarges (g h : Grammar) : Prop where
  nameSpace : h.table.nameSpace = g.table.nameSpace
  entries : g.TableGrows h
  start : h.start = g.start
  terminals : h.terminals = g.terminals
  mem_nonterminals : ∀ n, n ∈ h.nonterminals ↔ n ∈ g.nonterminals ∨ g.NewIn h n

namespace TableGrows

theorem refl (g : Grammar) : g.TableGrows g := ⟨[], by simp, List.forall_mem_nil _⟩

theorem isPrefix (hgh : g.TableGrows h) : g.table.entries <+: h.table.entries := by
  obtain ⟨names, hentries, -⟩ := hgh
  exact ⟨_, hentries.symm⟩

/-- A symbol keeps its ID, its kind and its name. -/
theorem kept {s : Symbol} (hgh : g.TableGrows h) (hs : g.table.contains s = true) :
    h.table.contains s = true ∧ h.table.nameOf? s = g.table.nameOf? s :=
  SymbolTable.kept_of_isPrefix hgh.isPrefix hs

theorem trans (hgh : g.TableGrows h) (hhk : h.TableGrows k) : g.TableGrows k := by
  obtain ⟨names, hentries, hfree⟩ := hgh
  obtain ⟨more, hentries', hfree'⟩ := hhk
  refine ⟨names ++ more, by rw [hentries', hentries, List.append_assoc, List.map_append], ?_⟩
  intro name hname hold
  rcases List.mem_append.1 hname with hname | hname
  · exact hfree name hname hold
  · refine hfree' name hname ?_
    rw [SymbolTable.names, hentries, List.map_append]
    exact List.mem_append_left _ hold

end TableGrows

theorem newIn_trans (hgh : g.TableGrows h) (hhk : h.TableGrows k) :
    g.NewIn k n ↔ g.NewIn h n ∨ h.NewIn k n := by
  constructor
  · rintro ⟨hk, hg⟩
    by_cases hh : h.table.contains (.nonterminal n) = true
    · exact .inl ⟨hh, hg⟩
    · exact .inr ⟨hk, hh⟩
  · rintro (⟨hh, hg⟩ | ⟨hk, hh⟩)
    · exact ⟨(hhk.kept hh).1, hg⟩
    · exact ⟨hk, fun hg => hh (hgh.kept hg).1⟩

namespace Enlarges

theorem refl (g : Grammar) : g.Enlarges g where
  nameSpace := rfl
  entries := .refl g
  start := rfl
  terminals := rfl
  mem_nonterminals _ := (or_iff_left fun hnew => hnew.2 hnew.1).symm

theorem trans (hgh : g.Enlarges h) (hhk : h.Enlarges k) : g.Enlarges k where
  nameSpace := hhk.nameSpace.trans hgh.nameSpace
  entries := hgh.entries.trans hhk.entries
  start := hhk.start.trans hgh.start
  terminals := hhk.terminals.trans hgh.terminals
  mem_nonterminals n := by
    rw [hhk.mem_nonterminals, hgh.mem_nonterminals, newIn_trans hgh.entries hhk.entries, or_assoc]

/-- Rules do not matter. -/
theorem of_vocabulary (hgh : g.Enlarges h) (hv : k.toVocabulary = h.toVocabulary)
    (hstart : k.start = h.start) : g.Enlarges k := by
  obtain ⟨vocabulary, rules, start⟩ := k
  cases hv
  cases hstart
  exact ⟨hgh.nameSpace, hgh.entries, hgh.start, hgh.terminals, hgh.mem_nonterminals⟩

end Enlarges

theorem enlarges_of_fresh (hf : g.fresh = (.ok n, h)) : g.Enlarges h := by
  have hnew := freshened_of_fresh hf
  obtain ⟨name, hname, hspace, hentries⟩ := SymbolTable.exists_drawn (table_of_fresh hf)
  refine ⟨hspace, ⟨[name], hentries, ?_⟩, hnew.start, hnew.terminals, fun m => ?_⟩
  · rw [List.forall_mem_singleton]
    exact (SymbolTable.mem_freeNames_iff.1 hname).2
  · rw [hnew.mem_nonterminals, NewIn, hnew.contains_iff, or_comm]
    refine or_congr_right ⟨?_, ?_⟩
    · rintro rfl
      exact ⟨.inr rfl, hnew.not_contains⟩
    · rintro ⟨hold | heq, hnot⟩
      · exact absurd hold hnot
      · cases heq
        rfl

end Grammar

namespace Abbreviating

variable {κ : Type u} [DecidableEq κ]

theorem invariant_enlarges (body : κ → Body) (g : Grammar) :
    Invariant body fun a => g.Enlarges a.result where
  abbreviate := by
    intro a b key n ha h
    obtain ⟨-, rfl⟩ | ⟨result, -, hfresh, rfl⟩ := abbreviate_cases h
    · exact ha
    · exact (ha.trans (Grammar.enlarges_of_fresh hfresh)).of_vocabulary rfl rfl
  addRule ha n form := ha.of_vocabulary rfl rfl

end Abbreviating

namespace Grammar

variable {g h k : Grammar} {stage : Stage}

theorem enlarges_binarize (h : g.binarize = .ok k) : g.Enlarges k := by
  obtain ⟨a, rfl, ha⟩ := keeps_binarize (Abbreviating.invariant_enlarges pairBody g)
    ((Enlarges.refl g).of_vocabulary rfl rfl) h
  exact ha

theorem enlarges_eliminateMixedTerminals (h : g.eliminateMixedTerminals = .ok k) : g.Enlarges k := by
  obtain ⟨a, rfl, ha⟩ := keeps_eliminateMixedTerminals
    (Abbreviating.invariant_enlarges terminalBody g) ((Enlarges.refl g).of_vocabulary rfl rfl) h
  exact ha

/-- The stages of the pipeline that come before the two that draw fresh names. -/
def preparation : List Stage := Stage.pipeline.take 5

/-- Such a stage never fails, and brings in nothing. -/
theorem exists_narrows (wf : g.WellFormed) (hstage : stage ∈ preparation) :
    ∃ k, stage.run g = .ok k ∧ g.Narrows k := by
  cases stage with
  | epsilon =>
    obtain ⟨k, hk, hfreed⟩ := exists_eliminateEpsilon wf
    exact ⟨k, hk, .of_vocabulary hfreed.vocabulary hfreed.start⟩
  | unit =>
    obtain ⟨k, hk, hfreed⟩ := exists_eliminateUnit wf
    exact ⟨k, hk, .of_vocabulary hfreed.vocabulary hfreed.start⟩
  | unreachable =>
    obtain ⟨k, hk, hkept⟩ := exists_eliminateUnreachable wf
    exact ⟨k, hk, .of_restricted hkept⟩
  | nonGenerating =>
    obtain ⟨k, hk, hkept⟩ := exists_eliminateNonGenerating wf
    exact ⟨k, hk, .of_restricted hkept⟩
  | binary => exact absurd hstage (by decide)
  | mixedTerminals => exact absurd hstage (by decide)

theorem exists_narrows_stages {stages : List Stage} (wf : g.WellFormed)
    (hstages : ∀ stage ∈ stages, stage ∈ preparation) :
    ∃ k, stages.foldlM (fun g stage => stage.run g) g = .ok k ∧ k.WellFormed ∧ g.Narrows k := by
  induction stages generalizing g with
  | nil => exact ⟨g, rfl, wf, .of_vocabulary rfl rfl⟩
  | cons stage stages ih =>
    rw [List.forall_mem_cons] at hstages
    obtain ⟨next, hnext, hnarrow⟩ := exists_narrows wf hstages.1
    obtain ⟨k, hk, hwf, hnarrow'⟩ := ih (wellFormed_run wf hnext) hstages.2
    exact ⟨k, by rw [List.foldlM_cons, hnext]; exact hk, hwf, hnarrow.trans hnarrow'⟩

/-- The pipeline comes down to its last two stages. -/
theorem exists_preparation (wf : g.WellFormed) :
    ∃ h, preparation.foldlM (fun g stage => stage.run g) g = .ok h ∧ h.WellFormed ∧ g.Narrows h ∧
      g.toNormalForm = h.binarize >>= eliminateMixedTerminals := by
  have hall : ∀ stage ∈ preparation, stage ∈ preparation := fun _ hstage => hstage
  obtain ⟨h, hh, hwf, hnarrow⟩ := exists_narrows_stages wf hall
  refine ⟨h, hh, hwf, hnarrow, ?_⟩
  have hsplit : Stage.pipeline = preparation ++ [.binary, .mixedTerminals] := rfl
  rw [toNormalForm, wf.valid, hsplit]
  show (preparation ++ [Stage.binary, .mixedTerminals]).foldlM (fun g (stage : Stage) => stage.run g) g = _
  rw [List.foldlM_append, hh]
  show [Stage.binary, .mixedTerminals].foldlM (fun g (stage : Stage) => stage.run g) h = _
  simp only [List.foldlM_cons, List.foldlM_nil, bind_pure]
  rfl

/--
Every symbol keeps its ID, its name and its kind. Behind them the table has only nonterminals, under
names that were free, and all of these are in use; of the other nonterminals none comes into use. The
start symbol and the terminals are the same.
-/
structure Extends (g h : Grammar) : Prop where
  start : h.start = g.start
  terminals : h.terminals = g.terminals
  kept : ∀ s, g.table.contains s = true →
    h.table.contains s = true ∧ h.table.nameOf? s = g.table.nameOf? s
  entries : g.TableGrows h
  nonterminals : ∀ n ∈ h.nonterminals, n ∈ g.nonterminals ∨ g.NewIn h n
  new_mem : ∀ n, g.NewIn h n → n ∈ h.nonterminals

theorem Narrows.extends (hgh : g.Narrows h) (hhk : h.Enlarges k) : g.Extends k := by
  have hnew (n : NonTerminal) : h.NewIn k n ↔ g.NewIn k n := by rw [NewIn, hgh.table, NewIn]
  have hgrows : g.TableGrows k := by
    have hentries := hhk.entries
    rwa [TableGrows, hgh.table] at hentries
  refine ⟨hhk.start.trans hgh.start, hhk.terminals.trans hgh.terminals, fun s => hgrows.kept, hgrows,
    fun n hn => ?_, fun n hn => ?_⟩
  · rcases (hhk.mem_nonterminals n).1 hn with hold | hadded
    · exact .inl (hgh.nonterminals n hold)
    · exact .inr ((hnew n).1 hadded)
  · exact (hhk.mem_nonterminals n).2 (.inr ((hnew n).2 hn))

theorem extends_of_run (wf : g.WellFormed) (h : stage.run g = .ok k) :
    g.Extends k ∧ (stage ∈ preparation → k.table = g.table) := by
  have hsame : g.Narrows g := .of_vocabulary rfl rfl
  by_cases hstage : stage ∈ preparation
  · have hnarrow := of_exists_ok (exists_narrows wf hstage) h
    exact ⟨hnarrow.extends (.refl k), fun _ => hnarrow.table⟩
  · refine ⟨?_, fun hmem => absurd hmem hstage⟩
    cases stage with
    | binary => exact hsame.extends (enlarges_binarize h)
    | mixedTerminals => exact hsame.extends (enlarges_eliminateMixedTerminals h)
    | epsilon | unit | unreachable | nonGenerating => exact absurd (by decide) hstage

/--
A stage extends the grammar by fresh nonterminals at most, and so does the pipeline. The table is
the same after the stages that are about empty bodies, unit rules and useless nonterminals.
-/
theorem extends_of_stages (wf : g.WellFormed) :
    (∀ (stage : Stage) k, stage.run g = .ok k → g.Extends k) ∧
    (∀ stage ∈ [Stage.epsilon, .unit, .unreachable, .nonGenerating], ∀ k, stage.run g = .ok k →
      k.table = g.table) ∧
    ∀ k, g.toNormalForm = .ok k → g.Extends k := by
  have hprepares : ∀ stage ∈ [Stage.epsilon, .unit, .unreachable, .nonGenerating],
      stage ∈ preparation := by decide
  refine ⟨fun stage k hk => (extends_of_run wf hk).1, fun stage hstage k hk => ?_, fun k hk => ?_⟩
  · exact (extends_of_run wf hk).2 (hprepares stage hstage)
  · obtain ⟨h, -, -, hnarrow, heq⟩ := exists_preparation wf
    rw [heq, bind_eq_ok_iff] at hk
    obtain ⟨next, hnext, hk⟩ := hk
    exact hnarrow.extends ((enlarges_binarize hnext).trans (enlarges_eliminateMixedTerminals hk))

theorem balanced_extends : balanced.WellFormed ∧ ∃ k, balanced.toNormalForm = .ok k ∧
    balanced.Extends k ∧ k.table.names = balanced.table.names ++ ["0", "1", "2"] := by
  have wf : balanced.WellFormed := by decide +kernel
  obtain ⟨k, hk⟩ : ∃ k, balanced.toNormalForm = .ok k := exists_ok (by decide +kernel)
  have hnames : (balanced.toNormalForm.map fun k => k.table.names) =
      .ok (balanced.table.names ++ ["0", "1", "2"]) := by decide +kernel
  rw [hk] at hnames
  exact ⟨wf, k, hk, (extends_of_stages wf).2.2 k hk, Except.ok.inj hnames⟩

end Grammar

end FormalLanguage
