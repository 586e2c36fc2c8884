import FormalLanguage.Proofs.NormalForm.Extension
import FormalLanguage.Proofs.RightLinear.Construction

/-!
Symbols in use that the table never gave out. Main statements: no pass and no conversion looks up an
ID that is out of range as long as the IDs in use are in range, to which the check of a grammar does
not see, and a nonterminal that is out of range keeps a right-linear grammar from becoming an
automaton.
-/
namespace FormalLanguage.Grammar

variable {g h : Grammar} {s : Symbol} {n start : NonTerminal}

/-- The table gave out every ID in use, though maybe to a symbol of the other kind. -/
def InRange (g : Grammar) : Prop := ∀ s, g.uses s = true → s.id < g.table.size

namespace InRange

theorem of_narrows (hr : g.InRange) (hgh : g.Narrows h) : h.InRange := by
  intro s hs
  rw [hgh.table]
  apply hr
  cases s with
  | terminal a =>
    rw [Vocabulary.uses_terminal] at hs ⊢
    exact hgh.terminals ▸ hs
  | nonterminal n =>
    rw [Vocabulary.uses_nonterminal] at hs ⊢
    exact hgh.nonterminals n hs

/-- A fresh nonterminal has the next ID. -/
theorem of_fresh (hr : g.InRange) (hf : g.fresh = (.ok n, h)) : h.InRange := by
  have hnew := freshened_of_fresh hf
  obtain ⟨hid, name, -, hentries⟩ := SymbolTable.fresh_eq_ok (table_of_fresh hf)
  have hsize : h.table.size = g.table.size + 1 := by
    simp [SymbolTable.size, hentries]
  have hold (s : Symbol) (hs : g.uses s = true) : s.id < h.table.size := by
    have := hr s hs
    omega
  intro s hs
  cases s with
  | terminal a =>
    apply hold
    rw [Vocabulary.uses_terminal] at hs ⊢
    exact hnew.terminals ▸ hs
  | nonterminal m =>
    rcases (hnew.mem_nonterminals m).1 (Vocabulary.uses_nonterminal.1 hs) with rfl | hm
    · show m.id < h.table.size
      omega
    · exact hold _ (Vocabulary.uses_nonterminal.2 hm)

/-- The rules of a grammar that passes the check are over symbols in use. -/
theorem below (hr : g.InRange) (hv : g.validate = .ok ()) :
    ∀ rule ∈ g.rules, Below g.table.size rule := by
  intro rule hrule
  obtain ⟨_, -, -, hrules⟩ := validate_eq_ok_iff.1 hv
  obtain ⟨hlhs, hbody⟩ := hrules rule hrule
  exact ⟨hr _ (Vocabulary.uses_nonterminal.2 hlhs), fun s hs => hr s (hbody s hs)⟩

end InRange

theorem invariant_inRange {κ : Type} [DecidableEq κ] (body : κ → Body) :
    Abbreviating.Invariant body fun a => a.result.InRange where
  abbreviate := by
    intro a b key n ha h
    obtain ⟨-, rfl⟩ | ⟨result, -, hfresh, rfl⟩ := Abbreviating.abbreviate_cases h
    · exact ha
    · have hresult : result.InRange := ha.of_fresh hfresh
      exact hresult
  addRule ha _ _ := ha

section Stages

theorem endsIn_validate : EndsIn g.validate (fun _ => True) (· ≠ .outOfRange) where
  of_ok _ _ := trivial
  of_error e he := by
    rintro rfl
    unfold validate at he
    split at he
    · cases he
    · split at he
      · cases he
      · split at he <;> cases he

theorem endsIn_validStart :
    EndsIn g.validStart (fun start => start ∈ g.nonterminals ∧ g.validate = .ok ())
      (· ≠ .outOfRange) := by
  refine endsIn_validate.bind fun _ hv _ => ?_
  obtain ⟨start, hstart, hmem, -⟩ := validate_eq_ok_iff.1 hv
  rw [hstart]
  exact .ok ⟨hmem, hv⟩

theorem endsIn_of_failsForNames {α : Type} {x : Except GrammarError α} (hx : FailsForNames x) :
    EndsIn x (fun _ => True) (· ≠ .outOfRange) where
  of_ok _ _ := trivial
  of_error e he := by
    obtain ⟨capacity, rfl⟩ := hx e he
    exact GrammarError.noConfusion

/-- Every stage keeps the IDs in range, and looks up no other. -/
theorem endsIn_run (hr : g.InRange) (stage : Stage) :
    EndsIn (stage.run g) InRange (· ≠ .outOfRange) := by
  cases stage with
  | epsilon => exact endsIn_validStart.bind fun _ _ _ => .ok hr
  | unit =>
    refine endsIn_validate.bind fun _ hv _ => ?_
    obtain ⟨r, hrel, -⟩ := exists_relation exists_relateUnit (hr.below hv)
    rw [unitRelation, hrel]
    exact .ok hr
  | unreachable =>
    refine endsIn_validStart.bind fun _ _ hstart => ?_
    obtain ⟨r, hrel, -⟩ := exists_relation exists_relateBody (hr.below hstart.2)
    rw [reachRelation, directRelation, hrel]
    exact .ok (hr.of_narrows ⟨rfl, rfl, rfl, fun n hn => (OrderedSet.mem_filter.1 hn).1⟩)
  | nonGenerating =>
    refine endsIn_validStart.bind fun _ _ _ => ?_
    exact .ok (hr.of_narrows ⟨rfl, rfl, rfl, fun n hn => (OrderedSet.mem_filter.1 hn).1⟩)
  | binary =>
    have hends : EndsIn g.binarize (fun _ => True) (· ≠ .outOfRange) :=
      endsIn_validate.bind fun _ _ _ =>
        (endsIn_of_failsForNames (.foldlM failsForNames_shortenRule _ _)).bind
          fun _ _ _ => .ok trivial
    refine hends.imp fun k hk _ => ?_
    obtain ⟨a, rfl, ha⟩ := keeps_binarize (invariant_inRange pairBody) hr hk
    exact ha
  | mixedTerminals =>
    have hends : EndsIn g.eliminateMixedTerminals (fun _ => True) (· ≠ .outOfRange) :=
      endsIn_validate.bind fun _ _ _ =>
        (endsIn_of_failsForNames (.foldlM failsForNames_isolateRule _ _)).bind
          fun _ _ _ => .ok trivial
    refine hends.imp fun k hk _ => ?_
    obtain ⟨a, rfl, ha⟩ := keeps_eliminateMixedTerminals (invariant_inRange terminalBody) hr hk
    exact ha

theorem endsIn_toNormalForm (hr : g.InRange) : EndsIn g.toNormalForm InRange (· ≠ .outOfRange) :=
  endsIn_validate.bind fun _ _ _ =>
    @EndsIn.foldlM _ _ _ _ _ _ (fun _ k => k.InRange)
      (fun _ stage _ _ hk => endsIn_run hk stage) [] g hr

theorem endsIn_runStages (hr : g.InRange) (stages : List Stage) :
    EndsIn (g.runStages stages) (fun _ => True) (· ≠ .outOfRange) := by
  induction stages generalizing g with
  | nil => exact .ok trivial
  | cons stage stages ih =>
    refine (endsIn_run hr stage).bind fun next _ hnext => ?_
    exact (ih hnext).bind fun _ _ _ => .ok trivial

theorem endsIn_normalSteps (hr : g.InRange) :
    EndsIn g.normalSteps (fun _ => True) (· ≠ .outOfRange) :=
  endsIn_validate.bind fun _ _ _ => endsIn_runStages hr Stage.pipeline

end Stages

section Conversion

variable {s : Symbol} {start : NonTerminal} {order : List NonTerminal} {b : AutomatonBuilder}

theorem exists_nameText (hs : s.id < g.table.size) : ∃ name, g.nameText s = .ok name := by
  obtain ⟨name, hname⟩ := Option.isSome_iff_exists.1 (SymbolTable.nameOf?_isSome_iff.2 hs)
  exact ⟨name, by rw [nameText, hname]⟩

theorem nameText_eq_error (hs : g.table.size ≤ s.id) :
    g.nameText s = .error (.grammar .outOfRange) := by
  have hnone : g.table.nameOf? s = none := by
    rw [← Option.not_isSome_iff_eq_none, SymbolTable.nameOf?_isSome_iff]
    omega
  rw [nameText, hnone]

theorem endsIn_checkRightLinear (hrules : ∀ rule ∈ g.rules, Below g.table.size rule) :
    EndsIn g.checkRightLinear (fun _ => True) (· ≠ .grammar .outOfRange) := by
  unfold checkRightLinear
  split
  · exact .ok trivial
  · next r hfind =>
    have hbelow := hrules r (OrderedSet.mem_toList.1 (List.mem_of_find?_eq_some hfind))
    obtain ⟨lhs, hlhs⟩ := exists_nameText (s := .nonterminal r.lhs) hbelow.1
    obtain ⟨rhs, hrhs⟩ := exists_bodyText? hbelow.2
    rw [hlhs]
    refine EndsIn.bind (.ok trivial : EndsIn (.ok lhs) (fun _ => True) _) fun _ _ _ => ?_
    rw [Rule.marks, hrhs]
    refine ⟨by rintro _ ⟨⟩, ?_⟩
    rintro _ ⟨⟩
    exact ConversionError.noConfusion

/-- States take the names of their nonterminals, unless one of these is out of range and has none. -/
theorem addStates_cases (order : List NonTerminal) (b : AutomatonBuilder) :
    (∃ b', g.addStates order b = .ok b') ∧ (∀ n ∈ order, n.id < g.table.size) ∨
      g.addStates order b = .error (.grammar .outOfRange) ∧ ∃ n ∈ order, g.table.size ≤ n.id := by
  induction order generalizing b with
  | nil => exact .inl ⟨⟨b, rfl⟩, List.forall_mem_nil _⟩
  | cons n order ih =>
    rw [addStates, List.foldlM_cons]
    by_cases hn : n.id < g.table.size
    · obtain ⟨name, hname⟩ := exists_nameText (s := .nonterminal n) hn
      rw [hname]
      rcases ih (b.state name).2 with ⟨hok, horder⟩ | ⟨herror, k, hk, hsize⟩
      · exact .inl ⟨hok, List.forall_mem_cons.2 ⟨hn, horder⟩⟩
      · exact .inr ⟨herror, k, List.mem_cons_of_mem n hk, hsize⟩
    · have hsize : g.table.size ≤ n.id := Nat.le_of_not_lt hn
      rw [nameText_eq_error (s := .nonterminal n) hsize]
      exact .inr ⟨rfl, n, List.mem_cons_self, hsize⟩

/-- A builder has its own errors. -/
theorem endsIn_mapError_automaton {α : Type} (x : Except AutomatonError α) :
    EndsIn (x.mapError ConversionError.automaton) (fun _ => True) (· ≠ .grammar .outOfRange) where
  of_ok _ _ := trivial
  of_error e he := by
    cases x with
    | ok a => cases he
    | error e' =>
      cases he
      exact ConversionError.noConfusion

theorem endsIn_toAutomaton (hr : g.InRange) :
    EndsIn g.toAutomaton (fun _ => True) (· ≠ .grammar .outOfRange) := by
  have hvalid : EndsIn (g.validStart.mapError ConversionError.grammar)
      (fun start => start ∈ g.nonterminals ∧ g.validate = .ok ()) (· ≠ .grammar .outOfRange) := by
    refine endsIn_validStart.mapError fun e he => ?_
    rintro ⟨⟩
    exact he rfl
  refine hvalid.bind fun start _ hstart => ?_
  refine (endsIn_checkRightLinear (hr.below hstart.2)).bind fun _ _ _ => ?_
  obtain ⟨r, hrel, -⟩ := exists_relation exists_relateUnit (hr.below hstart.2)
  rw [unitRelation, hrel]
  have hdeclare : EndsIn (g.declareStates start) (fun _ => True) (· ≠ .grammar .outOfRange) := by
    refine (endsIn_mapError_automaton _).bind fun b _ _ => ?_
    rcases addStates_cases (g.stateOrder start) b with ⟨⟨b', hb'⟩, -⟩ | ⟨-, n, hn, hsize⟩
    · rw [hb']
      exact .ok trivial
    · have hid : n.id < g.table.size :=
        hr _ (Vocabulary.uses_nonterminal.2 ((mem_stateOrder hstart.1).1 hn))
      omega
  exact hdeclare.bind fun _ _ _ => endsIn_mapError_automaton _

/-- A cell past the last row is all that goes wrong. -/
theorem endsIn_relate (r : Relation) (i j : Nat) :
    EndsIn (r.relate i j) (fun _ => True) (· = .outOfRange) := by
  simp only [Relation.relate]
  split
  · exact .ok trivial
  · refine ⟨by rintro _ ⟨⟩, ?_⟩
    rintro _ ⟨⟩
    rfl

theorem unitRelation_cases :
    (∃ units, g.unitRelation = .ok units) ∨ g.unitRelation = .error .outOfRange := by
  have hstep (r : Relation) (rule : Rule) :
      EndsIn (r.relateUnit rule) (fun _ => True) (· = .outOfRange) := by
    unfold Relation.relateUnit
    split
    · split
      · exact .ok trivial
      · exact endsIn_relate r _ _
    · exact .ok trivial
  have hrelate : EndsIn (g.rules.toList.foldlM Relation.relateUnit g.emptyRelation)
      (fun _ => True) (· = .outOfRange) :=
    @EndsIn.foldlM _ _ _ _ _ _ (fun _ _ => True) (fun _ rule r _ _ => hstep r rule) [] _ trivial
  cases hr : g.rules.toList.foldlM Relation.relateUnit g.emptyRelation with
  | ok r => exact .inl ⟨r.transitiveClosure, by rw [unitRelation, hr]; rfl⟩
  | error e =>
    cases hrelate.of_error e hr
    exact .inr (by rw [unitRelation, hr]; rfl)

/-- A state takes the name of its nonterminal, and one that is out of range has none. -/
theorem toAutomaton_eq_outOfRange (hv : g.validate = .ok ())
    (hright : ∀ r ∈ g.rules, RightLinear r.body)
    (hletters : ∀ a ∈ g.terminals, g.table.contains (.terminal a) = true)
    (hn : n ∈ g.nonterminals) (hsize : g.table.size ≤ n.id) :
    g.toAutomaton = .error (.grammar .outOfRange) := by
  obtain ⟨start, hstart, hmem, -⟩ := validate_eq_ok_iff.1 hv
  rw [toAutomaton, validStart_of_valid hv hstart, checkRightLinear_eq_ok_iff.2 hright]
  rcases unitRelation_cases (g := g) with ⟨units, hunits⟩ | hunits
  · have hcontains : ∀ a ∈ g.terminals.toList, g.table.contains (.terminal a) = true :=
      fun a ha => hletters a (OrderedSet.mem_toList.1 ha)
    obtain ⟨b, hb, -⟩ := AutomatonBuilder.exists_addLetters (b := .empty g.table) hcontains
    have hdeclare : g.declareStates start = .error (.grammar .outOfRange) := by
      rw [declareStates, addLetters, hb]
      show (g.addStates (g.stateOrder start) b >>= _) = _
      rcases addStates_cases (g := g) (g.stateOrder start) b with ⟨-, horder⟩ | ⟨herror, -⟩
      · have hid := horder n ((mem_stateOrder hmem).2 hn)
        omega
      · rw [herror]
        rfl
    rw [hunits]
    show (g.declareStates start >>= _) = _
    rw [hdeclare]
    rfl
  · rw [hunits]
    rfl

end Conversion

/--
A grammar whose symbols in use are in range never has one looked up that is not. The check does not
see to it: a right-linear grammar over letters of the table that passes has a symbol looked up in
vain on the way to an automaton just if it has a nonterminal in use that is out of range.
-/
theorem outOfRange_of_valid (hv : g.validate = .ok ()) :
    (g.InRange → g.toNormalForm ≠ .error .outOfRange ∧ g.normalSteps ≠ .error .outOfRange ∧
      g.toAutomaton ≠ .error (.grammar .outOfRange)) ∧
    ((∀ r ∈ g.rules, RightLinear r.body) →
      (∀ a ∈ g.terminals, g.table.contains (.terminal a) = true) →
      (g.toAutomaton = .error (.grammar .outOfRange) ↔
        ∃ n ∈ g.nonterminals, g.table.size ≤ n.id)) := by
  constructor
  · intro hr
    refine ⟨fun h => ?_, fun h => ?_, fun h => ?_⟩
    · exact (endsIn_toNormalForm hr).of_error _ h rfl
    · exact (endsIn_normalSteps hr).of_error _ h rfl
    · exact (endsIn_toAutomaton hr).of_error _ h rfl
  · intro hright hletters
    constructor
    · intro h
      by_contra hnone
      have hr : g.InRange := by
        intro s hs
        cases s with
        | terminal a =>
          exact SymbolTable.lt_size_of_contains (hletters a (Vocabulary.uses_terminal.1 hs))
        | nonterminal n =>
          by_contra hn
          exact hnone ⟨n, Vocabulary.uses_nonterminal.1 hs, Nat.le_of_not_lt hn⟩
      exact (endsIn_toAutomaton hr).of_error _ h rfl
    · rintro ⟨n, hn, hsize⟩
      exact toAutomaton_eq_outOfRange hv hright hletters hn hsize

/-- The table has two symbols, and the nonterminal of ID 100 is in use. -/
def strayed : Grammar :=
  let named : Grammar :=
    { table :=
        { entries := [⟨"S", .nonterminal⟩, ⟨"a", .terminal⟩]
          nameSpace := {}
          position := 0
          nodup := by decide
          passed := fun _ h => absurd h (Nat.not_lt_zero _) } }
  let vocabulary := ((named.add (.nonterminal ⟨0⟩)).add (.terminal ⟨1⟩)).add (.nonterminal ⟨100⟩)
  ((vocabulary.setStart ⟨0⟩).addRule ⟨0⟩ [.terminal ⟨1⟩]).addRule ⟨0⟩ [.nonterminal ⟨100⟩]

theorem strayed_outOfRange : strayed.validate = .ok () ∧ ¬ strayed.InRange ∧
    strayed.toAutomaton = .error (.grammar .outOfRange) := by
  have hv : strayed.validate = .ok () := by decide +kernel
  have hright : ∀ r ∈ strayed.rules, RightLinear r.body := by
    rw [← checkRightLinear_eq_ok_iff]
    decide +kernel
  have hletters : ∀ a ∈ strayed.terminals, strayed.table.contains (.terminal a) = true := by
    decide +kernel
  have hstray : (⟨100⟩ : NonTerminal) ∈ strayed.nonterminals := by decide +kernel
  have hfails := ((outOfRange_of_valid hv).2 hright hletters).2 ⟨⟨100⟩, hstray, by decide +kernel⟩
  exact ⟨hv, fun hr => ((outOfRange_of_valid hv).1 hr).2.2 hfails, hfails⟩

/-- The check passes, and both conversions look up a symbol that is not there. -/
theorem strayed_valid : strayed.validate = .ok () ∧ strayed.toNormalForm = .error .outOfRange ∧
    strayed.toAutomaton = .error (.grammar .outOfRange) := by
  decide +kernel

end FormalLanguage.Grammar
