import FormalLanguage.NormalForm.Useful
import FormalLanguage.Proofs.Grammar.Preservation
import FormalLanguage.Proofs.Grammar.Productive
import FormalLanguage.Proofs.Grammar.Relations

/-!
Removing nonterminals that no derivation of a word needs. Main statements: what is left out is
exactly the nonterminals that stand in no form of the start symbol, or that derive no word, the words
of the others are kept, and a second removal changes nothing. What is left when the unproductive ones
go first is trim.
-/
namespace FormalLanguage.Grammar

variable {g h k : Grammar} {r : Rule} {form : Body} {w : Word} {n start : NonTerminal}
  {keep : NonTerminal → Prop} {keepRule : Rule → Prop}

/-- The second grammar has those nonterminals and rules of the first one that are to be kept. -/
structure Restricted (g h : Grammar) (keep : NonTerminal → Prop) (keepRule : Rule → Prop) :
    Prop where
  table : h.table = g.table
  terminals : h.terminals = g.terminals
  start : h.start = g.start
  mem_nonterminals : ∀ n, n ∈ h.nonterminals ↔ n ∈ g.nonterminals ∧ keep n
  mem_rules : ∀ r, r ∈ h.rules ↔ r ∈ g.rules ∧ keepRule r

namespace Restricted

theorem uses_of_uses (hr : g.Restricted h keep keepRule) {s : Symbol} (hs : h.uses s = true) :
    g.uses s = true := by
  cases s with
  | terminal a =>
    rw [Vocabulary.uses_terminal, hr.terminals] at hs
    exact Vocabulary.uses_terminal.2 hs
  | nonterminal n =>
    rw [Vocabulary.uses_nonterminal, hr.mem_nonterminals] at hs
    exact Vocabulary.uses_nonterminal.2 hs.1

/-- The kept rules must be over kept symbols. -/
theorem wellFormed (hr : g.Restricted h keep keepRule) (wf : g.WellFormed)
    (hstart : ∀ start, g.start = some start → keep start)
    (hrule : ∀ r ∈ g.rules, keepRule r →
      keep r.lhs ∧ ∀ n, Symbol.nonterminal n ∈ r.body → keep n) : h.WellFormed := by
  obtain ⟨start, hs, hmem⟩ := wf.exists_start
  refine ⟨validate_eq_ok_iff.2 ⟨start, hr.start.trans hs, ?_, ?_⟩, ?_⟩
  · exact (hr.mem_nonterminals start).2 ⟨hmem, hstart start hs⟩
  · intro r hmem
    obtain ⟨hold, hkeep⟩ := (hr.mem_rules r).1 hmem
    obtain ⟨hlhs, hbody⟩ := hrule r hold hkeep
    refine ⟨(hr.mem_nonterminals r.lhs).2 ⟨wf.lhs_mem hold, hlhs⟩, ?_⟩
    intro s hs
    have huse := wf.uses_body hold hs
    cases s with
    | terminal a =>
      rw [Vocabulary.uses_terminal] at huse ⊢
      rwa [hr.terminals]
    | nonterminal n =>
      rw [Vocabulary.uses_nonterminal] at huse ⊢
      exact (hr.mem_nonterminals n).2 ⟨huse, hbody n hs⟩
  · intro s hs
    rw [hr.table]
    exact wf.contains s (hr.uses_of_uses hs)

/-- Nothing new is derived. -/
theorem yields_old (hr : g.Restricted h keep keepRule) (hw : h.Yields form w) : g.Yields form w :=
  hw.mono fun r hmem => ((hr.mem_rules r).1 hmem).1

/-- What is to be kept may be told in another way. -/
theorem congr (hr : g.Restricted h keep keepRule) {keep' : NonTerminal → Prop}
    {keepRule' : Rule → Prop} (hkeep : ∀ n ∈ g.nonterminals, (keep n ↔ keep' n))
    (hrule : ∀ r ∈ g.rules, (keepRule r ↔ keepRule' r)) : g.Restricted h keep' keepRule' where
  table := hr.table
  terminals := hr.terminals
  start := hr.start
  mem_nonterminals n := (hr.mem_nonterminals n).trans (and_congr_right (hkeep n))
  mem_rules r := (hr.mem_rules r).trans (and_congr_right (hrule r))

/-- If all is to be kept, nothing changes. -/
theorem eq_self (hr : g.Restricted h keep keepRule) (hkeep : ∀ n ∈ g.nonterminals, keep n)
    (hrule : ∀ r ∈ g.rules, keepRule r) : h = g := by
  have hnonterminals : h.nonterminals = g.nonterminals :=
    OrderedSet.ext fun n => (hr.mem_nonterminals n).trans (and_iff_left_of_imp (hkeep n))
  have hvocabulary : h.toVocabulary = g.toVocabulary := by
    rw [Vocabulary.mk.injEq]
    exact ⟨hr.table, hnonterminals, hr.terminals⟩
  exact eq_of_mem_rules hvocabulary hr.start fun r =>
    (hr.mem_rules r).trans (and_iff_left_of_imp (hrule r))

end Restricted

/-- The ID of a symbol that chains of bodies lead to from the start symbol. -/
def Reachable (g : Grammar) (id : Nat) : Prop :=
  ∃ start, g.start = some start ∧ Relation.ReflTransGen g.DirectStep start.id id

theorem reachable_start (hstart : g.start = some start) : g.Reachable start.id :=
  ⟨start, hstart, .refl⟩

theorem Reachable.body (hlhs : g.Reachable r.lhs.id) (hr : r ∈ g.rules) {s : Symbol}
    (hs : s ∈ r.body) : g.Reachable s.id := by
  obtain ⟨start, hstart, hreach⟩ := hlhs
  exact ⟨start, hstart, hreach.tail ⟨r, hr, s, hs, rfl, rfl⟩⟩

/-- A symbol in use is led to by chains of bodies just if its ID is. -/
theorem reachable_iff_reaches (wf : g.WellFormed) {x : Symbol} (huse : g.uses x = true) :
    g.Reachable x.id ↔ ∃ start, g.start = some start ∧ g.Reaches (.nonterminal start) x := by
  refine exists_congr fun start => and_congr_right fun hstart => ?_
  have hmem := Vocabulary.uses_nonterminal.2 (wf.start_mem hstart)
  exact wf.rulesContained.directSteps_iff_reaches (wf.contains _ hmem) (wf.contains x huse)

/-- The nonterminal stands in a form that the start symbol derives. -/
def Accessible (g : Grammar) (n : NonTerminal) : Prop :=
  ∃ start, g.start = some start ∧
    ∃ form, g.Derives [.nonterminal start] form ∧ .nonterminal n ∈ form

theorem reachable_iff_accessible (wf : g.WellFormed) (hn : n ∈ g.nonterminals) :
    g.Reachable n.id ↔ g.Accessible n := by
  have hiff : g.Reachable n.id ↔ _ := reachable_iff_reaches wf (Vocabulary.uses_nonterminal.2 hn)
  rw [hiff]
  simp only [Accessible, reaches_iff_exists_form]

/-- Leaves out what the start symbol does not reach. -/
def ReachableKept (g h : Grammar) : Prop :=
  g.Restricted h (fun n => g.Reachable n.id) fun r => g.Reachable r.lhs.id

theorem exists_eliminateUnreachable (wf : g.WellFormed) :
    ∃ h, g.eliminateUnreachable = .ok h ∧ g.ReachableKept h := by
  obtain ⟨start, hstart, hmem⟩ := wf.exists_start
  obtain ⟨reach, hok, -, hreach⟩ := exists_reachRelation wf.below
  have hlt : start.id < g.table.size := wf.id_lt (Vocabulary.uses_nonterminal.2 hmem)
  have hrelated : ∀ n ∈ g.nonterminals,
      (reach.relatedId start.id n.id = true ↔ g.Reachable n.id) := by
    intro n hn
    rw [hreach start.id n.id hlt (wf.id_lt (Vocabulary.uses_nonterminal.2 hn))]
    simp [Reachable, hstart]
  rw [eliminateUnreachable, wf.validStart_eq hstart, hok]
  refine ⟨_, rfl, rfl, rfl, rfl, ?_, ?_⟩
  · intro n
    rw [OrderedSet.mem_filter]
    exact and_congr_right (hrelated n)
  · intro r
    rw [OrderedSet.mem_filter]
    exact and_congr_right fun hr => hrelated r.lhs (wf.lhs_mem hr)

namespace ReachableKept

theorem wellFormed (hr : g.ReachableKept h) (wf : g.WellFormed) : h.WellFormed :=
  Restricted.wellFormed hr wf (fun _ => reachable_start) fun _ hmem hlhs =>
    ⟨hlhs, fun _ hn => hlhs.body hmem hn⟩

/-- What is reachable keeps its words. -/
theorem yields_new (hr : g.ReachableKept h) (hw : g.Yields form w)
    (hform : ∀ s ∈ form, g.Reachable s.id) : h.Yields form w :=
  hw.of_kept (fun r hmem hlhs _ _ =>
    ⟨(hr.mem_rules r).2 ⟨hmem, hlhs⟩, fun _ hs => hlhs.body hmem hs⟩) hform

theorem yields_iff (hr : g.ReachableKept h) (hn : g.Reachable n.id) :
    h.Yields [.nonterminal n] w ↔ g.Yields [.nonterminal n] w := by
  refine ⟨Restricted.yields_old hr, fun hw => hr.yields_new hw fun s hs => ?_⟩
  rwa [List.mem_singleton.1 hs]

theorem preserves (hr : g.ReachableKept h) (wf : g.WellFormed) : g.Preserves h where
  wellFormed := hr.wellFormed wf
  start := hr.start
  generates _ := generates_congr hr.start fun _ hstart => hr.yields_iff (reachable_start hstart)

/-- The chains from the start symbol are kept. -/
theorem reaches_new (hr : g.ReachableKept h) (wf : g.WellFormed) (hstart : g.start = some start)
    {x : Symbol} (hx : g.Reaches (.nonterminal start) x) : h.Reaches (.nonterminal start) x := by
  induction hx with
  | refl => exact .refl
  | tail hchain hlast ih =>
    obtain ⟨rule, hrule, rfl, hbody⟩ := hlast
    have hlhs : g.Reachable rule.lhs.id :=
      (reachable_iff_reaches wf (wf.uses_lhs hrule)).2 ⟨start, hstart, hchain⟩
    exact ih.trans (reaches_body ((hr.mem_rules rule).2 ⟨hrule, hlhs⟩) hbody)

theorem reaches_of_reachable (hr : g.ReachableKept h) (wf : g.WellFormed) {x : Symbol}
    (huse : g.uses x = true) (hx : g.Reachable x.id) :
    ∃ start, g.start = some start ∧ h.Reaches (.nonterminal start) x := by
  obtain ⟨start, hstart, hreach⟩ := (reachable_iff_reaches wf huse).1 hx
  exact ⟨start, hstart, hr.reaches_new wf hstart hreach⟩

/-- What is kept is reached in what is left. -/
theorem reachable_new (hr : g.ReachableKept h) (wf : g.WellFormed) (hn : n ∈ h.nonterminals) :
    h.Reachable n.id := by
  obtain ⟨hold, hreach⟩ := (hr.mem_nonterminals n).1 hn
  obtain ⟨start, hstart, hchain⟩ :=
    hr.reaches_of_reachable wf (Vocabulary.uses_nonterminal.2 hold) hreach
  exact (reachable_iff_reaches (hr.wellFormed wf) (Vocabulary.uses_nonterminal.2 hn)).2
    ⟨start, hr.start.trans hstart, hchain⟩

theorem eliminateUnreachable_eq_self (hr : g.ReachableKept h) (wf : g.WellFormed) :
    h.eliminateUnreachable = .ok h := by
  have wf' := hr.wellFormed wf
  obtain ⟨k, hok, hk⟩ := exists_eliminateUnreachable wf'
  have hnone : k = h := Restricted.eq_self hk (fun n hn => hr.reachable_new wf hn)
    fun r hmem => hr.reachable_new wf (wf'.lhs_mem hmem)
  rw [hok, hnone]

end ReachableKept

/--
What is kept is exactly the nonterminals that stand in a form of the start symbol, with all of their
rules. They keep their words, and a second removal changes nothing.
-/
theorem eliminateUnreachable_keeps_accessible (wf : g.WellFormed) :
    ∃ h, g.eliminateUnreachable = .ok h ∧
      g.Restricted h g.Accessible (fun r => g.Accessible r.lhs) ∧ h.WellFormed ∧
      (∀ n ∈ h.nonterminals, ∀ w,
        (h.Derives [.nonterminal n] (.ofWord w) ↔ g.Derives [.nonterminal n] (.ofWord w))) ∧
      h.eliminateUnreachable = .ok h := by
  obtain ⟨h, hok, hr⟩ := exists_eliminateUnreachable wf
  refine ⟨h, hok, ?_, hr.wellFormed wf, ?_, hr.eliminateUnreachable_eq_self wf⟩
  · exact Restricted.congr hr (fun n hn => reachable_iff_accessible wf hn)
      fun r hmem => reachable_iff_accessible wf (wf.lhs_mem hmem)
  · intro n hn w
    rw [derives_iff_yields, derives_iff_yields]
    exact hr.yields_iff ((hr.mem_nonterminals n).1 hn).2

/-- `S` and `A` derive no word, and `C` stands in no form of `S`. -/
def stunted : Grammar where
  table :=
    { entries := [⟨"S", .nonterminal⟩, ⟨"A", .nonterminal⟩, ⟨"B", .nonterminal⟩, ⟨"C", .nonterminal⟩,
        ⟨"a", .terminal⟩, ⟨"b", .terminal⟩]
      nameSpace := {}
      position := 0
      nodup := by decide
      passed := fun _ h => absurd h (Nat.not_lt_zero _) }
  terminals := OrderedSet.ofList [⟨4⟩, ⟨5⟩]
  nonterminals := OrderedSet.ofList [⟨0⟩, ⟨1⟩, ⟨2⟩, ⟨3⟩]
  rules := OrderedSet.ofList
    [⟨⟨0⟩, [.nonterminal ⟨1⟩, .nonterminal ⟨2⟩]⟩,
      ⟨⟨0⟩, [.terminal ⟨4⟩, .nonterminal ⟨0⟩]⟩,
      ⟨⟨1⟩, [.nonterminal ⟨1⟩, .terminal ⟨5⟩]⟩,
      ⟨⟨2⟩, [.terminal ⟨5⟩]⟩,
      ⟨⟨2⟩, []⟩,
      ⟨⟨3⟩, [.nonterminal ⟨2⟩, .terminal ⟨4⟩]⟩]
  start := some ⟨0⟩

theorem stunted_accessible : stunted.WellFormed ∧ ∃ h, stunted.eliminateUnreachable = .ok h ∧
    h.nonterminals.toList = [⟨0⟩, ⟨1⟩, ⟨2⟩] ∧ stunted.Accessible ⟨2⟩ ∧ ¬ stunted.Accessible ⟨3⟩ ∧
    h.eliminateUnreachable = .ok h := by
  have wf : stunted.WellFormed := by decide +kernel
  obtain ⟨h, hok, hkept, -, -, hagain⟩ := eliminateUnreachable_keeps_accessible wf
  have hshape : (stunted.eliminateUnreachable.map fun h => h.nonterminals.toList) =
      .ok [⟨0⟩, ⟨1⟩, ⟨2⟩] := by decide +kernel
  rw [hok] at hshape
  have hnonterminals : h.nonterminals.toList = [⟨0⟩, ⟨1⟩, ⟨2⟩] := Except.ok.inj hshape
  have hmem (n : NonTerminal) : n ∈ h.nonterminals ↔ n ∈ [⟨0⟩, ⟨1⟩, ⟨2⟩] := by
    rw [← OrderedSet.mem_toList, hnonterminals]
  refine ⟨wf, h, hok, hnonterminals, ?_, ?_, hagain⟩
  · exact ((hkept.mem_nonterminals ⟨2⟩).1 ((hmem ⟨2⟩).2 (by decide))).2
  · intro hacc
    have hthird := (hkept.mem_nonterminals ⟨3⟩).2 ⟨by decide +kernel, hacc⟩
    exact absurd ((hmem ⟨3⟩).1 hthird) (by decide)

/-- The nonterminal derives a word. -/
def Generating (g : Grammar) (n : NonTerminal) : Prop := ∃ w, g.Derives [.nonterminal n] (.ofWord w)

theorem productive_iff_generating (wf : g.WellFormed) (hn : n ∈ g.nonterminals) :
    g.productiveSymbols.has (.nonterminal n) = true ↔ g.Generating n := by
  rw [productive_iff wf (Vocabulary.uses_nonterminal.2 hn)]
  simp only [Generating, derives_iff_yields]

/-- A body is productive just if its nonterminals are. -/
theorem productive_body_iff (wf : g.WellFormed) (hr : r ∈ g.rules) :
    (∀ s ∈ r.body, g.productiveSymbols.has s = true) ↔
      ∀ n, .nonterminal n ∈ r.body → g.Generating n := by
  constructor
  · intro hbody n hn
    have hmem := Vocabulary.uses_nonterminal.1 (wf.uses_body hr hn)
    exact (productive_iff_generating wf hmem).1 (hbody _ hn)
  · intro hbody s hs
    have huse := wf.uses_body hr hs
    cases s with
    | terminal a => exact (productive_iff wf huse).2 ⟨[a], yields_terminal_iff.2 rfl⟩
    | nonterminal n =>
      exact (productive_iff_generating wf (Vocabulary.uses_nonterminal.1 huse)).2 (hbody n hs)

/-- Leaves out what derives no word, apart from the start symbol. -/
def ProductiveKept (g h : Grammar) : Prop :=
  g.Restricted h
    (fun n => g.productiveSymbols.has (.nonterminal n) = true ∨ g.start = some n)
    fun r => ∀ s ∈ r.body, g.productiveSymbols.has s = true

theorem exists_eliminateNonGenerating (wf : g.WellFormed) :
    ∃ h, g.eliminateNonGenerating = .ok h ∧ g.ProductiveKept h := by
  obtain ⟨start, hstart, -⟩ := wf.exists_start
  rw [eliminateNonGenerating, wf.validStart_eq hstart]
  refine ⟨_, rfl, rfl, rfl, rfl, ?_, ?_⟩
  · intro n
    rw [OrderedSet.mem_filter, Bool.or_eq_true, decide_eq_true_eq, hstart, Option.some.injEq,
      eq_comm (a := n)]
    rfl
  · intro r
    simp

namespace ProductiveKept

theorem wellFormed (hp : g.ProductiveKept h) (wf : g.WellFormed) : h.WellFormed := by
  refine Restricted.wellFormed hp wf (fun _ => .inr) fun r hmem hbody =>
    ⟨.inl ?_, fun n hn => .inl ?_⟩
  · obtain ⟨w, hw⟩ := exists_yields fun s hs =>
      yields_of_productive wf (wf.uses_body hmem hs) (hbody s hs)
    exact (productive_iff wf (wf.uses_lhs hmem)).2 ⟨w, yields_nonterminal_iff.2 ⟨r, hmem, rfl, hw⟩⟩
  · exact hbody _ hn

/-- No word is lost. -/
theorem yields_new (hp : g.ProductiveKept h) (wf : g.WellFormed) (hw : g.Yields form w) :
    h.Yields form w := by
  refine hw.of_kept (P := fun _ => True) (fun r hmem _ u hu => ⟨?_, fun _ _ => trivial⟩)
    fun _ _ => trivial
  have hbody := productive_of_yields wf hu fun s hs => wf.uses_body hmem hs
  exact (hp.mem_rules r).2 ⟨hmem, hbody⟩

theorem yields_iff (hp : g.ProductiveKept h) (wf : g.WellFormed) :
    h.Yields form w ↔ g.Yields form w :=
  ⟨Restricted.yields_old hp, hp.yields_new wf⟩

theorem preserves (hp : g.ProductiveKept h) (wf : g.WellFormed) : g.Preserves h where
  wellFormed := hp.wellFormed wf
  start := hp.start
  generates _ := generates_congr hp.start fun _ _ => hp.yields_iff wf

/-- The symbols of the bodies that are kept derive words still. -/
theorem exists_yields_body (hp : g.ProductiveKept h) (wf : g.WellFormed) (hr : r ∈ h.rules) :
    ∀ s ∈ r.body, ∃ w, h.Yields [s] w := by
  intro s hs
  obtain ⟨hold, hbody⟩ := (hp.mem_rules r).1 hr
  obtain ⟨w, hw⟩ := yields_of_productive wf (wf.uses_body hold hs) (hbody s hs)
  exact ⟨w, hp.yields_new wf hw⟩

/-- What derived a word does so still. -/
theorem productive_new (hp : g.ProductiveKept h) (wf : g.WellFormed) (hn : n ∈ h.nonterminals)
    (hprod : g.productiveSymbols.has (.nonterminal n) = true) :
    h.productiveSymbols.has (.nonterminal n) = true := by
  have hold := ((hp.mem_nonterminals n).1 hn).1
  obtain ⟨w, hw⟩ := yields_of_productive wf (Vocabulary.uses_nonterminal.2 hold) hprod
  exact (productive_iff (hp.wellFormed wf) (Vocabulary.uses_nonterminal.2 hn)).2
    ⟨w, hp.yields_new wf hw⟩

theorem eliminateNonGenerating_eq_self (hp : g.ProductiveKept h) (wf : g.WellFormed) :
    h.eliminateNonGenerating = .ok h := by
  have wf' := hp.wellFormed wf
  obtain ⟨k, hok, hk⟩ := exists_eliminateNonGenerating wf'
  have hnone : k = h := by
    refine Restricted.eq_self hk (fun n hn => ?_) fun r hmem s hs => ?_
    · rw [hp.start]
      exact ((hp.mem_nonterminals n).1 hn).2.imp_left (hp.productive_new wf hn)
    · exact (productive_iff wf' (wf'.uses_body hmem hs)).2 (hp.exists_yields_body wf hmem s hs)
  rw [hok, hnone]

/-- Leaving out what is not reached then makes nothing unproductive again. -/
theorem trim (hp : g.ProductiveKept h) (hr : h.ReachableKept k) (wf : g.WellFormed) : k.Trim where
  reached n hn := by
    obtain ⟨hold, hreach⟩ := (hr.mem_nonterminals n).1 hn
    obtain ⟨start, hstart, hchain⟩ := hr.reaches_of_reachable (hp.wellFormed wf)
      (Vocabulary.uses_nonterminal.2 hold) hreach
    exact ⟨start, hr.start.trans hstart, hchain⟩
  productive r hmem s hs := by
    obtain ⟨hold, hreach⟩ := (hr.mem_rules r).1 hmem
    obtain ⟨w, hw⟩ := hp.exists_yields_body wf hold s hs
    refine ⟨w, hr.yields_new hw ?_⟩
    simpa using hreach.body hold hs

end ProductiveKept

/--
What is kept is exactly the nonterminals that derive a word and the start symbol, and the rules whose
bodies have no other nonterminals than those that derive a word. The words are kept, and a second
removal changes nothing.
-/
theorem eliminateNonGenerating_keeps_generating (wf : g.WellFormed) :
    ∃ h, g.eliminateNonGenerating = .ok h ∧
      g.Restricted h (fun n => g.Generating n ∨ g.start = some n)
        (fun r => ∀ n, .nonterminal n ∈ r.body → g.Generating n) ∧ h.WellFormed ∧
      (∀ n ∈ h.nonterminals, ∀ w,
        (h.Derives [.nonterminal n] (.ofWord w) ↔ g.Derives [.nonterminal n] (.ofWord w))) ∧
      h.eliminateNonGenerating = .ok h := by
  obtain ⟨h, hok, hp⟩ := exists_eliminateNonGenerating wf
  refine ⟨h, hok, ?_, hp.wellFormed wf, ?_, hp.eliminateNonGenerating_eq_self wf⟩
  · exact Restricted.congr hp (fun n hn => or_congr_left (productive_iff_generating wf hn))
      fun r hmem => productive_body_iff wf hmem
  · intro n _ w
    rw [derives_iff_yields, derives_iff_yields]
    exact hp.yields_iff wf

/-- The start symbol is kept without a rule. -/
theorem stunted_generating : stunted.WellFormed ∧ ∃ h, stunted.eliminateNonGenerating = .ok h ∧
    h.nonterminals.toList = [⟨0⟩, ⟨2⟩, ⟨3⟩] ∧ stunted.Generating ⟨3⟩ ∧ ¬ stunted.Generating ⟨1⟩ ∧
    (∀ r ∈ h.rules, r.lhs ≠ ⟨0⟩) ∧ h.eliminateNonGenerating = .ok h := by
  have wf : stunted.WellFormed := by decide +kernel
  obtain ⟨h, hok, hkept, -, -, hagain⟩ := eliminateNonGenerating_keeps_generating wf
  have hshape : (stunted.eliminateNonGenerating.map fun h =>
      (h.nonterminals.toList, h.rules.toList.all (·.lhs ≠ ⟨0⟩))) =
      .ok ([⟨0⟩, ⟨2⟩, ⟨3⟩], true) := by decide +kernel
  rw [hok] at hshape
  obtain ⟨hnonterminals, hrules⟩ := Prod.mk.inj (Except.ok.inj hshape)
  have hmem (n : NonTerminal) : n ∈ h.nonterminals ↔ n ∈ [⟨0⟩, ⟨2⟩, ⟨3⟩] := by
    rw [← OrderedSet.mem_toList, hnonterminals]
  refine ⟨wf, h, hok, hnonterminals, ?_, ?_, by simpa [OrderedSet.mem_toList] using hrules, hagain⟩
  · have hthird := ((hkept.mem_nonterminals ⟨3⟩).1 ((hmem ⟨3⟩).2 (by decide))).2
    exact hthird.resolve_right (by decide)
  · intro hgen
    have hfirst := (hkept.mem_nonterminals ⟨1⟩).2 ⟨by decide +kernel, .inl hgen⟩
    exact absurd ((hmem ⟨1⟩).1 hfirst) (by decide)

end FormalLanguage.Grammar
