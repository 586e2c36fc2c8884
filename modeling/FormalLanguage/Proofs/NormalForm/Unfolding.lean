import FormalLanguage.Proofs.NormalForm.Shortage

/-!
What stands for what after parts of bodies are abbreviated. Main statements: shortening brings in one
fresh nonterminal for each prefix of a long body, and isolating one for each terminal of a body of two
symbols or more; with these parts put back the rules are those that were given, and every nonterminal
that was given keeps its words.
-/
namespace FormalLanguage

universe u

namespace Grammar

/-- The nonterminals that the second grammar uses and the first one does not. -/
def helpers (g h : Grammar) : OrderedSet NonTerminal :=
  h.nonterminals.filter fun n => n ∉ g.nonterminals

/--
Replacing helpers by their bodies, over and over, turns the form into a body over the symbols of the
first grammar.
-/
def Unfolds (g h : Grammar) (form body : Body) : Prop :=
  (h.retain fun r => r.lhs ∈ g.helpers h).Derives form body ∧ ∀ s ∈ body, g.uses s = true

/--
The second grammar is the first one with parts of its bodies abbreviated: there is one helper for each
part, and unfolding the rules of the other nonterminals gives the rules of the first grammar.
-/
structure Abridges {κ : Type u} (body : κ → Body) (g h : Grammar) (parts : Finset Body) : Prop where
  helper_rules : ∀ n ∈ g.helpers h, ∃ key, ∀ form, ⟨n, form⟩ ∈ h.rules ↔ form = body key
  stands_for : ∃ part : NonTerminal → Body, Set.BijOn part {n | n ∈ g.helpers h} parts ∧
    ∀ n ∈ g.helpers h, ∀ whole, g.Unfolds h [.nonterminal n] whole ↔ whole = part n
  unfolds : ∀ r ∈ h.rules, r.lhs ∈ g.nonterminals → ∃! whole, g.Unfolds h r.body whole
  mem_rules : ∀ n ∈ g.nonterminals, ∀ whole,
    ⟨n, whole⟩ ∈ g.rules ↔ ∃ form, ⟨n, form⟩ ∈ h.rules ∧ g.Unfolds h form whole
  numRules : h.numRules = g.numRules + (g.helpers h).size
  derives_iff : ∀ n ∈ g.nonterminals, ∀ w,
    h.Derives [.nonterminal n] (.ofWord w) ↔ g.Derives [.nonterminal n] (.ofWord w)

end Grammar

namespace Abbreviating

variable {κ : Type} {body : κ → Body} {g : Grammar} {done : List Rule} {a b : Abbreviating κ}
  {key : κ} {n : NonTerminal} {r : Rule} {form whole : Body} {parts : Finset Body}
  {admits : κ → Prop}

/-- There is one rule for each rule that is done and one for each fresh nonterminal. -/
structure Tallied (done : List Rule) (a : Abbreviating κ) : Prop where
  nodup : (a.known.map Prod.snd).Nodup
  contains_known : ∀ p ∈ a.known, a.result.table.contains (.nonterminal p.2) = true
  contains_lhs : ∀ r ∈ a.result.rules, a.result.table.contains (.nonterminal r.lhs) = true
  numRules : a.result.numRules = done.length + a.known.length

namespace Tallied

theorem init (g : Grammar) : Tallied (κ := κ) [] ⟨g.clearRules, []⟩ where
  nodup := List.nodup_nil
  contains_known := List.forall_mem_nil _
  contains_lhs r hr := absurd hr (OrderedSet.not_mem_empty r)
  numRules := rfl

/-- The rule of a fresh nonterminal was not there before. -/
theorem abbreviate [DecidableEq κ] (ht : Tallied done a) (h : a.abbreviate body key = .ok (n, b)) :
    Tallied done b := by
  obtain ⟨-, rfl⟩ | ⟨result, -, hfresh, rfl⟩ := abbreviate_cases h
  · exact ht
  · have hf := Grammar.freshened_of_fresh hfresh
    have hold (m : NonTerminal) (hm : a.result.table.contains (.nonterminal m) = true) :
        result.table.contains (.nonterminal m) = true := (hf.contains_iff _).2 (.inl hm)
    have hself : result.table.contains (.nonterminal n) = true := (hf.contains_iff _).2 (.inr rfl)
    have hnew : (⟨n, body key⟩ : Rule) ∉ result.rules := by
      rw [hf.rules]
      exact fun hr => hf.not_contains (ht.contains_lhs _ hr)
    refine ⟨?_, ?_, ?_, ?_⟩
    · refine List.nodup_cons.2 ⟨fun hn => ?_, ht.nodup⟩
      obtain ⟨p, hp, rfl⟩ := List.mem_map.1 hn
      exact hf.not_contains (ht.contains_known p hp)
    · rw [List.forall_mem_cons]
      exact ⟨hself, fun p hp => hold _ (ht.contains_known p hp)⟩
    · intro r hr
      rcases OrderedSet.mem_insert.1 hr with rfl | hr
      · exact hself
      · rw [hf.rules] at hr
        exact hold _ (ht.contains_lhs r hr)
    · have hcount := ht.numRules
      have hsize : (result.addRule n (body key)).numRules = a.result.numRules + 1 := by
        rw [Grammar.numRules, Grammar.numRules, ← hf.rules]
        exact OrderedSet.size_insert_of_not_mem hnew
      rw [hsize, List.length_cons]
      omega

/-- A rule that is done for the first time is added in a form that was not there before. -/
theorem addRule (ht : Tallied done a) (ha : Abbreviates body g done a)
    (hlhs : r.lhs ∈ g.nonterminals) (hr : r ∉ done)
    (heq : form.flatMap (expand body a.known) = r.body) :
    Tallied (done ++ [r]) (a.addRule r.lhs form) := by
  have hnew : (⟨r.lhs, form⟩ : Rule) ∉ a.result.rules := by
    intro hmem
    rcases ha.rule_cases _ hmem with ⟨p, hp, hrule⟩ | ⟨-, hdone⟩
    · rw [Rule.mk.injEq] at hrule
      exact ha.known_new p hp (hrule.1 ▸ hlhs)
    · rw [heq] at hdone
      exact hr hdone
  refine ⟨ht.nodup, ht.contains_known, ?_, ?_⟩
  · intro x hx
    rcases OrderedSet.mem_insert.1 hx with rfl | hx
    · exact ha.contains _ (ha.uses_of_uses (Vocabulary.uses_nonterminal.2 hlhs))
    · exact ht.contains_lhs x hx
  · have hcount := ht.numRules
    have hsize : (a.addRule r.lhs form).result.numRules = a.result.numRules + 1 :=
      OrderedSet.size_insert_of_not_mem hnew
    rw [hsize, List.length_append, List.length_singleton]
    show a.result.numRules + 1 = done.length + 1 + a.known.length
    omega

end Tallied

/-- Rules are counted one after the other. None of a grammar's rules is listed twice. -/
theorem tallied_foldlM {step : Abbreviating κ → Rule → Except GrammarError (Abbreviating κ)}
    (wf : g.WellFormed)
    (hspec : ∀ done a b, ∀ r ∈ g.rules, Abbreviates body g done a → step a r = .ok b →
      Abbreviates body g (done ++ [r]) b)
    (hstep : ∀ done a b, ∀ r ∈ g.rules, r ∉ done → Abbreviates body g done a → Tallied done a →
      step a r = .ok b → Tallied (done ++ [r]) b)
    (h : g.rules.toList.foldlM step ⟨g.clearRules, []⟩ = .ok a) : Tallied g.rules.toList a := by
  have hinit : Abbreviates body g [] ⟨g.clearRules, []⟩ ∧
      (([] : List Rule).Nodup → Tallied (κ := κ) [] ⟨g.clearRules, []⟩) :=
    ⟨.init wf, fun _ => .init g⟩
  have hrun := foldlM_invariant
    (P := fun done a => Abbreviates body g done a ∧ (done.Nodup → Tallied done a)) ?_ hinit h
  · exact hrun.2 g.rules.nodup_toList
  · rintro done r a b hr ⟨ha, ht⟩ hab
    refine ⟨hspec done a b r hr ha hab, fun hnodup => ?_⟩
    obtain ⟨hdone, -, hnew⟩ := List.nodup_append.1 hnodup
    have hr' : r ∉ done := fun hmem => hnew r hmem r (List.mem_singleton.2 rfl) rfl
    exact hstep done a b r hr hr' ha (ht hdone) hab

namespace Abbreviates

variable (ha : Abbreviates body g g.rules.toList a)

include ha

theorem mem_helpers_iff : n ∈ g.helpers a.result ↔ ∃ p ∈ a.known, p.2 = n := by
  rw [Grammar.helpers, OrderedSet.mem_filter, decide_eq_true_eq, ha.mem_nonterminals]
  constructor
  · rintro ⟨hold | hknown, hnew⟩
    · exact absurd hold hnew
    · exact hknown
  · rintro ⟨p, hp, rfl⟩
    exact ⟨.inr ⟨p, hp, rfl⟩, ha.known_new p hp⟩

/-- The rules of helpers are those that they were brought in with. -/
theorem exists_known (hr : r ∈ a.result.rules) (hlhs : r.lhs ∈ g.helpers a.result) :
    ∃ p ∈ a.known, r = ⟨p.2, body p.1⟩ := by
  rcases ha.rule_cases r hr with hknown | ⟨hold, -⟩
  · exact hknown
  · obtain ⟨p, hp, heq⟩ := ha.mem_helpers_iff.1 hlhs
    exact absurd (heq ▸ hold) (ha.known_new p hp)

theorem helper_rule_iff (ht : Tallied done a) {p : κ × NonTerminal} (hp : p ∈ a.known) :
    ⟨p.2, form⟩ ∈ a.result.rules ↔ form = body p.1 := by
  constructor
  · intro hr
    obtain ⟨q, hq, hrule⟩ := ha.exists_known hr (ha.mem_helpers_iff.2 ⟨p, hp, rfl⟩)
    rw [Rule.mk.injEq] at hrule
    rw [hrule.2, List.inj_on_of_nodup_map ht.nodup hp hq hrule.1]
  · rintro rfl
    exact ha.known_rule p hp

/-- Replacing helpers does not change what a form stands for. -/
theorem flatMap_eq_of_derives
    (h : (a.result.retain fun r => r.lhs ∈ g.helpers a.result).Derives form whole) :
    form.flatMap (expand body a.known) = whole.flatMap (expand body a.known) := by
  induction h with
  | refl => rfl
  | head first _ ih =>
    rw [← ih]
    cases first with
    | replace hr before after =>
      obtain ⟨hmem, hlhs⟩ := OrderedSet.mem_filter.1 hr
      obtain ⟨p, hp, rfl⟩ := ha.exists_known hmem (of_decide_eq_true hlhs)
      simp only [List.flatMap_append, List.flatMap_cons, ha.expand_known p hp, List.append_assoc]

/-- A form unfolds to what it stands for, and to nothing else. -/
theorem unfolds_iff (huses : ∀ s ∈ form.flatMap (expand body a.known), g.uses s = true) :
    g.Unfolds a.result form whole ↔ whole = form.flatMap (expand body a.known) := by
  constructor
  · rintro ⟨hderives, hwhole⟩
    rw [ha.flatMap_eq_of_derives hderives, ha.flatMap_old hwhole]
  · rintro rfl
    refine ⟨derives_expand (fun p hp => ?_) form, huses⟩
    have hhelper := ha.mem_helpers_iff.2 ⟨p, hp, rfl⟩
    exact OrderedSet.mem_filter.2 ⟨ha.known_rule p hp, decide_eq_true hhelper⟩

/-- The rules of the nonterminals that were given stand for rules that were given. -/
theorem rule_mem (hr : r ∈ a.result.rules) (hlhs : r.lhs ∈ g.nonterminals) :
    ⟨r.lhs, r.body.flatMap (expand body a.known)⟩ ∈ g.rules := by
  rcases ha.rule_cases r hr with ⟨p, hp, rfl⟩ | ⟨-, hdone⟩
  · exact absurd hlhs (ha.known_new p hp)
  · exact OrderedSet.mem_toList.1 hdone

theorem derives_iff (hn : n ∈ g.nonterminals) (w : Word) :
    a.result.Derives [.nonterminal n] (.ofWord w) ↔ g.Derives [.nonterminal n] (.ofWord w) := by
  rw [Grammar.derives_iff_yields, Grammar.derives_iff_yields]
  refine ⟨fun hw => ?_, ha.yields_new⟩
  have hold := ha.yields_old hw
  have hself : ∀ s ∈ [Symbol.nonterminal n], g.uses s = true := by
    rw [List.forall_mem_singleton]
    exact Vocabulary.uses_nonterminal.2 hn
  rwa [ha.flatMap_old hself] at hold

end Abbreviates

/-- Each helper stands for a part, and each part has its helper. -/
theorem Progress.bijOn_parts {asked : Rule → Body → Prop}
    (hp : Progress body g admits parts asked g.rules.toList a)
    (hparts : ∀ part ∈ parts, ∃ r ∈ g.rules, asked r part) :
    Set.BijOn (fun n => expand body a.known (.nonterminal n)) {n | n ∈ g.helpers a.result}
      parts := by
  have ha := hp.abbreviates
  have hwhole (p : κ × NonTerminal) (hmem : p ∈ a.known) :
      expand body a.known (.nonterminal p.2) = a.part body p.1 := ha.expand_known p hmem
  refine ⟨?_, ?_, ?_⟩
  · intro n hn
    obtain ⟨p, hmem, rfl⟩ := ha.mem_helpers_iff.1 hn
    simp only [hwhole p hmem]
    exact hp.counted.subset _ (List.mem_map_of_mem hmem)
  · intro n hn m hm heq
    obtain ⟨p, hmem, rfl⟩ := ha.mem_helpers_iff.1 hn
    obtain ⟨q, hmem', rfl⟩ := ha.mem_helpers_iff.1 hm
    simp only [hwhole p hmem, hwhole q hmem'] at heq
    rw [List.inj_on_of_nodup_map hp.counted.nodup hmem hmem' heq]
  · intro part hmem
    obtain ⟨p, hknown, rfl⟩ := List.mem_map.1 ((hp.mem_parts_iff hparts).1 hmem)
    exact ⟨p.2, ha.mem_helpers_iff.2 ⟨p, hknown, rfl⟩, hwhole p hknown⟩

theorem Tallied.size_helpers (ht : Tallied done a) (ha : Abbreviates body g g.rules.toList a) :
    (g.helpers a.result).size = a.known.length := by
  rw [← List.length_map (f := Prod.snd)]
  refine OrderedSet.size_eq_length ht.nodup fun n => ?_
  rw [ha.mem_helpers_iff, List.mem_map]

/-- The construction, with all the parts known that its rules asked for, abridges the grammar. -/
theorem Progress.abridges {asked : Rule → Body → Prop} (wf : g.WellFormed)
    (hp : Progress body g admits parts asked g.rules.toList a) (ht : Tallied g.rules.toList a)
    (hparts : ∀ part ∈ parts, ∃ r ∈ g.rules, asked r part)
    (huses : ∀ part ∈ parts, ∀ s ∈ part, g.uses s = true) : g.Abridges body a.result parts := by
  have ha := hp.abbreviates
  have hbij := hp.bijOn_parts hparts
  have hgiven {r : Rule} (hr : r ∈ a.result.rules) (hlhs : r.lhs ∈ g.nonterminals) (whole : Body) :
      g.Unfolds a.result r.body whole ↔ whole = r.body.flatMap (expand body a.known) :=
    ha.unfolds_iff fun s hs => wf.uses_body (ha.rule_mem hr hlhs) hs
  refine ⟨?_, ⟨_, hbij, ?_⟩, ?_, ?_, ?_, fun n hn => ha.derives_iff hn⟩
  · intro n hn
    obtain ⟨p, hmem, rfl⟩ := ha.mem_helpers_iff.1 hn
    exact ⟨p.1, fun form => ha.helper_rule_iff ht hmem⟩
  · intro n hn whole
    have hself : [Symbol.nonterminal n].flatMap (expand body a.known) =
        expand body a.known (.nonterminal n) := by simp
    have hpart := huses _ (hbij.mapsTo hn)
    rw [← hself] at hpart ⊢
    exact ha.unfolds_iff hpart
  · intro r hr hlhs
    exact ⟨_, (hgiven hr hlhs _).2 rfl, fun whole => (hgiven hr hlhs whole).1⟩
  · intro n hn whole
    constructor
    · intro hr
      obtain ⟨form, hform, heq⟩ := ha.exists_rule _ (OrderedSet.mem_toList.2 hr)
      exact ⟨form, hform, (hgiven hform hn whole).2 heq.symm⟩
    · rintro ⟨form, hform, hunfolds⟩
      rw [(hgiven hform hn whole).1 hunfolds]
      exact ha.rule_mem hform hn
  · rw [ht.size_helpers ha]
    exact ht.numRules

end Abbreviating

namespace Grammar

open Abbreviating

variable {g k : Grammar} {done : List Rule} {r : Rule} {n : NonTerminal}

section Pairs

variable {a b : Abbreviating (Symbol × Symbol)}

theorem tallied_shortenRule (wf : g.WellFormed) (ha : Abbreviates pairBody g done a)
    (ht : Tallied done a) (hr : r ∈ g.rules) (hnew : r ∉ done) (h : shortenRule a r = .ok b) :
    Tallied (done ++ [r]) b := by
  have hself := ha.flatMap_old fun x hx => wf.uses_body hr hx
  obtain ⟨-, rfl⟩ | ⟨s, t, rest, form, c, hbody, hshort, rfl⟩ := shortenRule_cases h
  · exact ht.addRule ha (wf.lhs_mem hr) hnew hself
  · have huses : ∀ x ∈ s :: t :: rest, a.result.uses x = true := by
      rw [← hbody]
      exact fun x hx => ha.uses_of_uses (wf.uses_body hr hx)
    obtain ⟨-, hc, -, heq⟩ := shorten_spec ha huses hshort
    have htc := keeps_shorten Tallied.abbreviate ht hshort
    exact htc.addRule hc (wf.lhs_mem hr) hnew (by rw [heq, ← hbody, hself])

theorem abridges_binarize (wf : g.WellFormed) (h : g.binarize = .ok k) :
    g.Abridges pairBody k g.longPrefixes := by
  obtain ⟨a, rfl, hfold⟩ := exists_shortened h
  have hprogress := (endsIn_shortened wf).of_ok a hfold
  have htally := tallied_foldlM wf
    (fun _ _ _ _ hr ha hab => shortenRule_spec wf ha hr hab)
    (fun _ _ _ _ hr hnew ha ht hab => tallied_shortenRule wf ha ht hr hnew hab) hfold
  refine hprogress.abridges wf htally (fun part hpart => mem_longPrefixes_iff.1 hpart) ?_
  intro part hpart s hs
  obtain ⟨r, hr, hbegins, -⟩ := mem_longPrefixes_iff.1 hpart
  exact wf.uses_body hr (hbegins.subset hs)

/--
Shortening leaves bodies of two symbols at most. A helper has a pair as its only body, and there is one
for each prefix of two symbols or more that is not the whole body; unfolding them gives back the rules,
and every nonterminal keeps its words.
-/
theorem binarize_abridges_prefixes (wf : g.WellFormed) (h : g.binarize = .ok k) :
    (∀ r ∈ k.rules, r.body.length ≤ 2) ∧ g.Abridges pairBody k g.longPrefixes := by
  refine ⟨fun r hr => ?_, abridges_binarize wf h⟩
  rcases shortOf_binarize h r hr with htwo | ⟨hless, -⟩
  · exact Nat.le_of_eq htwo
  · exact Nat.le_of_lt hless

/-- Long bodies overlap: the same two symbols begin all of them, and the same three two of them. -/
def overlapping : Grammar where
  table :=
    { entries := [⟨"S", .nonterminal⟩, ⟨"T", .nonterminal⟩, ⟨"a", .terminal⟩, ⟨"b", .terminal⟩]
      nameSpace := {}
      position := 0
      nodup := by decide
      passed := fun _ h => absurd h (Nat.not_lt_zero _) }
  terminals := OrderedSet.ofList [⟨2⟩, ⟨3⟩]
  nonterminals := OrderedSet.ofList [⟨0⟩, ⟨1⟩]
  rules := OrderedSet.ofList
    [⟨⟨0⟩, [.terminal ⟨2⟩, .terminal ⟨3⟩, .terminal ⟨2⟩, .terminal ⟨3⟩]⟩,
      ⟨⟨0⟩, [.terminal ⟨2⟩, .terminal ⟨3⟩, .terminal ⟨2⟩, .nonterminal ⟨1⟩]⟩,
      ⟨⟨0⟩, [.terminal ⟨2⟩, .terminal ⟨3⟩, .terminal ⟨2⟩]⟩,
      ⟨⟨0⟩, [.terminal ⟨2⟩, .terminal ⟨3⟩]⟩,
      ⟨⟨1⟩, [.terminal ⟨2⟩, .terminal ⟨3⟩, .nonterminal ⟨0⟩]⟩]
  start := some ⟨0⟩

theorem overlapping_abridged : overlapping.WellFormed ∧ ∃ k, overlapping.binarize = .ok k ∧
    overlapping.Abridges pairBody k overlapping.longPrefixes ∧
    overlapping.longPrefixes.card = 2 ∧ k.numRules = 7 := by
  have wf : overlapping.WellFormed := by decide +kernel
  obtain ⟨k, hk⟩ : ∃ k, overlapping.binarize = .ok k := exists_ok (by decide +kernel)
  obtain ⟨-, habridges⟩ := binarize_abridges_prefixes wf hk
  have hcount : (overlapping.binarize.map numRules) = .ok 7 := by decide +kernel
  rw [hk] at hcount
  exact ⟨wf, k, hk, habridges, by decide +kernel, Except.ok.inj hcount⟩

end Pairs

section Terminals

variable {a b : Abbreviating Terminal} {t : Terminal}

theorem tallied_isolateRule (wf : g.WellFormed) (ha : Abbreviates terminalBody g done a)
    (ht : Tallied done a) (hr : r ∈ g.rules) (hnew : r ∉ done) (h : isolateRule a r = .ok b) :
    Tallied (done ++ [r]) b := by
  have hself := ha.flatMap_old fun x hx => wf.uses_body hr hx
  obtain ⟨-, rfl⟩ | ⟨form, c, -, hiso, rfl⟩ := isolateRule_cases h
  · exact ht.addRule ha (wf.lhs_mem hr) hnew hself
  · have huses : ∀ x ∈ r.body, a.result.uses x = true :=
      fun x hx => ha.uses_of_uses (wf.uses_body hr hx)
    obtain ⟨-, hc, -, heq⟩ := isolate_spec ha huses hiso
    have htc := keeps_isolate Tallied.abbreviate ht hiso
    exact htc.addRule hc (wf.lhs_mem hr) hnew (heq.trans hself)

theorem abridges_eliminateMixedTerminals (wf : g.WellFormed)
    (h : g.eliminateMixedTerminals = .ok k) : g.Abridges terminalBody k g.mixedBodies := by
  obtain ⟨a, rfl, hfold⟩ := exists_isolated h
  have hprogress := (endsIn_isolated wf).of_ok a hfold
  have htally := tallied_foldlM wf
    (fun _ _ _ _ hr ha hab => isolateRule_spec wf ha hr hab)
    (fun _ _ _ _ hr hnew ha ht hab => tallied_isolateRule wf ha ht hr hnew hab) hfold
  refine hprogress.abridges wf htally (fun part => asked_of_mem_mixedBodies) ?_
  intro part hpart s hs
  obtain ⟨r, hr, -, t, ht, rfl⟩ := asked_of_mem_mixedBodies hpart
  rw [List.mem_singleton.1 hs]
  exact wf.uses_body hr ht

/-- The only body of a helper that stands for a terminal is the terminal. -/
theorem helper_rule_iff_of_unfolds (hab : g.Abridges terminalBody k g.mixedBodies)
    (hn : n ∈ g.helpers k) (hunfolds : g.Unfolds k [.nonterminal n] [.terminal t]) (form : Body) :
    ⟨n, form⟩ ∈ k.rules ↔ form = [.terminal t] := by
  obtain ⟨u, hrules⟩ := hab.helper_rules n hn
  obtain ⟨r, hr, rfl, hbody⟩ := yields_nonterminal_iff.1 (yields_of_derives (w := [t]) hunfolds.1)
  have hr' : r ∈ k.rules := (OrderedSet.mem_filter.1 hr).1
  rw [(hrules r.body).1 hr', terminalBody, yields_terminal_iff, List.singleton_inj] at hbody
  rw [hrules, hbody]
  rfl

/--
After isolating, terminals stand alone in their bodies. The helpers stand for the terminals of the
bodies of two symbols or more, one for each terminal, which is their only body; unfolding them gives
back the rules, and every nonterminal keeps its words.
-/
theorem eliminateMixedTerminals_abridges (wf : g.WellFormed)
    (h : g.eliminateMixedTerminals = .ok k) :
    (∀ r ∈ k.rules, ∀ t, .terminal t ∈ r.body → r.body = [.terminal t]) ∧
      (∃ letter : NonTerminal → Terminal,
        Set.BijOn letter {n | n ∈ g.helpers k} g.mixedTerminals ∧
        ∀ n ∈ g.helpers k, ∀ form, ⟨n, form⟩ ∈ k.rules ↔ form = [.terminal (letter n)]) ∧
      g.Abridges terminalBody k g.mixedBodies := by
  have hab := abridges_eliminateMixedTerminals wf h
  refine ⟨?_, ?_, hab⟩
  · intro r hr t ht
    rcases isolatedOf_eliminateMixedTerminals h r hr with ⟨u, hu⟩ | ⟨hless, -⟩ | ⟨-, hnone, -⟩
    · rw [hu] at ht ⊢
      rw [List.mem_singleton.1 ht]
    · obtain ⟨s, hs⟩ := List.length_eq_one_iff.1
        (Nat.le_antisymm (Nat.le_of_lt_succ hless) (List.length_pos_of_mem ht))
      rw [hs] at ht ⊢
      rw [List.mem_singleton.1 ht]
    · exact absurd (hnone _ ht) Bool.false_ne_true
  · obtain ⟨part, hbij, hunfolds⟩ := hab.stands_for
    have hletter : ∀ n ∈ g.helpers k, ∃ t ∈ g.mixedTerminals, part n = [.terminal t] := by
      intro n hn
      obtain ⟨t, ht, heq⟩ := Finset.mem_image.1 (hbij.mapsTo hn)
      exact ⟨t, ht, heq.symm⟩
    choose! letter hmem hpart using hletter
    refine ⟨letter, ⟨hmem, ?_, ?_⟩, ?_⟩
    · intro n hn m hm heq
      exact hbij.injOn hn hm (by rw [hpart n hn, hpart m hm, heq])
    · intro t ht
      obtain ⟨n, hn, heq⟩ := hbij.surjOn (Finset.mem_image_of_mem terminalBody ht)
      refine ⟨n, hn, ?_⟩
      rw [hpart n hn] at heq
      cases heq
      rfl
    · intro n hn
      exact helper_rule_iff_of_unfolds hab hn ((hunfolds n hn _).2 (hpart n hn).symm)

theorem overlapping_isolated : overlapping.WellFormed ∧
    ∃ k, overlapping.eliminateMixedTerminals = .ok k ∧
      overlapping.Abridges terminalBody k overlapping.mixedBodies ∧
      (∀ r ∈ k.rules, ∀ t, .terminal t ∈ r.body → r.body = [.terminal t]) ∧
      overlapping.mixedTerminals.card = 2 ∧ k.numRules = 7 := by
  have wf : overlapping.WellFormed := by decide +kernel
  obtain ⟨k, hk⟩ : ∃ k, overlapping.eliminateMixedTerminals = .ok k := exists_ok (by decide +kernel)
  obtain ⟨halone, -, habridges⟩ := eliminateMixedTerminals_abridges wf hk
  have hcount : (overlapping.eliminateMixedTerminals.map numRules) = .ok 7 := by decide +kernel
  rw [hk] at hcount
  exact ⟨wf, k, hk, habridges, halone, by decide +kernel, Except.ok.inj hcount⟩

end Terminals

end Grammar

end FormalLanguage
