import Mathlib.Data.List.Nodup
import Mathlib.Data.List.Perm.Subperm
import FormalLanguage.Proofs.Automaton.Builder
import FormalLanguage.Proofs.Grammar.Reachability
import FormalLanguage.Proofs.NameSpace
import FormalLanguage.Proofs.Outcome
import FormalLanguage.RightLinear.Automaton

/-!
The automaton of a right-linear grammar, as it is built. Main statements: the state behind bodies of
a single terminal is the state of no nonterminal, and the transitions and accepting states are those
of the bodies that unit rules lead to.
-/
namespace FormalLanguage

/-- Bodies of the form `ε`, `a`, `B` or `aB`. -/
inductive RightLinear : Body → Prop
  | empty : RightLinear []
  | terminal (a : Terminal) : RightLinear [.terminal a]
  | unit (n : NonTerminal) : RightLinear [.nonterminal n]
  | pair (a : Terminal) (n : NonTerminal) : RightLinear [.terminal a, .nonterminal n]

theorem isRightLinearBody_iff {body : Body} : isRightLinearBody body = true ↔ RightLinear body := by
  constructor
  · intro h
    match body with
    | [] => exact .empty
    | [.terminal a] => exact .terminal a
    | [.nonterminal n] => exact .unit n
    | [.terminal a, .nonterminal n] => exact .pair a n
    | [.terminal _, .terminal _] | [.nonterminal _, _] | _ :: _ :: _ :: _ =>
      simp [isRightLinearBody] at h
  · intro h
    cases h with
    | empty => rfl
    | terminal a => rfl
    | unit n => rfl
    | pair a n => rfl

namespace Grammar

variable {g : Grammar} {b : AutomatonBuilder} {n k start : NonTerminal} {body : Body}
  {stateOf : NonTerminal → Nat} {sink q : Nat}

theorem sinkCandidate_injective : Function.Injective sinkCandidate := by
  have hne : ∀ i : Nat, "end" ++ toString i ≠ "end" := by
    intro i h
    have hnil : "end" ++ toString i = "end" ++ "" := h.trans (String.append_empty).symm
    exact Nat.repr_ne_empty ((String.append_right_inj _).1 hnil)
  intro i j h
  unfold sinkCandidate at h
  by_cases hi : i = 0
  · by_cases hj : j = 0
    · rw [hi, hj]
    · rw [if_pos hi, if_neg hj] at h
      exact absurd h.symm (hne j)
  · by_cases hj : j = 0
    · rw [if_neg hi, if_pos hj] at h
      exact absurd h (hne i)
    · rw [if_neg hi, if_neg hj] at h
      exact toString_injective ((String.append_right_inj _).1 h)

/-- There are more candidates than names, so one of them is the name of no symbol. -/
theorem sinkName_not_mem (g : Grammar) : g.sinkName ∉ g.table.names := by
  unfold sinkName
  cases hfind : ((List.range (g.table.size + 1)).map sinkCandidate).find? fun name =>
      (g.table.get? name).isNone with
  | some name =>
    have hnone := List.find?_some hfind
    exact SymbolTable.get?_eq_none_iff.1 (Option.isNone_iff_eq_none.1 hnone)
  | none =>
    exfalso
    have htaken : (List.range (g.table.size + 1)).map sinkCandidate ⊆ g.table.names := by
      intro name hname
      by_contra hfree
      have hnone := List.find?_eq_none.1 hfind name hname
      rw [SymbolTable.get?_eq_none_iff.2 hfree] at hnone
      exact hnone rfl
    have hnodup := List.nodup_range.map sinkCandidate_injective (l := List.range (g.table.size + 1))
    have hlen := (hnodup.subperm htaken).length_le
    rw [List.length_map, List.length_range, SymbolTable.names, List.length_map] at hlen
    have hsize : g.table.size = g.table.entries.length := rfl
    omega

/-- The name of the state of a nonterminal. -/
def stateName (g : Grammar) (n : NonTerminal) : String :=
  (g.table.nameOf? (.nonterminal n)).getD ""

theorem nameOf?_eq (wf : g.WellFormed) (hn : n ∈ g.nonterminals) :
    g.table.nameOf? (.nonterminal n) = some (g.stateName n) := by
  obtain ⟨name, hname⟩ :=
    SymbolTable.exists_nameOf? (wf.contains _ (Vocabulary.uses_nonterminal.2 hn))
  rw [stateName, hname, Option.getD_some]

theorem stateName_inj (wf : g.WellFormed) (hn : n ∈ g.nonterminals) (hk : k ∈ g.nonterminals)
    (h : g.stateName n = g.stateName k) : n = k := by
  have hid := SymbolTable.id_eq_of_nameOf? (h ▸ nameOf?_eq wf hn) (nameOf?_eq wf hk)
  exact congrArg NonTerminal.mk hid

theorem mem_stateOrder (hstart : start ∈ g.nonterminals) :
    n ∈ g.stateOrder start ↔ n ∈ g.nonterminals := by
  simp only [stateOrder, List.mem_cons, OrderedSet.mem_toList, OrderedSet.mem_erase]
  constructor
  · rintro (rfl | ⟨hn, -⟩)
    · exact hstart
    · exact hn
  · intro hn
    by_cases heq : n = start
    · exact .inl heq
    · exact .inr ⟨hn, heq⟩

theorem nodup_stateOrder : (g.stateOrder start).Nodup := by
  rw [stateOrder, List.nodup_cons]
  refine ⟨?_, OrderedSet.nodup_toList _⟩
  rw [OrderedSet.mem_toList, OrderedSet.mem_erase]
  exact fun h => h.2 rfl

/-- The states are numbered in the order that is given. -/
theorem exists_addStates (wf : g.WellFormed) {order : List NonTerminal}
    (horder : ∀ n ∈ order, n ∈ g.nonterminals)
    (hnodup : (b.stateNames ++ order.map g.stateName).Nodup) :
    ∃ b', g.addStates order b = .ok b' ∧ b.Named b' (order.map g.stateName) := by
  induction order generalizing b with
  | nil => exact ⟨b, rfl, .refl b⟩
  | cons n order ih =>
    rw [List.forall_mem_cons] at horder
    have hnew : g.stateName n ∉ b.stateNames := by
      intro hmem
      exact (List.nodup_append.1 hnodup).2.2 _ hmem _ List.mem_cons_self rfl
    have hstate := (AutomatonBuilder.state_of_not_mem hnew).2
    obtain ⟨b', hrest, hnamed⟩ := ih (b := (b.state (g.stateName n)).2) horder.2 (by
      rw [hstate.stateNames]
      simpa using hnodup)
    refine ⟨b', ?_, hstate.trans hnamed⟩
    rw [addStates, List.foldlM_cons, nameText, nameOf?_eq wf horder.1]
    exact hrest

/-- The grammar has a body of a single terminal. -/
def NeedsSink (g : Grammar) : Prop := ∃ r ∈ g.rules, ∃ a, r.body = [.terminal a]

theorem needsSink_iff : (g.rules.toList.any fun r =>
    r.body.length = 1 && r.body.all Symbol.isTerminal) = true ↔ g.NeedsSink := by
  rw [List.any_eq_true]
  refine exists_congr fun r => and_congr_right fun _ => ?_
  constructor
  · intro h
    match hbody : r.body with
    | [.terminal a] => exact ⟨a, rfl⟩
    | [.nonterminal n] => simp [hbody, Symbol.isTerminal, Symbol.terminal?] at h
    | [] | _ :: _ :: _ => simp [hbody] at h
  · rintro ⟨a, hbody⟩
    rw [hbody]
    rfl

/-- The sink, if there is need of one, is a state of its own. -/
theorem exists_addSink (hnames : ∀ name ∈ b.stateNames, name ∈ g.table.names) :
    ∃ names, b.Named (g.addSink b).2 names ∧ (∀ name ∈ names, name = g.sinkName) ∧
      (g.NeedsSink → (g.addSink b).1 = b.stateNames.length ∧ names.length = 1) := by
  by_cases hneeds : g.NeedsSink
  · have hnew : g.sinkName ∉ b.stateNames := fun h => g.sinkName_not_mem (hnames _ h)
    obtain ⟨hsink, hnamed⟩ := AutomatonBuilder.state_of_not_mem hnew
    rw [addSink, if_pos (needsSink_iff.2 hneeds)]
    exact ⟨[g.sinkName], hnamed, by simp, fun _ => ⟨hsink, rfl⟩⟩
  · rw [addSink, if_neg fun h => hneeds (needsSink_iff.1 h)]
    exact ⟨[], .refl b, by simp, fun h => absurd h hneeds⟩

/-- Every nonterminal has a state of its own, and so has the sink if there is need of one. -/
structure Numbered (g : Grammar) (stateOf : NonTerminal → Nat) (sink size : Nat) : Prop where
  lt : ∀ n ∈ g.nonterminals, stateOf n < size
  sink_lt : g.NeedsSink → sink < size
  injective : ∀ n ∈ g.nonterminals, ∀ k ∈ g.nonterminals, stateOf n = stateOf k → n = k
  ne_sink : g.NeedsSink → ∀ n ∈ g.nonterminals, stateOf n ≠ sink

/-- The name of the state of a nonterminal, or that of the sink. -/
def NamesState (g : Grammar) (name : String) : Prop :=
  name = g.sinkName ∨ ∃ n ∈ g.nonterminals, name = g.stateName n

/-- What is declared before the bodies are added. -/
structure Declared (g : Grammar) (stateOf : NonTerminal → Nat) (sink : Nat) (b : AutomatonBuilder) :
    Prop where
  table : b.table = g.table
  numbered : g.Numbered stateOf sink b.stateNames.length
  named : ∀ name ∈ b.stateNames, g.NamesState name
  mem_alphabet : ∀ a, a ∈ b.alphabet ↔ a ∈ g.terminals
  transitions : b.transitions = ∅
  accepting : b.accepting = ∅

/-- The nonterminals have the first numbers, and the sink has the next one. -/
theorem numbered_of_length {size : Nat} (hstart : start ∈ g.nonterminals)
    (hle : (g.stateOrder start).length ≤ size)
    (hsink : g.NeedsSink → sink = (g.stateOrder start).length ∧ sink < size) :
    g.Numbered (fun n => (g.stateOrder start).idxOf n) sink size := by
  have hlt : ∀ n ∈ g.nonterminals, (g.stateOrder start).idxOf n < (g.stateOrder start).length := by
    intro n hn
    exact List.idxOf_lt_length_of_mem ((mem_stateOrder hstart).2 hn)
  refine ⟨?_, ?_, ?_, ?_⟩
  · intro n hn
    have hn' := hlt n hn
    omega
  · intro hneeds
    exact (hsink hneeds).2
  · intro n hn k _ heq
    exact (List.idxOf_inj ((mem_stateOrder hstart).2 hn)).1 heq
  · intro hneeds n hn heq
    have hn' := hlt n hn
    have hsink' := (hsink hneeds).1
    omega

theorem exists_declareStates (wf : g.WellFormed) (hstart : start ∈ g.nonterminals) :
    ∃ sink b, g.declareStates start = .ok (sink, b) ∧
      g.Declared (fun n => (g.stateOrder start).idxOf n) sink b := by
  have hcontains : ∀ a ∈ g.terminals.toList, g.table.contains (.terminal a) = true :=
    fun a ha => wf.contains _ (Vocabulary.uses_terminal.2 ha)
  obtain ⟨b₁, hletters, hlettered⟩ :=
    AutomatonBuilder.exists_addLetters (b := .empty g.table) hcontains
  have horder : ∀ n ∈ g.stateOrder start, n ∈ g.nonterminals :=
    fun n hn => (mem_stateOrder hstart).1 hn
  have hdistinct : (b₁.stateNames ++ (g.stateOrder start).map g.stateName).Nodup := by
    rw [hlettered.stateNames]
    exact nodup_stateOrder.map_on fun n hn k hk => stateName_inj wf (horder n hn) (horder k hk)
  obtain ⟨b₂, hstates, hnamed⟩ := exists_addStates wf horder hdistinct
  have hstateNames : b₂.stateNames = (g.stateOrder start).map g.stateName := by
    rw [hnamed.stateNames, hlettered.stateNames]
    rfl
  have hnames : ∀ name ∈ b₂.stateNames, name ∈ g.table.names := by
    intro name hname
    rw [hstateNames] at hname
    obtain ⟨n, hn, rfl⟩ := List.mem_map.1 hname
    exact SymbolTable.mem_names_of_nameOf? (nameOf?_eq wf (horder n hn))
  obtain ⟨names, hnamed', hsinkNames, hsink⟩ := exists_addSink hnames
  have hlen : (g.addSink b₂).2.stateNames.length = (g.stateOrder start).length + names.length := by
    rw [hnamed'.stateNames, List.length_append, hstateNames, List.length_map]
  refine ⟨(g.addSink b₂).1, (g.addSink b₂).2, ?_, ?_, ?_, ?_, ?_, ?_, ?_⟩
  · rw [declareStates, addLetters, hletters]
    show (g.addStates _ b₁ >>= _) = _
    rw [hstates]
    rfl
  · exact hnamed'.table.trans (hnamed.table.trans hlettered.table)
  · apply numbered_of_length hstart
    · omega
    · intro hneeds
      obtain ⟨hsink, hone⟩ := hsink hneeds
      rw [hstateNames, List.length_map] at hsink
      exact ⟨hsink, by omega⟩
  · intro name hname
    rw [hnamed'.stateNames, List.mem_append, hstateNames, List.mem_map] at hname
    rcases hname with ⟨n, hn, rfl⟩ | hname
    · exact .inr ⟨n, horder n hn, rfl⟩
    · exact .inl (hsinkNames name hname)
  · intro a
    rw [hnamed'.alphabet, hnamed.alphabet, hlettered.mem_alphabet]
    exact or_iff_left (OrderedSet.not_mem_empty a)
  · rw [hnamed'.transitions, hnamed.transitions, hlettered.transitions]
    rfl
  · rw [hnamed'.accepting, hnamed.accepting, hlettered.accepting]
    rfl

/-- The transition of a body at the state `q`. -/
inductive BodyEdge (stateOf : NonTerminal → Nat) (sink q : Nat) : Body → Transition → Prop
  | terminal (a : Terminal) : BodyEdge stateOf sink q [.terminal a] ⟨q, a, sink⟩
  | pair (a : Terminal) (n : NonTerminal) :
      BodyEdge stateOf sink q [.terminal a, .nonterminal n] ⟨q, a, stateOf n⟩

/-- The accepting state of a body at the state `q`. -/
inductive BodyEnd (sink q : Nat) : Body → Nat → Prop
  | empty : BodyEnd sink q [] q
  | terminal (a : Terminal) : BodyEnd sink q [.terminal a] sink

theorem bodyEdge_terminal_iff {a : Terminal} {t : Transition} :
    BodyEdge stateOf sink q [.terminal a] t ↔ t = ⟨q, a, sink⟩ := by
  constructor
  · rintro ⟨⟩
    rfl
  · rintro rfl
    exact .terminal a

theorem bodyEdge_pair_iff {a : Terminal} {t : Transition} :
    BodyEdge stateOf sink q [.terminal a, .nonterminal n] t ↔ t = ⟨q, a, stateOf n⟩ := by
  constructor
  · rintro ⟨⟩
    rfl
  · rintro rfl
    exact .pair a n

theorem bodyEnd_empty_iff {p : Nat} : BodyEnd sink q [] p ↔ p = q := by
  constructor
  · rintro ⟨⟩
    rfl
  · rintro rfl
    exact .empty

theorem bodyEnd_terminal_iff {a : Terminal} {p : Nat} :
    BodyEnd sink q [.terminal a] p ↔ p = sink := by
  constructor
  · rintro ⟨⟩
    rfl
  · rintro rfl
    exact .terminal a

theorem extended_addBody (stateOf : NonTerminal → Nat) (sink q : Nat) (b : AutomatonBuilder)
    (body : Body) :
    b.Extended (addBody stateOf sink q b body) (BodyEdge stateOf sink q body)
      (BodyEnd sink q body) := by
  unfold addBody
  split
  · apply (b.extended_accept q).congr
    · intro t
      exact iff_of_false id (by rintro ⟨⟩)
    · intro p
      exact bodyEnd_empty_iff.symm
  · next a =>
    have hboth := (b.extended_transition q a sink).trans
      ((b.transition q a sink).extended_accept sink)
    apply hboth.congr
    · intro t
      rw [or_false, bodyEdge_terminal_iff]
    · intro p
      rw [false_or, bodyEnd_terminal_iff]
  · next a n =>
    apply (b.extended_transition q a (stateOf n)).congr
    · intro t
      exact bodyEdge_pair_iff.symm
    · intro p
      exact iff_of_false id (by rintro ⟨⟩)
  · next hempty hterm hpair =>
    apply (AutomatonBuilder.Extended.refl b).congr
    · intro t
      apply iff_of_false id
      rintro (a | ⟨a, n⟩)
      · exact hterm a rfl
      · exact hpair a n rfl
    · intro p
      apply iff_of_false id
      rintro (_ | a)
      · exact hempty rfl
      · exact hterm a rfl

/-- A nonterminal has the bodies that unit rules lead to. -/
theorem mem_stateBodies (wf : g.WellFormed) {units : Relation}
    (hunits : ∀ A B, units.relatedId A.id B.id = true ↔ Relation.TransGen g.UnitStep A B) :
    body ∈ g.stateBodies units n ↔
      ∃ k, Relation.ReflTransGen g.UnitStep n k ∧ ⟨k, body⟩ ∈ g.rules := by
  simp only [stateBodies, unitSources, List.mem_flatMap, List.mem_filter, OrderedSet.mem_toList,
    mem_bodies, Bool.or_eq_true, decide_eq_true_eq, hunits,
    Relation.reflTransGen_iff_eq_or_transGen]
  refine exists_congr fun k => ⟨?_, ?_⟩
  · rintro ⟨⟨-, hk⟩, hrule⟩
    exact ⟨hk, hrule⟩
  · rintro ⟨hk, hrule⟩
    exact ⟨⟨wf.lhs_mem hrule, hk⟩, hrule⟩

/-- What bodies say of the state of a nonterminal that unit rules lead to them from. -/
def AtState (g : Grammar) (P : NonTerminal → Body → Prop) : Prop :=
  ∃ n ∈ g.nonterminals, ∃ k body, Relation.ReflTransGen g.UnitStep n k ∧ ⟨k, body⟩ ∈ g.rules ∧
    P n body

theorem exists_body_iff (wf : g.WellFormed) {units : Relation}
    (hunits : ∀ A B, units.relatedId A.id B.id = true ↔ Relation.TransGen g.UnitStep A B)
    {P : NonTerminal → Body → Prop} :
    (∃ n ∈ g.nonterminals.toList, ∃ body ∈ g.stateBodies units n, P n body) ↔ g.AtState P := by
  refine exists_congr fun n => and_congr_right fun _ => ?_
  simp only [mem_stateBodies wf hunits]
  constructor
  · rintro ⟨body, ⟨k, hk, hrule⟩, hP⟩
    exact ⟨k, body, hk, hrule, hP⟩
  · rintro ⟨k, body, hk, hrule, hP⟩
    exact ⟨body, ⟨k, hk, hrule⟩, hP⟩

theorem extended_addBodies (wf : g.WellFormed) {units : Relation}
    (hunits : ∀ A B, units.relatedId A.id B.id = true ↔ Relation.TransGen g.UnitStep A B)
    (stateOf : NonTerminal → Nat) (sink : Nat) (b : AutomatonBuilder) :
    b.Extended (g.addBodies units stateOf sink b)
      (fun t => g.AtState fun n body => BodyEdge stateOf sink (stateOf n) body t)
      fun q => g.AtState fun n body => BodyEnd sink (stateOf n) body q := by
  have hbodies : ∀ (b : AutomatonBuilder) (n : NonTerminal),
      b.Extended ((g.stateBodies units n).foldl (addBody stateOf sink (stateOf n)) b)
        (fun t => ∃ body ∈ g.stateBodies units n, BodyEdge stateOf sink (stateOf n) body t)
        fun q => ∃ body ∈ g.stateBodies units n, BodyEnd sink (stateOf n) body q := by
    intro b n
    apply AutomatonBuilder.Extended.foldl
    intro b body _
    exact extended_addBody stateOf sink (stateOf n) b body
  have hall := AutomatonBuilder.Extended.foldl (l := g.nonterminals.toList)
    (fun b n _ => hbodies b n) b
  simp only [exists_body_iff wf hunits] at hall
  exact hall

/-- An automaton with a state for each nonterminal, and the transitions and ends of its bodies. -/
structure Rendered (g : Grammar) (m : Automaton) (stateOf : NonTerminal → Nat) (sink : Nat) :
    Prop where
  table : m.table = g.table
  numbered : g.Numbered stateOf sink m.numStates
  named : ∀ name ∈ m.stateNames, g.NamesState name
  start : ∃ start, g.start = some start ∧ m.start = stateOf start
  mem_transitions : ∀ t, t ∈ m.transitions ↔
    g.AtState fun n body => BodyEdge stateOf sink (stateOf n) body t
  mem_accepting : ∀ q, q ∈ m.accepting ↔ g.AtState fun n body => BodyEnd sink (stateOf n) body q

/-- Transitions lead from states to states on letters. -/
theorem declared_of_bodyEdge (wf : g.WellFormed) (hd : g.Declared stateOf sink b)
    {t : Transition} (ht : g.AtState fun n body => BodyEdge stateOf sink (stateOf n) body t) :
    t.source < b.stateNames.length ∧ t.target < b.stateNames.length ∧ t.letter ∈ b.alphabet := by
  obtain ⟨n, hn, k, body, -, hrule, hedge⟩ := ht
  have hsource := hd.numbered.lt n hn
  cases hedge with
  | terminal a =>
    have ha := wf.uses_body hrule (List.mem_singleton.2 rfl)
    exact ⟨hsource, hd.numbered.sink_lt ⟨_, hrule, a, rfl⟩,
      (hd.mem_alphabet a).2 (Vocabulary.uses_terminal.1 ha)⟩
  | pair a next =>
    have ha := wf.uses_body hrule List.mem_cons_self
    have hnext := wf.uses_body hrule (List.mem_cons_of_mem _ (List.mem_singleton.2 rfl))
    exact ⟨hsource, hd.numbered.lt next (Vocabulary.uses_nonterminal.1 hnext),
      (hd.mem_alphabet a).2 (Vocabulary.uses_terminal.1 ha)⟩

theorem declared_of_bodyEnd (hd : g.Declared stateOf sink b)
    (hq : g.AtState fun n body => BodyEnd sink (stateOf n) body q) : q < b.stateNames.length := by
  obtain ⟨n, hn, k, body, -, hrule, hend⟩ := hq
  cases hend with
  | empty => exact hd.numbered.lt n hn
  | terminal a => exact hd.numbered.sink_lt ⟨_, hrule, a, rfl⟩

/-- The automaton over the states that are declared can be built, and renders the bodies. -/
theorem exists_rendered (wf : g.WellFormed) (hstart : g.start = some start) {units : Relation}
    (hunits : ∀ A B, units.relatedId A.id B.id = true ↔ Relation.TransGen g.UnitStep A B)
    (hd : g.Declared stateOf sink b) :
    ∃ m, ((g.addBodies units stateOf sink b).setStart (stateOf start)).build = .ok m ∧
      g.Rendered m stateOf sink := by
  have hext := extended_addBodies wf hunits stateOf sink b
  have htransitions : ∀ t, t ∈ (g.addBodies units stateOf sink b).transitions ↔
      g.AtState fun n body => BodyEdge stateOf sink (stateOf n) body t := by
    intro t
    rw [hext.mem_transitions, hd.transitions]
    exact or_iff_right (OrderedSet.not_mem_empty t)
  have haccepting : ∀ q, q ∈ (g.addBodies units stateOf sink b).accepting ↔
      g.AtState fun n body => BodyEnd sink (stateOf n) body q := by
    intro q
    rw [hext.mem_accepting, hd.accepting]
    exact or_iff_right (OrderedSet.not_mem_empty q)
  have hfault : ((g.addBodies units stateOf sink b).setStart (stateOf start)).fault?
      (stateOf start) = none := by
    apply AutomatonBuilder.fault?_eq_none_of
    · simpa [AutomatonBuilder.setStart, hext.stateNames] using
        hd.numbered.lt start (wf.start_mem hstart)
    · intro q hq
      simpa [AutomatonBuilder.setStart, hext.stateNames] using
        declared_of_bodyEnd hd ((haccepting q).1 hq)
    · intro t ht
      simpa [AutomatonBuilder.setStart, hext.stateNames, hext.alphabet] using
        declared_of_bodyEdge wf hd ((htransitions t).1 ht)
  obtain ⟨m, hbuild, htable, hnames, htrans, hm, hacc⟩ := AutomatonBuilder.exists_build rfl hfault
  refine ⟨m, hbuild, htable.trans (hext.table.trans hd.table), ?_, ?_, ⟨start, hstart, hm⟩, ?_, ?_⟩
  · have hsize : m.numStates = b.stateNames.length :=
      congrArg List.length (hnames.trans hext.stateNames)
    rw [hsize]
    exact hd.numbered
  · rw [hnames]
    exact hext.stateNames ▸ hd.named
  · intro t
    rw [htrans]
    exact htransitions t
  · intro q
    rw [hacc]
    exact haccepting q

theorem exists_bodyText? {body : Body} (hbody : ∀ s ∈ body, s.id < g.table.size) :
    ∃ text, g.bodyText? (body.map .symbol) = some text := by
  have hnames : ∃ names, (body.map Mark.symbol).mapM g.table.markText? = some names := by
    induction body with
    | nil => exact ⟨[], rfl⟩
    | cons s body ih =>
      rw [List.forall_mem_cons] at hbody
      obtain ⟨name, hname⟩ := Option.isSome_iff_exists.1 (SymbolTable.nameOf?_isSome_iff.2 hbody.1)
      obtain ⟨names, hnames⟩ := ih hbody.2
      exact ⟨name :: names, by simp [SymbolTable.markText?, hname, hnames]⟩
  obtain ⟨names, hnames⟩ := hnames
  cases body with
  | nil => exact ⟨epsilonText, rfl⟩
  | cons s body =>
    refine ⟨joinNames names, ?_⟩
    show (((s :: body).map Mark.symbol).mapM g.table.markText?).map joinNames = _
    rw [hnames]
    rfl

/-- The first rule that is not right-linear is the one that is refused. -/
theorem checkRightLinear_eq_error (wf : g.WellFormed) {before after : List Rule} {r : Rule}
    (hrules : g.rules.toList = before ++ r :: after) (hbefore : ∀ s ∈ before, RightLinear s.body)
    (hr : ¬ RightLinear r.body) :
    ∃ lhs rhs, g.table.nameOf? (.nonterminal r.lhs) = some lhs ∧ g.bodyText? r.marks = some rhs ∧
      g.checkRightLinear = .error (.notRightLinear lhs rhs) := by
  have hmem : r ∈ g.rules := by
    rw [← OrderedSet.mem_toList, hrules]
    exact List.mem_append_right _ List.mem_cons_self
  have hfind : (g.rules.toList.find? fun r => !isRightLinearBody r.body) = some r := by
    rw [List.find?_eq_some_iff_append]
    refine ⟨?_, before, after, hrules, ?_⟩
    · rwa [Bool.not_eq_true', ← Bool.not_eq_true, isRightLinearBody_iff]
    · intro s hs
      simpa [isRightLinearBody_iff] using hbefore s hs
  have hlhs := nameOf?_eq wf (wf.lhs_mem hmem)
  obtain ⟨rhs, hrhs⟩ := exists_bodyText? (wf.below r hmem).2
  refine ⟨g.stateName r.lhs, rhs, hlhs, hrhs, ?_⟩
  rw [checkRightLinear, hfind]
  simp only [nameText, hlhs, Rule.marks, hrhs]
  rfl

theorem checkRightLinear_eq_ok_iff :
    g.checkRightLinear = .ok () ↔ ∀ r ∈ g.rules, RightLinear r.body := by
  unfold checkRightLinear
  cases hfind : g.rules.toList.find? fun r => !isRightLinearBody r.body with
  | none =>
    rw [List.find?_eq_none] at hfind
    simpa [isRightLinearBody_iff, OrderedSet.mem_toList] using hfind
  | some r =>
    have hbad : ¬ RightLinear r.body := by
      have hnot := List.find?_some hfind
      rwa [Bool.not_eq_true', ← Bool.not_eq_true, isRightLinearBody_iff] at hnot
    refine iff_of_false (fun h => ?_) fun h => hbad (h r (List.mem_of_find?_eq_some hfind))
    obtain ⟨_, -, htext⟩ := bind_eq_ok_iff.1 h
    split at htext <;> cases htext

theorem toAutomaton_eq_error (wf : g.WellFormed) {e : ConversionError}
    (h : g.checkRightLinear = .error e) : g.toAutomaton = .error e := by
  obtain ⟨start, hstart, -⟩ := wf.exists_start
  rw [toAutomaton, wf.validStart_eq hstart, h]
  rfl

theorem rightLinear_of_toAutomaton (wf : g.WellFormed) {m : Automaton}
    (h : g.toAutomaton = .ok m) : ∀ r ∈ g.rules, RightLinear r.body := by
  rw [← checkRightLinear_eq_ok_iff]
  cases hcheck : g.checkRightLinear with
  | ok => rfl
  | error e =>
    rw [toAutomaton_eq_error wf hcheck] at h
    cases h

theorem exists_toAutomaton (wf : g.WellFormed) (hright : ∀ r ∈ g.rules, RightLinear r.body) :
    ∃ m, g.toAutomaton = .ok m ∧ ∃ stateOf sink, g.Rendered m stateOf sink := by
  obtain ⟨start, hstart, hmem⟩ := wf.exists_start
  obtain ⟨units, hunits, -, hrelated⟩ := exists_unitRelation wf.below
  obtain ⟨sink, b, hdeclare, hd⟩ := exists_declareStates wf hmem
  obtain ⟨m, hbuild, hm⟩ := exists_rendered wf hstart hrelated hd
  refine ⟨m, ?_, _, sink, hm⟩
  rw [toAutomaton, wf.validStart_eq hstart, checkRightLinear_eq_ok_iff.2 hright, hunits]
  show (g.declareStates start >>= _) = _
  rw [hdeclare]
  show Except.mapError _ (AutomatonBuilder.build _) = _
  rw [hbuild]
  rfl

/-- The conversion refuses a well-formed grammar just for its first body that is not right-linear. -/
theorem toAutomaton_eq_notRightLinear (wf : g.WellFormed) {e : ConversionError}
    (h : g.toAutomaton = .error e) : ∃ lhs rhs, e = .notRightLinear lhs rhs := by
  cases hfind : g.rules.toList.find? fun r => !isRightLinearBody r.body with
  | none =>
    have hright : ∀ r ∈ g.rules, RightLinear r.body := by
      intro r hr
      have hbody := List.find?_eq_none.1 hfind r (OrderedSet.mem_toList.2 hr)
      exact isRightLinearBody_iff.1 (by simpa using hbody)
    obtain ⟨m, hm, -⟩ := exists_toAutomaton wf hright
    rw [hm] at h
    cases h
  | some r =>
    obtain ⟨hr, before, after, hsplit, hbefore⟩ := List.find?_eq_some_iff_append.1 hfind
    obtain ⟨lhs, rhs, -, -, hcheck⟩ := checkRightLinear_eq_error wf hsplit
      (fun s hs => isRightLinearBody_iff.1 (by simpa using hbefore s hs))
      (fun hright => by simp [isRightLinearBody_iff.2 hright] at hr)
    rw [toAutomaton_eq_error wf hcheck] at h
    exact ⟨lhs, rhs, (Except.error.inj h).symm⟩

/-- The automaton of a grammar comes from a builder. -/
theorem exists_build_of_toAutomaton {m : Automaton} (h : g.toAutomaton = .ok m) :
    ∃ b : AutomatonBuilder, b.build = .ok m := by
  unfold toAutomaton at h
  obtain ⟨start, -, h⟩ := bind_eq_ok_iff.1 h
  obtain ⟨-, -, h⟩ := bind_eq_ok_iff.1 h
  obtain ⟨units, -, h⟩ := bind_eq_ok_iff.1 h
  obtain ⟨⟨sink, b⟩, -, h⟩ := bind_eq_ok_iff.1 h
  exact ⟨_, mapError_eq_ok_iff.1 h⟩

end Grammar

end FormalLanguage
