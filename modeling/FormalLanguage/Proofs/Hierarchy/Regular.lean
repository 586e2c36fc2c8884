import Mathlib.Algebra.Order.BigOperators.Group.List
import Mathlib.Computability.MyhillNerode
import Mathlib.Computability.NFA
import Mathlib.Data.Set.Finite.Powerset
import FormalLanguage.Automaton.Path
import FormalLanguage.Grammar.Derivation
import FormalLanguage.Proofs.RightLinear.Construction

/-!
Regular grammars have regular languages. Main statement: the words of a grammar whose bodies are all
right-linear, or all left-linear, are those of a finite automaton.
-/
namespace FormalLanguage

variable {a : Terminal} {w : Word}

namespace Automaton

variable {size : Nat} {letters : List Terminal} {step : Fin size → Terminal → Fin size}
  {start q : Fin size} {accept : Fin size → Bool}

/-- The table of the terminals below a number, each named by its own number. -/
def numberedTable (size : Nat) : SymbolTable where
  entries := (List.range size).map fun i => ⟨toString i, .terminal⟩
  nameSpace := {}
  position := 0
  nodup := by
    rw [List.map_map]
    exact List.nodup_range.map fun i j h => toString_injective h
  passed _ h := absurd h (Nat.not_lt_zero _)

theorem contains_numberedTable (h : a.id < size) :
    (numberedTable size).contains (.terminal a) = true := by
  simp [SymbolTable.contains, numberedTable, Symbol.id, Symbol.kind, h]

/-- A step for every state and every letter of a list. -/
def stepsOf (letters : List Terminal) (step : Fin size → Terminal → Fin size) :
    OrderedSet Transition :=
  OrderedSet.ofList
    ((List.finRange size).flatMap fun (q : Fin size) => letters.map fun a => ⟨q, a, step q a⟩)

theorem mem_stepsOf {t : Transition} :
    t ∈ stepsOf letters step ↔ ∃ q : Fin size, ∃ a ∈ letters, t = ⟨q, a, step q a⟩ := by
  simp [stepsOf, eq_comm]

/-- The automaton with one target for every state and every letter of a list. -/
def ofStep (letters : List Terminal) (step : Fin size → Terminal → Fin size) (start : Fin size)
    (accept : Fin size → Bool) : Automaton where
  table := numberedTable ((letters.map Terminal.id).sum + 1)
  alphabet := OrderedSet.ofList letters
  stateNames := (List.range size).map toString
  transitions := stepsOf letters step
  start := start
  accepting := OrderedSet.ofList (((List.finRange size).filter accept).map Fin.val)
  contains_letter a ha := by
    have hle : a.id ≤ (letters.map Terminal.id).sum :=
      List.le_sum_of_mem (List.mem_map_of_mem (OrderedSet.mem_ofList.1 ha))
    exact contains_numberedTable (Nat.lt_succ_of_le hle)
  letter_mem t ht := by
    obtain ⟨q, a, ha, rfl⟩ := mem_stepsOf.1 ht
    exact OrderedSet.mem_ofList.2 ha
  source_lt t ht := by
    obtain ⟨q, a, -, rfl⟩ := mem_stepsOf.1 ht
    simp
  target_lt t ht := by
    obtain ⟨q, a, -, rfl⟩ := mem_stepsOf.1 ht
    simp
  start_lt := by simp
  accepting_lt q hq := by
    obtain ⟨p, -, rfl⟩ := List.mem_map.1 (OrderedSet.mem_ofList.1 hq)
    simp

theorem path_ofStep_iff {p : Nat} : (ofStep letters step start accept).Path q w p ↔
    (∀ a ∈ w, a ∈ letters) ∧ p = w.foldl step q := by
  induction w generalizing q with
  | nil => simp [eq_comm]
  | cons a w ih =>
    rw [path_cons_iff, List.forall_mem_cons, List.foldl_cons, and_assoc, ← ih]
    constructor
    · rintro ⟨r, ht, hrest⟩
      obtain ⟨q', a', ha, heq⟩ := mem_stepsOf.1 ht
      obtain ⟨hq, rfl, rfl⟩ := Transition.mk.inj heq
      rw [Fin.val_inj] at hq
      subst hq
      exact ⟨ha, hrest⟩
    · rintro ⟨ha, hrest⟩
      exact ⟨_, mem_stepsOf.2 ⟨q, a, ha, rfl⟩, hrest⟩

theorem accepts_ofStep_iff : (ofStep letters step start accept).accepts w = true ↔
    (∀ a ∈ w, a ∈ letters) ∧ accept (w.foldl step start) = true := by
  have hmem : ∀ q : Nat, q ∈ (ofStep letters step start accept).accepting ↔
      ∃ p : Fin size, accept p = true ∧ p.val = q := by
    intro q
    simp [ofStep]
  rw [accepts_iff]
  constructor
  · rintro ⟨q, hq, hpath⟩
    obtain ⟨p, hp, rfl⟩ := (hmem q).1 hq
    obtain ⟨hw, heq⟩ := path_ofStep_iff.1 hpath
    rw [Fin.val_inj] at heq
    exact ⟨hw, heq ▸ hp⟩
  · rintro ⟨hw, haccept⟩
    exact ⟨_, (hmem _).2 ⟨_, haccept, rfl⟩, path_ofStep_iff.2 ⟨hw, rfl⟩⟩

/-- A regular language over finitely many letters has an automaton. -/
theorem exists_of_isRegular {L : Language Terminal} (hL : L.IsRegular)
    (hletters : ∀ w ∈ L, ∀ a ∈ w, a ∈ letters) :
    ∃ m : Automaton, ∀ w, m.accepts w = true ↔ w ∈ L := by
  classical
  obtain ⟨σ, _, M, rfl⟩ := hL
  let N := DFA.reindex (Fintype.equivFin σ) M
  have hN : N.accepts = M.accepts := DFA.accepts_reindex M (Fintype.equivFin σ)
  refine ⟨ofStep letters N.step N.start fun q => decide (q ∈ N.accept), fun w => ?_⟩
  rw [accepts_ofStep_iff, decide_eq_true_eq, ← hN]
  refine and_iff_right_of_imp fun hw => hletters w ?_
  rw [← hN]
  exact hw

end Automaton

namespace Grammar

variable {g : Grammar} {start n : NonTerminal} {form body : Body} {u v : Word}

/-- The letters of the rules. -/
def ruleLetters (g : Grammar) : List Terminal :=
  g.rules.toList.flatMap fun r => r.body.filterMap Symbol.terminal?

theorem mem_ruleLetters {r : Rule} (hr : r ∈ g.rules) (ha : .terminal a ∈ r.body) :
    a ∈ g.ruleLetters :=
  List.mem_flatMap.2 ⟨r, hr, List.mem_filterMap.2 ⟨.terminal a, ha, rfl⟩⟩

/-- Words have the letters of the form and of the rules. -/
theorem letter_of_yields (h : g.Yields form w) (ha : a ∈ w) :
    .terminal a ∈ form ∨ a ∈ g.ruleLetters := by
  induction h with
  | nil => cases ha
  | terminal b _ ih =>
    rcases List.mem_cons.1 ha with rfl | ha
    · exact .inl List.mem_cons_self
    · exact (ih ha).imp_left (List.mem_cons_of_mem _)
  | nonterminal hr _ _ ihu ihv =>
    rcases List.mem_append.1 ha with ha | ha
    · exact .inr ((ihu ha).elim (mem_ruleLetters hr) id)
    · exact (ihv ha).imp_left (List.mem_cons_of_mem _)

/-- The forms that may be left over once a word has been begun: nothing, or one symbol. -/
def rests (g : Grammar) (start : NonTerminal) : List Body :=
  [] :: [.nonterminal start] :: (g.rules.toList.flatMap Rule.body).map ([·])

theorem singleton_mem_rests {r : Rule} {s : Symbol} (hr : r ∈ g.rules) (hs : s ∈ r.body) :
    [s] ∈ g.rests start :=
  List.mem_cons_of_mem _ (List.mem_cons_of_mem _
    (List.mem_map.2 ⟨s, List.mem_flatMap.2 ⟨r, hr, hs⟩, rfl⟩))

/-- Right-linear forms are derived from the left: behind what has been read there is one symbol. -/
theorem exists_rest (hright : ∀ r ∈ g.rules, RightLinear r.body) (hform : RightLinear form)
    (hmem : ∀ s ∈ form, [s] ∈ g.rests start) (h : g.Yields form w) (hw : w = u ++ v)
    (hu : u ≠ []) :
    ∃ rest ∈ g.rests start, g.Derives form (.ofWord u ++ rest) ∧ g.Yields rest v := by
  induction h generalizing u with
  | nil => exact absurd (List.append_eq_nil_iff.1 hw.symm).1 hu
  | @terminal a tail w htail ih =>
    obtain ⟨b, u, rfl⟩ := List.exists_cons_of_ne_nil hu
    obtain ⟨rfl, rfl⟩ := List.cons.inj hw
    have hlinear : RightLinear tail ∧ tail ∈ g.rests start := by
      cases hform with
      | terminal => exact ⟨.empty, List.mem_cons_self⟩
      | pair _ k => exact ⟨.unit k, hmem _ (List.mem_cons_of_mem _ List.mem_cons_self)⟩
    by_cases hnil : u = []
    · subst hnil
      exact ⟨tail, hlinear.2, .refl _, htail⟩
    · obtain ⟨rest, hrest, hderives, hyields⟩ :=
        ih hlinear.1 (fun s hs => hmem s (List.mem_cons_of_mem _ hs)) rfl hnil
      exact ⟨rest, hrest, derives_append (.refl [.terminal a]) hderives, hyields⟩
  | @nonterminal r tail x y hr hx hy ihx _ =>
    cases hform
    cases hy
    rw [List.append_nil] at hw
    obtain ⟨rest, hrest, hderives, hyields⟩ :=
      ihx (hright r hr) (fun s hs => singleton_mem_rests hr hs) hw hu
    exact ⟨rest, hrest, (Derives.of_rule hr).trans hderives, hyields⟩

/-- The words of a nonterminal. -/
def wordsOfSymbol (g : Grammar) (n : NonTerminal) : Language Terminal :=
  {w | g.Yields [.nonterminal n] w}

/-- The words of some forms. -/
def wordsOfForms (g : Grammar) (forms : Set Body) : Language Terminal :=
  {w | ∃ form ∈ forms, g.Yields form w}

/-- What may follow a word is told by the forms that the word leaves over. -/
theorem leftQuotient_eq (hright : ∀ r ∈ g.rules, RightLinear r.body) (start : NonTerminal)
    (u : Word) : (g.wordsOfSymbol start).leftQuotient u = g.wordsOfForms
      {rest | rest ∈ g.rests start ∧ g.Derives [.nonterminal start] (.ofWord u ++ rest)} := by
  ext v
  constructor
  · intro h
    by_cases hnil : u = []
    · subst hnil
      exact ⟨[.nonterminal start], ⟨by simp [rests], .refl _⟩, h⟩
    · have hmem : ∀ s ∈ [Symbol.nonterminal start], [s] ∈ g.rests start := by
        simp [rests]
      obtain ⟨rest, hrest, hderives, hyields⟩ := exists_rest hright (.unit start) hmem h rfl hnil
      exact ⟨rest, ⟨hrest, hderives⟩, hyields⟩
  · rintro ⟨rest, ⟨-, hderives⟩, hyields⟩
    have hword := derives_append (.refl (.ofWord u)) (derives_of_yields hyields)
    rw [← Body.ofWord_append] at hword
    exact yields_of_derives (hderives.trans hword)

/-- A nonterminal of a right-linear grammar leaves finitely many languages over. -/
theorem isRegular_of_rightLinear (hright : ∀ r ∈ g.rules, RightLinear r.body)
    (start : NonTerminal) : (g.wordsOfSymbol start).IsRegular := by
  apply Language.IsRegular.of_finite_range_leftQuotient
  have hrests : {rest | rest ∈ g.rests start}.Finite := List.finite_toSet (g.rests start)
  have hfinite : {forms | forms ⊆ {rest | rest ∈ g.rests start}}.Finite := hrests.finite_subsets
  refine (hfinite.image g.wordsOfForms).subset ?_
  rintro _ ⟨u, rfl⟩
  exact ⟨_, fun rest hrest => hrest.1, (leftQuotient_eq hright start u).symm⟩

section Mirror

/-- The grammar with all bodies read backwards. -/
def mirror (g : Grammar) : Grammar :=
  { g with rules := OrderedSet.ofList (g.rules.toList.map fun r => ⟨r.lhs, r.body.reverse⟩) }

theorem mem_mirror {r : Rule} : r ∈ g.mirror.rules ↔ ⟨r.lhs, r.body.reverse⟩ ∈ g.rules := by
  simp only [mirror, OrderedSet.mem_ofList, List.mem_map, OrderedSet.mem_toList]
  constructor
  · rintro ⟨s, hs, rfl⟩
    rwa [List.reverse_reverse]
  · intro hr
    exact ⟨_, hr, by rw [List.reverse_reverse]⟩

theorem mirror_mirror (g : Grammar) : g.mirror.mirror = g := by
  have hrules : g.mirror.mirror.rules = g.rules := by
    apply OrderedSet.ext
    intro r
    rw [mem_mirror, mem_mirror, List.reverse_reverse]
  rw [← show { g with rules := g.mirror.mirror.rules } = g.mirror.mirror from rfl, hrules]

theorem yields_mirror (h : g.Yields form w) : g.mirror.Yields form.reverse w.reverse := by
  induction h with
  | nil => exact .nil
  | terminal a _ ih =>
    rw [List.reverse_cons, List.reverse_cons]
    exact ih.append (.terminal a .nil)
  | @nonterminal r _ _ _ hr _ _ ihu ihv =>
    rw [List.reverse_cons, List.reverse_append]
    have hmirror : ⟨r.lhs, r.body.reverse⟩ ∈ g.mirror.rules :=
      mem_mirror.2 (by rwa [List.reverse_reverse])
    exact ihv.append (yields_nonterminal_iff.2 ⟨_, hmirror, rfl, ihu⟩)

theorem yields_mirror_iff : g.mirror.Yields form.reverse w.reverse ↔ g.Yields form w := by
  refine ⟨fun h => ?_, yields_mirror⟩
  have hback := yields_mirror h
  rwa [mirror_mirror, List.reverse_reverse, List.reverse_reverse] at hback

theorem wordsOfSymbol_mirror (g : Grammar) (n : NonTerminal) :
    (g.mirror.wordsOfSymbol n).reverse = g.wordsOfSymbol n := by
  ext w
  change g.mirror.Yields [Symbol.nonterminal n].reverse w.reverse ↔ _
  exact yields_mirror_iff

theorem isRegular_of_leftLinear (hleft : ∀ r ∈ g.rules, isLeftLinearBody r.body = true)
    (start : NonTerminal) : (g.wordsOfSymbol start).IsRegular := by
  have hright : ∀ r ∈ g.mirror.rules, RightLinear r.body := by
    intro r hr
    have hbody := hleft _ (mem_mirror.1 hr)
    rwa [isLeftLinearBody_reverse, isRightLinearBody_iff] at hbody
  rw [← wordsOfSymbol_mirror]
  exact (isRegular_of_rightLinear hright start).reverse

end Mirror

theorem level_eq_regular_iff : g.level = .regular ↔
    (∀ r ∈ g.rules, isRightLinearBody r.body = true) ∨
      ∀ r ∈ g.rules, isLeftLinearBody r.body = true := by
  unfold level isRegular isRightLinear isLeftLinear
  split
  · next h =>
    rw [Bool.or_eq_true, List.all_eq_true, List.all_eq_true] at h
    exact iff_of_true rfl h
  · next h =>
    rw [Bool.or_eq_true, List.all_eq_true, List.all_eq_true] at h
    exact iff_of_false Level.noConfusion h

theorem isRegular_wordsOfSymbol (hlevel : g.level = .regular) (start : NonTerminal) :
    (g.wordsOfSymbol start).IsRegular := by
  rcases level_eq_regular_iff.1 hlevel with hright | hleft
  · exact isRegular_of_rightLinear (fun r hr => isRightLinearBody_iff.1 (hright r hr)) start
  · exact isRegular_of_leftLinear hleft start

/-- The words of a regular grammar are those of a finite automaton. -/
theorem exists_automaton_of_regular (hlevel : g.level = .regular) (hstart : g.start = some start) :
    ∃ m : Automaton, ∀ w, m.accepts w = true ↔ g.Generates w := by
  have hletters : ∀ w ∈ g.wordsOfSymbol start, ∀ a ∈ w, a ∈ g.ruleLetters := by
    intro w hw a ha
    simpa using letter_of_yields hw ha
  obtain ⟨m, hm⟩ := Automaton.exists_of_isRegular (isRegular_wordsOfSymbol hlevel start) hletters
  exact ⟨m, fun w => (hm w).trans (generates_iff_of_start hstart).symm⟩

/-- A left-linear grammar with a cycle of unit rules and an empty body. Its symbols are in no table. -/
def leftCycle : Grammar where
  rules := OrderedSet.ofList
    [⟨⟨0⟩, []⟩,
      ⟨⟨0⟩, [.nonterminal ⟨1⟩]⟩,
      ⟨⟨1⟩, [.nonterminal ⟨0⟩]⟩,
      ⟨⟨1⟩, [.nonterminal ⟨0⟩, .terminal ⟨2⟩]⟩]
  start := some ⟨0⟩

theorem leftCycle_automaton : leftCycle.isRightLinear = false ∧ leftCycle.level = .regular ∧
    ∃ m : Automaton, ∀ w, m.accepts w = true ↔ leftCycle.Generates w := by
  have hlevel : leftCycle.level = .regular := by decide +kernel
  exact ⟨by decide +kernel, hlevel, exists_automaton_of_regular hlevel rfl⟩

end Grammar

end FormalLanguage
