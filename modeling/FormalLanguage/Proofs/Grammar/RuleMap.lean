import FormalLanguage.Grammar.RuleMap
import FormalLanguage.Proofs.History

/-!
The rules of a grammar along calls that change them. Main statement: after any calls the map holds
just the rules that were added and kept from then on, each of them once and in order, without a marker
and without an empty set, so that a grammar that keeps its rules in one set has the same ones.
-/
namespace FormalLanguage

section Marks

variable {r s : Rule}

theorem Mark.map_symbol_strip (marks : List Mark) :
    (Mark.strip marks).map Mark.symbol = marks.filter (· ≠ .epsilon) := by
  induction marks with
  | nil => rfl
  | cons mark marks ih =>
    cases mark with
    | symbol s => simpa [strip, symbol?] using ih
    | epsilon => simpa [strip, symbol?, List.filterMap_cons] using ih

theorem Mark.compare_map_symbol (body body' : Body) :
    compare (body.map Mark.symbol) (body'.map Mark.symbol) = compare body body' := by
  induction body generalizing body' with
  | nil => cases body' <;> rfl
  | cons s body ih =>
    cases body' with
    | nil => rfl
    | cons t body' =>
      have hlex : compare (s :: body) (t :: body') = (compare s t).then (compare body body') :=
        List.compareLex_cons_cons
      rw [hlex, ← ih]
      exact List.compareLex_cons_cons

theorem Rule.marked_inj : r.marked = s.marked ↔ r = s := by
  refine ⟨fun h => ?_, congrArg Rule.marked⟩
  obtain ⟨hlhs, hmarks⟩ := MarkedRule.mk.inj h
  have hbody := congrArg Mark.strip hmarks
  rw [Rule.marks, Rule.marks, Mark.strip_map_symbol, Mark.strip_map_symbol] at hbody
  cases r; cases s
  simp_all

theorem Rule.compare_marked : compare r.marked s.marked = compare r s :=
  congrArg (compare r.lhs s.lhs).then (Mark.compare_map_symbol r.body s.body)

theorem Rule.marked_strip (n : NonTerminal) (marks : List Mark) :
    (⟨n, Mark.strip marks⟩ : Rule).marked = ⟨n, marks.filter (· ≠ .epsilon)⟩ :=
  congrArg (MarkedRule.mk n) (Mark.map_symbol_strip marks)

/-- A body without markers is that of a rule. -/
theorem MarkedRule.exists_marked {r : MarkedRule} (h : Mark.epsilon ∉ r.marks) :
    ∃ x : Rule, x.marked = r := by
  refine ⟨⟨r.lhs, Mark.strip r.marks⟩, ?_⟩
  have hsame : r.marks.filter (· ≠ .epsilon) = r.marks := by
    rw [List.filter_eq_self]
    intro mark hmark
    simpa using fun heq : mark = .epsilon => h (heq ▸ hmark)
  rw [Rule.marked_strip, hsame]

end Marks

namespace RuleMap

variable {m : RuleMap} {n lhs : NonTerminal} {marks body : List Mark} {r : MarkedRule}
  {keep : MarkedRule → Bool}

section Lookups

theorem hasRule_iff : m.hasRule n marks = true ↔
    ∃ bodies, m.bodies.get? n = some bodies ∧ marks ∈ bodies := by
  simp only [hasRule, Option.any_eq_true, decide_eq_true_eq]

theorem hasRule_iff_mem_getD : m.hasRule n marks = true ↔ marks ∈ (m.bodies.get? n).getD ∅ := by
  rw [hasRule_iff]
  cases m.bodies.get? n <;> simp

theorem hasRule_addRule : (m.addRule lhs body).2.hasRule n marks = true ↔
    (⟨n, marks⟩ : MarkedRule) = ⟨lhs, body.filter (· ≠ .epsilon)⟩ ∨ m.hasRule n marks = true := by
  rw [hasRule_iff_mem_getD, hasRule_iff_mem_getD, MarkedRule.mk.injEq]
  show marks ∈ ((m.bodies.insert lhs _).get? n).getD ∅ ↔ _
  rw [OrderedMap.get?_insert]
  by_cases hlhs : n = lhs
  · subst hlhs
    rw [if_pos Std.compare_self, Option.getD_some, OrderedSet.mem_insert, and_iff_right rfl]
  · rw [if_neg (mt Std.compare_eq_iff_eq.1 (Ne.symm hlhs)), or_iff_right (mt And.left hlhs)]

/-- A rule is told to be new just if it is not there. -/
theorem isNew_addRule : (m.addRule lhs body).1 = true ↔
    ¬ m.hasRule lhs (body.filter (· ≠ .epsilon)) = true :=
  decide_eq_true_iff.trans (not_congr hasRule_iff_mem_getD.symm)

/-- A set that is taken out because it is empty holds no body. -/
theorem hasRule_retain : (m.retain keep).hasRule n marks = true ↔
    keep ⟨n, marks⟩ = true ∧ m.hasRule n marks = true := by
  rw [hasRule_iff, hasRule_iff]
  simp only [retain, OrderedMap.get?_filter, OrderedMap.get?_map, Option.filter_eq_some_iff,
    Option.map_eq_some_iff]
  constructor
  · rintro ⟨_, ⟨⟨bodies, hget, rfl⟩, -⟩, hmarks⟩
    obtain ⟨hmem, hkeep⟩ := OrderedSet.mem_filter.1 hmarks
    exact ⟨hkeep, bodies, hget, hmem⟩
  · rintro ⟨hkeep, bodies, hget, hmem⟩
    have hmarks : marks ∈ bodies.filter fun marks => keep ⟨n, marks⟩ :=
      OrderedSet.mem_filter.2 ⟨hmem, hkeep⟩
    exact ⟨_, ⟨⟨bodies, hget, rfl⟩, by simpa using OrderedSet.isEmpty_eq_false hmarks⟩, hmarks⟩

theorem hasRule_removeNonTerminal : (m.removeNonTerminal lhs).hasRule n marks = true ↔
    n ≠ lhs ∧ m.hasRule n marks = true := by
  rw [hasRule_iff, hasRule_iff]
  simp only [removeNonTerminal, OrderedMap.erase, OrderedMap.get?_filter,
    Option.filter_eq_some_iff, decide_eq_true_eq, ne_eq, Std.compare_eq_iff_eq]
  constructor
  · rintro ⟨bodies, ⟨hget, hne⟩, hmem⟩
    exact ⟨hne, bodies, hget, hmem⟩
  · rintro ⟨hne, bodies, hget, hmem⟩
    exact ⟨bodies, ⟨hget, hne⟩, hmem⟩

end Lookups

section Listing

theorem mem_rules_iff : r ∈ m.rules ↔ m.hasRule r.lhs r.marks = true := by
  rw [hasRule_iff]
  simp only [rules, List.mem_flatMap, List.mem_map, OrderedMap.get?_eq_some_iff]
  constructor
  · rintro ⟨⟨n, bodies⟩, hentry, marks, hmarks, rfl⟩
    exact ⟨bodies, hentry, hmarks⟩
  · rintro ⟨bodies, hentry, hmarks⟩
    exact ⟨(r.lhs, bodies), hentry, r.marks, hmarks, rfl⟩

theorem length_rules (m : RuleMap) : m.rules.length = m.numRules := by
  unfold rules numRules
  induction m.bodies.entries with
  | nil => rfl
  | cons e entries ih =>
    rw [List.flatMap_cons, List.length_append, List.length_map, ih]
    rfl

theorem increasing_rules (m : RuleMap) : m.rules.Pairwise fun r s => compare r s = .lt := by
  have hcompare (r s : MarkedRule) :
      compare r s = (compare r.lhs s.lhs).then (compare r.marks s.marks) := rfl
  refine List.pairwise_flatMap.2 ⟨fun ⟨n, bodies⟩ _ => ?_, m.bodies.increasing.imp ?_⟩
  · refine List.pairwise_map.2 (bodies.increasing.imp fun {a b} hlt => ?_)
    rw [hcompare, Std.compare_self]
    exact hlt
  · intro e f hlt r hr s hs
    obtain ⟨a, -, rfl⟩ := List.mem_map.1 hr
    obtain ⟨b, -, rfl⟩ := List.mem_map.1 hs
    rw [hcompare, hlt]
    rfl

end Listing

section Tidiness

/-- No set is empty, and no body has a marker. -/
structure Tidy (m : RuleMap) : Prop where
  nonempty : ∀ e ∈ m.bodies.entries, e.2.isEmpty = false
  unmarked : ∀ e ∈ m.bodies.entries, ∀ marks ∈ e.2, Mark.epsilon ∉ marks

theorem tidy_empty : Tidy empty := ⟨List.forall_mem_nil _, List.forall_mem_nil _⟩

theorem Tidy.addRule (h : m.Tidy) : (m.addRule lhs body).2.Tidy := by
  refine ⟨fun e he => ?_, fun e he marks hmarks => ?_⟩
  · rcases OrderedMap.mem_of_mem_putEntry he with rfl | he
    · exact OrderedSet.isEmpty_eq_false (OrderedSet.mem_insert.2 (.inl rfl))
    · exact h.nonempty e he
  · rcases OrderedMap.mem_of_mem_putEntry he with rfl | he
    · rcases OrderedSet.mem_insert.1 hmarks with rfl | hmarks
      · simp
      · obtain ⟨bodies, hget, hmem⟩ := hasRule_iff.1 (hasRule_iff_mem_getD.2 hmarks)
        exact h.unmarked _ (OrderedMap.get?_eq_some_iff.1 hget) marks hmem
    · exact h.unmarked e he marks hmarks

/-- Whatever is kept, an entry that is left behind without bodies is taken out. -/
theorem Tidy.retain (h : m.Tidy) : (m.retain keep).Tidy := by
  refine ⟨fun e he => ?_, fun e he marks hmarks => ?_⟩
  · simpa using (List.mem_filter.1 he).2
  · obtain ⟨⟨n, bodies⟩, hentry, rfl⟩ := List.mem_map.1 (List.mem_filter.1 he).1
    exact h.unmarked _ hentry marks (OrderedSet.mem_filter.1 hmarks).1

theorem Tidy.removeNonTerminal (h : m.Tidy) : (m.removeNonTerminal n).Tidy :=
  ⟨fun e he => h.nonempty e (List.mem_filter.1 he).1,
    fun e he => h.unmarked e (List.mem_filter.1 he).1⟩

/-- Without empty sets, no entry and no rule is the same. -/
theorem Tidy.isEmpty_iff (h : m.Tidy) : m.isEmpty = true ↔ m.numRules = 0 := by
  rw [← length_rules, List.length_eq_zero_iff, rules, List.flatMap_eq_nil_iff]
  constructor
  · intro hempty e he
    rw [List.isEmpty_iff.1 hempty] at he
    cases he
  · intro hnone
    refine List.isEmpty_iff.2 (List.eq_nil_iff_forall_not_mem.2 fun e he => ?_)
    have hbodies : e.2.toList = [] := List.map_eq_nil_iff.1 (hnone e he)
    have hne := h.nonempty e he
    rw [OrderedSet.isEmpty, hbodies] at hne
    cases hne

theorem Tidy.epsilon_not_mem (h : m.Tidy) (hr : r ∈ m.rules) : Mark.epsilon ∉ r.marks := by
  obtain ⟨bodies, hget, hmarks⟩ := hasRule_iff.1 (mem_rules_iff.1 hr)
  exact h.unmarked _ (OrderedMap.get?_eq_some_iff.1 hget) r.marks hmarks

end Tidiness

section Calls

/-- What may be asked of the rules. To keep some of them, each rule is asked for once. -/
inductive Call where
  | addRule (lhs : NonTerminal) (marks : List Mark)
  | retain (keep : MarkedRule → Bool)
  | clearRules
  | removeNonTerminal (n : NonTerminal)

/-- The rule that a call adds is the one it is given, without markers. -/
def Call.Adds : Call → MarkedRule → Prop
  | addRule lhs marks, r => r = ⟨lhs, marks.filter (· ≠ .epsilon)⟩
  | _, _ => False

/-- The rules that a call leaves where they are. -/
def Call.Keeps : Call → MarkedRule → Prop
  | addRule _ _, _ => True
  | retain keep, r => keep r = true
  | clearRules, _ => False
  | removeNonTerminal n, r => r.lhs ≠ n

variable {c : Call} {calls : List Call}

/-- The rules after a call. -/
def called (m : RuleMap) : Call → RuleMap
  | .addRule lhs marks => (m.addRule lhs marks).2
  | .retain keep => m.retain keep
  | .clearRules => m.clearRules
  | .removeNonTerminal n => m.removeNonTerminal n

def after (calls : List Call) : RuleMap := calls.foldl called empty

/-- Some call adds the rule, and all later ones keep it. -/
def Stands (calls : List Call) (r : MarkedRule) : Prop := Lasts calls (·.Adds r) (·.Keeps r)

theorem Tidy.called (h : m.Tidy) (c : Call) : (m.called c).Tidy := by
  cases c with
  | addRule lhs marks => exact h.addRule
  | retain keep => exact h.retain
  | clearRules => exact tidy_empty
  | removeNonTerminal n => exact h.removeNonTerminal

theorem tidy_after (calls : List Call) : (after calls).Tidy :=
  List.foldlRecOn calls called tidy_empty fun _ h c _ => h.called c

theorem hasRule_called : (m.called c).hasRule r.lhs r.marks = true ↔
    c.Adds r ∨ c.Keeps r ∧ m.hasRule r.lhs r.marks = true := by
  cases c with
  | addRule lhs marks =>
    exact hasRule_addRule.trans (or_congr_right (and_iff_right trivial).symm)
  | retain keep => exact hasRule_retain.trans (or_iff_right id).symm
  | clearRules => exact iff_of_false Bool.false_ne_true (by simp [Call.Adds, Call.Keeps])
  | removeNonTerminal n => exact hasRule_removeNonTerminal.trans (or_iff_right id).symm

theorem hasRule_after_iff : (after calls).hasRule r.lhs r.marks = true ↔ Stands calls r :=
  foldl_iff_lasts empty (fun m => m.hasRule r.lhs r.marks = true) Bool.false_ne_true
    (fun m c => hasRule_called (m := m) (c := c)) calls

end Calls

end RuleMap

namespace Grammar

open RuleMap (Call Stands)

variable {g : Grammar} {c : Call} {calls : List Call} {x : Rule}

/-- The grammar after a call on its rules. -/
def called (g : Grammar) : Call → Grammar
  | .addRule lhs marks => g.addRule lhs (Mark.strip marks)
  | .retain keep => g.retain fun r => keep r.marked
  | .clearRules => g.clearRules
  | .removeNonTerminal n => g.removeNonTerminal n

def after (g : Grammar) (calls : List Call) : Grammar := calls.foldl called g

theorem mem_rules_called :
    x ∈ (g.called c).rules ↔ c.Adds x.marked ∨ c.Keeps x.marked ∧ x ∈ g.rules := by
  cases c with
  | addRule lhs marks =>
    have hadds : (Call.addRule lhs marks).Adds x.marked ↔ x = ⟨lhs, Mark.strip marks⟩ := by
      rw [← Rule.marked_inj, Rule.marked_strip]
      rfl
    rw [hadds]
    exact OrderedSet.mem_insert.trans (or_congr_right (and_iff_right trivial).symm)
  | retain keep => exact OrderedSet.mem_filter.trans (and_comm.trans (or_iff_right id).symm)
  | clearRules =>
    exact iff_of_false (OrderedSet.not_mem_empty x) (by simp [Call.Adds, Call.Keeps])
  | removeNonTerminal n =>
    have hkeeps : decide (x.lhs ≠ n) = true ↔ (Call.removeNonTerminal n).Keeps x.marked :=
      decide_eq_true_iff
    rw [← hkeeps]
    exact OrderedSet.mem_filter.trans (and_comm.trans (or_iff_right id).symm)

theorem mem_rules_after_iff :
    x ∈ (g.clearRules.after calls).rules ↔ Stands calls x.marked :=
  foldl_iff_lasts g.clearRules (fun h => x ∈ h.rules) (OrderedSet.not_mem_empty x)
    (fun h c => mem_rules_called (g := h) (c := c)) calls

/-- The rules are listed alike, whether they are held in one set or by their left-hand sides. -/
theorem map_marked_after (g : Grammar) (calls : List Call) :
    (g.clearRules.after calls).rules.toList.map Rule.marked = (RuleMap.after calls).rules := by
  refine OrderedSet.ext_list (List.pairwise_map.2 ?_) (RuleMap.increasing_rules _) fun r => ?_
  · exact (g.clearRules.after calls).rules.increasing.imp fun hlt =>
      Rule.compare_marked.trans hlt
  · rw [List.mem_map]
    constructor
    · rintro ⟨x, hx, rfl⟩
      exact RuleMap.mem_rules_iff.2 (RuleMap.hasRule_after_iff.2 (mem_rules_after_iff.1 hx))
    · intro hr
      obtain ⟨x, rfl⟩ := MarkedRule.exists_marked ((RuleMap.tidy_after calls).epsilon_not_mem hr)
      have hstands := RuleMap.hasRule_after_iff.1 (RuleMap.mem_rules_iff.1 hr)
      exact ⟨x, mem_rules_after_iff.2 hstands, rfl⟩

theorem hasRule_iff {lhs : NonTerminal} {marks : List Mark} :
    g.hasRule lhs marks = true ↔ ⟨lhs, marks⟩ ∈ g.rules.toList.map Rule.marked := by
  simp [hasRule, Rule.marked]

/--
After any calls no set of bodies that is held is empty and no body has a marker, so that there is no
entry just if there is no rule. The rules are listed in strictly increasing order, as many as are
counted, and those that are listed are those that are found: the ones that some call added, markers
apart, and that all later calls kept. Any other rule would be new. A grammar that had no rules and
keeps them in one set has the same ones after the same calls.
-/
theorem rules_after_calls (g : Grammar) (calls : List Call) :
    let m := RuleMap.after calls
    let h := g.clearRules.after calls
    (∀ e ∈ m.bodies.entries, e.2.isEmpty = false ∧ ∀ marks ∈ e.2, Mark.epsilon ∉ marks) ∧
    (m.isEmpty = true ↔ m.numRules = 0) ∧
    (m.rules.Pairwise fun r s => compare r s = .lt) ∧
    m.rules.length = m.numRules ∧
    (∀ r, r ∈ m.rules ↔ m.hasRule r.lhs r.marks = true) ∧
    (∀ lhs marks, m.hasRule lhs marks = true ↔ Stands calls ⟨lhs, marks⟩) ∧
    (∀ lhs marks, (m.addRule lhs marks).1 = true ↔
      ¬ Stands calls ⟨lhs, marks.filter (· ≠ .epsilon)⟩) ∧
    h.rules.toList.map Rule.marked = m.rules ∧
    h.isEmpty = m.isEmpty ∧ h.numRules = m.numRules ∧
    ∀ lhs marks, h.hasRule lhs marks = m.hasRule lhs marks := by
  intro m h
  have htidy : m.Tidy := RuleMap.tidy_after calls
  have hstands (lhs : NonTerminal) (marks : List Mark) :
      m.hasRule lhs marks = true ↔ Stands calls ⟨lhs, marks⟩ :=
    RuleMap.hasRule_after_iff (r := ⟨lhs, marks⟩)
  have hrules : h.rules.toList.map Rule.marked = m.rules := map_marked_after g calls
  have hcount : h.numRules = m.numRules := by
    rw [← RuleMap.length_rules, ← hrules, List.length_map]
    rfl
  refine ⟨fun e he => ⟨htidy.nonempty e he, htidy.unmarked e he⟩, htidy.isEmpty_iff,
    m.increasing_rules, m.length_rules, fun r => RuleMap.mem_rules_iff, hstands,
    fun lhs marks => RuleMap.isNew_addRule.trans (not_congr (hstands lhs _)), hrules, ?_, hcount, ?_⟩
  · rw [Bool.eq_iff_iff, htidy.isEmpty_iff, ← hcount]
    exact List.isEmpty_iff_length_eq_zero
  · intro lhs marks
    rw [Bool.eq_iff_iff, hasRule_iff, hrules, RuleMap.mem_rules_iff]

/-- A nonterminal whose only body is taken out has no entry. -/
example : (RuleMap.after [.addRule ⟨0⟩ [.epsilon], .retain fun r => !r.marks.isEmpty]).isEmpty =
    true := by decide

end Grammar

end FormalLanguage
