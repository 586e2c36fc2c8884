import Mathlib.Data.List.Basic
import FormalLanguage.NormalForm.Abbreviation
import FormalLanguage.Proofs.Grammar.Preservation
import FormalLanguage.Proofs.Outcome

/-!
Fresh nonterminals that stand for parts of bodies. Main statement: as long as every rule becomes,
with the fresh nonterminals expanded, the rule that it was made from, no word is lost or new.
-/
namespace FormalLanguage

universe u

namespace Grammar

/-- A grammar draws from its table. -/
theorem table_of_fresh {g h : Grammar} {given : Except NameError NonTerminal}
    (hf : g.fresh = (given, h)) : g.table.fresh = (given, h.table) := by
  unfold fresh Vocabulary.fresh at hf
  cases ht : g.table.fresh with
  | mk result table =>
    rw [ht] at hf
    cases result <;> cases hf <;> rfl

/-- The second grammar has one more nonterminal, which was none of the table before. -/
structure Freshened (g : Grammar) (n : NonTerminal) (h : Grammar) : Prop where
  rules : h.rules = g.rules
  start : h.start = g.start
  terminals : h.terminals = g.terminals
  mem_nonterminals : ∀ m, m ∈ h.nonterminals ↔ m = n ∨ m ∈ g.nonterminals
  contains_iff : ∀ s, h.table.contains s = true ↔ g.table.contains s = true ∨ s = .nonterminal n
  not_contains : ¬ g.table.contains (.nonterminal n) = true

theorem freshened_of_fresh {g h : Grammar} {n : NonTerminal} (hf : g.fresh = (.ok n, h)) :
    g.Freshened n h := by
  unfold fresh Vocabulary.fresh at hf
  cases ht : g.table.fresh with
  | mk result table =>
    rw [ht] at hf
    cases result with
    | error e => cases hf
    | ok m =>
      cases hf
      obtain ⟨hid, name, -, hentries⟩ := SymbolTable.fresh_eq_ok ht
      have hn : Symbol.nonterminal n = .ofKind .nonterminal g.table.size := by
        rw [← hid]
        rfl
      refine ⟨rfl, rfl, rfl, fun m => OrderedSet.mem_insert, ?_, ?_⟩
      · intro s
        rw [hn]
        exact SymbolTable.contains_append hentries
      · intro hc
        have hlt := SymbolTable.lt_size_of_contains hc
        exact absurd hid (Nat.ne_of_lt hlt)

end Grammar

namespace Abbreviating

variable {κ : Type u} {body : κ → Body} {g : Grammar} {done : List Rule} {a b : Abbreviating κ}
  {known : List (κ × NonTerminal)} {key : κ} {n : NonTerminal} {s : Symbol} {form : Body} {w : Word}

/-- What a symbol stands for. The body of a fresh nonterminal is over symbols known before it. -/
def expand (body : κ → Body) : List (κ × NonTerminal) → Symbol → Body
  | [], s => [s]
  | (key, n) :: known, s =>
    if s = .nonterminal n then (body key).flatMap (expand body known) else expand body known s

theorem expand_terminal (t : Terminal) : expand body known (.terminal t) = [.terminal t] := by
  induction known with
  | nil => rfl
  | cons p known ih => exact ih

/-- A form derives its expansion. -/
theorem derives_expand {h : Grammar} (hknown : ∀ p ∈ known, ⟨p.2, body p.1⟩ ∈ h.rules)
    (form : Body) : h.Derives form (form.flatMap (expand body known)) := by
  induction known generalizing form with
  | nil =>
    have hform : form.flatMap (expand body []) = form := List.flatMap_singleton' form
    rw [hform]
    exact .refl form
  | cons p known ih =>
    obtain ⟨key, n⟩ := p
    rw [List.forall_mem_cons] at hknown
    induction form with
    | nil => exact .refl []
    | cons s form ihform =>
      rw [List.flatMap_cons, ← List.singleton_append]
      refine Grammar.derives_append ?_ ihform
      rw [expand]
      split
      · next hs =>
        rw [hs]
        exact (Grammar.Derives.of_rule hknown.1).trans (ih hknown.2 (body key))
      · simpa using ih hknown.2 [s]

/--
The grammar under construction has, besides a rule for each fresh nonterminal, the rules `done` of
the grammar `g` in some abbreviated form.
-/
structure Abbreviates (body : κ → Body) (g : Grammar) (done : List Rule) (a : Abbreviating κ) :
    Prop where
  start : a.result.start = g.start
  terminals : a.result.terminals = g.terminals
  mem_nonterminals : ∀ n,
    n ∈ a.result.nonterminals ↔ n ∈ g.nonterminals ∨ ∃ p ∈ a.known, p.2 = n
  known_new : ∀ p ∈ a.known, p.2 ∉ g.nonterminals
  contains : ∀ s, a.result.uses s = true → a.result.table.contains s = true
  known_rule : ∀ p ∈ a.known, ⟨p.2, body p.1⟩ ∈ a.result.rules
  expand_known : ∀ p ∈ a.known,
    expand body a.known (.nonterminal p.2) = (body p.1).flatMap (expand body a.known)
  expand_old : ∀ s, g.uses s = true → expand body a.known s = [s]
  uses_body : ∀ r ∈ a.result.rules, ∀ s ∈ r.body, a.result.uses s = true
  rule_cases : ∀ r ∈ a.result.rules, (∃ p ∈ a.known, r = ⟨p.2, body p.1⟩) ∨
    r.lhs ∈ g.nonterminals ∧ ⟨r.lhs, r.body.flatMap (expand body a.known)⟩ ∈ done
  exists_rule : ∀ r ∈ done, ∃ form, ⟨r.lhs, form⟩ ∈ a.result.rules ∧
    form.flatMap (expand body a.known) = r.body

/-- A part is abbreviated by the nonterminal that is known for it, or by a fresh one with a rule. -/
theorem abbreviate_cases [DecidableEq κ] (h : a.abbreviate body key = .ok (n, b)) :
    (a.known.lookup key = some n ∧ b = a) ∨
      ∃ result, a.known.lookup key = none ∧ a.result.fresh = (.ok n, result) ∧
        b = ⟨result.addRule n (body key), (key, n) :: a.known⟩ := by
  unfold abbreviate at h
  split at h
  · next m hlookup =>
    cases h
    exact .inl ⟨hlookup, rfl⟩
  · next hlookup =>
    split at h
    · next m result hfresh =>
      cases h
      exact .inr ⟨result, hlookup, hfresh, rfl⟩
    · cases h

/-- What each step of the construction keeps. -/
structure Invariant [DecidableEq κ] (body : κ → Body) (P : Abbreviating κ → Prop) : Prop where
  abbreviate : ∀ {a b key n}, P a → a.abbreviate body key = .ok (n, b) → P b
  addRule : ∀ {a}, P a → ∀ n form, P (a.addRule n form)

/-- The rules of fresh nonterminals are the only ones that are introduced. -/
theorem rule_of_abbreviate [DecidableEq κ] (h : a.abbreviate body key = .ok (n, b)) {r : Rule}
    (hr : r ∈ b.result.rules) : r ∈ a.result.rules ∨ r.body = body key := by
  obtain ⟨-, rfl⟩ | ⟨result, -, hfresh, rfl⟩ := abbreviate_cases h
  · exact .inl hr
  · rcases OrderedSet.mem_insert.1 hr with rfl | hr
    · exact .inr rfl
    · rw [(Grammar.freshened_of_fresh hfresh).rules] at hr
      exact .inl hr

namespace Abbreviates

theorem uses_of_uses (ha : Abbreviates body g done a) (hs : g.uses s = true) :
    a.result.uses s = true := by
  cases s with
  | terminal t =>
    rw [Vocabulary.uses_terminal] at hs ⊢
    rwa [ha.terminals]
  | nonterminal n =>
    rw [Vocabulary.uses_nonterminal] at hs ⊢
    exact (ha.mem_nonterminals n).2 (.inl hs)

/-- A form over the symbols of the abbreviated grammar stands for itself. -/
theorem flatMap_old (ha : Abbreviates body g done a) (hform : ∀ s ∈ form, g.uses s = true) :
    form.flatMap (expand body a.known) = form := by
  rw [List.flatMap_congr fun s hs => ha.expand_old s (hform s hs)]
  exact List.flatMap_singleton' form

/-- Before the first rule nothing is abbreviated. -/
theorem init (wf : g.WellFormed) : Abbreviates body g [] ⟨g.clearRules, []⟩ where
  start := rfl
  terminals := rfl
  mem_nonterminals n := by simp [Grammar.clearRules]
  known_new p hp := absurd hp List.not_mem_nil
  contains := wf.contains
  known_rule p hp := absurd hp List.not_mem_nil
  expand_known p hp := absurd hp List.not_mem_nil
  expand_old _ _ := rfl
  uses_body r hr := absurd hr (OrderedSet.not_mem_empty r)
  rule_cases r hr := absurd hr (OrderedSet.not_mem_empty r)
  exists_rule r hr := absurd hr List.not_mem_nil

end Abbreviates

/-- Symbols that were in use still are, and stand for the same. -/
structure Grows (body : κ → Body) (a b : Abbreviating κ) : Prop where
  uses : ∀ s, a.result.uses s = true → b.result.uses s = true
  expand_eq : ∀ s, a.result.uses s = true → expand body b.known s = expand body a.known s

namespace Grows

variable {c : Abbreviating κ}

theorem refl (body : κ → Body) (a : Abbreviating κ) : Grows body a a :=
  ⟨fun _ hs => hs, fun _ _ => rfl⟩

theorem trans (hab : Grows body a b) (hbc : Grows body b c) : Grows body a c where
  uses s hs := hbc.uses s (hab.uses s hs)
  expand_eq s hs := (hbc.expand_eq s (hab.uses s hs)).trans (hab.expand_eq s hs)

theorem flatMap_eq (hab : Grows body a b) (hform : ∀ s ∈ form, a.result.uses s = true) :
    form.flatMap (expand body b.known) = form.flatMap (expand body a.known) :=
  List.flatMap_congr fun s hs => hab.expand_eq s (hform s hs)

end Grows

namespace Abbreviates

variable {result : Grammar}

/-- A fresh nonterminal that stands for a body over symbols in use. -/
theorem introduce (ha : Abbreviates body g done a) (hf : a.result.Freshened n result)
    (hkey : ∀ s ∈ body key, a.result.uses s = true) :
    Grows body a ⟨result.addRule n (body key), (key, n) :: a.known⟩ ∧
      Abbreviates body g done ⟨result.addRule n (body key), (key, n) :: a.known⟩ := by
  have hne : ∀ s, a.result.uses s = true → s ≠ .nonterminal n := by
    rintro s hs rfl
    exact hf.not_contains (ha.contains _ hs)
  have huses : ∀ s, result.uses s = true ↔ a.result.uses s = true ∨ s = .nonterminal n := by
    intro s
    cases s with
    | terminal t => simp [Vocabulary.uses_terminal, hf.terminals]
    | nonterminal m => simp [Vocabulary.uses_nonterminal, hf.mem_nonterminals, or_comm]
  have hgrows : Grows body a ⟨result.addRule n (body key), (key, n) :: a.known⟩ := by
    refine ⟨fun s hs => (huses s).2 (.inl hs), ?_⟩
    intro s hs
    rw [expand, if_neg (hne s hs)]
  have hrules : ∀ r, r ∈ (result.addRule n (body key)).rules ↔
      r = ⟨n, body key⟩ ∨ r ∈ a.result.rules := by
    intro r
    rw [← hf.rules]
    exact OrderedSet.mem_insert
  refine ⟨hgrows, hf.start.trans ha.start, hf.terminals.trans ha.terminals, ?_, ?_, ?_, ?_, ?_, ?_,
    ?_, ?_, ?_⟩
  · intro m
    refine (hf.mem_nonterminals m).trans ?_
    rw [ha.mem_nonterminals, List.exists_mem_cons_iff, eq_comm, or_left_comm]
  · rw [List.forall_mem_cons]
    refine ⟨fun hn => ?_, ha.known_new⟩
    exact hne _ (ha.uses_of_uses (Vocabulary.uses_nonterminal.2 hn)) rfl
  · intro s hs
    rcases (huses s).1 hs with hs | hs
    · exact (hf.contains_iff s).2 (.inl (ha.contains s hs))
    · exact (hf.contains_iff s).2 (.inr hs)
  · rw [List.forall_mem_cons]
    exact ⟨(hrules _).2 (.inl rfl), fun p hp => (hrules _).2 (.inr (ha.known_rule p hp))⟩
  · rw [List.forall_mem_cons]
    refine ⟨?_, ?_⟩
    · rw [hgrows.flatMap_eq hkey, expand, if_pos rfl]
    · intro p hp
      have hp' : a.result.uses (.nonterminal p.2) = true :=
        Vocabulary.uses_nonterminal.2 ((ha.mem_nonterminals p.2).2 (.inr ⟨p, hp, rfl⟩))
      rw [hgrows.expand_eq _ hp', hgrows.flatMap_eq (ha.uses_body _ (ha.known_rule p hp))]
      exact ha.expand_known p hp
  · intro s hs
    rw [hgrows.expand_eq s (ha.uses_of_uses hs)]
    exact ha.expand_old s hs
  · intro r hr s hs
    rcases (hrules r).1 hr with rfl | hr
    · exact hgrows.uses s (hkey s hs)
    · exact hgrows.uses s (ha.uses_body r hr s hs)
  · intro r hr
    rcases (hrules r).1 hr with rfl | hr
    · exact .inl ⟨(key, n), List.mem_cons_self, rfl⟩
    · rw [hgrows.flatMap_eq (ha.uses_body r hr)]
      exact (ha.rule_cases r hr).imp_left fun ⟨p, hp, hrp⟩ => ⟨p, List.mem_cons_of_mem _ hp, hrp⟩
  · intro r hr
    obtain ⟨form, hform, heq⟩ := ha.exists_rule r hr
    exact ⟨form, (hrules _).2 (.inr hform), (hgrows.flatMap_eq (ha.uses_body _ hform)).trans heq⟩

/-- What stands for a key is known afterwards. -/
theorem abbreviate [DecidableEq κ] (ha : Abbreviates body g done a)
    (hkey : ∀ s ∈ body key, a.result.uses s = true) (h : a.abbreviate body key = .ok (n, b)) :
    Grows body a b ∧ Abbreviates body g done b ∧ (key, n) ∈ b.known := by
  obtain ⟨hlookup, rfl⟩ | ⟨result, -, hfresh, rfl⟩ := abbreviate_cases h
  · obtain ⟨before, after, hknown, -⟩ := List.lookup_eq_some_iff.1 hlookup
    exact ⟨.refl body b, ha, by simp [hknown]⟩
  · obtain ⟨hgrows, hb⟩ := ha.introduce (Grammar.freshened_of_fresh hfresh) hkey
    exact ⟨hgrows, hb, List.mem_cons_self⟩

/-- A rule is added in a form that expands to its body. -/
theorem addRule (ha : Abbreviates body g done a) {r : Rule} (hlhs : r.lhs ∈ g.nonterminals)
    (hform : ∀ s ∈ form, a.result.uses s = true)
    (heq : form.flatMap (expand body a.known) = r.body) :
    Abbreviates body g (done ++ [r]) (a.addRule r.lhs form) := by
  have hrules : ∀ x, x ∈ (a.result.addRule r.lhs form).rules ↔
      x = ⟨r.lhs, form⟩ ∨ x ∈ a.result.rules := fun x => OrderedSet.mem_insert
  refine ⟨ha.start, ha.terminals, ha.mem_nonterminals, ha.known_new, ha.contains, ?_,
    ha.expand_known, ha.expand_old, ?_, ?_, ?_⟩
  · intro p hp
    exact (hrules _).2 (.inr (ha.known_rule p hp))
  · intro x hx
    rcases (hrules x).1 hx with rfl | hx
    · exact hform
    · exact ha.uses_body x hx
  · intro x hx
    rcases (hrules x).1 hx with rfl | hx
    · exact .inr ⟨hlhs, List.mem_append_right done (by simp [Abbreviating.addRule, heq])⟩
    · exact (ha.rule_cases x hx).imp_right fun ⟨hx, hold⟩ => ⟨hx, List.mem_append_left _ hold⟩
  · intro x hx
    rcases List.mem_append.1 hx with hx | hx
    · obtain ⟨form', hform', heq'⟩ := ha.exists_rule x hx
      exact ⟨form', (hrules _).2 (.inr hform'), heq'⟩
    · rw [List.mem_singleton.1 hx]
      exact ⟨form, (hrules _).2 (.inl rfl), heq⟩

/-- The expansion of a derived form derives the word in the grammar that is abbreviated. -/
theorem yields_old (ha : Abbreviates body g g.rules.toList a) (hw : a.result.Yields form w) :
    g.Yields (form.flatMap (expand body a.known)) w := by
  apply hw.substitute expand_terminal
  intro r hr u hu
  rcases ha.rule_cases r hr with ⟨p, hp, rfl⟩ | ⟨hlhs, hold⟩
  · rwa [ha.expand_known p hp]
  · rw [ha.expand_old _ (Vocabulary.uses_nonterminal.2 hlhs)]
    exact Grammar.yields_nonterminal_iff.2 ⟨_, OrderedSet.mem_toList.1 hold, rfl, hu⟩

/-- No word is lost. -/
theorem yields_new (ha : Abbreviates body g g.rules.toList a) (hw : g.Yields form w) :
    a.result.Yields form w := by
  apply hw.of_rules
  intro r hr u hu
  obtain ⟨short, hshort, heq⟩ := ha.exists_rule r (OrderedSet.mem_toList.2 hr)
  rw [← heq] at hu
  have hexpand := derives_expand ha.known_rule short
  exact Grammar.yields_nonterminal_iff.2 ⟨_, hshort, rfl, hexpand.yields hu⟩

theorem wellFormed (ha : Abbreviates body g g.rules.toList a) (wf : g.WellFormed) :
    a.result.WellFormed := by
  obtain ⟨start, hstart, hmem⟩ := wf.exists_start
  refine ⟨Grammar.validate_eq_ok_iff.2 ⟨start, ha.start.trans hstart, ?_, ?_⟩, ha.contains⟩
  · exact (ha.mem_nonterminals start).2 (.inl hmem)
  · intro r hr
    refine ⟨(ha.mem_nonterminals r.lhs).2 ?_, ha.uses_body r hr⟩
    rcases ha.rule_cases r hr with ⟨p, hp, rfl⟩ | ⟨hlhs, -⟩
    · exact .inr ⟨p, hp, rfl⟩
    · exact .inl hlhs

theorem preserves (ha : Abbreviates body g g.rules.toList a) (wf : g.WellFormed) :
    g.Preserves a.result where
  wellFormed := ha.wellFormed wf
  start := ha.start
  generates _ := Grammar.generates_congr ha.start fun start hstart => by
    refine ⟨?_, ha.yields_new⟩
    intro hw
    have hold := ha.yields_old hw
    have hexpand := ha.expand_old _ (Vocabulary.uses_nonterminal.2 (wf.start_mem hstart))
    simpa [hexpand] using hold

end Abbreviates

end Abbreviating

end FormalLanguage
