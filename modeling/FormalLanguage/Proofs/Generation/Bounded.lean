import Mathlib.Data.List.Nodup
import Mathlib.Data.List.Perm.Subperm
import Mathlib.Logic.Function.Iterate
import FormalLanguage.Generation.Bounded
import FormalLanguage.Proofs.Grammar.Substitution

/-!
The words of a grammar up to a length. Main statement: the rounds end with one that changes nothing,
and the words found by then are all the words of the start symbol that are short enough.
-/
namespace FormalLanguage

/-- Stopping once nothing changes leaves out only repeats that do nothing. -/
theorem saturate_eq_iterate {α : Type} [DecidableEq α] (step : α → α) (bound : Nat) (a : α) :
    saturate step bound a = step^[bound] a := by
  induction bound generalizing a with
  | zero => rfl
  | succ bound ih =>
    unfold saturate
    split
    · next h => exact (Function.iterate_fixed h _).symm
    · rw [ih, Function.iterate_succ_apply]

namespace WordTable

variable {g : Grammar} {t u : WordTable} {maxLength : Nat} {heads words : OrderedSet Word}
  {body form : Body} {s : Symbol} {r : Rule} {m n : NonTerminal} {v w : Word}

/-- The nonterminals that the table lists. -/
def listed (t : WordTable) : List NonTerminal := t.map Prod.fst

/-- The word is known for the symbol; a terminal is its own word. -/
def Has (t : WordTable) : Symbol → Word → Prop
  | .terminal a, w => w = [a]
  | .nonterminal n, w => w ∈ t.wordsOf n

/-- The word is put together from known words of the symbols of the form. -/
def Spells (t : WordTable) : Body → Word → Prop
  | [], w => w = []
  | s :: form, w => ∃ u v, w = u ++ v ∧ t.Has s u ∧ t.Spells form v

/-- Every word that the first table knows, the second one knows. -/
def Within (t u : WordTable) : Prop := ∀ n w, w ∈ t.wordsOf n → w ∈ u.wordsOf n

/-- Known words are derived, and no longer than the bound. -/
def Sound (g : Grammar) (maxLength : Nat) (t : WordTable) : Prop :=
  ∀ n w, w ∈ t.wordsOf n → g.Yields [.nonterminal n] w ∧ w.length ≤ maxLength

theorem Has.mono (htu : t.Within u) (h : t.Has s w) : u.Has s w := by
  cases s with
  | terminal a => exact h
  | nonterminal n => exact htu n w h

theorem Spells.mono (htu : t.Within u) (h : t.Spells form w) : u.Spells form w := by
  induction form generalizing w with
  | nil => exact h
  | cons s form ih =>
    obtain ⟨x, y, rfl, hx, hy⟩ := h
    exact ⟨x, y, rfl, hx.mono htu, ih hy⟩

theorem Sound.yields (ht : t.Sound g maxLength) (h : t.Spells form w) : g.Yields form w := by
  induction form generalizing w with
  | nil => exact Grammar.yields_nil_iff.2 h
  | cons s form ih =>
    obtain ⟨x, y, rfl, hx, hy⟩ := h
    refine Grammar.yields_cons_iff.2 ⟨x, y, rfl, ?_, ih hy⟩
    cases s with
    | terminal a => exact Grammar.yields_terminal_iff.2 hx
    | nonterminal n => exact (ht n x hx).1

theorem mem_extend : w ∈ extend maxLength t heads s ↔
    w.length ≤ maxLength ∧ ∃ x y, w = x ++ y ∧ x ∈ heads ∧ t.Has s y := by
  cases s with
  | terminal a =>
    simp only [extend, OrderedSet.mem_ofList, List.mem_map, List.mem_filter, decide_eq_true_eq, Has]
    constructor
    · rintro ⟨x, ⟨hx, hlt⟩, rfl⟩
      exact ⟨List.length_append ▸ hlt, x, [a], rfl, hx, rfl⟩
    · rintro ⟨hlen, x, y, rfl, hx, rfl⟩
      rw [List.length_append] at hlen
      exact ⟨x, ⟨hx, hlen⟩, rfl⟩
  | nonterminal n =>
    simp only [extend, OrderedSet.mem_ofList, List.mem_flatMap, List.mem_map, List.mem_filter,
      decide_eq_true_eq, Has]
    constructor
    · rintro ⟨x, hx, y, ⟨hy, hle⟩, rfl⟩
      exact ⟨List.length_append ▸ hle, x, y, rfl, hx, hy⟩
    · rintro ⟨hlen, x, y, rfl, hx, hy⟩
      exact ⟨x, hx, y, ⟨hy, List.length_append ▸ hlen⟩, rfl⟩

/-- Cutting off long heads on the way loses no word that is short enough in the end. -/
theorem mem_foldl_extend (hheads : ∀ x ∈ heads, x.length ≤ maxLength) :
    w ∈ body.foldl (extend maxLength t) heads ↔
      w.length ≤ maxLength ∧ ∃ x y, w = x ++ y ∧ x ∈ heads ∧ t.Spells body y := by
  induction body generalizing heads with
  | nil =>
    constructor
    · intro h
      exact ⟨hheads w h, w, [], (List.append_nil w).symm, h, rfl⟩
    · rintro ⟨-, x, y, rfl, hx, rfl⟩
      rwa [List.append_nil]
  | cons s body ih =>
    rw [List.foldl_cons, ih fun x hx => (mem_extend.1 hx).1]
    refine and_congr_right fun hlen => ?_
    constructor
    · rintro ⟨_, z, rfl, hxy, hz⟩
      obtain ⟨-, x, y, rfl, hx, hy⟩ := mem_extend.1 hxy
      exact ⟨x, y ++ z, List.append_assoc x y z, hx, y, z, rfl, hy, hz⟩
    · rintro ⟨x, _, rfl, hx, y, z, rfl, hy, hz⟩
      have hxy : (x ++ y).length ≤ maxLength := by
        rw [List.length_append, List.length_append] at hlen
        rw [List.length_append]
        omega
      exact ⟨x ++ y, z, (List.append_assoc x y z).symm, mem_extend.2 ⟨hxy, x, y, rfl, hx, hy⟩, hz⟩

theorem mem_expand : w ∈ t.expand maxLength body ↔ w.length ≤ maxLength ∧ t.Spells body w := by
  rw [expand, mem_foldl_extend fun x hx => by simp [OrderedSet.mem_singleton.1 hx]]
  refine and_congr_right fun _ => ?_
  constructor
  · rintro ⟨x, y, rfl, hx, hy⟩
    rwa [OrderedSet.mem_singleton.1 hx]
  · intro h
    exact ⟨[], w, rfl, OrderedSet.mem_singleton.2 rfl, h⟩

theorem lookup_addWords : (t.addWords n words).lookup m =
    (t.lookup m).map fun known => if m = n then known.union words else known := by
  induction t with
  | nil => rfl
  | cons entry t ih =>
    obtain ⟨k, known⟩ := entry
    rw [addWords, List.map_cons, List.lookup_cons, List.lookup_cons]
    by_cases h : m = k
    · subst h
      simp
    · have hne : (m == k) = false := beq_eq_false_iff_ne.2 h
      rw [hne]
      exact ih

theorem mem_listed_iff : n ∈ t.listed ↔ ∃ known, t.lookup n = some known := by
  rw [← Option.isSome_iff_exists, List.lookup_isSome_iff, listed, List.mem_map]
  refine exists_congr fun entry => and_congr_right fun _ => ?_
  rw [beq_iff_eq, eq_comm]

theorem wordsOf_of_not_mem_listed (h : n ∉ t.listed) : t.wordsOf n = ∅ := by
  have hnone : t.lookup n = none :=
    Option.eq_none_iff_forall_ne_some.2 fun known hknown => h (mem_listed_iff.2 ⟨known, hknown⟩)
  rw [wordsOf, hnone, Option.getD_none]

theorem mem_listed_of_mem_wordsOf (h : w ∈ t.wordsOf n) : n ∈ t.listed := by
  by_contra hnot
  rw [wordsOf_of_not_mem_listed hnot] at h
  exact OrderedSet.not_mem_empty w h

theorem mem_wordsOf_addWords : w ∈ (t.addWords n words).wordsOf m ↔
    w ∈ t.wordsOf m ∨ m = n ∧ m ∈ t.listed ∧ w ∈ words := by
  rw [wordsOf, wordsOf, lookup_addWords, mem_listed_iff]
  cases t.lookup m with
  | none => simp
  | some known => by_cases h : m = n <;> simp [h]

@[simp] theorem listed_addWords : (t.addWords n words).listed = t.listed := by
  simp [listed, addWords]

@[simp] theorem listed_growRule : (t.growRule maxLength r).listed = t.listed := listed_addWords

theorem within_growRule : t.Within (t.growRule maxLength r) :=
  fun _ _ hw => mem_wordsOf_addWords.2 (.inl hw)

theorem sound_growRule (ht : t.Sound g maxLength) (hr : r ∈ g.rules) :
    (t.growRule maxLength r).Sound g maxLength := by
  intro n w hw
  rcases mem_wordsOf_addWords.1 hw with hold | ⟨rfl, -, hnew⟩
  · exact ht n w hold
  · obtain ⟨hlen, hspells⟩ := mem_expand.1 hnew
    exact ⟨Grammar.yields_nonterminal_iff.2 ⟨r, hr, rfl, ht.yields hspells⟩, hlen⟩

/-- A rule gives its left-hand side the words of its body. -/
theorem mem_growRule (hlhs : r.lhs ∈ t.listed) (hlen : w.length ≤ maxLength)
    (hw : t.Spells r.body w) : w ∈ (t.growRule maxLength r).wordsOf r.lhs :=
  mem_wordsOf_addWords.2 (.inr ⟨rfl, hlhs, mem_expand.2 ⟨hlen, hw⟩⟩)

section Round

variable {rules : List Rule}

theorem listed_foldl_growRule : (rules.foldl (growRule maxLength) t).listed = t.listed := by
  induction rules generalizing t with
  | nil => rfl
  | cons r rules ih => rw [List.foldl_cons, ih, listed_growRule]

theorem within_foldl_growRule : t.Within (rules.foldl (growRule maxLength) t) := by
  induction rules generalizing t with
  | nil => exact fun _ _ hw => hw
  | cons r rules ih => exact fun n w hw => ih n w (within_growRule n w hw)

/-- In a round, a rule sees at least the words known when the round began. -/
theorem mem_foldl_growRule (hr : r ∈ rules) (hlhs : r.lhs ∈ t.listed) (hlen : w.length ≤ maxLength)
    (hw : t.Spells r.body w) : w ∈ (rules.foldl (growRule maxLength) t).wordsOf r.lhs := by
  induction rules generalizing t with
  | nil => cases hr
  | cons r' rules ih =>
    rw [List.foldl_cons]
    rcases List.mem_cons.1 hr with rfl | hr
    · exact within_foldl_growRule _ w (mem_growRule hlhs hlen hw)
    · exact ih hr (by rwa [listed_growRule]) (hw.mono within_growRule)

theorem sound_foldl_growRule (ht : t.Sound g maxLength) (hrules : ∀ r ∈ rules, r ∈ g.rules) :
    (rules.foldl (growRule maxLength) t).Sound g maxLength := by
  induction rules generalizing t with
  | nil => exact ht
  | cons r rules ih =>
    rw [List.forall_mem_cons] at hrules
    exact ih (sound_growRule ht hrules.1) hrules.2

end Round

/-- Tables that list the same nonterminals, each once, are told apart by their words. -/
theorem eq_of_wordsOf (hlisted : t.listed = u.listed) (hnodup : t.listed.Nodup)
    (hwords : ∀ n, t.wordsOf n = u.wordsOf n) : t = u := by
  induction t generalizing u with
  | nil =>
    cases u with
    | nil => rfl
    | cons entry u => cases hlisted
  | cons entry t ih =>
    cases u with
    | nil => cases hlisted
    | cons entry' u =>
      obtain ⟨n, known⟩ := entry
      obtain ⟨n', known'⟩ := entry'
      simp only [listed, List.map_cons, List.cons.injEq] at hlisted
      obtain ⟨rfl, hlisted⟩ := hlisted
      obtain ⟨hnot, hnodup⟩ := List.nodup_cons.1 (show (n :: listed t).Nodup from hnodup)
      have hknown : known = known' := by simpa [wordsOf] using hwords n
      rw [hknown, ih hlisted hnodup fun m => ?_]
      by_cases hm : m = n
      · have hnot' : n ∉ listed u := by
          rwa [listed, ← hlisted]
        rw [hm, wordsOf_of_not_mem_listed hnot, wordsOf_of_not_mem_listed hnot']
      · have hne : (m == n) = false := beq_eq_false_iff_ne.2 hm
        simpa [wordsOf, List.lookup_cons, hne] using hwords m

theorem listed_grow : (t.grow maxLength g).listed = t.listed := listed_foldl_growRule

theorem within_grow : t.Within (t.grow maxLength g) := within_foldl_growRule

/-- What the first rounds find stays known. -/
theorem within_iterate_add (i j : Nat) :
    Within ((grow maxLength · g)^[i] t) ((grow maxLength · g)^[j + i] t) := by
  induction j with
  | zero =>
    rw [Nat.zero_add]
    exact fun _ _ hw => hw
  | succ j ih =>
    rw [Nat.succ_add, Function.iterate_succ_apply']
    exact fun n w hw => within_grow n w (ih n w hw)

theorem listed_iterate (k : Nat) : ((grow maxLength · g)^[k] t).listed = t.listed := by
  induction k with
  | zero => rfl
  | succ k ih => rw [Function.iterate_succ_apply', listed_grow, ih]

theorem sound_iterate (ht : t.Sound g maxLength) (k : Nat) :
    Sound g maxLength ((grow maxLength · g)^[k] t) := by
  induction k with
  | zero => exact ht
  | succ k ih =>
    rw [Function.iterate_succ_apply']
    exact sound_foldl_growRule ih fun _ hr => hr

/-- The word is known for every nonterminal that derives it. -/
def Knows (g : Grammar) (t : WordTable) (w : Word) : Prop :=
  ∀ n, g.Yields [.nonterminal n] w → w ∈ t.wordsOf n

theorem Knows.mono (htu : t.Within u) (h : t.Knows g w) : u.Knows g w :=
  fun n hn => htu n w (h n hn)

section Progress

variable (hlisted : ∀ r ∈ g.rules, r.lhs ∈ t.listed) (hlen : w.length ≤ maxLength)
  (hshort : ∀ v : Word, v.length < w.length → t.Knows g v)

include hlisted hlen hshort

/--
Once all shorter words are known, a part of a derivation of the word is spelled by the table, or
inside it stands a nonterminal that the next round finds the word for.
-/
theorem spells_or_progress (h : g.Yields form v) (hpart : v <:+: w) :
    t.Spells form v ∨ ∃ n, w ∉ t.wordsOf n ∧ w ∈ (t.grow maxLength g).wordsOf n := by
  induction h with
  | nil => exact .inl rfl
  | @terminal a form v _ ih =>
    refine (ih ((List.suffix_cons a v).isInfix.trans hpart)).imp_left fun hv => ?_
    exact ⟨[a], v, rfl, rfl, hv⟩
  | @nonterminal r form x y hr hx _ ihx ihy =>
    have hxpart : x <:+: w := (List.prefix_append x y).isInfix.trans hpart
    have hxknown : x ∈ t.wordsOf r.lhs ∨
        ∃ n, w ∉ t.wordsOf n ∧ w ∈ (t.grow maxLength g).wordsOf n := by
      by_cases hknown : x ∈ t.wordsOf r.lhs
      · exact .inl hknown
      -- A word not known yet is no shorter, so it is the whole word.
      · have hxw : x = w := by
          refine hxpart.eq_of_length (Nat.le_antisymm hxpart.length_le (Nat.le_of_not_lt ?_))
          intro hlt
          exact hknown (hshort x hlt r.lhs (Grammar.yields_nonterminal_iff.2 ⟨r, hr, rfl, hx⟩))
        subst x
        refine .inr ((ihx hxpart).elim (fun hspells => ?_) id)
        exact ⟨r.lhs, hknown, mem_foldl_growRule hr (hlisted r hr) hlen hspells⟩
    rcases hxknown with hxknown | hprogress
    · refine (ihy ((List.suffix_append x y).isInfix.trans hpart)).imp_left fun hy => ?_
      exact ⟨x, y, rfl, hxknown, hy⟩
    · exact .inr hprogress

/-- Once all shorter words are known, a round finds the word for one more nonterminal. -/
theorem knows_or_progress :
    t.Knows g w ∨ ∃ n, w ∉ t.wordsOf n ∧ w ∈ (t.grow maxLength g).wordsOf n := by
  by_contra hnot
  rw [not_or] at hnot
  refine hnot.1 fun n hn => ?_
  obtain ⟨x, y, rfl, hx, rfl⟩ :=
    (spells_or_progress hlisted hlen hshort hn (List.infix_refl w)).resolve_right hnot.2
  rwa [List.append_nil]

/-- After some rounds the word is known, or each of them has found it for another nonterminal. -/
theorem knows_or_exists_list (k : Nat) : Knows g ((grow maxLength · g)^[k] t) w ∨
    ∃ l : List NonTerminal, l.Nodup ∧ l.length = k ∧
      ∀ n ∈ l, w ∈ wordsOf ((grow maxLength · g)^[k] t) n := by
  induction k with
  | zero => exact .inr ⟨[], List.nodup_nil, rfl, fun n hn => absurd hn List.not_mem_nil⟩
  | succ k ih =>
    rw [Function.iterate_succ_apply']
    rcases ih with hknows | ⟨l, hnodup, rfl, hmem⟩
    · exact .inl (hknows.mono within_grow)
    · have hlisted' : ∀ r ∈ g.rules, r.lhs ∈ listed ((grow maxLength · g)^[l.length] t) := by
        intro r hr
        rw [listed_iterate]
        exact hlisted r hr
      have hshort' : ∀ v : Word, v.length < w.length →
          Knows g ((grow maxLength · g)^[l.length] t) v :=
        fun v hv => (hshort v hv).mono (within_iterate_add 0 l.length)
      rcases knows_or_progress hlisted' hlen hshort' with hknows | ⟨n, hunknown, hfound⟩
      · exact .inl (hknows.mono within_grow)
      · refine .inr ⟨n :: l, List.nodup_cons.2 ⟨?_, hnodup⟩, rfl, List.forall_mem_cons.2 ⟨hfound, ?_⟩⟩
        · exact fun hn => hunknown (hmem n hn)
        · exact fun n hn => within_grow n w (hmem n hn)

/-- As many rounds as there are nonterminals find the word for all of them. -/
theorem knows_iterate : Knows g ((grow maxLength · g)^[t.listed.length] t) w := by
  rcases knows_or_exists_list hlisted hlen hshort t.listed.length with hknows | ⟨l, hnodup, hl, hmem⟩
  · exact hknows
  · have hsub : l ⊆ t.listed := by
      intro n hn
      have hlist := mem_listed_of_mem_wordsOf (hmem n hn)
      rwa [listed_iterate] at hlist
    have hperm : l.Perm t.listed := (hnodup.subperm hsub).perm_of_length_le (Nat.le_of_eq hl.symm)
    intro n hn
    obtain ⟨r, hr, rfl, -⟩ := Grammar.yields_nonterminal_iff.1 hn
    exact hmem r.lhs (hperm.mem_iff.2 (hlisted r hr))

end Progress

/-- The rounds are used up length by length. -/
theorem knows_iterate_mul (hlisted : ∀ r ∈ g.rules, r.lhs ∈ t.listed) (k : Nat)
    (hk : w.length < k) (hlen : w.length ≤ maxLength) :
    Knows g ((grow maxLength · g)^[t.listed.length * k] t) w := by
  induction k generalizing w with
  | zero => omega
  | succ k ih =>
    rw [Nat.mul_succ, Nat.add_comm, Function.iterate_add_apply]
    have hlisted' : ∀ r ∈ g.rules, r.lhs ∈ listed ((grow maxLength · g)^[t.listed.length * k] t) := by
      intro r hr
      rw [listed_iterate]
      exact hlisted r hr
    have hshort : ∀ v : Word, v.length < w.length →
        Knows g ((grow maxLength · g)^[t.listed.length * k] t) v :=
      fun v hv => ih (by omega) (by omega)
    have hknows := knows_iterate hlisted' hlen hshort
    rwa [listed_iterate] at hknows

end WordTable

namespace Grammar

open WordTable

variable {g : Grammar} {maxLength : Nat} {w : Word} {n : NonTerminal}

theorem listed_emptyWordTable : g.emptyWordTable.listed = g.leftSides.toList := by
  rw [emptyWordTable, listed, List.map_map]
  exact List.map_id' _

theorem wordsOf_emptyWordTable : g.emptyWordTable.wordsOf n = ∅ := by
  rw [emptyWordTable]
  induction g.leftSides.toList with
  | nil => rfl
  | cons m l ih =>
    rw [wordsOf, List.map_cons, List.lookup_cons]
    split
    · rfl
    · exact ih

theorem sound_emptyWordTable : g.emptyWordTable.Sound g maxLength := by
  intro n w hw
  rw [wordsOf_emptyWordTable] at hw
  exact absurd hw (OrderedSet.not_mem_empty w)

theorem wordTable_eq_iterate : g.wordTable maxLength =
    (grow maxLength · g)^[g.emptyWordTable.listed.length * (maxLength + 1)] g.emptyWordTable := by
  rw [wordTable, saturate_eq_iterate, listed_emptyWordTable]
  rfl

/-- The table has all words that are short enough, for every nonterminal. -/
theorem mem_wordTable : w ∈ (g.wordTable maxLength).wordsOf n ↔
    g.Yields [.nonterminal n] w ∧ w.length ≤ maxLength := by
  rw [wordTable_eq_iterate]
  constructor
  · exact sound_iterate sound_emptyWordTable _ n w
  · rintro ⟨hyields, hlen⟩
    refine knows_iterate_mul ?_ (maxLength + 1) (by omega) hlen n hyields
    intro r hr
    rw [listed_emptyWordTable, OrderedSet.mem_toList, leftSides, OrderedSet.mem_ofList]
    exact List.mem_map_of_mem hr

/-- The last round changes nothing. -/
theorem grow_wordTable : (g.wordTable maxLength).grow maxLength g = g.wordTable maxLength := by
  have hlisted : (g.wordTable maxLength).listed = g.leftSides.toList := by
    rw [wordTable_eq_iterate, listed_iterate, listed_emptyWordTable]
  have hsound : (g.wordTable maxLength).Sound g maxLength := fun _ _ => mem_wordTable.1
  refine eq_of_wordsOf listed_grow ?_ fun n => OrderedSet.ext fun w => ⟨fun hw => ?_, within_grow n w⟩
  · rw [listed_grow, hlisted]
    exact g.leftSides.nodup_toList
  · exact mem_wordTable.2 (sound_foldl_growRule hsound (fun _ hr => hr) n w hw)

/--
For every grammar and every bound the rounds come to a table that the rules do not enlarge, and the
words are those of at most the given length that the start symbol derives.
-/
theorem words_boundedLanguage (g : Grammar) (maxLength : Nat) :
    (g.wordTable maxLength).grow maxLength g = g.wordTable maxLength ∧
      ∀ w, w ∈ (g.boundedLanguage maxLength).words ↔ g.Generates w ∧ w.length ≤ maxLength := by
  refine ⟨grow_wordTable, fun w => ?_⟩
  rw [boundedLanguage, generates_iff_yields]
  cases g.start with
  | none => simp
  | some start => simp [mem_wordTable]

end Grammar

end FormalLanguage
