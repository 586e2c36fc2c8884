import Mathlib.Data.Set.Card
import FormalLanguage.Automaton.Basic
import FormalLanguage.Automaton.StateRow
import FormalLanguage.Proofs.History

/-!
Rows of states. Main statement: after any calls a row lists the states that were put in since it was
last made, in increasing order, so that lookups in it find these and equal rows are equal sets.
-/
namespace FormalLanguage.StateRow

variable {row states : List Nat} {p q i low high : Nat} {r r' : StateRow} {s t : StateSet}

section Search

/-- What stands before `low` is smaller than the state, and what stands from `high` on is greater. -/
structure Window (row : List Nat) (q low high : Nat) : Prop where
  le : low ≤ high
  below : ∀ p ∈ row.take low, p < q
  above : ∀ p ∈ row.drop high, q < p

/-- What a lookup comes to: a place where the state stands, or one where it belongs. -/
inductive Looked (row : List Nat) (q : Nat) : RowPlace → Prop
  | present {i : Nat} (h : row[i]? = some q) : Looked row q (.present i)
  | absent {i : Nat} (below : ∀ p ∈ row.take i, p < q) (above : ∀ p ∈ row.drop i, q < p) :
      Looked row q (.absent i)

theorem window_below {m : Nat} (hrow : row.Pairwise (· < ·)) (hm : m < row.length)
    (hlt : row[m] < q) : ∀ p ∈ row.take (m + 1), p < q := by
  intro p hp
  obtain ⟨i, hi, rfl⟩ := List.mem_iff_getElem.1 hp
  rw [List.getElem_take]
  rw [List.length_take] at hi
  rcases Nat.lt_or_eq_of_le (show i ≤ m by omega) with him | rfl
  · exact Nat.lt_trans (List.pairwise_iff_getElem.1 hrow i m (by omega) hm him) hlt
  · exact hlt

theorem window_above {m : Nat} (hrow : row.Pairwise (· < ·)) (hm : m < row.length)
    (hlt : q < row[m]) : ∀ p ∈ row.drop m, q < p := by
  intro p hp
  obtain ⟨i, hi, rfl⟩ := List.mem_iff_getElem.1 hp
  rw [List.getElem_drop]
  rw [List.length_drop] at hi
  rcases Nat.eq_zero_or_pos i with rfl | hpos
  · exact hlt
  · exact Nat.lt_trans hlt (List.pairwise_iff_getElem.1 hrow m (m + i) hm (by omega) (by omega))

/-- In an increasing row, halving keeps the state between the two places, if it stands anywhere. -/
theorem looked_search (hrow : row.Pairwise (· < ·)) (hhigh : high ≤ row.length)
    (h : Window row q low high) : Looked row q (search row q low high hhigh) := by
  fun_induction search row q low high hhigh with
  | case1 low high hhigh hlow middle hmiddle hcompare =>
    have heq : row[middle] = q := Nat.compare_eq_eq.1 hcompare
    exact .present (by rw [List.getElem?_eq_getElem hmiddle, heq])
  | case2 low high hhigh hlow middle hmiddle hcompare ih =>
    have hlt : row[middle] < q := Nat.compare_eq_lt.1 hcompare
    exact ih ⟨by omega, window_below hrow hmiddle hlt, h.above⟩
  | case3 low high hhigh hlow middle hmiddle hcompare ih =>
    have hlt : q < row[middle] := Nat.compare_eq_gt.1 hcompare
    exact ih ⟨by omega, h.below, window_above hrow hmiddle hlt⟩
  | case4 low high hhigh hlow =>
    have hmeet : low = high := Nat.le_antisymm h.le (Nat.le_of_not_lt hlow)
    exact .absent h.below (hmeet ▸ h.above)

theorem looked_place (hrow : r.states.Pairwise (· < ·)) (q : Nat) :
    Looked r.states q (r.place q) :=
  looked_search hrow (Nat.le_refl _) ⟨Nat.zero_le _, by simp, by simp⟩

end Search

section Rows

theorem increasing_insert (hrow : row.Pairwise (· < ·)) (below : ∀ p ∈ row.take i, p < q)
    (above : ∀ p ∈ row.drop i, q < p) : (row.take i ++ q :: row.drop i).Pairwise (· < ·) := by
  refine List.pairwise_append.2 ⟨hrow.take, List.pairwise_cons.2 ⟨above, hrow.drop⟩, ?_⟩
  intro p hp
  exact List.forall_mem_cons.2 ⟨below p hp, fun p' hp' => Nat.lt_trans (below p hp) (above p' hp')⟩

theorem not_mem_of_apart (below : ∀ p ∈ row.take i, p < q) (above : ∀ p ∈ row.drop i, q < p) :
    q ∉ row := by
  intro hmem
  rw [← List.take_append_drop i row, List.mem_append] at hmem
  rcases hmem with hmem | hmem
  · exact Nat.lt_irrefl q (below q hmem)
  · exact Nat.lt_irrefl q (above q hmem)

theorem mem_insert_row : p ∈ row.take i ++ q :: row.drop i ↔ p = q ∨ p ∈ row := by
  rw [List.mem_append, List.mem_cons, or_left_comm, ← List.mem_append, List.take_append_drop]

theorem mem_dropRepeats : p ∈ dropRepeats states ↔ p ∈ states := by
  fun_induction dropRepeats states with
  | case1 q states ih => rw [ih, List.mem_cons, List.mem_cons, List.mem_cons, or_self_left]
  | case2 q q' states hne ih => rw [List.mem_cons, ih, List.mem_cons (a := p) (b := q)]
  | case3 states _ => exact Iff.rfl

theorem increasing_dropRepeats (h : states.Pairwise (· ≤ ·)) :
    (dropRepeats states).Pairwise (· < ·) := by
  fun_induction dropRepeats states with
  | case1 q states ih => exact ih h.of_cons
  | case2 q q' states hne ih =>
    obtain ⟨hle, hrest⟩ := List.pairwise_cons.1 h
    refine List.pairwise_cons.2 ⟨fun p hp => ?_, ih hrest⟩
    have hlt : q < q' := Nat.lt_of_le_of_ne (hle q' List.mem_cons_self) hne
    rcases List.mem_cons.1 (mem_dropRepeats.1 hp) with rfl | hp
    · exact hlt
    · exact Nat.lt_of_lt_of_le hlt ((List.pairwise_cons.1 hrest).1 p hp)
  | case3 states hshort =>
    match states with
    | [] => exact .nil
    | [q] => exact List.pairwise_singleton _ q
    | q :: q' :: states => exact absurd rfl (hshort q q' states)

/-- The row lists the states of the set. -/
def Lists (r : StateRow) (s : StateSet) : Prop := r.states = s.toList

theorem increasing_toList (s : StateSet) : s.toList.Pairwise (· < ·) :=
  s.increasing.imp Nat.compare_eq_lt.1

theorem lists_of_mem (hrow : r.states.Pairwise (· < ·)) (h : ∀ q, q ∈ r.states ↔ q ∈ s) :
    r.Lists s :=
  OrderedSet.ext_list (hrow.imp Nat.compare_eq_lt.2) s.increasing h

namespace Lists

theorem increasing (h : r.Lists s) : r.states.Pairwise (· < ·) := h ▸ increasing_toList s

theorem mem_iff (h : r.Lists s) : q ∈ r.states ↔ q ∈ s := by
  rw [h]
  exact OrderedSet.mem_toList

theorem contains_iff (h : r.Lists s) : r.contains q = true ↔ q ∈ s := by
  have hlooked := looked_place h.increasing q
  rw [← h.mem_iff, contains]
  generalize r.place q = place at hlooked
  cases hlooked with
  | present hi => exact iff_of_true rfl (List.mem_of_getElem? hi)
  | absent below above => exact iff_of_false Bool.false_ne_true (not_mem_of_apart below above)

/-- A state that is inserted is told to be new just if it is. -/
theorem insert (h : r.Lists s) (q : Nat) :
    (r.insert q).2.Lists (s.insert q) ∧ ((r.insert q).1 = true ↔ q ∉ s) := by
  have hlooked := looked_place h.increasing q
  rw [StateRow.insert]
  generalize r.place q = place at hlooked
  cases hlooked with
  | present hi =>
    have hmem : q ∈ s := h.mem_iff.1 (List.mem_of_getElem? hi)
    rw [OrderedSet.insert_of_mem hmem]
    exact ⟨h, iff_of_false Bool.false_ne_true fun hnew => hnew hmem⟩
  | absent below above =>
    have hnew : q ∉ s := fun hmem => not_mem_of_apart below above (h.mem_iff.2 hmem)
    refine ⟨lists_of_mem (increasing_insert h.increasing below above) fun p => ?_,
      iff_of_true rfl hnew⟩
    rw [mem_insert_row, h.mem_iff, OrderedSet.mem_insert]

theorem intersects_iff (h : r.Lists s) (h' : r'.Lists t) :
    r.intersects r' = true ↔ ∃ q, q ∈ s ∧ q ∈ t := by
  rw [intersects, List.any_eq_true]
  exact exists_congr fun q => and_congr h.mem_iff h'.contains_iff

end Lists

theorem lists_ofList (states : List Nat) : (ofList states).Lists (OrderedSet.ofList states) := by
  refine lists_of_mem (increasing_dropRepeats ?_) fun q => ?_
  · exact (List.pairwise_mergeSort (by simpa using fun _ _ _ => Nat.le_trans)
      (by simpa using Nat.le_total) states).imp of_decide_eq_true
  · rw [OrderedSet.mem_ofList, ofList, mem_dropRepeats, List.mem_mergeSort]

theorem Lists.extend (h : r.Lists s) (states : List Nat) :
    (r.extend states).Lists (s.union (OrderedSet.ofList states)) := by
  have hboth : OrderedSet.ofList (r.states ++ states) = s.union (OrderedSet.ofList states) := by
    refine OrderedSet.ext fun q => ?_
    rw [OrderedSet.mem_ofList, OrderedSet.mem_union, OrderedSet.mem_ofList, List.mem_append, h.mem_iff]
  rw [← hboth]
  exact lists_ofList _

end Rows

section Calls

/-- What may be asked of a row. The first three make it anew. -/
inductive Call where
  | empty
  | singleton (q : Nat)
  | ofList (states : List Nat)
  | insert (q : Nat)
  | extend (states : List Nat)

/-- The states that a call puts in. -/
def Call.puts : Call → List Nat
  | empty => []
  | singleton q => [q]
  | ofList states => states
  | insert q => [q]
  | extend states => states

/-- Whether nothing is left of what the row was before. -/
def Call.resets : Call → Bool
  | empty | singleton _ | ofList _ => true
  | insert _ | extend _ => false

variable {c : Call} {calls : List Call}

/-- The row after a call. -/
def called (r : StateRow) : Call → StateRow
  | .empty => .empty
  | .singleton q => .singleton q
  | .ofList states => .ofList states
  | .insert q => (r.insert q).2
  | .extend states => r.extend states

def after (calls : List Call) : StateRow := calls.foldl called .empty

/-- Some call puts the state in, and the row is not made anew from then on. -/
def PutIn (calls : List Call) (q : Nat) : Prop :=
  ∃ before c later, calls = before ++ c :: later ∧ q ∈ c.puts ∧ ∀ d ∈ later, d.resets = false

theorem not_putIn_nil : ¬ PutIn [] q := not_lasts_nil

theorem putIn_concat :
    PutIn (calls ++ [c]) q ↔ q ∈ c.puts ∨ c.resets = false ∧ PutIn calls q :=
  lasts_concat

/-- A call leads from a row that lists a set to another one. -/
theorem Lists.exists_called (h : r.Lists s) (c : Call) : ∃ t : StateSet, (r.called c).Lists t ∧
    ∀ q, q ∈ t ↔ q ∈ c.puts ∨ c.resets = false ∧ q ∈ s := by
  cases c with
  | empty => exact ⟨∅, rfl, by simp [Call.puts, Call.resets]⟩
  | singleton q => exact ⟨.singleton q, rfl, by simp [Call.puts, Call.resets]⟩
  | ofList states => exact ⟨_, lists_ofList states, by simp [Call.puts, Call.resets]⟩
  | insert q => exact ⟨_, (h.insert q).1, by simp [Call.puts, Call.resets]⟩
  | extend states => exact ⟨_, h.extend states, by simp [Call.puts, Call.resets, or_comm]⟩

/-- After any calls the row lists the set of the states that were put in. -/
theorem exists_lists_after (calls : List Call) :
    ∃ s : StateSet, (after calls).Lists s ∧ ∀ q, q ∈ s ↔ PutIn calls q := by
  induction calls using List.reverseRecOn with
  | nil => exact ⟨∅, rfl, fun q => iff_of_false (OrderedSet.not_mem_empty q) not_putIn_nil⟩
  | append_singleton calls c ih =>
    obtain ⟨s, hlists, hs⟩ := ih
    obtain ⟨t, ht, hmem⟩ := hlists.exists_called c
    refine ⟨t, ?_, fun q => ?_⟩
    · rwa [after, List.foldl_append]
    · rw [hmem, putIn_concat, hs]

/--
After any calls a row is increasing, and lists the set of the states that were put in since it was
last made. So it contains just these and is as large as their set, a state that is inserted is new
just if it is none of them, rows intersect, from either side, just if they share one, and two rows are
equal just if the same states were put in.
-/
theorem row_after_calls (calls calls' : List Call) :
    (after calls).states.Pairwise (· < ·) ∧
    (∃ s : StateSet, (after calls).Lists s ∧ ∀ q, q ∈ s ↔ PutIn calls q) ∧
    (∀ q, (after calls).contains q = true ↔ PutIn calls q) ∧
    (∀ q, ((after calls).insert q).1 = true ↔ ¬ PutIn calls q) ∧
    ((after calls).size : ℕ∞) = {q | PutIn calls q}.encard ∧
    ((after calls).intersects (after calls') = true ↔ ∃ q, PutIn calls q ∧ PutIn calls' q) ∧
    ((after calls').intersects (after calls) = (after calls).intersects (after calls')) ∧
    (after calls = after calls' ↔ ∀ q, PutIn calls q ↔ PutIn calls' q) := by
  obtain ⟨s, hlists, hs⟩ := exists_lists_after calls
  obtain ⟨t, hlists', ht⟩ := exists_lists_after calls'
  simp only [← hs, ← ht]
  refine ⟨hlists.increasing, ⟨s, hlists, fun q => Iff.rfl⟩, fun q => hlists.contains_iff,
    fun q => (hlists.insert q).2, ?_, hlists.intersects_iff hlists', ?_, ?_⟩
  · have hset : {q | q ∈ s} = (s.toList.toFinset : Set Nat) := by
      ext q
      simp [OrderedSet.mem_toList]
    rw [hset, Set.encard_coe_eq_coe_finsetCard, List.toFinset_card_of_nodup s.nodup_toList, size,
      hlists]
  · rw [Bool.eq_iff_iff, hlists'.intersects_iff hlists, hlists.intersects_iff hlists']
    exact exists_congr fun q => and_comm
  · constructor
    · intro heq q
      rw [← hlists.mem_iff, ← hlists'.mem_iff, heq]
    · intro hsame
      have hrows : (after calls).states = (after calls').states :=
        hlists.trans ((congrArg OrderedSet.toList (OrderedSet.ext hsame)).trans hlists'.symm)
      exact congrArg StateRow.mk hrows

end Calls

end FormalLanguage.StateRow
