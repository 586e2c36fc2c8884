import Mathlib.Algebra.BigOperators.Group.Finset.Powerset
import FormalLanguage.NormalForm.Epsilon

/-!
The variants of a body. Main statement: there is one for each set of places with a nullable symbol,
namely the body without the symbols at these places, so that each such place doubles their number.
-/
namespace FormalLanguage

variable {p : Symbol → Bool} {body : Body} {s : Symbol} {places : Finset Nat}

/-- The places of a body that have a nullable symbol. -/
def nullablePlaces (nullable : Symbol → Bool) (body : Body) : Finset Nat :=
  (Finset.range body.length).filter fun i => body[i]?.any nullable

/-- What is left of a body, in order, without the symbols at some places. -/
def leaveOut (body : Body) (places : Finset Nat) : Body :=
  (body.zipIdx.filter fun x => x.2 ∉ places).map Prod.fst

/-- The variants of what has been read, with one more symbol: a nullable one doubles them. -/
def extendVariants (nullable : Symbol → Bool) (variants : List Body) (s : Symbol) : List Body :=
  let kept := variants.map (· ++ [s])
  if nullable s then variants ++ kept else kept

/-- The variants of a body that is read from left to right. -/
def growVariants (nullable : Symbol → Bool) (body : Body) : List Body :=
  body.foldl (extendVariants nullable) [[]]

section Places

theorem length_notMem_nullablePlaces : body.length ∉ nullablePlaces p body := by
  simp [nullablePlaces]

theorem nullablePlaces_concat : nullablePlaces p (body ++ [s]) =
    if p s then insert body.length (nullablePlaces p body) else nullablePlaces p body := by
  have hbefore : (Finset.range body.length).filter (fun i => (body ++ [s])[i]?.any p) =
      nullablePlaces p body := by
    refine Finset.filter_congr fun i hi => ?_
    rw [List.getElem?_append_left (Finset.mem_range.1 hi)]
  rw [nullablePlaces, List.length_append, List.length_singleton, Finset.range_add_one,
    Finset.filter_insert, hbefore, List.getElem?_concat_length]
  rfl

/-- A place behind the body does not matter. -/
theorem leaveOut_insert_length : leaveOut body (insert body.length places) = leaveOut body places := by
  refine congrArg (List.map Prod.fst) (List.filter_congr fun x hx => ?_)
  have hlt : x.2 < body.length := List.snd_lt_of_mem_zipIdx hx
  simp [Nat.ne_of_lt hlt]

theorem leaveOut_concat : leaveOut (body ++ [s]) places =
    leaveOut body places ++ if body.length ∈ places then [] else [s] := by
  rw [leaveOut, List.zipIdx_append, List.filter_append, List.map_append, leaveOut, Nat.zero_add]
  by_cases h : body.length ∈ places <;> simp [h]

end Places

section Variants

/-- One variant for each set of places with a nullable symbol. -/
def variantsOf (nullable : Symbol → Bool) (body : Body) : Multiset Body :=
  (nullablePlaces nullable body).powerset.val.map (leaveOut body)

theorem sum_singletons (family : Finset (Finset Nat)) (f : Finset Nat → Body) :
    ∑ places ∈ family, ({f places} : Multiset Body) = family.val.map f :=
  calc ∑ places ∈ family, ({f places} : Multiset Body)
    _ = ((family.val.map f).map fun body => {body}).sum := by rw [Multiset.map_map]; rfl
    _ = family.val.map f := Multiset.sum_map_singleton _

/-- A symbol that is not left out stands at the end of each variant. -/
theorem map_leaveOut_concat :
    (nullablePlaces p body).powerset.val.map (leaveOut (body ++ [s])) =
      (variantsOf p body).map (· ++ [s]) := by
  rw [variantsOf, Multiset.map_map]
  refine Multiset.map_congr rfl fun places hplaces => ?_
  have hnot : body.length ∉ places := fun hmem =>
    length_notMem_nullablePlaces (p := p) (Finset.mem_powerset.1 hplaces hmem)
  rw [leaveOut_concat, if_neg hnot]
  rfl

/-- Variants with one more symbol, and without it if it may be left out. -/
def widen (nullable : Symbol → Bool) (variants : Multiset Body) (s : Symbol) : Multiset Body :=
  (if nullable s then variants else 0) + variants.map (· ++ [s])

/-- The sets of places with the last one, if its symbol is nullable, and those without it. -/
theorem variantsOf_concat : variantsOf p (body ++ [s]) = widen p (variantsOf p body) s := by
  rw [widen, ← map_leaveOut_concat, variantsOf, nullablePlaces_concat]
  split_ifs
  · have hlast : (nullablePlaces p body).powerset.val.map
        (fun places => leaveOut (body ++ [s]) (insert body.length places)) = variantsOf p body := by
      refine Multiset.map_congr rfl fun places _ => ?_
      rw [leaveOut_concat, if_pos (Finset.mem_insert_self _ _), List.append_nil,
        leaveOut_insert_length]
    rw [← sum_singletons, Finset.sum_powerset_insert length_notMem_nullablePlaces, sum_singletons,
      sum_singletons, hlast, add_comm]
  · rw [zero_add]

theorem coe_extendVariants (variants : List Body) (s : Symbol) :
    (extendVariants p variants s : Multiset Body) = widen p variants s := by
  by_cases hs : p s = true <;> simp [extendVariants, widen, hs]

theorem coe_omissions_cons (s : Symbol) (body : Body) :
    (omissions p (s :: body) : Multiset Body) =
      (if p s then (omissions p body : Multiset Body) else 0) +
        (omissions p body : Multiset Body).map (s :: ·) := by
  by_cases hs : p s = true <;> simp [omissions, hs]

/-- It does not matter from which end a body is read. -/
theorem coe_omissions_concat (body : Body) (s : Symbol) :
    (omissions p (body ++ [s]) : Multiset Body) = widen p (omissions p body) s := by
  induction body with
  | nil =>
    have hone : omissions p [s] = extendVariants p (omissions p []) s := by
      by_cases hs : p s = true <;> simp [omissions, extendVariants, hs]
    rw [List.nil_append, hone, coe_extendVariants]
  | cons x body ih =>
    have hends : ((omissions p body : Multiset Body).map (· ++ [s])).map (x :: ·) =
        ((omissions p body : Multiset Body).map (x :: ·)).map (· ++ [s]) := by
      rw [Multiset.map_map, Multiset.map_map]
      rfl
    rw [List.cons_append, coe_omissions_cons, ih, widen, widen, coe_omissions_cons, Multiset.map_add,
      Multiset.map_add, hends]
    split_ifs
    · exact add_add_add_comm _ _ _ _
    · simp only [zero_add, Multiset.map_zero]
    · simp only [zero_add, Multiset.map_zero]
    · simp only [zero_add, Multiset.map_zero]

end Variants

/--
A body has one variant for each set of its places with a nullable symbol, namely what is left of it
without the symbols at these places; sets count also where they leave the same. So there are as many as
two to the number of these places. Reading the body from left to right, with twice as many variants
at each of them, leads to the same ones.
-/
theorem omissions_eq_powerset (nullable : Symbol → Bool) (body : Body) :
    (omissions nullable body : Multiset Body) =
      (nullablePlaces nullable body).powerset.val.map (leaveOut body) ∧
    (omissions nullable body).length = 2 ^ (nullablePlaces nullable body).card ∧
    (growVariants nullable body).Perm (omissions nullable body) := by
  have hsets : (omissions nullable body : Multiset Body) = variantsOf nullable body := by
    induction body using List.reverseRecOn with
    | nil => rfl
    | append_singleton body s ih => rw [coe_omissions_concat, ih, variantsOf_concat]
  have hgrown : (growVariants nullable body : Multiset Body) = omissions nullable body := by
    clear hsets
    induction body using List.reverseRecOn with
    | nil => rfl
    | append_singleton body s ih =>
      rw [growVariants, List.foldl_append, List.foldl_cons, List.foldl_nil, coe_extendVariants,
        coe_omissions_concat, ← ih, growVariants]
  refine ⟨hsets, ?_, Multiset.coe_eq_coe.1 hgrown⟩
  have hcard := congrArg Multiset.card hsets
  rwa [Multiset.coe_card, variantsOf, Multiset.card_map, Finset.card_val, Finset.card_powerset] at hcard

/-- Either of two like symbols may be left out. -/
example : omissions (fun _ => true) [.nonterminal ⟨0⟩, .nonterminal ⟨0⟩] =
    [[], [.nonterminal ⟨0⟩], [.nonterminal ⟨0⟩], [.nonterminal ⟨0⟩, .nonterminal ⟨0⟩]] := rfl

end FormalLanguage
