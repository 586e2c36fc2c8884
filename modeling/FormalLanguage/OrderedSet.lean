/-! Finite sets as strictly increasing lists: sets with the same members are the same value. -/
namespace FormalLanguage

universe u v

/-- A finite set, listed in increasing order without repetition. -/
structure OrderedSet (α : Type u) [Ord α] where
  toList : List α
  increasing : toList.Pairwise fun a b => compare a b = .lt

namespace OrderedSet

variable {α : Type u} {β : Type v} [Ord α] [Ord β]

instance : Membership α (OrderedSet α) := ⟨fun s a => a ∈ s.toList⟩

instance [DecidableEq α] (a : α) (s : OrderedSet α) : Decidable (a ∈ s) :=
  inferInstanceAs (Decidable (a ∈ s.toList))

theorem mem_toList {a : α} {s : OrderedSet α} : a ∈ s.toList ↔ a ∈ s := Iff.rfl

theorem toList_injective {s t : OrderedSet α} (h : s.toList = t.toList) : s = t := by
  cases s; cases t; cases h; rfl

instance [DecidableEq α] : DecidableEq (OrderedSet α) := fun s t =>
  decidable_of_iff (s.toList = t.toList) ⟨toList_injective, congrArg toList⟩

/-- Sets are ordered like the lists of their members. -/
instance : Ord (OrderedSet α) := ⟨compareOn toList⟩

instance [Std.TransOrd α] : Std.TransOrd (OrderedSet α) :=
  inferInstanceAs (Std.TransCmp (compareOn (toList (α := α))))

instance [Std.LawfulEqOrd α] : Std.LawfulEqOrd (OrderedSet α) where
  compare_self := Std.ReflOrd.compare_self (α := List α)
  eq_of_compare h := toList_injective (Std.LawfulEqOrd.eq_of_compare (α := List α) h)

def empty : OrderedSet α := ⟨[], .nil⟩

instance : EmptyCollection (OrderedSet α) := ⟨empty⟩

instance : Inhabited (OrderedSet α) := ⟨empty⟩

@[simp] theorem toList_empty : (∅ : OrderedSet α).toList = [] := rfl

@[simp] theorem not_mem_empty (a : α) : a ∉ (∅ : OrderedSet α) := List.not_mem_nil

def singleton (a : α) : OrderedSet α := ⟨[a], List.pairwise_singleton _ a⟩

@[simp] theorem mem_singleton {a b : α} : a ∈ singleton b ↔ a = b := List.mem_singleton

def size (s : OrderedSet α) : Nat := s.toList.length

def isEmpty (s : OrderedSet α) : Bool := s.toList.isEmpty

theorem eq_empty_of_isEmpty {s : OrderedSet α} (h : s.isEmpty = true) : s = ∅ :=
  toList_injective (List.isEmpty_iff.1 h)

theorem isEmpty_eq_false {s : OrderedSet α} {a : α} (h : a ∈ s) : s.isEmpty = false :=
  List.isEmpty_eq_false_iff.2 (List.ne_nil_of_mem h)

def filter (s : OrderedSet α) (p : α → Bool) : OrderedSet α :=
  ⟨s.toList.filter p, s.increasing.filter p⟩

@[simp] theorem mem_filter {s : OrderedSet α} {p : α → Bool} {a : α} :
    a ∈ s.filter p ↔ a ∈ s ∧ p a = true := List.mem_filter

def erase [DecidableEq α] (s : OrderedSet α) (a : α) : OrderedSet α := s.filter (· ≠ a)

@[simp] theorem mem_erase [DecidableEq α] {s : OrderedSet α} {a b : α} :
    b ∈ s.erase a ↔ b ∈ s ∧ b ≠ a := by simp [erase]

/-- Whether the sets share a member. -/
def intersects [DecidableEq α] (s t : OrderedSet α) : Bool := s.toList.any (· ∈ t)

theorem intersects_iff [DecidableEq α] {s t : OrderedSet α} :
    s.intersects t = true ↔ ∃ a, a ∈ s ∧ a ∈ t := by
  simp [intersects, mem_toList]

/-- Merges a value, and what `rest` merges behind it, into an increasing list. -/
def mergeHead (a : α) (rest : List α → List α) : List α → List α
  | [] => a :: rest []
  | b :: bs =>
    match compare a b with
    | .lt => a :: rest (b :: bs)
    | .eq => a :: rest bs
    | .gt => b :: mergeHead a rest bs

/-- Merges increasing lists; what both lists hold is kept once. -/
def merge : List α → List α → List α
  | [] => id
  | a :: as => mergeHead a (merge as)

variable [Std.LawfulEqOrd α]

theorem nodup_toList (s : OrderedSet α) : s.toList.Nodup := by
  refine s.increasing.imp fun {a b} hlt heq => ?_
  have hself : compare b b = .eq := Std.ReflCmp.compare_self
  rw [heq, hself] at hlt
  cases hlt

/-- A set is as large as a list of its members without repetition. -/
theorem size_eq_length {s : OrderedSet α} {l : List α} (hl : l.Nodup) (h : ∀ a, a ∈ s ↔ a ∈ l) :
    s.size = l.length :=
  ((List.perm_ext_iff_of_nodup s.nodup_toList hl).2 h).length_eq

theorem mem_mergeHead {a x : α} {rest : List α → List α} {as : List α}
    (hrest : ∀ l, x ∈ rest l ↔ x ∈ as ∨ x ∈ l) (bs : List α) :
    x ∈ mergeHead a rest bs ↔ x ∈ a :: as ∨ x ∈ bs := by
  induction bs with
  | nil => simp [mergeHead, hrest]
  | cons b bs ih =>
    unfold mergeHead
    split
    · simp only [List.mem_cons, hrest, or_assoc]
    · next h =>
      have hab : a = b := Std.LawfulEqOrd.eq_of_compare h
      simp only [List.mem_cons, hrest, hab]
      grind
    · simp only [List.mem_cons, ih]
      grind

theorem mem_merge {x : α} {as bs : List α} : x ∈ merge as bs ↔ x ∈ as ∨ x ∈ bs := by
  induction as generalizing bs with
  | nil => simp [merge]
  | cons a as ih => exact mem_mergeHead (fun _ => ih) bs

variable [Std.TransOrd α]

theorem pairwise_merge {as bs : List α} (ha : as.Pairwise fun a b => compare a b = .lt)
    (hb : bs.Pairwise fun a b => compare a b = .lt) :
    (merge as bs).Pairwise fun a b => compare a b = .lt := by
  induction as generalizing bs with
  | nil => exact hb
  | cons a as ih =>
    obtain ⟨haas, has⟩ := List.pairwise_cons.1 ha
    show (mergeHead a (merge as) bs).Pairwise _
    induction bs with
    | nil =>
      refine List.pairwise_cons.2 ⟨fun x hx => ?_, ih has .nil⟩
      exact haas x ((mem_merge.1 hx).elim id fun h => absurd h List.not_mem_nil)
    | cons b bs ihb =>
      obtain ⟨hbbs, hbs⟩ := List.pairwise_cons.1 hb
      unfold mergeHead
      split
      · next hlt =>
        refine List.pairwise_cons.2 ⟨fun x hx => ?_, ih has hb⟩
        rcases mem_merge.1 hx with hx | hx
        · exact haas x hx
        · rcases List.mem_cons.1 hx with rfl | hx
          · exact hlt
          · exact Std.TransCmp.lt_trans hlt (hbbs x hx)
      · next heq =>
        have hab : a = b := Std.LawfulEqOrd.eq_of_compare heq
        exact List.pairwise_cons.2
          ⟨fun x hx => (mem_merge.1 hx).elim (haas x) (hab ▸ hbbs x), ih has hbs⟩
      · next hgt =>
        have hba : compare b a = .lt := Std.OrientedCmp.gt_iff_lt.1 hgt
        refine List.pairwise_cons.2 ⟨fun x hx => ?_, ihb hbs⟩
        rcases mem_merge.1 (show x ∈ merge (a :: as) bs from hx) with hx | hx
        · rcases List.mem_cons.1 hx with rfl | hx
          · exact hba
          · exact Std.TransCmp.lt_trans hba (haas x hx)
        · exact hbbs x hx

def union (s t : OrderedSet α) : OrderedSet α :=
  ⟨merge s.toList t.toList, pairwise_merge s.increasing t.increasing⟩

@[simp] theorem mem_union {s t : OrderedSet α} {a : α} : a ∈ s.union t ↔ a ∈ s ∨ a ∈ t :=
  mem_merge

def insert (s : OrderedSet α) (a : α) : OrderedSet α := (singleton a).union s

@[simp] theorem mem_insert {s : OrderedSet α} {a b : α} : b ∈ s.insert a ↔ b = a ∨ b ∈ s := by
  simp [insert]

/--
Adds a set to a row of sets. Each place of the row holds nothing or a set put together from twice as
many sets as the place before, so that only sets of about the same size are merged.
-/
def carry (s : OrderedSet α) : List (Option (OrderedSet α)) → List (Option (OrderedSet α))
  | [] => [some s]
  | none :: row => some s :: row
  | some t :: row => none :: carry (t.union s) row

/-- All members of a row of sets. -/
def collect : List (Option (OrderedSet α)) → OrderedSet α
  | [] => ∅
  | none :: row => collect row
  | some s :: row => s.union (collect row)

theorem mem_collect_carry {s : OrderedSet α} {row : List (Option (OrderedSet α))} {a : α} :
    a ∈ collect (carry s row) ↔ a ∈ s ∨ a ∈ collect row := by
  induction row generalizing s with
  | nil => simp [carry, collect]
  | cons place row ih =>
    cases place with
    | none => simp [carry, collect]
    | some t => simp [carry, collect, ih, or_left_comm, or_assoc]

def ofList (l : List α) : OrderedSet α :=
  collect (l.foldl (fun row a => carry (singleton a) row) [])

theorem mem_collect_foldl {l : List α} {row : List (Option (OrderedSet α))} {a : α} :
    a ∈ collect (l.foldl (fun row a => carry (singleton a) row) row) ↔ a ∈ l ∨ a ∈ collect row := by
  induction l generalizing row with
  | nil => simp
  | cons b l ih => simp [ih, mem_collect_carry, or_left_comm, or_assoc]

@[simp] theorem mem_ofList {l : List α} {a : α} : a ∈ ofList l ↔ a ∈ l := by
  simp [ofList, mem_collect_foldl, collect]

theorem ext_list {l m : List α} (hl : l.Pairwise fun a b => compare a b = .lt)
    (hm : m.Pairwise fun a b => compare a b = .lt) (h : ∀ a, a ∈ l ↔ a ∈ m) : l = m := by
  induction l generalizing m with
  | nil =>
    cases m with
    | nil => rfl
    | cons b bs => exact absurd ((h b).2 List.mem_cons_self) List.not_mem_nil
  | cons a as ih =>
    cases m with
    | nil => exact absurd ((h a).1 List.mem_cons_self) List.not_mem_nil
    | cons b bs =>
      obtain ⟨ha, has⟩ := List.pairwise_cons.1 hl
      obtain ⟨hb, hbs⟩ := List.pairwise_cons.1 hm
      have irrefl (c : α) : compare c c ≠ .lt := by simp [Std.ReflCmp.compare_self]
      have hab : a = b := by
        rcases List.mem_cons.1 ((h a).1 List.mem_cons_self) with hab | hab
        · exact hab
        · rcases List.mem_cons.1 ((h b).2 List.mem_cons_self) with hba | hba
          · exact hba.symm
          · exact absurd (Std.TransCmp.lt_trans (hb a hab) (ha b hba)) (irrefl b)
      subst hab
      refine congrArg (a :: ·) (ih has hbs fun c => ⟨fun hc => ?_, fun hc => ?_⟩)
      · rcases List.mem_cons.1 ((h c).1 (List.mem_cons_of_mem a hc)) with rfl | hc'
        · exact absurd (ha c hc) (irrefl c)
        · exact hc'
      · rcases List.mem_cons.1 ((h c).2 (List.mem_cons_of_mem a hc)) with rfl | hc'
        · exact absurd (hb c hc) (irrefl c)
        · exact hc'

/-- Sets with the same members are equal. -/
theorem ext {s t : OrderedSet α} (h : ∀ a, a ∈ s ↔ a ∈ t) : s = t :=
  toList_injective (ext_list s.increasing t.increasing h)

theorem size_insert_of_not_mem {s : OrderedSet α} {a : α} (h : a ∉ s) :
    (s.insert a).size = s.size + 1 :=
  size_eq_length (l := a :: s.toList) (List.nodup_cons.2 ⟨h, s.nodup_toList⟩) fun b => by
    rw [mem_insert, List.mem_cons, mem_toList]

theorem insert_of_mem {s : OrderedSet α} {a : α} (h : a ∈ s) : s.insert a = s :=
  ext fun b => by
    rw [mem_insert]
    exact ⟨fun hb => hb.elim (fun e => e ▸ h) id, Or.inr⟩

end OrderedSet

end FormalLanguage
