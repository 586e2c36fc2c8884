import FormalLanguage.OrderedSet

/-! Finite maps as lists of entries with strictly increasing keys. -/
namespace FormalLanguage

universe u v w

/-- A finite map, listed in increasing order of its keys. -/
structure OrderedMap (κ : Type u) (α : Type v) [Ord κ] where
  entries : List (κ × α)
  increasing : entries.Pairwise fun e f => compare e.1 f.1 = .lt

namespace OrderedMap

variable {κ : Type u} {α : Type v} {β : Type w} [Ord κ] {m : OrderedMap κ α} {k l : κ} {a b : α}
  {entries : List (κ × α)}

def empty : OrderedMap κ α := ⟨[], .nil⟩

instance : EmptyCollection (OrderedMap κ α) := ⟨empty⟩

def isEmpty (m : OrderedMap κ α) : Bool := m.entries.isEmpty

def get? (m : OrderedMap κ α) (k : κ) : Option α :=
  (m.entries.find? fun e => compare e.1 k = .eq).map Prod.snd

/-- Changes each value, which may depend on its key. -/
def map (m : OrderedMap κ α) (f : κ → α → β) : OrderedMap κ β :=
  ⟨m.entries.map fun e => (e.1, f e.1 e.2), List.pairwise_map.2 m.increasing⟩

def filter (m : OrderedMap κ α) (p : κ → α → Bool) : OrderedMap κ α :=
  ⟨m.entries.filter fun e => p e.1 e.2, m.increasing.filter _⟩

def erase (m : OrderedMap κ α) (k : κ) : OrderedMap κ α := m.filter fun l _ => compare l k ≠ .eq

/-- Puts an entry at its place, or in place of the one with the same key. -/
def putEntry (k : κ) (a : α) : List (κ × α) → List (κ × α)
  | [] => [(k, a)]
  | (l, b) :: entries =>
    match compare k l with
    | .lt => (k, a) :: (l, b) :: entries
    | .eq => (k, a) :: entries
    | .gt => (l, b) :: putEntry k a entries

theorem mem_of_mem_putEntry {e : κ × α} (h : e ∈ putEntry k a entries) :
    e = (k, a) ∨ e ∈ entries := by
  fun_induction putEntry k a entries with
  | case1 => exact .inl (List.mem_singleton.1 h)
  | case2 l b entries hlt => exact List.mem_cons.1 h
  | case3 l b entries heq => exact (List.mem_cons.1 h).imp_right (List.mem_cons_of_mem _)
  | case4 l b entries hgt ih =>
    rcases List.mem_cons.1 h with rfl | h
    · exact .inr List.mem_cons_self
    · exact (ih h).imp_right (List.mem_cons_of_mem _)

section Lookup

variable [Std.LawfulEqOrd κ]

/-- A key has one entry. -/
theorem eq_of_mem_entries (h : entries.Pairwise fun e f => compare e.1 f.1 = .lt)
    (ha : (k, a) ∈ entries) (hb : (k, b) ∈ entries) : a = b := by
  have irrefl : compare k k ≠ .lt := by simp [Std.ReflCmp.compare_self]
  induction entries with
  | nil => cases ha
  | cons e entries ih =>
    obtain ⟨hfirst, hrest⟩ := List.pairwise_cons.1 h
    rcases List.mem_cons.1 ha with rfl | ha'
    · rcases List.mem_cons.1 hb with hb | hb
      · exact (Prod.mk.inj hb).2.symm
      · exact absurd (hfirst _ hb) irrefl
    · rcases List.mem_cons.1 hb with rfl | hb
      · exact absurd (hfirst _ ha') irrefl
      · exact ih hrest ha' hb

theorem eq_of_find? {e : κ × α} (h : m.entries.find? (fun e => compare e.1 k = .eq) = some e) :
    e.1 = k := by
  have hkey := List.find?_some h
  exact Std.LawfulEqOrd.eq_of_compare (of_decide_eq_true hkey)

theorem get?_eq_some_iff : m.get? k = some a ↔ (k, a) ∈ m.entries := by
  unfold get?
  constructor
  · intro h
    obtain ⟨⟨l, b⟩, hfind, rfl⟩ := Option.map_eq_some_iff.1 h
    obtain rfl : l = k := eq_of_find? hfind
    exact List.mem_of_find?_eq_some hfind
  · intro h
    cases hfind : m.entries.find? fun e => compare e.1 k = .eq with
    | none =>
      have hkey := List.find?_eq_none.1 hfind _ h
      exact absurd (decide_eq_true Std.ReflCmp.compare_self) hkey
    | some e =>
      obtain ⟨l, b⟩ := e
      obtain rfl : l = k := eq_of_find? hfind
      exact congrArg some (eq_of_mem_entries m.increasing (List.mem_of_find?_eq_some hfind) h)

theorem get?_map {f : κ → α → β} : (m.map f).get? k = (m.get? k).map (f k) := by
  apply Option.ext
  intro b
  rw [get?_eq_some_iff, Option.map_eq_some_iff]
  simp only [get?_eq_some_iff, map, List.mem_map, Prod.mk.injEq]
  constructor
  · rintro ⟨⟨l, a⟩, hmem, rfl, rfl⟩
    exact ⟨a, hmem, rfl⟩
  · rintro ⟨a, hmem, rfl⟩
    exact ⟨(k, a), hmem, rfl, rfl⟩

theorem get?_filter {p : κ → α → Bool} : (m.filter p).get? k = (m.get? k).filter (p k) := by
  apply Option.ext
  intro a
  rw [get?_eq_some_iff, Option.filter_eq_some_iff, get?_eq_some_iff]
  exact List.mem_filter

theorem find?_putEntry : (putEntry k a entries).find? (fun e => compare e.1 l = .eq) =
    if compare k l = .eq then some (k, a) else entries.find? fun e => compare e.1 l = .eq := by
  by_cases hkey : compare k l = .eq
  · rw [if_pos hkey]
    fun_induction putEntry k a entries with
    | case1 | case2 | case3 => exact List.find?_cons_of_pos (decide_eq_true hkey)
    | case4 l' b entries hgt ih =>
      -- the entry before the place has another key
      have hne : ¬ compare l' l = .eq := by
        intro hl
        obtain rfl := Std.LawfulEqOrd.eq_of_compare hkey
        obtain rfl := Std.LawfulEqOrd.eq_of_compare hl
        rw [hkey] at hgt
        cases hgt
      rw [List.find?_cons_of_neg (by simpa using hne), ih]
  · rw [if_neg hkey]
    have hskip (entries : List (κ × α)) : ((k, a) :: entries).find? (fun e => compare e.1 l = .eq) =
        entries.find? fun e => compare e.1 l = .eq :=
      List.find?_cons_of_neg (by simpa using hkey)
    fun_induction putEntry k a entries with
    | case1 => exact hskip []
    | case2 l' b entries hlt => exact hskip _
    | case3 l' b entries heq =>
      obtain rfl := Std.LawfulEqOrd.eq_of_compare heq
      rw [hskip, List.find?_cons_of_neg (by simpa using hkey)]
    | case4 l' b entries hgt ih => rw [List.find?_cons, List.find?_cons, ih]

end Lookup

section Insertion

variable [Std.TransOrd κ] [Std.LawfulEqOrd κ]

theorem increasing_putEntry (h : entries.Pairwise fun e f => compare e.1 f.1 = .lt) :
    (putEntry k a entries).Pairwise fun e f => compare e.1 f.1 = .lt := by
  fun_induction putEntry k a entries with
  | case1 => exact List.pairwise_singleton _ _
  | case2 l b entries hlt =>
    refine List.pairwise_cons.2 ⟨fun e he => ?_, h⟩
    rcases List.mem_cons.1 he with rfl | he
    · exact hlt
    · exact Std.TransCmp.lt_trans hlt ((List.pairwise_cons.1 h).1 e he)
  | case3 l b entries heq =>
    obtain rfl := Std.LawfulEqOrd.eq_of_compare heq
    exact List.pairwise_cons.2 (List.pairwise_cons.1 h)
  | case4 l b entries hgt ih =>
    obtain ⟨hfirst, hrest⟩ := List.pairwise_cons.1 h
    refine List.pairwise_cons.2 ⟨fun e he => ?_, ih hrest⟩
    rcases mem_of_mem_putEntry he with rfl | he
    · exact Std.OrientedCmp.gt_iff_lt.1 hgt
    · exact hfirst e he

def insert (m : OrderedMap κ α) (k : κ) (a : α) : OrderedMap κ α :=
  ⟨putEntry k a m.entries, increasing_putEntry m.increasing⟩

/-- A key that is put in has its new value, and the others keep theirs. -/
theorem get?_insert : (m.insert k a).get? l = if compare k l = .eq then some a else m.get? l := by
  show ((putEntry k a m.entries).find? fun e => compare e.1 l = .eq).map Prod.snd = _
  rw [find?_putEntry]
  split <;> rfl

end Insertion

end OrderedMap

end FormalLanguage
