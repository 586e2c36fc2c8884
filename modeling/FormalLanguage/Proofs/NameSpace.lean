import Mathlib.Data.List.Nodup
import Mathlib.Data.Set.Function
import Mathlib.Order.Interval.Set.Defs
import FormalLanguage.NameSpace

/-!
The sequence of names, position by position. Main statement: just the positions below the capacity
have names, which are listed in this order, and no name has two positions if no character is twice in
the alphabet. Words of 64 bits are wide enough for all that.
-/
namespace FormalLanguage

theorem toString_injective {i j : Nat} (h : toString i = toString j) : i = j := by
  rw [Nat.toString_eq_repr, Nat.toString_eq_repr] at h
  have hdigits : Nat.toDigits 10 i = Nat.toDigits 10 j := by
    rw [← Nat.toList_repr, ← Nat.toList_repr, h]
  rw [← Nat.ofDigitChars_ten_toDigits (n := i), hdigits, Nat.ofDigitChars_ten_toDigits]

namespace NameSpace

variable {s : NameSpace} {name : String} {c d : Char} {a b : Option Nat} {j k m n : Nat}

section Spelling

/-- A character alone, or with a number. -/
def spell (c : Char) : Option Nat → String
  | none => String.singleton c
  | some k => numbered c k

theorem toList_spell (c : Char) (a : Option Nat) :
    (spell c a).toList = c :: (a.elim "" toString).toList := by
  cases a with
  | none => exact String.toList_singleton c
  | some k => simp [spell, numbered, String.toList_append]

/-- A number has a digit. -/
theorem suffix_injective (h : a.elim "" toString = b.elim "" toString) : a = b := by
  cases a with
  | none =>
    cases b with
    | none => rfl
    | some k => exact absurd h.symm Nat.repr_ne_empty
  | some j =>
    cases b with
    | none => exact absurd h Nat.repr_ne_empty
    | some k => exact congrArg some (toString_injective h)

/-- The first character of a name is the one that it is made of, be it a digit. -/
theorem spell_inj : spell c a = spell d b ↔ c = d ∧ a = b := by
  constructor
  · intro h
    have hlist := congrArg String.toList h
    rw [toList_spell, toList_spell] at hlist
    obtain ⟨hchar, hsuffix⟩ := List.cons.inj hlist
    exact ⟨hchar, suffix_injective (String.toList_inj.1 hsuffix)⟩
  · rintro ⟨rfl, rfl⟩
    rfl

/-- A name with a number is not a character alone. -/
theorem numbered_ne_singleton : numbered d k ≠ String.singleton c := by
  intro h
  have hspell : spell d (some k) = spell c none := h
  exact absurd (spell_inj.1 hspell).2 (Option.some_ne_none k)

theorem numbered_inj : numbered c j = numbered d k ↔ c = d ∧ j = k := by
  have hspell : numbered c j = numbered d k ↔ spell c (some j) = spell d (some k) := Iff.rfl
  rw [hspell, spell_inj, Option.some_inj]

end Spelling

section Positions

/-- What the name at a position is made of. -/
inductive MadeOf (s : NameSpace) (n : Nat) (c : Char) : Option Nat → Prop
  | alone (hc : s.alphabet[n]? = some c) : MadeOf s n c none
  | suffixed {i k : Nat} (hc : s.alphabet[i]? = some c) (hk : k < s.suffixes)
      (hn : n = s.alphabet.length + (s.suffixes * i + k)) : MadeOf s n c (some k)

theorem eq_of_div_mod (h : ¬ n < s.alphabet.length) : n = s.alphabet.length +
    (s.suffixes * ((n - s.alphabet.length) / s.suffixes) +
      (n - s.alphabet.length) % s.suffixes) := by
  rw [Nat.div_add_mod]
  omega

theorem nth?_eq_some_iff : s.nth? n = some name ↔ ∃ c a, s.MadeOf n c a ∧ spell c a = name := by
  constructor
  · intro h
    unfold nth? at h
    split at h
    · obtain ⟨c, hc, hname⟩ := Option.map_eq_some_iff.1 h
      exact ⟨c, none, .alone hc, hname⟩
    · next hn =>
      split at h
      · cases h
      · next hsuffixes =>
        obtain ⟨c, hc, hname⟩ := Option.map_eq_some_iff.1 h
        have hk := Nat.mod_lt (n - s.alphabet.length) (Nat.pos_of_ne_zero hsuffixes)
        exact ⟨c, some _, .suffixed hc hk (eq_of_div_mod hn), hname⟩
  · rintro ⟨c, a, hmade, rfl⟩
    cases hmade with
    | alone hc =>
      have hlt : n < s.alphabet.length := (List.getElem?_eq_some_iff.1 hc).1
      rw [nth?, if_pos hlt, hc]
      rfl
    | @suffixed i k hc hk hn =>
      have hge : ¬ n < s.alphabet.length := by omega
      have hpos : 0 < s.suffixes := Nat.zero_lt_of_lt hk
      have hrest : k + s.suffixes * i = n - s.alphabet.length := by omega
      obtain ⟨hdiv, hmod⟩ := (Nat.div_mod_unique hpos).2 ⟨hrest, hk⟩
      rw [nth?, if_neg hge, if_neg (Nat.ne_of_gt hpos)]
      simp only [hdiv, hmod, hc]
      rfl

theorem MadeOf.lt_capacity (h : s.MadeOf n c a) : n < s.capacity := by
  unfold capacity
  cases h with
  | alone hc =>
    obtain ⟨hlt, -⟩ := List.getElem?_eq_some_iff.1 hc
    omega
  | @suffixed i k hc hk hn =>
    obtain ⟨hlt, -⟩ := List.getElem?_eq_some_iff.1 hc
    have hrow : s.suffixes * (i + 1) ≤ s.suffixes * s.alphabet.length := Nat.mul_le_mul_left _ hlt
    rw [Nat.mul_add, Nat.mul_one] at hrow
    rw [Nat.mul_comm s.alphabet.length]
    omega

theorem exists_madeOf (h : n < s.capacity) : ∃ c a, s.MadeOf n c a := by
  unfold capacity at h
  by_cases hn : n < s.alphabet.length
  · exact ⟨_, none, .alone (List.getElem?_eq_getElem hn)⟩
  · have hrest : n - s.alphabet.length < s.alphabet.length * s.suffixes := by omega
    have hpos : 0 < s.suffixes := Nat.pos_of_mul_pos_left (Nat.zero_lt_of_lt hrest)
    have hi := (Nat.div_lt_iff_lt_mul hpos).2 hrest
    exact ⟨_, some _,
      .suffixed (List.getElem?_eq_getElem hi) (Nat.mod_lt _ hpos) (eq_of_div_mod hn)⟩

theorem lt_capacity_of_nth? (h : s.nth? n = some name) : n < s.capacity := by
  obtain ⟨c, a, hmade, -⟩ := nth?_eq_some_iff.1 h
  exact hmade.lt_capacity

theorem nth?_isSome_iff : (s.nth? n).isSome = true ↔ n < s.capacity := by
  rw [Option.isSome_iff_exists]
  constructor
  · rintro ⟨name, hname⟩
    exact lt_capacity_of_nth? hname
  · intro hn
    obtain ⟨c, a, hmade⟩ := exists_madeOf hn
    exact ⟨spell c a, nth?_eq_some_iff.2 ⟨c, a, hmade, rfl⟩⟩

/-- In an alphabet without repetition a character and its number have one position. -/
theorem MadeOf.unique (halphabet : s.alphabet.Nodup) (hm : s.MadeOf m c a) (hn : s.MadeOf n c a) :
    m = n := by
  have hplace {i j : Nat} (hi : s.alphabet[i]? = some c) (hj : s.alphabet[j]? = some c) : i = j :=
    (List.getElem?_inj (List.getElem?_eq_some_iff.1 hi).1 halphabet).1 (hi.trans hj.symm)
  cases hm with
  | alone hm => cases hn with | alone hn => exact hplace hm hn
  | suffixed hi _ hm => cases hn with | suffixed hj _ hn => rw [hm, hn, hplace hi hj]

theorem nth?_injOn_iff : Set.InjOn s.nth? (Set.Iio s.capacity) ↔ s.alphabet.Nodup := by
  constructor
  · intro hinj
    rw [List.nodup_iff_getElem?_ne_getElem?]
    intro i j hij hj heq
    -- the same character alone would be at both places
    have hnames : s.nth? i = s.nth? j := by
      rw [nth?, nth?, if_pos (Nat.lt_trans hij hj), if_pos hj, heq]
    have hle : s.alphabet.length ≤ s.capacity := Nat.le_add_right _ _
    exact Nat.ne_of_lt hij (hinj (Set.mem_Iio.2 (by omega)) (Set.mem_Iio.2 (by omega)) hnames)
  · intro halphabet m hm n hn hnames
    obtain ⟨c, a, hmade⟩ := exists_madeOf hm
    have hm' := nth?_eq_some_iff.2 ⟨c, a, hmade, rfl⟩
    obtain ⟨d, b, hmade', hspell⟩ := nth?_eq_some_iff.1 (hnames.symm.trans hm')
    obtain ⟨rfl, rfl⟩ := spell_inj.1 hspell
    exact hmade.unique halphabet hmade'

end Positions

section Listing

/-- None of the first positions is left out. -/
theorem map_some_filterMap_nth? (h : k ≤ s.capacity) :
    ((List.range k).filterMap s.nth?).map some = (List.range k).map s.nth? := by
  rw [List.map_filterMap_some_eq_filter_map_isSome, List.filter_eq_self]
  intro found hfound
  obtain ⟨n, hn, rfl⟩ := List.mem_map.1 hfound
  exact nth?_isSome_iff.2 (Nat.lt_of_lt_of_le (List.mem_range.1 hn) h)

theorem first_eq_take (s : NameSpace) (k : Nat) : s.first k = s.names.take k := by
  refine List.map_injective_iff.2 (Option.some_injective String) ?_
  show ((List.range (min k s.capacity)).filterMap s.nth?).map some = (s.names.take k).map some
  rw [map_some_filterMap_nth? (Nat.min_le_right _ _), List.map_take, names,
    map_some_filterMap_nth? (Nat.le_refl _), ← List.map_take, List.take_range]

theorem mem_names_iff : name ∈ s.names ↔ ∃ n, s.nth? n = some name := by
  simp only [names, List.mem_filterMap, List.mem_range]
  constructor
  · rintro ⟨n, -, hn⟩
    exact ⟨n, hn⟩
  · rintro ⟨n, hn⟩
    exact ⟨n, lt_capacity_of_nth? hn, hn⟩

/-- The names of a single character are the characters of the alphabet. -/
theorem singleton_mem_names_iff : String.singleton c ∈ s.names ↔ c ∈ s.alphabet := by
  rw [mem_names_iff, List.mem_iff_getElem?]
  refine exists_congr fun n => ?_
  rw [nth?_eq_some_iff]
  constructor
  · rintro ⟨d, a, hmade, hspell⟩
    have hsame : spell d a = spell c none := hspell
    obtain ⟨rfl, rfl⟩ := spell_inj.1 hsame
    cases hmade with | alone hc => exact hc
  · intro hc
    exact ⟨c, none, .alone hc, rfl⟩

end Listing

section Words

theorem toNat_toUInt64 (h : k < UInt32.size) : k.toUInt64.toNat = k :=
  UInt64.toNat_ofNat_of_lt' (Nat.lt_trans h (by decide))

variable (halphabet : s.alphabet.length < UInt32.size) (hsuffixes : s.suffixes < UInt32.size)
include halphabet hsuffixes

theorem capacity_lt_size : s.capacity < UInt64.size := by
  have hproduct : s.alphabet.length * s.suffixes ≤ (UInt32.size - 1) * (UInt32.size - 1) :=
    Nat.mul_le_mul (Nat.le_pred_of_lt halphabet) (Nat.le_pred_of_lt hsuffixes)
  unfold capacity UInt64.size
  unfold UInt32.size at halphabet hproduct
  omega

theorem toNat_wordCapacity : s.wordCapacity.toNat = s.capacity := by
  simp only [wordCapacity, UInt64.toNat_add, UInt64.toNat_mul, toNat_toUInt64 halphabet,
    toNat_toUInt64 hsuffixes, Nat.add_mod_mod]
  exact Nat.mod_eq_of_lt (capacity_lt_size halphabet hsuffixes)

theorem wordNth?_eq (n : UInt64) : s.wordNth? n = s.nth? n.toNat := by
  have hcharacters := toNat_toUInt64 halphabet
  have hnumbers := toNat_toUInt64 hsuffixes
  have halone : n < s.alphabet.length.toUInt64 ↔ n.toNat < s.alphabet.length := by
    rw [UInt64.lt_iff_toNat_lt, hcharacters]
  have hnone : s.suffixes.toUInt64 = 0 ↔ s.suffixes = 0 := by
    rw [← UInt64.toNat_inj, hnumbers]
    rfl
  rw [wordNth?, nth?]
  simp only [halone, hnone, UInt64.toNat_div, UInt64.toNat_mod, hnumbers]
  by_cases hn : n.toNat < s.alphabet.length
  · rw [if_pos hn, if_pos hn]
  · have hle : s.alphabet.length.toUInt64 ≤ n := by
      rw [UInt64.le_iff_toNat_le, hcharacters]
      exact Nat.le_of_not_lt hn
    rw [if_neg hn, if_neg hn, UInt64.toNat_sub_of_le _ _ hle, hcharacters]

end Words

/--
Just the positions below the capacity have a name, the list of all names goes through them in order,
and its beginnings are the first names. No two of these positions have one name if, and only if, no
character is twice in the alphabet: a name with a number is no character alone, and it has one
character and one number. An alphabet and suffixes that are counted in 32 bits are looked up
in words of 64 bits.
-/
theorem positions_list_names (s : NameSpace) :
    (∀ n, (s.nth? n).isSome = true ↔ n < s.capacity) ∧
    s.names.map some = (List.range s.capacity).map s.nth? ∧
    (∀ k, s.first k = s.names.take k) ∧
    (Set.InjOn s.nth? (Set.Iio s.capacity) ↔ s.alphabet.Nodup) ∧
    (∀ c d k, numbered c k ≠ String.singleton d) ∧
    (∀ c d j k, numbered c j = numbered d k ↔ c = d ∧ j = k) ∧
    (s.alphabet.length < UInt32.size → s.suffixes < UInt32.size →
      s.wordCapacity.toNat = s.capacity ∧ ∀ n, s.wordNth? n = s.nth? n.toNat) := by
  refine ⟨fun n => nth?_isSome_iff, map_some_filterMap_nth? (Nat.le_refl _), first_eq_take s,
    nth?_injOn_iff, fun c d k => numbered_ne_singleton, fun c d j k => numbered_inj, ?_⟩
  intro halphabet hsuffixes
  exact ⟨toNat_wordCapacity halphabet hsuffixes, wordNth?_eq halphabet hsuffixes⟩

/-- Digits as characters do not make the names with numbers ambiguous. -/
example : ({ alphabet := ['1', '0'], suffixes := 2 } : NameSpace).names =
    ["1", "0", "10", "11", "00", "01"] := by decide

end NameSpace
end FormalLanguage
