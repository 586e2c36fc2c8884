/-! The sequence that fresh names are drawn from: characters, then characters with a number. -/
namespace FormalLanguage

/-- An alphabet and the number of suffixes `0`, `1`, … that each character takes. -/
structure NameSpace where
  alphabet : List Char := "0123456789ABCDEFGHIJKLMNOPQRSTUVWXYZ".toList
  suffixes : Nat := 100
deriving DecidableEq

namespace NameSpace

instance : Inhabited NameSpace := ⟨{}⟩

/-- The number of names in the sequence. -/
def capacity (s : NameSpace) : Nat := s.alphabet.length + s.alphabet.length * s.suffixes

/-- A character followed by a number in decimal digits. -/
def numbered (c : Char) (n : Nat) : String := String.singleton c ++ toString n

/-- The name at a position: all characters alone, then each character with all its suffixes. -/
def nth? (s : NameSpace) (n : Nat) : Option String :=
  if n < s.alphabet.length then s.alphabet[n]?.map String.singleton
  else if s.suffixes = 0 then none
  else
    let k := n - s.alphabet.length
    s.alphabet[k / s.suffixes]?.map (numbered · (k % s.suffixes))

/-- The number of names as it is counted in words of 64 bits. -/
def wordCapacity (s : NameSpace) : UInt64 :=
  let characters := s.alphabet.length.toUInt64
  characters + characters * s.suffixes.toUInt64

/-- The name at a position as it is looked up in words of 64 bits. -/
def wordNth? (s : NameSpace) (n : UInt64) : Option String :=
  let characters := s.alphabet.length.toUInt64
  let suffixes := s.suffixes.toUInt64
  if n < characters then s.alphabet[n.toNat]?.map String.singleton
  else if suffixes = 0 then none
  else
    let k := n - characters
    s.alphabet[(k / suffixes).toNat]?.map (numbered · (k % suffixes).toNat)

/-- All names in order. -/
def names (s : NameSpace) : List String := (List.range s.capacity).filterMap s.nth?

/-- The first `k` names, without listing the rest. -/
def first (s : NameSpace) (k : Nat) : List String :=
  (List.range (min k s.capacity)).filterMap s.nth?

/-- The first free name from position `n` on, among the next `count` positions. -/
def free? (s : NameSpace) (taken : String → Bool) : (count n : Nat) → Option (Nat × String)
  | 0, _ => none
  | count + 1, n =>
    match s.nth? n with
    | none => free? s taken count (n + 1)
    | some name => if taken name then free? s taken count (n + 1) else some (n, name)

variable {s : NameSpace} {taken : String → Bool}

theorem taken_of_free?_eq_none {count n : Nat} (h : s.free? taken count n = none)
    {m : Nat} (hn : n ≤ m) (hm : m < n + count) {name : String} (hname : s.nth? m = some name) :
    taken name = true := by
  induction count generalizing n with
  | zero => omega
  | succ count ih =>
    unfold free? at h
    rcases Nat.eq_or_lt_of_le hn with rfl | hlt
    · rw [hname] at h
      cases ht : taken name with
      | true => rfl
      | false => simp [ht] at h
    · refine ih ?_ hlt (by omega)
      split at h
      · exact h
      · split at h
        · exact h
        · cases h

theorem free?_eq_some {count n m : Nat} {name : String} (h : s.free? taken count n = some (m, name)) :
    n ≤ m ∧ s.nth? m = some name ∧ taken name = false ∧
      ∀ k, n ≤ k → k < m → ∀ other, s.nth? k = some other → taken other = true := by
  induction count generalizing n with
  | zero => simp [free?] at h
  | succ count ih =>
    unfold free? at h
    split at h
    · next hn =>
      obtain ⟨h₁, h₂, h₃, h₄⟩ := ih h
      refine ⟨by omega, h₂, h₃, fun k hk hkm other ho => ?_⟩
      rcases Nat.eq_or_lt_of_le hk with rfl | hlt
      · simp [hn] at ho
      · exact h₄ k hlt hkm other ho
    · next candidate hn =>
      split at h
      · next ht =>
        obtain ⟨h₁, h₂, h₃, h₄⟩ := ih h
        refine ⟨by omega, h₂, h₃, fun k hk hkm other ho => ?_⟩
        rcases Nat.eq_or_lt_of_le hk with rfl | hlt
        · rw [hn] at ho
          cases ho
          exact ht
        · exact h₄ k hlt hkm other ho
      · next ht =>
        cases h
        exact ⟨Nat.le_refl _, hn, by simpa using ht, fun k hk hkm => by omega⟩

end NameSpace

end FormalLanguage
