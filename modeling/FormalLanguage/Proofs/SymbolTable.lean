import Mathlib.Tactic.ByContra
import FormalLanguage.SymbolTable
import FormalLanguage.Proofs.Outcome

/-! The symbols that a table gave out, their names, and the one that a fresh name adds. -/
namespace FormalLanguage.SymbolTable

variable {t u : SymbolTable} {s x y : Symbol} {n : NonTerminal}

theorem lt_size_of_contains (h : t.contains s = true) : s.id < t.size := by
  unfold contains at h
  by_contra hge
  rw [List.getElem?_eq_none (Nat.le_of_not_lt hge)] at h
  simp at h

/-- A table holds one symbol for each ID. -/
theorem eq_of_contains (hx : t.contains x = true) (hy : t.contains y = true) (hid : x.id = y.id) :
    x = y := by
  rw [contains_iff] at hx hy
  rw [hid, hy] at hx
  exact (Option.some.inj hx).symm

/-- A name is looked up by ID, whatever the kind. -/
theorem nameOf?_isSome_iff : (t.nameOf? s).isSome = true ↔ s.id < t.size := by
  simp [nameOf?, size]

theorem exists_nameOf? (h : t.contains s = true) : ∃ name, t.nameOf? s = some name :=
  Option.isSome_iff_exists.1 (nameOf?_isSome_iff.2 (lt_size_of_contains h))

theorem mem_names_of_nameOf? {name : String} (h : t.nameOf? s = some name) : name ∈ t.names := by
  obtain ⟨e, he, rfl⟩ := Option.map_eq_some_iff.1 h
  exact List.mem_map_of_mem (List.mem_of_getElem? he)

/-- No name is given to two IDs. -/
theorem id_eq_of_nameOf? {name : String} (hx : t.nameOf? x = some name)
    (hy : t.nameOf? y = some name) : x.id = y.id := by
  have hget : ∀ i : Nat, t.names[i]? = t.entries[i]?.map Entry.name := fun i => List.getElem?_map
  rw [nameOf?, ← hget] at hx hy
  obtain ⟨hlt, -⟩ := List.getElem?_eq_some_iff.1 hx
  exact (List.getElem?_inj hlt t.nodup).1 (hx.trans hy.symm)

theorem contains_append {name : String} {kind : Kind}
    (h : u.entries = t.entries ++ [⟨name, kind⟩]) :
    u.contains s = true ↔ t.contains s = true ∨ s = .ofKind kind t.size := by
  simp only [contains_iff, symbol?, h, List.getElem?_append]
  by_cases hlt : s.id < t.entries.length
  · have hne : s ≠ .ofKind kind t.size := by
      intro heq
      rw [heq, Symbol.id_ofKind] at hlt
      exact Nat.lt_irrefl _ hlt
    simp [hlt, hne]
  · have hnone : t.entries[s.id]? = none := List.getElem?_eq_none (Nat.le_of_not_lt hlt)
    rw [if_neg hlt, hnone]
    simp only [Option.map_none, reduceCtorEq, false_or]
    by_cases heq : s.id = t.size
    · have hsub : s.id - t.entries.length = 0 := by
        rw [heq, size, Nat.sub_self]
      rw [hsub, heq]
      simp [eq_comm]
    · have hgt : t.size < s.id := Nat.lt_of_le_of_ne (Nat.le_of_not_lt hlt) (Ne.symm heq)
      have hnone' : [Entry.mk name kind][s.id - t.entries.length]? = none := by
        apply List.getElem?_eq_none
        have : t.entries.length < s.id := hgt
        simp only [List.length_cons, List.length_nil]
        omega
      rw [hnone']
      simp only [Option.map_none, reduceCtorEq, false_iff]
      rintro rfl
      exact heq (Symbol.id_ofKind _ _)

/-- The name that is found is bound to the next ID, and nothing is bound if none is found. -/
theorem fresh_cases (t : SymbolTable) :
    (∃ k name u, t.free? = some (k, name) ∧ t.fresh = (.ok ⟨t.size⟩, u) ∧
      u.entries = t.entries ++ [⟨name, .nonterminal⟩] ∧ u.nameSpace = t.nameSpace) ∨
    ∃ u, t.free? = none ∧ t.fresh = (.error (.namesExhausted t.nameSpace.capacity), u) ∧
      u.entries = t.entries ∧ u.nameSpace = t.nameSpace := by
  unfold fresh
  split
  · next k name hfree => exact .inl ⟨k, name, _, hfree, rfl, rfl, rfl⟩
  · next hfree => exact .inr ⟨_, hfree, rfl, rfl, rfl⟩

/-- A fresh nonterminal takes the next ID of the table. -/
theorem fresh_eq_ok (h : t.fresh = (.ok n, u)) :
    n.id = t.size ∧ ∃ name, name ∉ t.names ∧ u.entries = t.entries ++ [⟨name, .nonterminal⟩] := by
  obtain ⟨_, name, _, hfree, hfresh, hentries, -⟩ | ⟨_, -, hfresh, -⟩ := fresh_cases t
  · cases h.symm.trans hfresh
    exact ⟨rfl, name, not_mem_of_free? hfree, hentries⟩
  · cases h.symm.trans hfresh

theorem fresh_eq_error {e : NameError} (h : t.fresh = (.error e, u)) :
    e = .namesExhausted t.nameSpace.capacity := by
  obtain ⟨_, _, _, -, hfresh, -⟩ | ⟨_, -, hfresh, -⟩ := fresh_cases t
  · cases h.symm.trans hfresh
  · cases h.symm.trans hfresh
    rfl

/-- A name stands for the symbol of the table that has it. -/
theorem get?_eq_some_iff {name : String} :
    t.get? name = some s ↔ t.contains s = true ∧ t.nameOf? s = some name := by
  have named : ∀ {x}, t.get? name = some x → t.nameOf? x = some name := by
    intro x hx
    obtain ⟨id, hid, hsym⟩ := Option.bind_eq_some_iff.1 hx
    obtain ⟨hlt, hname, -⟩ := List.findIdx?_eq_some_iff_getElem.1 hid
    rw [nameOf?, id_of_symbol? hsym, List.getElem?_eq_getElem hlt]
    exact congrArg some (of_decide_eq_true hname)
  constructor
  · intro h
    exact ⟨contains_of_get? h, named h⟩
  · rintro ⟨hs, hname⟩
    cases hget : t.get? name with
    | none => exact absurd (mem_names_of_nameOf? hname) (get?_eq_none_iff.1 hget)
    | some x =>
      rw [eq_of_contains (contains_of_get? hget) hs (id_eq_of_nameOf? (named hget) hname)]

/-- No symbol has two names. -/
theorem name_eq_of_get? {name other : String} (h : t.get? name = some s)
    (h' : t.get? other = some s) : name = other :=
  Option.some.inj ((get?_eq_some_iff.1 h).2.symm.trans (get?_eq_some_iff.1 h').2)

/-- Every name of the first table stands for the same symbol in the second one. -/
def Extends (t u : SymbolTable) : Prop :=
  ∀ name s, t.get? name = some s → u.get? name = some s

namespace Extends

theorem refl (t : SymbolTable) : t.Extends t := fun _ _ h => h

theorem trans {v : SymbolTable} (h : t.Extends u) (h' : u.Extends v) : t.Extends v :=
  fun name s hs => h' name s (h name s hs)

theorem contains (h : t.Extends u) (hs : t.contains s = true) : u.contains s = true := by
  obtain ⟨name, hname⟩ := exists_nameOf? hs
  exact contains_of_get? (h name s (get?_eq_some_iff.2 ⟨hs, hname⟩))

end Extends

section Push

variable {name other : String} {kind : Kind} {free : name ∉ t.names}

theorem nameOf?_push (h : t.contains s = true) :
    (t.push name kind free).nameOf? s = t.nameOf? s := by
  have hlt : s.id < t.entries.length := lt_size_of_contains h
  rw [nameOf?, nameOf?, push, List.getElem?_append_left hlt]

theorem get?_push_self : (t.push name kind free).get? name = some (.ofKind kind t.size) := by
  rw [get?_eq_some_iff]
  refine ⟨contains_push_self, ?_⟩
  simp [nameOf?, push, size]

theorem get?_push_of_ne (hne : other ≠ name) :
    (t.push name kind free).get? other = t.get? other := by
  apply Option.ext
  intro s
  rw [get?_eq_some_iff, get?_eq_some_iff, contains_append rfl]
  constructor
  · rintro ⟨hs | rfl, hname⟩
    · exact ⟨hs, nameOf?_push hs ▸ hname⟩
    · have hself : (t.push name kind free).nameOf? (.ofKind kind t.size) = some name :=
        (get?_eq_some_iff.1 get?_push_self).2
      exact absurd (Option.some.inj (hname.symm.trans hself)) hne
  · rintro ⟨hs, hname⟩
    exact ⟨.inl hs, (nameOf?_push hs).trans hname⟩

end Push

/-- The second table has the name for the symbol, and is as the first one otherwise. -/
structure Interned (t u : SymbolTable) (name : String) (s : Symbol) : Prop where
  get?_self : u.get? name = some s
  get?_of_ne : ∀ other, other ≠ name → u.get? other = t.get? other
  bound : ∀ x, t.get? name = some x → x = s

theorem Interned.keeps {name : String} (h : t.Interned u name s) : t.Extends u := by
  intro other x hx
  by_cases heq : other = name
  · subst other
    rw [h.bound x hx, h.get?_self]
  · rwa [h.get?_of_ne other heq]

theorem interned_of_intern {name : String} {kind : Kind} {id : Nat}
    (h : t.intern name kind = .ok (id, u)) : t.Interned u name (.ofKind kind id) := by
  unfold intern at h
  split at h
  · cases h
  · split at h
    · next s hs =>
      split at h
      · next hkind =>
        cases h
        have hself : s = .ofKind kind s.id := by rw [← hkind, Symbol.ofKind_kind_id]
        refine ⟨hs.trans (congrArg some hself), fun _ _ => rfl, ?_⟩
        intro x hx
        rw [hs] at hx
        cases hx
        exact hself
      · cases h
    · next hnone =>
      cases h
      refine ⟨get?_push_self, fun _ => get?_push_of_ne, ?_⟩
      intro x hx
      rw [hnone] at hx
      cases hx

/-- A name can be bound unless it is reserved or has the other kind. -/
theorem exists_intern {name : String} {kind : Kind} (hname : name ≠ epsilonText)
    (hkind : ∀ s, t.get? name = some s → s.kind = kind) : ∃ id u, t.intern name kind = .ok (id, u) := by
  unfold intern
  rw [if_neg hname]
  split
  · next s hs =>
    rw [if_pos (hkind s hs)]
    exact ⟨_, _, rfl⟩
  · exact ⟨_, _, rfl⟩

/-- A name that may be given to a nonterminal, or that one has. -/
def Bindable (t : SymbolTable) (name : String) : Prop :=
  name ≠ epsilonText ∧ ∀ s, t.get? name = some s → s.kind = .nonterminal

/-- The second table has the name for the nonterminal, and is as the first one otherwise. -/
structure Binds (t u : SymbolTable) (name : String) (n : NonTerminal) : Prop where
  get?_self : u.get? name = some (.nonterminal n)
  get?_of_ne : ∀ other, other ≠ name → u.get? other = t.get? other
  bound : ∀ s, t.get? name = some s → s = .nonterminal n

namespace Binds

variable {name other : String}

theorem keeps (h : t.Binds u name n) : t.Extends u :=
  Interned.keeps ⟨h.get?_self, h.get?_of_ne, h.bound⟩

/-- Naming a nonterminal takes no name away from the others. -/
theorem bindable (h : t.Binds u name n) (hother : t.Bindable other) : u.Bindable other := by
  refine ⟨hother.1, ?_⟩
  intro s hs
  by_cases heq : other = name
  · rw [heq, h.get?_self] at hs
    cases hs
    rfl
  · rw [h.get?_of_ne other heq] at hs
    exact hother.2 s hs

end Binds

theorem intern_of_nonterminal {name : String} (h : t.nonterminal name = .ok (n, u)) :
    t.intern name .nonterminal = .ok (n.id, u) := by
  unfold nonterminal at h
  obtain ⟨⟨id, u'⟩, hintern, heq⟩ := map_eq_ok_iff.1 h
  cases heq
  exact hintern

theorem binds_of_nonterminal {name : String} (h : t.nonterminal name = .ok (n, u)) :
    t.Binds u name n := by
  obtain ⟨hself, hne, hbound⟩ := interned_of_intern (intern_of_nonterminal h)
  exact ⟨hself, hne, hbound⟩

theorem exists_nonterminal {name : String} (h : t.Bindable name) :
    ∃ n u, t.nonterminal name = .ok (n, u) := by
  obtain ⟨id, u, hintern⟩ := exists_intern h.1 h.2
  exact ⟨⟨id⟩, u, by rw [nonterminal, hintern]; rfl⟩

end FormalLanguage.SymbolTable
