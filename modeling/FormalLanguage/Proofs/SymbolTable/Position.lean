import FormalLanguage.Proofs.SymbolTable.Marker

/-!
The position in the sequence of fresh names. Main statements: a fresh nonterminal is given the
earliest name of the whole sequence that is not bound, and a table that looks through the sequence
from its beginning answers all requests in the same way.
-/
namespace FormalLanguage

/-- The name has this position in the sequence and is not bound, but all names before it are. -/
structure NameSpace.Earliest (s : NameSpace) (bound : List String) (name : String) (n : Nat) :
    Prop where
  nth?_eq : s.nth? n = some name
  free : name ∉ bound
  before : ∀ k < n, ∀ other, s.nth? k = some other → other ∈ bound

theorem NameSpace.Earliest.unique {s : NameSpace} {bound : List String} {name other : String}
    {n k : Nat} (h : s.Earliest bound name n) (h' : s.Earliest bound other k) : n = k := by
  rcases Nat.lt_trichotomy n k with hlt | heq | hgt
  · exact absurd (h'.before n hlt name h.nth?_eq) h.free
  · exact heq
  · exact absurd (h.before k hgt other h'.nth?_eq) h'.free

namespace SymbolTable

variable {t u : SymbolTable} {name : String} {n : Nat}

theorem earliest_of_free? (h : t.free? = some (n, name)) :
    t.nameSpace.Earliest t.names name n := by
  have hfree := not_mem_of_free? h
  refine ⟨(NameSpace.free?_eq_some h).2.1, hfree, ?_⟩
  intro k hk other hother
  obtain ⟨-, -, -, hlater⟩ := NameSpace.free?_eq_some h
  by_cases hpassed : k < t.position
  · exact t.passed k hpassed other hother
  · exact of_decide_eq_true (hlater k (Nat.le_of_not_lt hpassed) hk other hother)

/-- Looking from the position on finds the name that looking from the beginning would find. -/
theorem free?_eq_some_iff :
    t.free? = some (n, name) ↔ t.nameSpace.Earliest t.names name n := by
  refine ⟨earliest_of_free?, fun h => ?_⟩
  cases hfound : t.free? with
  | none => exact absurd (mem_names_of_free?_eq_none hfound h.nth?_eq) h.free
  | some found =>
    obtain ⟨k, other⟩ := found
    have hearliest := earliest_of_free? hfound
    have hk : k = n := hearliest.unique h
    have hname : some other = some name := by
      rw [← hearliest.nth?_eq, hk, h.nth?_eq]
    rw [hk, Option.some.inj hname]

/-- A fresh nonterminal is given just if some name of the sequence is free. -/
theorem fresh_isOk_iff :
    (∃ n, t.fresh.1 = .ok n) ↔ ∃ name ∈ t.nameSpace.names, name ∉ t.names := by
  constructor
  · rintro ⟨n, hok⟩
    obtain ⟨name, hname, -⟩ := exists_drawn (Prod.ext hok rfl)
    exact ⟨name, mem_freeNames_iff.1 hname⟩
  · rintro ⟨name, hname⟩
    rcases hfresh : t.fresh with ⟨e | n, u⟩
    · have hmem := mem_freeNames_iff.2 hname
      rw [freeNames_of_fresh_error hfresh] at hmem
      exact absurd hmem (Finset.notMem_empty name)
    · exact ⟨n, rfl⟩

/-- The name that is appended stands for the symbol with the next ID. -/
theorem get?_fresh (h : u.entries = t.entries ++ [⟨name, .nonterminal⟩]) :
    u.get? name = some (.nonterminal ⟨t.size⟩) := by
  refine get?_eq_some_iff.2 ⟨(contains_append h).2 (.inr rfl), ?_⟩
  simp [nameOf?, h, Symbol.id, size]

/-- The tables have the same symbols and draw from one sequence, be it at different positions. -/
structure Alike (t u : SymbolTable) : Prop where
  entries : u.entries = t.entries
  nameSpace : u.nameSpace = t.nameSpace

namespace Alike

theorem names (h : t.Alike u) : u.names = t.names := congrArg (List.map Entry.name) h.entries

theorem size (h : t.Alike u) : u.size = t.size := congrArg List.length h.entries

theorem get? (h : t.Alike u) (name : String) : u.get? name = t.get? name := by
  have hsymbol : u.symbol? = t.symbol? := by
    funext id
    simp only [symbol?, h.entries]
  simp only [SymbolTable.get?, id?, hsymbol, h.entries]

theorem free? (h : t.Alike u) : u.free? = t.free? := by
  apply Option.ext
  rintro ⟨n, name⟩
  rw [free?_eq_some_iff, free?_eq_some_iff, h.nameSpace, h.names]

theorem fresh (h : t.Alike u) : u.fresh.1 = t.fresh.1 ∧ t.fresh.2.Alike u.fresh.2 := by
  have hfound := h.free?
  obtain ⟨_, _, v, hfree, hfresh, hentries, hspace⟩ | ⟨v, hfree, hfresh, hentries, hspace⟩ :=
    fresh_cases t
  · obtain ⟨_, _, w, hfree', hfresh', hentries', hspace'⟩ | ⟨_, hfree', -⟩ := fresh_cases u
    · cases hfree.symm.trans (hfound.symm.trans hfree')
      rw [hfresh, hfresh', h.size]
      exact ⟨rfl, by rw [hentries, hentries', h.entries], by rw [hspace, hspace', h.nameSpace]⟩
    · cases hfree.symm.trans (hfound.symm.trans hfree')
  · obtain ⟨_, _, _, hfree', -⟩ | ⟨w, -, hfresh', hentries', hspace'⟩ := fresh_cases u
    · cases hfree.symm.trans (hfound.symm.trans hfree')
    · rw [hfresh, hfresh', h.nameSpace]
      exact ⟨rfl, by rw [hentries, hentries', h.entries], by rw [hspace, hspace', h.nameSpace]⟩

/-- Alike tables give the same answer and are alike afterwards. -/
theorem answer (h : t.Alike u) (r : Request) :
    (u.answer r).1 = (t.answer r).1 ∧ (t.answer r).2.Alike (u.answer r).2 := by
  cases r with
  | named kind name =>
    by_cases hname : name = epsilonText
    · subst hname
      rw [answer_reserved, answer_reserved]
      exact ⟨rfl, h⟩
    cases hget : t.get? name with
    | some s =>
      rw [answer_known hname hget, answer_known hname ((h.get? name).trans hget)]
      exact ⟨rfl, h⟩
    | none =>
      have free := get?_eq_none_iff.1 hget
      rw [answer_free hname free, answer_free hname (h.names.symm ▸ free), h.size]
      exact ⟨rfl, congrArg (· ++ [Entry.mk name kind]) h.entries, h.nameSpace⟩
  | fresh =>
    obtain ⟨hgiven, hafter⟩ := h.fresh
    exact ⟨congrArg (Except.map Symbol.nonterminal) hgiven, hafter⟩

theorem after (h : t.Alike u) (requests : List Request) :
    (t.after requests).Alike (u.after requests) := by
  induction requests generalizing t u with
  | nil => exact h
  | cons r requests ih => exact ih (h.answer r).2

end Alike

/-- The table at the beginning of its sequence. -/
def rewind (t : SymbolTable) : SymbolTable :=
  { t with
    position := 0
    passed := fun k hk => absurd hk (Nat.not_lt_zero k) }

theorem alike_rewind (t : SymbolTable) : t.Alike t.rewind := ⟨rfl, rfl⟩

/--
After any requests, a fresh nonterminal is given just if some name of the sequence is not bound, and
it is a new one under the earliest such name. No free name is before the position: with the position
at the beginning again, the answers to all further requests are the same.
-/
theorem fresh_takes_earliest (space : NameSpace) (requests : List Request) :
    let t := (empty space).after requests
    ((∃ n, t.fresh.1 = .ok n) ↔ ∃ name ∈ space.names, name ∉ t.names) ∧
    (∀ n, t.fresh.1 = .ok n → n = ⟨t.size⟩ ∧ ∃ name k, space.Earliest t.names name k ∧
      t.fresh.2.entries = t.entries ++ [⟨name, .nonterminal⟩] ∧
      t.fresh.2.get? name = some (.nonterminal n)) ∧
    (∀ e, t.fresh.1 = .error e →
      e = .namesExhausted space.capacity ∧ t.fresh.2.entries = t.entries) ∧
    (∀ k < t.position, ∀ name, space.nth? k = some name → name ∈ t.names) ∧
    ∀ more r, ((t.rewind.after more).answer r).1 = ((t.after more).answer r).1 := by
  intro t
  have hspace : t.nameSpace = space := nameSpace_after (empty space) requests
  rw [← hspace]
  refine ⟨fresh_isOk_iff, ?_, ?_, t.passed, ?_⟩
  · intro n hok
    obtain ⟨k, name, u, hfree, hfresh, hentries, -⟩ | ⟨u, -, hfresh, -⟩ := fresh_cases t
    · rw [hfresh] at hok ⊢
      cases hok
      exact ⟨rfl, name, k, earliest_of_free? hfree, hentries, get?_fresh hentries⟩
    · rw [hfresh] at hok
      cases hok
  · intro e herror
    obtain ⟨k, name, u, -, hfresh, -⟩ | ⟨u, -, hfresh, hentries, -⟩ := fresh_cases t
    · rw [hfresh] at herror
      cases herror
    · rw [hfresh] at herror ⊢
      cases herror
      exact ⟨rfl, hentries⟩
  · intro more r
    exact (((alike_rewind t).after more).answer r).1

end SymbolTable
end FormalLanguage
