import Mathlib.Data.Finset.Card
import Mathlib.Tactic.Tauto
import FormalLanguage.Proofs.NameSpace
import FormalLanguage.Proofs.SymbolTable

/-!
The names that a table can still draw. Main statements: a fresh nonterminal takes one of them away,
and is refused only if there are none, wherever the position in the sequence is.
-/
namespace FormalLanguage

namespace SymbolTable

variable {t u : SymbolTable} {n : NonTerminal} {name : String}

/-- The names of the sequence that are not bound. -/
def freeNames (t : SymbolTable) : Finset String :=
  (t.nameSpace.names.filter (· ∉ t.names)).toFinset

theorem mem_freeNames_iff : name ∈ t.freeNames ↔ name ∈ t.nameSpace.names ∧ name ∉ t.names := by
  simp [freeNames]

/-- A fresh nonterminal has a name that was free. -/
theorem exists_drawn (h : t.fresh = (.ok n, u)) : ∃ name ∈ t.freeNames,
    u.nameSpace = t.nameSpace ∧ u.entries = t.entries ++ [⟨name, .nonterminal⟩] := by
  obtain ⟨k, name, _, hfree, hfresh, hentries, hspace⟩ | ⟨_, -, hfresh, -⟩ := fresh_cases t
  · cases h.symm.trans hfresh
    have hnth := (NameSpace.free?_eq_some hfree).2.1
    refine ⟨name, mem_freeNames_iff.2 ⟨?_, not_mem_of_free? hfree⟩, hspace, hentries⟩
    exact NameSpace.mem_names_iff.2 ⟨k, hnth⟩
  · cases h.symm.trans hfresh

/-- Drawing a name takes it away from those that are free. -/
theorem card_freeNames_of_fresh (h : t.fresh = (.ok n, u)) :
    u.freeNames.card + 1 = t.freeNames.card := by
  obtain ⟨name, hname, hspace, hentries⟩ := exists_drawn h
  have hnames : u.names = t.names ++ [name] := by
    simp [names, hentries]
  have herase : u.freeNames = t.freeNames.erase name := by
    ext other
    simp only [mem_freeNames_iff, Finset.mem_erase, hspace, hnames, List.mem_append,
      List.mem_singleton, not_or]
    tauto
  rw [herase]
  exact Finset.card_erase_add_one hname

/-- Where no name is found from the position on, there is none before it either. -/
theorem mem_names_of_free?_eq_none {k : Nat} (h : t.free? = none)
    (hk : t.nameSpace.nth? k = some name) : name ∈ t.names := by
  have hlt : k < max t.position t.nameSpace.capacity :=
    Nat.lt_of_lt_of_le (NameSpace.lt_capacity_of_nth? hk) (Nat.le_max_right ..)
  exact passed_of_free?_eq_none h k hlt name hk

theorem freeNames_of_fresh_error {e : NameError} (h : t.fresh = (.error e, u)) :
    t.freeNames = ∅ := by
  obtain ⟨_, _, _, -, hfresh, -⟩ | ⟨_, hfree, -⟩ := fresh_cases t
  · cases h.symm.trans hfresh
  · rw [Finset.eq_empty_iff_forall_notMem]
    intro name hname
    obtain ⟨hsequence, hnew⟩ := mem_freeNames_iff.1 hname
    obtain ⟨k, hk⟩ := NameSpace.mem_names_iff.1 hsequence
    exact hnew (mem_names_of_free?_eq_none hfree hk)

end SymbolTable

end FormalLanguage
