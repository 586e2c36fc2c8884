import FormalLanguage.Proofs.SymbolTable.FreeNames
import FormalLanguage.Proofs.SymbolTable.Requests

/-!
The text of the empty-string marker as the name of a symbol. Main statements: the names of a sequence
are all bound once it is drawn from often enough, so that the marker names a symbol of some table just
if its character is in the alphabet, and then no request but one for a fresh name gave that symbol.
-/
namespace FormalLanguage

namespace SymbolTable

variable {t u : SymbolTable} {s : Symbol} {requests : List Request}

theorem Outcome.nameSpace {r : Request} {given : Except NameError Symbol}
    (h : t.Outcome r given u) : u.nameSpace = t.nameSpace := by
  cases h with
  | reserved | known | mismatch | bound => rfl
  | drawn _ _ hspace | exhausted _ hspace => exact hspace

/-- Requests draw from one and the same sequence. -/
theorem nameSpace_after (t : SymbolTable) (requests : List Request) :
    (t.after requests).nameSpace = t.nameSpace := by
  induction requests generalizing t with
  | nil => rfl
  | cons r requests ih => exact (ih (t.answer r).2).trans (outcome_answer t r).nameSpace

/-- A fresh name takes one of the free names away, if there are any. -/
theorem card_freeNames_answer_fresh {k : Nat} (h : t.freeNames.card ≤ k + 1) :
    (t.answer .fresh).2.freeNames.card ≤ k := by
  have heq : (t.answer .fresh).2 = t.fresh.2 := rfl
  have hspace : t.fresh.2.nameSpace = t.nameSpace := (outcome_answer t .fresh).nameSpace
  rw [heq]
  rcases hfresh : t.fresh with ⟨e | n, u⟩
  · -- a refusal binds nothing, and there was nothing left to bind
    have hentries : u.entries = t.entries := by
      have hout := outcome_answer t .fresh
      rw [answer, hfresh] at hout
      exact hout.exhausted_entries.1
    rw [hfresh] at hspace
    have hsame : u.freeNames = t.freeNames := by
      ext name
      rw [mem_freeNames_iff, mem_freeNames_iff, hspace, names, names, hentries]
    rw [hsame, freeNames_of_fresh_error hfresh, Finset.card_empty]
    exact Nat.zero_le k
  · have hcard := card_freeNames_of_fresh hfresh
    show u.freeNames.card ≤ k
    omega

/-- Names that are drawn often enough are all bound. -/
theorem freeNames_after_fresh {k : Nat} (h : t.freeNames.card ≤ k) :
    (t.after (List.replicate k .fresh)).freeNames = ∅ := by
  induction k generalizing t with
  | zero => exact Finset.card_eq_zero.1 (Nat.le_zero.1 h)
  | succ k ih =>
    rw [List.replicate_succ]
    exact ih (card_freeNames_answer_fresh h)

/-- Any name of the sequence can be brought into the table. -/
theorem exists_mem_names_after {name : String} (h : name ∈ t.nameSpace.names) :
    ∃ requests, name ∈ (t.after requests).names := by
  refine ⟨List.replicate t.freeNames.card .fresh, ?_⟩
  by_contra hfree
  have hmem := mem_freeNames_iff.2 ⟨(nameSpace_after t _).symm ▸ h, hfree⟩
  rw [freeNames_after_fresh (Nat.le_refl _)] at hmem
  exact absurd hmem (Finset.notMem_empty name)

/-- A symbol under the reserved name was given to a request for a fresh one. -/
theorem drawn_of_reserved (hold : t.contains s ≠ true) (hs : (t.after requests).contains s = true)
    (hname : (t.after requests).nameOf? s = some epsilonText) :
    ∃ before later, requests = before ++ .fresh :: later ∧
      ((t.after before).answer .fresh).1 = .ok s ∧ epsilonText ∈ t.nameSpace.names := by
  obtain ⟨before, r, later, rfl, hr⟩ := (contains_after_iff.1 hs).resolve_left hold
  -- the name that the symbol got from the request is the one that it still has
  have hgiven : ((t.after before).answer r).2.contains s = true :=
    (outcome_answer _ r).contains_iff.2 (.inr hr)
  have hafter : t.after (before ++ r :: later) = ((t.after before).answer r).2.after later :=
    after_append
  rw [hafter, (kept_of_isPrefix (isPrefix_after _ later) hgiven).2] at hname
  cases r with
  | named kind name =>
    have hout := hr ▸ outcome_answer (t.after before) (.named kind name)
    have hget := (get?_eq_some_iff.1 hout.given.2).2
    exact absurd (Option.some.inj (hget.symm.trans hname)) hout.names.1
  | fresh =>
    refine ⟨before, later, rfl, hr, ?_⟩
    obtain ⟨n, hn, rfl⟩ := map_eq_ok_iff.1 hr
    obtain ⟨name, hfree, -, hentries⟩ := exists_drawn (Prod.ext hn rfl)
    have hid : n.id = (t.after before).entries.length := (fresh_eq_ok (Prod.ext hn rfl)).1
    have hdrawn : (t.after before).fresh.2.nameOf? (.nonterminal n) = some name := by
      simp [nameOf?, hentries, Symbol.id, hid]
    rw [← Option.some.inj (hdrawn.symm.trans hname), ← nameSpace_after t before]
    exact (mem_freeNames_iff.1 hfree).1

/--
The marker names a symbol after some requests just if its character is in the alphabet that fresh
names are made of, and such a symbol was given to a request for a fresh name.
-/
theorem reserved_mem_names_iff (space : NameSpace) :
    ((∃ requests, epsilonText ∈ ((empty space).after requests).names) ↔ 'ε' ∈ space.alphabet) ∧
    ∀ requests s, ((empty space).after requests).contains s = true →
      ((empty space).after requests).nameOf? s = some epsilonText →
      ∃ before later, requests = before ++ .fresh :: later ∧
        (((empty space).after before).answer .fresh).1 = .ok s := by
  have hchar : epsilonText ∈ space.names ↔ 'ε' ∈ space.alphabet := by
    have hsingle : epsilonText = String.singleton 'ε' := by decide
    rw [hsingle]
    exact NameSpace.singleton_mem_names_iff
  have hnone (s : Symbol) : (empty space).contains s ≠ true := Bool.false_ne_true
  refine ⟨⟨?_, ?_⟩, ?_⟩
  · rintro ⟨requests, hmem⟩
    obtain ⟨s, hget⟩ := Option.ne_none_iff_exists'.1 (mt get?_eq_none_iff.1 (not_not_intro hmem))
    obtain ⟨hs, hname⟩ := get?_eq_some_iff.1 hget
    obtain ⟨-, -, -, -, hsequence⟩ := drawn_of_reserved (hnone s) hs hname
    exact hchar.1 hsequence
  · intro hc
    exact exists_mem_names_after (t := empty space) (hchar.2 hc)
  · intro requests s hs hname
    obtain ⟨before, later, hsplit, hgiven, -⟩ := drawn_of_reserved (hnone s) hs hname
    exact ⟨before, later, hsplit, hgiven⟩

/-- The first fresh name of this alphabet is the marker. -/
theorem reserved_drawn :
    ¬ ∀ space requests, epsilonText ∉ ((empty space).after requests).names := by
  intro h
  exact h { alphabet := ['ε', 'A'], suffixes := 0 } [.fresh] (by decide)

end SymbolTable
end FormalLanguage
