import Mathlib.Data.List.Chain
import Mathlib.Logic.Relation
import Mathlib.Order.Bounds.Basic
import FormalLanguage.Grammar.SymbolSet

/-!
The closure of a set of symbols under the rules. IDs are visited one by one, and a visit applies the
rules that have the ID in their bodies. Main statement: in whatever order the pending IDs are
visited, the visits come to an end, and the end is the least closed set.
-/
namespace FormalLanguage

namespace BodyTest

variable {test : BodyTest} {C D : Nat → Prop} {s t : SymbolSet} {body : Body}

/-- How a body has a property that a class of IDs stands for. -/
def Holds (test : BodyTest) (C : Nat → Prop) (body : Body) : Prop :=
  body ≠ [] ∧ match test with
    | .all => ∀ x ∈ body, C x.id
    | .any => ∃ x ∈ body, C x.id

theorem holds_iff : test.holds s body = true ↔ test.Holds (fun id => s.hasId id = true) body := by
  cases test <;> simp [holds, Holds, SymbolSet.has_eq_hasId]

theorem Holds.mono (hCD : ∀ id, C id → D id) (h : test.Holds C body) : test.Holds D body := by
  refine ⟨h.1, ?_⟩
  cases test with
  | all => exact fun x hx => hCD x.id (h.2 x hx)
  | any =>
    obtain ⟨x, hx, hC⟩ := h.2
    exact ⟨x, hx, hCD x.id hC⟩

/-- A body has the property for a smaller class already, or a symbol of it is new in the larger one. -/
theorem Holds.old_or_new (C : Nat → Prop) (h : test.Holds D body) :
    test.Holds C body ∨ ∃ x ∈ body, D x.id ∧ ¬ C x.id := by
  by_cases hnew : ∃ x ∈ body, D x.id ∧ ¬ C x.id
  · exact .inr hnew
  · left
    have hold : ∀ x ∈ body, D x.id → C x.id := by
      intro x hx hD
      by_contra hC
      exact hnew ⟨x, hx, hD, hC⟩
    refine ⟨h.1, ?_⟩
    cases test with
    | all => exact fun x hx => hold x hx (h.2 x hx)
    | any =>
      obtain ⟨x, hx, hD⟩ := h.2
      exact ⟨x, hx, hold x hx hD⟩

theorem holds_mono (hst : ∀ id, s.hasId id = true → t.hasId id = true)
    (h : test.holds s body = true) : test.holds t body = true :=
  holds_iff.2 ((holds_iff.1 h).mono hst)

end BodyTest

namespace SymbolSet

variable {s t u : SymbolSet} {id : Nat}

theorem lt_size_of_hasId (h : s.hasId id = true) : id < s.size := s.ids_lt id (of_decide_eq_true h)

/--
The second set has the size of the first one, unless it takes more to hold its greatest ID. Sets with
the same IDs may differ in their sizes, so this must be kept along with the IDs.
-/
def Fits (s t : SymbolSet) : Prop :=
  s.size ≤ t.size ∧ (t.size = s.size ∨ t.hasId (t.size - 1) = true)

theorem Fits.insertId (h : s.Fits t) (id : Nat) : s.Fits (t.insertId id) := by
  have hsize : (t.insertId id).size = max t.size (id + 1) := rfl
  refine ⟨by have := h.1; omega, ?_⟩
  by_cases hid : id < t.size
  · have hsame : (t.insertId id).size = t.size := by omega
    rw [hsame]
    exact h.2.imp_right fun hlast => hasId_insertId.2 (.inr hlast)
  · have hlast : (t.insertId id).size - 1 = id := by omega
    rw [hlast]
    exact .inr (hasId_insertId.2 (.inl rfl))

theorem Fits.size_le (ht : s.Fits t) (hu : s.Fits u)
    (h : ∀ id, t.hasId id = true → u.hasId id = true) : t.size ≤ u.size := by
  rcases ht.2 with hsize | hlast
  · rw [hsize]
    exact hu.1
  · have := lt_size_of_hasId (h _ hlast)
    omega

/-- Two sets that fit the same one are equal if they have the same IDs. -/
theorem Fits.eq (ht : s.Fits t) (hu : s.Fits u)
    (h : ∀ id, t.hasId id = true ↔ u.hasId id = true) : t = u := by
  have hsize : t.size = u.size :=
    Nat.le_antisymm (ht.size_le hu fun id => (h id).1) (hu.size_le ht fun id => (h id).2)
  have hids : t.ids = u.ids := by
    apply OrderedSet.ext
    intro id
    simpa [hasId] using h id
  obtain ⟨size, ids, ids_lt⟩ := t
  cases hsize
  cases hids
  rfl

end SymbolSet

namespace Closing

variable {test : BodyTest} {c : Closing} {r : Rule} {rules : List Rule}

theorem apply_cases (test : BodyTest) (c : Closing) (r : Rule) :
    (c.apply test r = c ∧
      (test.holds c.members r.body = true → c.members.hasId r.lhs.id = true)) ∨
    (c.apply test r = ⟨r.lhs.id :: c.pending, c.members.insertId r.lhs.id⟩ ∧
      test.holds c.members r.body = true ∧ c.members.hasId r.lhs.id = false) := by
  unfold apply
  split
  · next h =>
    rw [Bool.and_eq_true, Bool.not_eq_true'] at h
    exact .inr ⟨rfl, h⟩
  · next h =>
    refine .inl ⟨rfl, fun hbody => ?_⟩
    simpa [hbody] using h

/-- What every addition keeps, the application of rules keeps. -/
theorem foldl_apply_induction {P : Closing → Prop}
    (add : ∀ c : Closing, ∀ r ∈ rules, P c → test.holds c.members r.body = true →
      c.members.hasId r.lhs.id = false → P ⟨r.lhs.id :: c.pending, c.members.insertId r.lhs.id⟩)
    (hc : P c) : P (rules.foldl (apply test) c) := by
  induction rules generalizing c with
  | nil => exact hc
  | cons r rules ih =>
    rw [List.foldl_cons]
    apply ih fun c r' hr' => add c r' (List.mem_cons_of_mem r hr')
    obtain ⟨heq, -⟩ | ⟨heq, hbody, hlhs⟩ := apply_cases test c r
    · rwa [heq]
    · rw [heq]
      exact add c r List.mem_cons_self hc hbody hlhs

/-- No ID is lost, and the new ones are pending. -/
structure Extended (c c' : Closing) : Prop where
  kept : ∀ id, c.members.hasId id = true → c'.members.hasId id = true
  pending : ∀ id ∈ c.pending, id ∈ c'.pending
  added : ∀ id, c'.members.hasId id = true → c.members.hasId id = true ∨ id ∈ c'.pending

theorem Extended.refl (c : Closing) : c.Extended c := ⟨fun _ h => h, fun _ h => h, fun _ => .inl⟩

theorem extended_foldl_apply (test : BodyTest) (c : Closing) (rules : List Rule) :
    c.Extended (rules.foldl (apply test) c) := by
  apply foldl_apply_induction _ (Extended.refl c)
  intro c' r _ hc' _ _
  refine ⟨?_, ?_, ?_⟩
  · intro id hid
    exact SymbolSet.hasId_insertId.2 (.inr (hc'.kept id hid))
  · intro id hid
    exact List.mem_cons_of_mem _ (hc'.pending id hid)
  · intro id hid
    rcases SymbolSet.hasId_insertId.1 hid with rfl | hid
    · exact .inr List.mem_cons_self
    · exact (hc'.added id hid).imp_right (List.mem_cons_of_mem _)

/-- A rule whose body has the property before any rule is applied has its left-hand side added. -/
theorem hasId_foldl_apply (hr : r ∈ rules) (hbody : test.holds c.members r.body = true) :
    (rules.foldl (apply test) c).members.hasId r.lhs.id = true := by
  induction rules generalizing c with
  | nil => cases hr
  | cons r' rules ih =>
    rw [List.foldl_cons]
    rcases List.mem_cons.1 hr with rfl | hr
    · apply (extended_foldl_apply test _ rules).kept
      obtain ⟨heq, hlhs⟩ | ⟨heq, -, -⟩ := apply_cases test c r
      · rw [heq]
        exact hlhs hbody
      · rw [heq]
        exact SymbolSet.hasId_insertId.2 (.inl rfl)
    · have hkept := (extended_foldl_apply test c [r']).kept
      exact ih hr (BodyTest.holds_mono hkept hbody)

end Closing

namespace Grammar

open Closing

variable {g : Grammar} {test : BodyTest} {s : SymbolSet} {c c' : Closing} {r : Rule} {id : Nat}
  {before after : List Nat} {C : Nat → Prop}

/-- A class of IDs that has the left-hand side of every rule whose body has the property. -/
def Closed (g : Grammar) (test : BodyTest) (C : Nat → Prop) : Prop :=
  ∀ r ∈ g.rules, test.Holds C r.body → C r.lhs.id

theorem mem_occurrences : r ∈ g.occurrences id ↔ r ∈ g.rules ∧ ∃ x ∈ r.body, x.id = id := by
  simp [occurrences, OrderedSet.mem_toList]

/-- Any pending ID is visited. -/
inductive Visits (g : Grammar) (test : BodyTest) : Closing → Closing → Prop
  | visit (before : List Nat) (id : Nat) (after : List Nat) (members : SymbolSet) :
      Visits g test ⟨before ++ id :: after, members⟩ (g.visit test ⟨before ++ after, members⟩ id)

/-- The rules whose left-hand sides are still missing. -/
def missing (g : Grammar) (s : SymbolSet) : Nat :=
  (g.rules.toList.filter fun r => !s.hasId r.lhs.id).length

theorem missing_insertId_lt (hr : r ∈ g.rules) (hlhs : s.hasId r.lhs.id = false) :
    g.missing (s.insertId r.lhs.id) < g.missing s := by
  have hfilter : (g.rules.toList.filter fun r' => !(s.insertId r.lhs.id).hasId r'.lhs.id) =
      (g.rules.toList.filter fun r' => !s.hasId r'.lhs.id).filter fun r' =>
        !(s.insertId r.lhs.id).hasId r'.lhs.id := by
    rw [List.filter_filter]
    apply List.filter_congr
    intro r' _
    cases hs : s.hasId r'.lhs.id with
    | true => simp [SymbolSet.hasId_insertId.2 (.inr hs)]
    | false => simp
  rw [missing, missing, hfilter, List.length_filter_lt_length_iff_exists]
  exact ⟨r, List.mem_filter.2 ⟨hr, by simp [hlhs]⟩, by simp [SymbolSet.hasId_insertId]⟩

/-- How many visits there can be at most. -/
def visitsLeft (g : Grammar) (c : Closing) : Nat := c.pending.length + g.missing c.members

theorem visitsLeft_visit_le (c : Closing) (id : Nat) :
    g.visitsLeft (g.visit test c id) ≤ g.visitsLeft c := by
  apply foldl_apply_induction (P := fun c' => g.visitsLeft c' ≤ g.visitsLeft c) _ (Nat.le_refl _)
  intro c' r hr hle _ hlhs
  have hmissing := missing_insertId_lt (mem_occurrences.1 hr).1 hlhs
  simp only [visitsLeft, List.length_cons] at hle ⊢
  omega

theorem visitsLeft_lt (h : g.Visits test c c') : g.visitsLeft c' < g.visitsLeft c := by
  cases h with
  | visit before id after members =>
    have hle : g.visitsLeft (g.visit test ⟨before ++ after, members⟩ id) ≤
        g.visitsLeft ⟨before ++ after, members⟩ := visitsLeft_visit_le _ id
    simp only [visitsLeft, List.length_append, List.length_cons] at hle ⊢
    omega

theorem visitsLeft_start_le (g : Grammar) (s : SymbolSet) :
    g.visitsLeft (.start s) ≤ s.ids.size + g.numRules := by
  have hmissing : g.missing s ≤ g.numRules := List.length_filter_le _ _
  simpa [visitsLeft, Closing.start, OrderedSet.size] using hmissing

/-- One visit after the other, no run has more of them than there can be. -/
theorem length_le_visitsLeft {run : List Closing} (h : (c :: run).IsChain (g.Visits test)) :
    run.length ≤ g.visitsLeft c := by
  induction run generalizing c with
  | nil => exact Nat.zero_le _
  | cons next run ih =>
    obtain ⟨hvisit, hrest⟩ := List.isChain_cons_cons.1 h
    have hlt := visitsLeft_lt hvisit
    have hle := ih hrest
    rw [List.length_cons]
    omega

/--
What visits have come to: all of the set, nothing outside of the closed classes above it, and no rule
whose left-hand side is yet to be added without a pending ID in its body.
-/
structure Approaches (g : Grammar) (test : BodyTest) (s : SymbolSet) (c : Closing) : Prop where
  above : ∀ id, s.hasId id = true → c.members.hasId id = true
  below : ∀ C : Nat → Prop, g.Closed test C → (∀ id, s.hasId id = true → C id) →
    ∀ id, c.members.hasId id = true → C id
  settled : ∀ r ∈ g.rules, test.holds c.members r.body = true →
    c.members.hasId r.lhs.id = true ∨ ∃ x ∈ r.body, x.id ∈ c.pending
  fits : s.Fits c.members

namespace Approaches

theorem start (g : Grammar) (test : BodyTest) (s : SymbolSet) :
    g.Approaches test s (.start s) where
  above _ hid := hid
  below _ _ hs := hs
  settled r _ hbody := by
    have hpending : ∀ id, s.hasId id = true → id ∈ (Closing.start s).pending := by
      intro id hid
      simpa [Closing.start, SymbolSet.hasId, OrderedSet.mem_toList] using hid
    obtain ⟨hne, hholds⟩ := BodyTest.holds_iff.1 hbody
    right
    cases test with
    | all =>
      obtain ⟨x, hx⟩ := List.exists_mem_of_ne_nil r.body hne
      exact ⟨x, hx, hpending x.id (hholds x hx)⟩
    | any =>
      obtain ⟨x, hx, hid⟩ := hholds
      exact ⟨x, hx, hpending x.id hid⟩
  fits := ⟨Nat.le_refl _, .inl rfl⟩

/-- A visit takes the pending ID away from no rule but those that it applies. -/
theorem settled_visit {members : SymbolSet}
    (h : g.Approaches test s ⟨before ++ id :: after, members⟩) (hr : r ∈ g.rules)
    (hbody : test.holds (g.visit test ⟨before ++ after, members⟩ id).members r.body = true) :
    (g.visit test ⟨before ++ after, members⟩ id).members.hasId r.lhs.id = true ∨
      ∃ x ∈ r.body, x.id ∈ (g.visit test ⟨before ++ after, members⟩ id).pending := by
  have hext := extended_foldl_apply test ⟨before ++ after, members⟩ (g.occurrences id)
  rcases (BodyTest.holds_iff.1 hbody).old_or_new (members.hasId · = true) with hold | hnew
  · -- The body had the property before. If only the visited ID was pending in it, the visit has the
    -- rule among those that it applies.
    have hbody := BodyTest.holds_iff.2 hold
    rcases h.settled r hr hbody with hlhs | ⟨x, hx, hpending⟩
    · exact .inl (hext.kept _ hlhs)
    · by_cases hid : x.id = id
      · exact .inl (hasId_foldl_apply (mem_occurrences.2 ⟨hr, x, hx, hid⟩) hbody)
      · refine .inr ⟨x, hx, hext.pending _ ?_⟩
        simpa [hid] using hpending
  · -- The visit added a symbol of the body, which is pending now.
    obtain ⟨x, hx, hadded, hnew⟩ := hnew
    exact .inr ⟨x, hx, (hext.added _ hadded).resolve_left hnew⟩

theorem visits (h : g.Approaches test s c) (hvisit : g.Visits test c c') :
    g.Approaches test s c' := by
  cases hvisit with
  | visit before id after members =>
    have hext := extended_foldl_apply test ⟨before ++ after, members⟩ (g.occurrences id)
    refine ⟨fun i hi => hext.kept i (h.above i hi), ?_, fun _ => h.settled_visit, ?_⟩
    · intro C hC hs
      apply foldl_apply_induction (P := fun c => ∀ i, c.members.hasId i = true → C i)
      · intro c r hr hc hbody _ i hi
        rcases SymbolSet.hasId_insertId.1 hi with rfl | hi
        · exact hC r (mem_occurrences.1 hr).1 ((BodyTest.holds_iff.1 hbody).mono hc)
        · exact hc i hi
      · exact h.below C hC hs
    · apply foldl_apply_induction (P := fun c => s.Fits c.members)
      · intro c r _ hc _ _
        exact hc.insertId r.lhs.id
      · exact h.fits

/-- The invariant of all runs. -/
theorem of_run (h : g.Approaches test s c) (hrun : Relation.ReflTransGen (g.Visits test) c c') :
    g.Approaches test s c' := by
  induction hrun with
  | refl => exact h
  | tail _ hvisit ih => exact ih.visits hvisit

/-- Once nothing is pending, no rule is left to apply. -/
theorem closed (h : g.Approaches test s c) (hend : c.pending = []) :
    g.Closed test fun id => c.members.hasId id = true := by
  intro r hr hbody
  rcases h.settled r hr (BodyTest.holds_iff.2 hbody) with hlhs | ⟨x, -, hpending⟩
  · exact hlhs
  · rw [hend] at hpending
    cases hpending

/-- There is one set only with which nothing is pending. -/
theorem eq_of_pending_nil (h : g.Approaches test s c) (h' : g.Approaches test s c')
    (hend : c.pending = []) (hend' : c'.pending = []) : c = c' := by
  have hle := h.below _ (h'.closed hend') h'.above
  have hge := h'.below _ (h.closed hend) h.above
  have hmembers : c.members = c'.members := h.fits.eq h'.fits fun id => ⟨hle id, hge id⟩
  obtain ⟨pending, members⟩ := c
  cases hmembers
  rw [Closing.mk.injEq]
  exact ⟨hend.trans hend'.symm, rfl⟩

end Approaches

theorem visits_visitNext (hne : c.pending ≠ []) : g.Visits test c (g.visitNext test c) := by
  obtain ⟨pending, members⟩ := c
  cases pending with
  | nil => exact absurd rfl hne
  | cons id pending => exact .visit [] id pending members

theorem visitNext_of_pending_nil (hend : c.pending = []) : g.visitNext test c = c := by
  simp [visitNext, hend]

theorem visitsLeft_visitNext_lt (h : g.visitNext test c ≠ c) :
    g.visitsLeft (g.visitNext test c) < g.visitsLeft c :=
  visitsLeft_lt (visits_visitNext fun hend => h (visitNext_of_pending_nil hend))

/-- The bound is no obstacle: nothing is pending any more. -/
theorem pending_saturate {bound : Nat} (hbound : g.visitsLeft c ≤ bound) :
    (saturate (g.visitNext test) bound c).pending = [] := by
  have hlast : g.visitNext test (saturate (g.visitNext test) bound c) =
      saturate (g.visitNext test) bound c :=
    step_saturate (fun _ => visitsLeft_visitNext_lt) hbound
  by_contra hne
  have hlt : g.visitsLeft (g.visitNext test (saturate (g.visitNext test) bound c)) <
      g.visitsLeft (saturate (g.visitNext test) bound c) := visitsLeft_lt (visits_visitNext hne)
  rw [hlast] at hlt
  exact Nat.lt_irrefl _ hlt

/-- The closure is what one order of visits ends in. -/
theorem closure_of_run (g : Grammar) (test : BodyTest) (s : SymbolSet) :
    Relation.ReflTransGen (g.Visits test) (.start s) ⟨[], g.closure test s⟩ := by
  rw [closure, ← pending_saturate (visitsLeft_start_le g s)]
  refine saturate_induction (fun c hc => ?_) _ .refl
  by_cases hend : c.pending = []
  · rwa [visitNext_of_pending_nil hend]
  · exact hc.tail (visits_visitNext hend)

theorem approaches_closure (g : Grammar) (test : BodyTest) (s : SymbolSet) :
    g.Approaches test s ⟨[], g.closure test s⟩ :=
  (Approaches.start g test s).of_run (closure_of_run g test s)

theorem hasId_closure (h : s.hasId id = true) : (g.closure test s).hasId id = true :=
  (approaches_closure g test s).above id h

/-- The closure is closed. -/
theorem closed_closure (g : Grammar) (test : BodyTest) (s : SymbolSet) :
    g.Closed test fun id => (g.closure test s).hasId id = true :=
  (approaches_closure g test s).closed rfl

/-- The closure is contained in every closed class above the set. -/
theorem closure_le (hC : g.Closed test C) (hs : ∀ id, s.hasId id = true → C id) :
    ∀ id, (g.closure test s).hasId id = true → C id :=
  (approaches_closure g test s).below C hC hs

/--
The closure is the least set of IDs that has those of the set and the left-hand side of every rule
whose body has the property. In whatever order pending IDs are visited, there are at most as many
visits as IDs in the set and rules together, and when no more is possible the closure is reached.
-/
theorem closure_isLeast (g : Grammar) (test : BodyTest) (s : SymbolSet) :
    IsLeast {C : Set Nat | (∀ id, s.hasId id = true → id ∈ C) ∧
        ∀ r ∈ g.rules, test.Holds (· ∈ C) r.body → r.lhs.id ∈ C}
      {id | (g.closure test s).hasId id = true} ∧
    (∀ run, (Closing.start s :: run).IsChain (g.Visits test) →
      run.length ≤ s.ids.size + g.numRules) ∧
    Relation.ReflTransGen (g.Visits test) (.start s) ⟨[], g.closure test s⟩ ∧
    ∀ last, Relation.ReflTransGen (g.Visits test) (.start s) last →
      (∀ next, ¬ g.Visits test last next) → last = ⟨[], g.closure test s⟩ := by
  refine ⟨⟨⟨fun id => hasId_closure, closed_closure g test s⟩, ?_⟩, ?_, closure_of_run g test s, ?_⟩
  · rintro C ⟨hs, hC⟩ id hid
    exact closure_le hC hs id hid
  · intro run hrun
    exact (length_le_visitsLeft hrun).trans (visitsLeft_start_le g s)
  · intro last hrun hstuck
    have hlast := (Approaches.start g test s).of_run hrun
    apply hlast.eq_of_pending_nil (approaches_closure g test s) _ rfl
    by_contra hne
    exact hstuck _ (visits_visitNext hne)

end Grammar

end FormalLanguage
