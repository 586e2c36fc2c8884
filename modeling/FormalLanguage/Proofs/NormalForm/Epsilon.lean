import FormalLanguage.NormalForm.Epsilon
import FormalLanguage.Proofs.Grammar.Productive
import FormalLanguage.Proofs.Grammar.Preservation

/-!
Removing empty bodies. Main statements: every nonterminal keeps its nonempty words and the start
symbol keeps all of its words, and the rules that result are closed under leaving out symbols that
derive the empty word, so that there is nothing left to remove.
-/
namespace FormalLanguage

variable {p q : Symbol → Bool} {body part rest : Body} {s : Symbol}

theorem mem_omissions_cons :
    part ∈ omissions p (s :: body) ↔
      (p s = true ∧ part ∈ omissions p body) ∨ ∃ rest ∈ omissions p body, part = s :: rest := by
  by_cases hs : p s = true
  · simp [omissions, hs, eq_comm]
  · simp [omissions, hs, eq_comm]

theorem mem_omissions_self : body ∈ omissions p body := by
  induction body with
  | nil => exact List.mem_singleton.2 rfl
  | cons s body ih => exact mem_omissions_cons.2 (.inr ⟨body, ih, rfl⟩)

theorem mem_of_mem_omissions (h : part ∈ omissions p body) (hs : s ∈ part) : s ∈ body := by
  induction body generalizing part with
  | nil =>
    rw [List.mem_singleton.1 h] at hs
    exact hs
  | cons x body ih =>
    rcases mem_omissions_cons.1 h with ⟨-, hpart⟩ | ⟨rest, hrest, rfl⟩
    · exact List.mem_cons_of_mem x (ih hpart hs)
    · rcases List.mem_cons.1 hs with rfl | hs
      · exact List.mem_cons_self
      · exact List.mem_cons_of_mem x (ih hrest hs)

theorem eq_of_mem_omissions (hp : ∀ s, p s = false) (h : part ∈ omissions p body) :
    part = body := by
  induction body generalizing part with
  | nil => exact List.mem_singleton.1 h
  | cons s body ih =>
    rcases mem_omissions_cons.1 h with ⟨hs, -⟩ | ⟨rest, hrest, rfl⟩
    · rw [hp s] at hs
      cases hs
    · rw [ih hrest]

/-- Leaving out symbols twice is leaving them out once. -/
theorem omissions_trans (hpq : ∀ s ∈ body, q s = true → p s = true)
    (hpart : part ∈ omissions p body) (hrest : rest ∈ omissions q part) : rest ∈ omissions p body := by
  induction body generalizing part rest with
  | nil =>
    rw [List.mem_singleton.1 hpart] at hrest
    exact hrest
  | cons s body ih =>
    rw [List.forall_mem_cons] at hpq
    rcases mem_omissions_cons.1 hpart with ⟨hs, hpart⟩ | ⟨part', hpart', rfl⟩
    · exact mem_omissions_cons.2 (.inl ⟨hs, ih hpq.2 hpart hrest⟩)
    · rcases mem_omissions_cons.1 hrest with ⟨hs, hrest⟩ | ⟨rest', hrest', rfl⟩
      · exact mem_omissions_cons.2 (.inl ⟨hpq.1 hs, ih hpq.2 hpart' hrest⟩)
      · exact mem_omissions_cons.2 (.inr ⟨rest', ih hpq.2 hpart' hrest', rfl⟩)

namespace Grammar

variable {g h : Grammar} {r : Rule} {form : Body} {w : Word} {n start : NonTerminal}

/-- Symbols that derive the empty word may be put back. -/
theorem yields_of_omission (hp : ∀ s ∈ body, p s = true → g.Yields [s] [])
    (hpart : part ∈ omissions p body) (hw : g.Yields part w) : g.Yields body w := by
  induction body generalizing part w with
  | nil => rwa [List.mem_singleton.1 hpart] at hw
  | cons s body ih =>
    rw [List.forall_mem_cons] at hp
    rcases mem_omissions_cons.1 hpart with ⟨hs, hpart⟩ | ⟨rest, hrest, rfl⟩
    · exact yields_cons_iff.2 ⟨[], w, rfl, hp.1 hs, ih hp.2 hpart hw⟩
    · obtain ⟨u, v, rfl, hu, hv⟩ := yields_cons_iff.1 hw
      exact yields_cons_iff.2 ⟨u, v, rfl, hu, ih hp.2 hrest hv⟩

/--
A word of the one grammar is a word of the other one, once the symbols that derive nothing are left
out, if so it is for each rule and each nonempty word.
-/
theorem exists_omission (hp : ∀ n, g.Yields [.nonterminal n] [] → p (.nonterminal n) = true)
    (hr : ∀ r ∈ g.rules, ∀ part ∈ omissions p r.body, part ≠ [] → ∀ w, w ≠ [] →
      h.Yields part w → h.Yields [.nonterminal r.lhs] w)
    (hw : g.Yields form w) : ∃ part ∈ omissions p form, h.Yields part w := by
  induction hw with
  | nil => exact ⟨[], mem_omissions_self, .nil⟩
  | terminal a _ ih =>
    obtain ⟨part, hpart, hyields⟩ := ih
    exact ⟨.terminal a :: part, mem_omissions_cons.2 (.inr ⟨part, hpart, rfl⟩), .terminal a hyields⟩
  | @nonterminal r form u v hmem hu _ ihu ihv =>
    obtain ⟨part, hpart, hyields⟩ := ihv
    by_cases hempty : u = []
    · subst u
      have hnull : p (.nonterminal r.lhs) = true :=
        hp r.lhs (yields_nonterminal_iff.2 ⟨r, hmem, rfl, hu⟩)
      exact ⟨part, mem_omissions_cons.2 (.inl ⟨hnull, hpart⟩), hyields⟩
    · obtain ⟨body, hbody, hu'⟩ := ihu
      have hne : body ≠ [] := by
        intro hnil
        subst body
        exact hempty (yields_nil_iff.1 hu')
      refine ⟨.nonterminal r.lhs :: part, mem_omissions_cons.2 (.inr ⟨part, hpart, rfl⟩), ?_⟩
      exact yields_cons_iff.2 ⟨u, v, rfl, hr r hmem body hbody hne u hempty hu', hyields⟩

/-- A word that is not empty survives the omissions, from a single nonterminal on. -/
theorem yields_of_omissions (hp : ∀ n, g.Yields [.nonterminal n] [] → p (.nonterminal n) = true)
    (hr : ∀ r ∈ g.rules, ∀ part ∈ omissions p r.body, part ≠ [] → ∀ w, w ≠ [] →
      h.Yields part w → h.Yields [.nonterminal r.lhs] w)
    (hne : w ≠ []) (hw : g.Yields [.nonterminal n] w) : h.Yields [.nonterminal n] w := by
  obtain ⟨part, hpart, hyields⟩ := exists_omission hp hr hw
  rcases mem_omissions_cons.1 hpart with ⟨-, hnil⟩ | ⟨rest, hrest, rfl⟩
  · rw [List.mem_singleton.1 hnil] at hyields
    exact absurd (yields_nil_iff.1 hyields) hne
  · rwa [List.mem_singleton.1 hrest] at hyields

/-- Only the start symbol has an empty body, and omissions of nullable symbols give no new rules. -/
structure OmissionClosed (g : Grammar) : Prop where
  start_of_empty : ∀ r ∈ g.rules, r.body = [] → g.start = some r.lhs
  omission_mem : ∀ r ∈ g.rules, ∀ part ∈ omissions g.nullableSymbols.has r.body, part ≠ [] →
    ⟨r.lhs, part⟩ ∈ g.rules

namespace OmissionClosed

/-- The empty word is derived from the start symbol by its own empty body. -/
theorem empty_mem_rules (hg : g.OmissionClosed) (hstart : g.start = some start)
    (hnil : g.Yields [.nonterminal start] []) : ⟨start, []⟩ ∈ g.rules := by
  obtain ⟨⟨lhs, body⟩, hr, hbody⟩ := exists_empty_rule hnil rfl (List.cons_ne_nil _ _)
  have hlhs := hg.start_of_empty _ hr hbody
  rw [hstart] at hlhs
  cases hlhs
  cases hbody
  exact hr

/-- Without empty bodies there is nothing to leave out. -/
theorem of_no_empty (hne : ∀ r ∈ g.rules, r.body ≠ []) : g.OmissionClosed where
  start_of_empty r hr hbody := absurd hbody (hne r hr)
  omission_mem r hr part hpart _ := by
    have hnone (s : Symbol) : g.nullableSymbols.has s = false := by
      by_contra hs
      rw [Bool.not_eq_false] at hs
      refine closure_le (C := fun _ => False) ?_ ?_ s.id hs
      · intro r hr hbody
        obtain ⟨x, hx⟩ := List.exists_mem_of_ne_nil r.body hbody.1
        exact hbody.2 x hx
      · intro id hid
        obtain ⟨r, hr, hbody, -⟩ := hasId_nullingSymbols.1 hid
        exact hne r hr hbody
    rwa [eq_of_mem_omissions hnone hpart]

end OmissionClosed

/-- The rules of the second grammar are those of the first one after the omissions. -/
structure EpsilonFreed (g h : Grammar) : Prop where
  vocabulary : h.toVocabulary = g.toVocabulary
  start : h.start = g.start
  mem_rules : ∀ r, r ∈ h.rules ↔
    (∃ s ∈ g.rules, s.lhs = r.lhs ∧ r.body ∈ omissions g.nullableSymbols.has s.body ∧ r.body ≠ []) ∨
      g.start = some r.lhs ∧ g.nullableSymbols.has (.nonterminal r.lhs) = true ∧ r.body = []

theorem exists_eliminateEpsilon (wf : g.WellFormed) :
    ∃ h, g.eliminateEpsilon = .ok h ∧ g.EpsilonFreed h := by
  obtain ⟨start, hstart, -⟩ := wf.exists_start
  rw [eliminateEpsilon, wf.validStart_eq hstart]
  refine ⟨_, rfl, rfl, rfl, ?_⟩
  rintro ⟨lhs, body⟩
  simp only [OrderedSet.mem_ofList, List.mem_append, List.mem_flatMap, OrderedSet.mem_toList,
    omissionRules, List.mem_map, List.mem_filter, Rule.mk.injEq, hstart, Option.some.injEq]
  refine or_congr ?_ ?_
  · constructor
    · rintro ⟨s, hs, part, ⟨hpart, hne⟩, rfl, rfl⟩
      exact ⟨s, hs, rfl, hpart, by simpa using hne⟩
    · rintro ⟨s, hs, rfl, hpart, hne⟩
      exact ⟨s, hs, body, ⟨hpart, by simpa using hne⟩, rfl, rfl⟩
  · by_cases hnull : g.nullableSymbols.has (.nonterminal start) = true
    · simp only [hnull, if_true, List.mem_singleton, Rule.mk.injEq]
      constructor
      · rintro ⟨rfl, rfl⟩
        exact ⟨rfl, hnull, rfl⟩
      · rintro ⟨rfl, -, rfl⟩
        exact ⟨rfl, rfl⟩
    · simp only [hnull, Bool.false_eq_true, if_false, List.not_mem_nil, false_iff]
      rintro ⟨rfl, hnull', -⟩
      exact hnull hnull'

namespace EpsilonFreed

theorem wellFormed (he : g.EpsilonFreed h) (wf : g.WellFormed) : h.WellFormed := by
  refine wellFormed_of_rules wf he.vocabulary he.start ?_
  intro r hr
  rcases (he.mem_rules r).1 hr with ⟨s, hs, hlhs, hpart, -⟩ | ⟨hstart, -, hbody⟩
  · exact ⟨hlhs ▸ wf.lhs_mem hs, fun x hx => wf.uses_body hs (mem_of_mem_omissions hpart hx)⟩
  · exact ⟨wf.start_mem hstart, by simp [hbody]⟩

/-- Nothing new is derived. -/
theorem yields_old (he : g.EpsilonFreed h) (wf : g.WellFormed) (hw : h.Yields form w) :
    g.Yields form w := by
  apply hw.of_rules
  intro r hr u hu
  rcases (he.mem_rules r).1 hr with ⟨s, hs, hlhs, hpart, -⟩ | ⟨hstart, hnull, hbody⟩
  · have hbody : g.Yields s.body u :=
      yields_of_omission (fun x hx => yields_of_nullable wf (wf.uses_body hs hx)) hpart hu
    exact yields_nonterminal_iff.2 ⟨s, hs, hlhs, hbody⟩
  · rw [hbody, yields_nil_iff] at hu
    subst u
    exact yields_of_nullable wf (Vocabulary.uses_nonterminal.2 (wf.start_mem hstart)) hnull

/-- Every nonterminal keeps its nonempty words. -/
theorem yields_new (he : g.EpsilonFreed h) (hne : w ≠ []) (hw : g.Yields [.nonterminal n] w) :
    h.Yields [.nonterminal n] w := by
  refine yields_of_omissions (p := g.nullableSymbols.has) ?_ ?_ hne hw
  · intro m hm
    exact nullable_of_yields hm rfl _ (List.mem_singleton.2 rfl)
  · intro r hr part hpart hpart_ne u _ hu
    have hmem : ⟨r.lhs, part⟩ ∈ h.rules :=
      (he.mem_rules ⟨r.lhs, part⟩).2 (.inl ⟨r, hr, rfl, hpart, hpart_ne⟩)
    exact yields_nonterminal_iff.2 ⟨_, hmem, rfl, hu⟩

/-- The start symbol has an empty body just if it derived the empty word. -/
theorem empty_mem_rules_iff (he : g.EpsilonFreed h) (wf : g.WellFormed)
    (hstart : g.start = some start) :
    ⟨start, []⟩ ∈ h.rules ↔ g.Yields [.nonterminal start] [] := by
  constructor
  · intro hrule
    exact he.yields_old wf (yields_nonterminal_iff.2 ⟨_, hrule, rfl, .nil⟩)
  · intro hnil
    have hnull := nullable_of_yields hnil rfl _ (List.mem_singleton.2 rfl)
    exact (he.mem_rules _).2 (.inr ⟨hstart, hnull, rfl⟩)

/-- The start symbol keeps all of its words. -/
theorem yields_start (he : g.EpsilonFreed h) (wf : g.WellFormed) (hstart : g.start = some start) :
    h.Yields [.nonterminal start] w ↔ g.Yields [.nonterminal start] w := by
  refine ⟨he.yields_old wf, ?_⟩
  intro hw
  by_cases hne : w = []
  · subst w
    exact yields_nonterminal_iff.2 ⟨_, (he.empty_mem_rules_iff wf hstart).2 hw, rfl, .nil⟩
  · exact he.yields_new hne hw

theorem preserves (he : g.EpsilonFreed h) (wf : g.WellFormed) : g.Preserves h where
  wellFormed := he.wellFormed wf
  start := he.start
  generates _ := generates_congr he.start fun _ hstart => he.yields_start wf hstart

/-- Once empty bodies are removed, further omissions give no new rules. -/
theorem omissionClosed (he : g.EpsilonFreed h) (wf : g.WellFormed) : h.OmissionClosed where
  start_of_empty r hr hbody := by
    rcases (he.mem_rules r).1 hr with ⟨_, -, -, -, hne⟩ | ⟨hstart, -, -⟩
    · exact absurd hbody hne
    · exact he.start.trans hstart
  omission_mem r hr part hpart hne := by
    rcases (he.mem_rules r).1 hr with ⟨s, hs, hlhs, hbody, -⟩ | ⟨-, -, hbody⟩
    · refine (he.mem_rules ⟨r.lhs, part⟩).2 (.inl ⟨s, hs, hlhs, ?_, hne⟩)
      apply omissions_trans _ hbody hpart
      intro x hx hnull
      -- What derives the empty word now did so before.
      have huse : h.uses x = true := by
        rw [he.vocabulary]
        exact wf.uses_body hs hx
      have hx' := he.yields_old wf (yields_of_nullable (he.wellFormed wf) huse hnull)
      exact nullable_of_yields hx' rfl x (List.mem_singleton.2 rfl)
    · rw [hbody, omissions, List.mem_singleton] at hpart
      exact absurd hpart hne

end EpsilonFreed

/-- There are no empty bodies to remove just if the rules are closed under omissions. -/
theorem eliminateEpsilon_eq_self_iff (wf : g.WellFormed) :
    g.eliminateEpsilon = .ok g ↔ g.OmissionClosed := by
  obtain ⟨h, hok, he⟩ := exists_eliminateEpsilon wf
  rw [hok, Except.ok.injEq]
  constructor
  · intro heq
    subst h
    exact he.omissionClosed wf
  · intro hclosed
    refine eq_of_mem_rules he.vocabulary he.start ?_
    intro r
    rw [he.mem_rules]
    constructor
    · rintro (⟨s, hs, hlhs, hpart, hne⟩ | ⟨hstart, hnull, hbody⟩)
      · have hmem := hclosed.omission_mem s hs r.body hpart hne
        rwa [hlhs] at hmem
      · have huse := Vocabulary.uses_nonterminal.2 (wf.start_mem hstart)
        have hrule := hclosed.empty_mem_rules hstart (yields_of_nullable wf huse hnull)
        rwa [← hbody] at hrule
    · intro hr
      by_cases hbody : r.body = []
      · have hstart := hclosed.start_of_empty r hr hbody
        have hnil : g.Yields [.nonterminal r.lhs] [] :=
          yields_nonterminal_iff.2 ⟨r, hr, rfl, hbody ▸ .nil⟩
        have hnull := nullable_of_yields hnil rfl _ (List.mem_singleton.2 rfl)
        exact .inr ⟨hstart, hnull, hbody⟩
      · exact .inl ⟨r, hr, rfl, mem_omissions_self, hbody⟩

/-- The rules that result are closed under omissions, and a second removal leaves them as they are. -/
theorem eliminateEpsilon_idempotent (wf : g.WellFormed) :
    ∃ h, g.eliminateEpsilon = .ok h ∧ h.OmissionClosed ∧ h.eliminateEpsilon = .ok h := by
  obtain ⟨h, hok, he⟩ := exists_eliminateEpsilon wf
  have hclosed := he.omissionClosed wf
  exact ⟨h, hok, hclosed, (eliminateEpsilon_eq_self_iff (he.wellFormed wf)).2 hclosed⟩

/--
Removing empty bodies keeps the nonempty words of every nonterminal, and whether the start symbol
derives the empty word. If it does, it has the only empty body that is left, and else there is none.
-/
theorem eliminateEpsilon_keeps_words (wf : g.WellFormed) :
    ∃ h, g.eliminateEpsilon = .ok h ∧
      (∀ n w, w ≠ [] →
        (h.Derives [.nonterminal n] (.ofWord w) ↔ g.Derives [.nonterminal n] (.ofWord w))) ∧
      ∃ start, g.start = some start ∧ h.start = some start ∧
        (h.Derives [.nonterminal start] [] ↔ g.Derives [.nonterminal start] []) ∧
        (∀ r ∈ h.rules, r.body = [] → r.lhs = start) ∧
        (⟨start, []⟩ ∈ h.rules ↔ g.Derives [.nonterminal start] []) := by
  obtain ⟨start, hstart, -⟩ := wf.exists_start
  obtain ⟨h, hok, he⟩ := exists_eliminateEpsilon wf
  have hnil (k : Grammar) : k.Derives [.nonterminal start] [] ↔ k.Yields [.nonterminal start] [] :=
    derives_iff_yields (w := [])
  refine ⟨h, hok, ?_, start, hstart, he.start.trans hstart, ?_, ?_, ?_⟩
  · intro n w hne
    rw [derives_iff_yields, derives_iff_yields]
    exact ⟨he.yields_old wf, he.yields_new hne⟩
  · rw [hnil, hnil]
    exact he.yields_start wf hstart
  · intro r hr hbody
    have hlhs := (he.omissionClosed wf).start_of_empty r hr hbody
    rw [he.start, hstart] at hlhs
    exact (Option.some.inj hlhs).symm
  · rw [hnil]
    exact he.empty_mem_rules_iff wf hstart

/-- Both nonterminals are nullable, and each stands in bodies of the other. -/
def entwined : Grammar where
  table :=
    { entries := [⟨"S", .nonterminal⟩, ⟨"A", .nonterminal⟩, ⟨"a", .terminal⟩]
      nameSpace := {}
      position := 0
      nodup := by decide
      passed := fun _ h => absurd h (Nat.not_lt_zero _) }
  terminals := OrderedSet.ofList [⟨2⟩]
  nonterminals := OrderedSet.ofList [⟨0⟩, ⟨1⟩]
  rules := OrderedSet.ofList
    [⟨⟨0⟩, []⟩,
      ⟨⟨0⟩, [.nonterminal ⟨1⟩, .terminal ⟨2⟩, .nonterminal ⟨1⟩]⟩,
      ⟨⟨1⟩, [.nonterminal ⟨0⟩, .nonterminal ⟨0⟩]⟩]
  start := some ⟨0⟩

theorem entwined_freed : entwined.WellFormed ∧ ∃ h, entwined.eliminateEpsilon = .ok h ∧
    (∀ n w, w ≠ [] →
      (h.Derives [.nonterminal n] (.ofWord w) ↔ entwined.Derives [.nonterminal n] (.ofWord w))) ∧
    (∀ r ∈ h.rules, r.body = [] → r.lhs = ⟨0⟩) ∧ ⟨⟨0⟩, []⟩ ∈ h.rules := by
  have wf : entwined.WellFormed := by decide +kernel
  obtain ⟨h, hok, hwords, start, hstart, -, -, honly, hempty⟩ := eliminateEpsilon_keeps_words wf
  cases hstart
  have hrule : ⟨⟨0⟩, []⟩ ∈ entwined.rules := by decide +kernel
  exact ⟨wf, h, hok, hwords, honly, hempty.2 (Derives.of_rule hrule)⟩

/-- After the first removal the start symbol is still nullable, and stands in bodies. -/
theorem entwined_idempotent : entwined.WellFormed ∧ ∃ h, entwined.eliminateEpsilon = .ok h ∧
    h.eliminateEpsilon = .ok h ∧ ⟨⟨0⟩, []⟩ ∈ h.rules ∧
    ⟨⟨1⟩, [.nonterminal ⟨0⟩]⟩ ∈ h.rules := by
  have wf : entwined.WellFormed := by decide +kernel
  obtain ⟨h, hok, -, hagain⟩ := eliminateEpsilon_idempotent wf
  have hrules : (entwined.eliminateEpsilon.map fun h =>
      decide (⟨⟨0⟩, []⟩ ∈ h.rules ∧ ⟨⟨1⟩, [.nonterminal ⟨0⟩]⟩ ∈ h.rules)) = .ok true := by
    decide +kernel
  rw [hok] at hrules
  exact ⟨wf, h, hok, hagain, of_decide_eq_true (Except.ok.inj hrules)⟩

end Grammar

end FormalLanguage
