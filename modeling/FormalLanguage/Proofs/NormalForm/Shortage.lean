import Mathlib.Data.Finset.Card
import Mathlib.Data.List.Infix
import FormalLanguage.Proofs.NormalForm.Extension

/-!
When fresh names run out. Main statement: a pass that draws names needs one for each part of a body
that it abbreviates, equal parts counted once, and fails just if there are fewer free names.
-/
namespace FormalLanguage

namespace Grammar

/-- The error that a grammar's fresh names ran out. -/
def exhausted (g : Grammar) : GrammarError := .naming (.namesExhausted g.table.nameSpace.capacity)

theorem exhausted_eq {g k : Grammar} (h : k.table.nameSpace = g.table.nameSpace) :
    k.exhausted = g.exhausted := by
  rw [exhausted, h]
  exact rfl

/-- Fresh names ran out, of which more were needed than there were. -/
def ShortOfNames (g : Grammar) (needed : Nat) (e : GrammarError) : Prop :=
  e = g.exhausted ∧ g.table.freeNames.card < needed

/-- The result needed so many of the names that were free, or there were fewer. -/
def Needs (g : Grammar) (x : Except GrammarError Grammar) (needed : Nat) : Prop :=
  EndsIn x (fun k => k.table.freeNames.card + needed = g.table.freeNames.card)
    (g.ShortOfNames needed)

end Grammar

namespace Abbreviating

variable {κ : Type} {body : κ → Body} {g : Grammar} {done : List Rule}
  {a b : Abbreviating κ} {key : κ} {n : NonTerminal} {parts : Finset Body} {admits : κ → Prop}

/-- What a key stands for. -/
def part (body : κ → Body) (a : Abbreviating κ) (key : κ) : Body :=
  (body key).flatMap (expand body a.known)

/-- What the fresh nonterminals stand for. -/
def knownParts (body : κ → Body) (a : Abbreviating κ) : List Body :=
  a.known.map fun p => a.part body p.1

/-- The fresh nonterminals stand for different parts, and each of them took a name away. -/
structure Counted (body : κ → Body) (g : Grammar) (admits : κ → Prop) (parts : Finset Body)
    (a : Abbreviating κ) : Prop where
  nameSpace : a.result.table.nameSpace = g.table.nameSpace
  card : a.result.table.freeNames.card + a.known.length = g.table.freeNames.card
  nodup : (a.knownParts body).Nodup
  subset : ∀ part ∈ a.knownParts body, part ∈ parts
  admits : ∀ p ∈ a.known, admits p.1

/-- What the construction counts has grown by parts that were asked for, at least. -/
structure Serves (body : κ → Body) (g : Grammar) (admits : κ → Prop) (parts : Finset Body)
    (a : Abbreviating κ) (asked : Body → Prop) (b : Abbreviating κ) : Prop where
  counted : Counted body g admits parts b
  known : ∀ part, part ∈ a.knownParts body ∨ asked part → part ∈ b.knownParts body

theorem counted_init (body : κ → Body) (g : Grammar) (admits : κ → Prop) (parts : Finset Body) :
    Counted body g admits parts ⟨g.clearRules, []⟩ where
  nameSpace := rfl
  card := rfl
  nodup := List.nodup_nil
  subset := List.forall_mem_nil _
  admits := List.forall_mem_nil _

/-- Rules do not matter. -/
theorem Serves.addRule {asked : Body → Prop} (h : Serves body g admits parts a asked b)
    (n : NonTerminal) (form : Body) : Serves body g admits parts a asked (b.addRule n form) where
  counted := ⟨h.counted.nameSpace, h.counted.card, h.counted.nodup, h.counted.subset, h.counted.admits⟩
  known := h.known

/-- A new nonterminal leaves the known parts as they are. -/
theorem knownParts_cons (ha : Abbreviates body g done a) (hgrows : Grows body a b)
    (hkey : ∀ s ∈ body key, a.result.uses s = true) (hknown : b.known = (key, n) :: a.known) :
    b.knownParts body = a.part body key :: a.knownParts body := by
  have hold (p : κ × NonTerminal) (hp : p ∈ a.known) : b.part body p.1 = a.part body p.1 :=
    hgrows.flatMap_eq (ha.uses_body _ (ha.known_rule p hp))
  have hnew : b.part body key = a.part body key := hgrows.flatMap_eq hkey
  rw [knownParts, hknown, List.map_cons, hnew, List.map_congr_left hold]
  rfl

/-- The construction after the rules `done`, with all the parts known that these asked for. -/
structure Progress (body : κ → Body) (g : Grammar) (admits : κ → Prop) (parts : Finset Body)
    (asked : Rule → Body → Prop) (done : List Rule) (a : Abbreviating κ) : Prop where
  abbreviates : Abbreviates body g done a
  counted : Counted body g admits parts a
  known : ∀ r ∈ done, ∀ part, asked r part → part ∈ a.knownParts body

/-- If all the parts are asked for, they are what the fresh nonterminals stand for in the end. -/
theorem Progress.mem_parts_iff {asked : Rule → Body → Prop} {part : Body}
    (hp : Progress body g admits parts asked g.rules.toList a)
    (hparts : ∀ part ∈ parts, ∃ r ∈ g.rules, asked r part) :
    part ∈ parts ↔ part ∈ a.knownParts body := by
  refine ⟨fun hpart => ?_, hp.counted.subset part⟩
  obtain ⟨r, hr, hasked⟩ := hparts part hpart
  exact hp.known r (OrderedSet.mem_toList.2 hr) part hasked

/-- Rules are done one after the other, if each step serves what its rule asks for. -/
theorem endsIn_progress {step : Abbreviating κ → Rule → Except GrammarError (Abbreviating κ)}
    {asked : Rule → Body → Prop} (wf : g.WellFormed)
    (hspec : ∀ done a b, ∀ r ∈ g.rules, Abbreviates body g done a → step a r = .ok b →
      Abbreviates body g (done ++ [r]) b)
    (hstep : ∀ done a, ∀ r ∈ g.rules, Abbreviates body g done a → Counted body g admits parts a →
      EndsIn (step a r) (Serves body g admits parts a (asked r)) (g.ShortOfNames parts.card)) :
    EndsIn (g.rules.toList.foldlM step ⟨g.clearRules, []⟩)
      (Progress body g admits parts asked g.rules.toList) (g.ShortOfNames parts.card) := by
  have hinit : Progress body g admits parts asked [] ⟨g.clearRules, []⟩ :=
    ⟨.init wf, counted_init body g admits parts, List.forall_mem_nil _⟩
  rw [← List.nil_append g.rules.toList]
  refine EndsIn.foldlM (P := Progress body g admits parts asked) ?_ hinit
  rintro done r a hr ⟨ha, hc, hdone⟩
  have hmem : r ∈ g.rules := OrderedSet.mem_toList.1 hr
  refine (hstep done a r hmem ha hc).imp fun b hb hserves => ?_
  refine ⟨hspec done a b r hmem ha hb, hserves.counted, fun x hx part hpart => ?_⟩
  rcases List.mem_append.1 hx with hx | hx
  · exact hserves.known part (.inl (hdone x hx part hpart))
  · rw [List.mem_singleton.1 hx] at hpart
    exact hserves.known part (.inr hpart)

/-- The names that are left are those that were not needed. -/
theorem Progress.card_freeNames {asked : Rule → Body → Prop}
    (hp : Progress body g admits parts asked g.rules.toList a)
    (hparts : ∀ part ∈ parts, ∃ r ∈ g.rules, asked r part) :
    a.result.table.freeNames.card + parts.card = g.table.freeNames.card := by
  have hall : parts = (a.knownParts body).toFinset := by
    ext part
    rw [List.mem_toFinset, hp.mem_parts_iff hparts]
  rw [hall, List.toFinset_card_of_nodup hp.counted.nodup, knownParts, List.length_map]
  exact hp.counted.card

variable [DecidableEq κ]

theorem abbreviate_eq_error {e : GrammarError} (h : a.abbreviate body key = .error e) :
    a.known.lookup key = none ∧
      ∃ reason result, a.result.fresh = (.error reason, result) ∧ e = .naming reason := by
  unfold abbreviate at h
  split at h
  · cases h
  · next hlookup =>
    split at h
    · cases h
    · next reason result hfresh =>
      cases h
      exact ⟨hlookup, reason, result, hfresh, rfl⟩

/-- A key that is known already has its part among the known ones. -/
theorem part_mem_knownParts (h : a.known.lookup key = some n) : a.part body key ∈ a.knownParts body := by
  obtain ⟨before, after, hknown, -⟩ := List.lookup_eq_some_iff.1 h
  exact List.mem_map.2 ⟨(key, n), by simp [hknown], rfl⟩

/-- Abbreviating takes a name if the part is new, and fails if there is none. -/
theorem serves_abbreviate (ha : Abbreviates body g done a) (hc : Counted body g admits parts a)
    (hkey : ∀ s ∈ body key, a.result.uses s = true) (hadmits : admits key)
    (hpart : a.part body key ∈ parts)
    (hsame : a.part body key ∈ a.knownParts body → ∃ p ∈ a.known, p.1 = key) :
    EndsIn (a.abbreviate body key)
      (fun p => Serves body g admits parts a (· = a.part body key) p.2) (g.ShortOfNames parts.card) := by
  have hnew (hlookup : a.known.lookup key = none) : a.part body key ∉ a.knownParts body := by
    intro hmem
    obtain ⟨p, hp, rfl⟩ := hsame hmem
    have hother := List.lookup_eq_none_iff.1 hlookup p hp
    simp at hother
  constructor
  · rintro ⟨n, b⟩ h
    have hgrows := (ha.abbreviate hkey h).1
    obtain ⟨hlookup, rfl⟩ | ⟨result, hlookup, hfresh, rfl⟩ := abbreviate_cases h
    · refine ⟨hc, ?_⟩
      rintro part (hold | rfl)
      · exact hold
      · exact part_mem_knownParts hlookup
    · have hparts := knownParts_cons ha hgrows hkey rfl
      have htable := Grammar.table_of_fresh hfresh
      have hspace : result.table.nameSpace = a.result.table.nameSpace :=
        (Grammar.enlarges_of_fresh hfresh).nameSpace
      have hcard := SymbolTable.card_freeNames_of_fresh htable
      refine ⟨⟨hspace.trans hc.nameSpace, ?_, ?_, ?_, ?_⟩, fun part => ?_⟩
      · have hold := hc.card
        simp only [Grammar.addRule, List.length_cons]
        omega
      · rw [hparts]
        exact List.nodup_cons.2 ⟨hnew hlookup, hc.nodup⟩
      · rw [hparts, List.forall_mem_cons]
        exact ⟨hpart, hc.subset⟩
      · rw [List.forall_mem_cons]
        exact ⟨hadmits, hc.admits⟩
      · rw [hparts, List.mem_cons]
        exact Or.symm
  · intro e h
    obtain ⟨hlookup, reason, result, hfresh, rfl⟩ := abbreviate_eq_error h
    have htable := Grammar.table_of_fresh hfresh
    refine ⟨?_, ?_⟩
    · rw [SymbolTable.fresh_eq_error htable, hc.nameSpace]
      rfl
    · -- the known parts and the new one are different, and all of them are needed
      have hall : (a.part body key :: a.knownParts body).toFinset ⊆ parts := by
        intro part hmem
        rcases List.mem_cons.1 (List.mem_toFinset.1 hmem) with rfl | hold
        · exact hpart
        · exact hc.subset part hold
      have hle := Finset.card_le_card hall
      rw [List.toFinset_card_of_nodup (List.nodup_cons.2 ⟨hnew hlookup, hc.nodup⟩)] at hle
      have hold := hc.card
      rw [SymbolTable.freeNames_of_fresh_error htable] at hold
      simp only [List.length_cons, knownParts, List.length_map, Finset.card_empty] at hle hold
      omega

end Abbreviating

namespace Grammar

open Abbreviating

section Pairs

variable {g : Grammar} {done : List Rule} {a : Abbreviating (Symbol × Symbol)} {s t : Symbol}
  {parts : Finset Body} {known : List ((Symbol × Symbol) × NonTerminal)} {n : Nat}
  {whole part rest : Body}

/-- A prefix that has more than `n` symbols and is not the whole. -/
def Inner (n : Nat) (whole part : Body) : Prop :=
  part <+: whole ∧ n < part.length ∧ part.length < whole.length

/-- The prefixes of two symbols at least that are not the whole body. -/
def longPrefixes (g : Grammar) : Finset Body :=
  (g.rules.toList.flatMap fun r =>
    r.body.inits.filter fun part => 2 ≤ part.length ∧ part.length < r.body.length).toFinset

theorem mem_longPrefixes_iff : part ∈ g.longPrefixes ↔ ∃ r ∈ g.rules, Inner 1 r.body part := by
  simp only [longPrefixes, List.mem_toFinset, List.mem_flatMap, OrderedSet.mem_toList,
    List.mem_filter, List.mem_inits, decide_eq_true_eq]
  exact Iff.rfl

/--
The second symbol of a pair that is abbreviated is one of the given grammar. So a part tells its pair,
although the first symbol may be a fresh one that stands for a part itself.
-/
def endsOld (g : Grammar) (pair : Symbol × Symbol) : Prop := g.uses pair.2 = true

theorem expand_ne_nil (known : List ((Symbol × Symbol) × NonTerminal)) (s : Symbol) :
    expand pairBody known s ≠ [] := by
  induction known generalizing s with
  | nil => exact List.cons_ne_nil s []
  | cons p known ih =>
    rw [expand]
    split
    · intro h
      exact ih p.1.1 (List.append_eq_nil_iff.1 h).1
    · exact ih s

/-- A symbol in use is one of the given grammar, or a fresh one that stands for a longer part. -/
theorem uses_cases (ha : Abbreviates pairBody g done a) (hs : a.result.uses s = true) :
    expand pairBody a.known s = [s] ∨
      ∃ p ∈ a.known, s = .nonterminal p.2 ∧ expand pairBody a.known s = a.part pairBody p.1 ∧
        2 ≤ (expand pairBody a.known s).length := by
  cases s with
  | terminal t => exact .inl (expand_terminal t)
  | nonterminal m =>
    rcases (ha.mem_nonterminals m).1 (Vocabulary.uses_nonterminal.1 hs) with hold | ⟨p, hp, rfl⟩
    · exact .inl (ha.expand_old _ (Vocabulary.uses_nonterminal.2 hold))
    · have hpart : expand pairBody a.known (.nonterminal p.2) = a.part pairBody p.1 :=
        ha.expand_known p hp
      refine .inr ⟨p, hp, rfl, hpart, ?_⟩
      have hfirst := List.length_pos_of_ne_nil (expand_ne_nil a.known p.1.1)
      have hsecond := List.length_pos_of_ne_nil (expand_ne_nil a.known p.1.2)
      rw [hpart]
      simp only [part, pairBody, List.flatMap_cons, List.flatMap_nil, List.append_nil,
        List.length_append]
      omega

/-- Different symbols stand for different parts. -/
theorem expand_inj (ha : Abbreviates pairBody g done a) (hc : Counted pairBody g g.endsOld parts a)
    (hs : a.result.uses s = true) (ht : a.result.uses t = true)
    (h : expand pairBody a.known s = expand pairBody a.known t) : s = t := by
  rcases uses_cases ha hs with hs | ⟨p, hp, rfl, hps, hslen⟩
  · rcases uses_cases ha ht with ht | ⟨q, hq, rfl, hqt, htlen⟩
    · rw [hs, ht] at h
      exact List.singleton_inj.1 h
    · rw [← h, hs] at htlen
      exact absurd htlen (by simp)
  · rcases uses_cases ha ht with ht | ⟨q, hq, rfl, hqt, htlen⟩
    · rw [h, ht] at hslen
      exact absurd hslen (by simp)
    · rw [hps, hqt] at h
      rw [List.inj_on_of_nodup_map hc.nodup hp hq h]

theorem part_pair (ha : Abbreviates pairBody g done a) (ht : g.uses t = true) :
    a.part pairBody (s, t) = expand pairBody a.known s ++ [t] := by
  simp [part, pairBody, ha.expand_old t ht]

/-- Different pairs stand for different parts. -/
theorem exists_pair (ha : Abbreviates pairBody g done a) (hc : Counted pairBody g g.endsOld parts a)
    (hs : a.result.uses s = true) (ht : g.uses t = true)
    (hmem : a.part pairBody (s, t) ∈ a.knownParts pairBody) : ∃ p ∈ a.known, p.1 = (s, t) := by
  obtain ⟨⟨⟨u, v⟩, n⟩, hp, hpart⟩ := List.mem_map.1 hmem
  have hv : g.uses v = true := hc.admits _ hp
  have hu : a.result.uses u = true := ha.uses_body _ (ha.known_rule _ hp) u (by simp [pairBody])
  rw [part_pair ha ht, part_pair ha hv] at hpart
  obtain ⟨hexpand, hlast⟩ := List.append_inj' hpart rfl
  refine ⟨_, hp, ?_⟩
  rw [expand_inj ha hc hu hs hexpand, List.singleton_inj.1 hlast]

/-- Two prefixes that go one symbol beyond the same length are the same. -/
theorem inner_cases {first : Body} (hfirst : first <+: whole) (hpart : Inner n whole part)
    (hlen : first.length = n + 1) : part = first ∨ Inner first.length whole part := by
  obtain ⟨hbegins, hlong, hshort⟩ := hpart
  by_cases hsame : part.length = first.length
  · have hle := List.prefix_of_prefix_length_le hbegins hfirst (Nat.le_of_eq hsame)
    exact .inl (hle.eq_of_length hsame)
  · exact .inr ⟨hbegins, by omega, hshort⟩

/-- Shortening asks for the prefixes that are longer than what its first symbol stands for. -/
theorem serves_shorten (ha : Abbreviates pairBody g done a)
    (hc : Counted pairBody g g.endsOld parts a) (hs : a.result.uses s = true)
    (hrest : ∀ x ∈ t :: rest, g.uses x = true)
    (hwhole : expand pairBody a.known s ++ t :: rest = whole)
    (hparts : ∀ part, Inner (expand pairBody a.known s).length whole part → part ∈ parts) :
    EndsIn (shorten s t rest a)
      (fun p => Serves pairBody g g.endsOld parts a
        (Inner (expand pairBody a.known s).length whole) p.2) (g.ShortOfNames parts.card) := by
  -- by induction on what is left of the body: `s` stands for more and more of the same whole
  induction rest generalizing s t a with
  | nil =>
    refine .ok ⟨hc, ?_⟩
    rintro part (hold | ⟨-, hlong, hshort⟩)
    · exact hold
    · rw [← hwhole, List.length_append, List.length_singleton] at hshort
      omega
  | cons u rest ih =>
    obtain ⟨ht, hrest⟩ := List.forall_mem_cons.1 hrest
    have hpair : ∀ x ∈ pairBody (s, t), a.result.uses x = true := by
      simp [pairBody, hs, ha.uses_of_uses ht]
    have hfirst : expand pairBody a.known s ++ [t] <+: whole := by simp [← hwhole]
    have hinner : Inner (expand pairBody a.known s).length whole (a.part pairBody (s, t)) := by
      rw [part_pair ha ht]
      refine ⟨hfirst, by simp, ?_⟩
      simp [← hwhole]
    rw [shorten]
    refine (serves_abbreviate ha hc hpair ht (hparts _ hinner) (exists_pair ha hc hs ht)).bind ?_
    rintro ⟨m, a'⟩ habbr hserves
    obtain ⟨hgrows, ha', hmem⟩ := ha.abbreviate hpair habbr
    have hm : a'.result.uses (.nonterminal m) = true :=
      Vocabulary.uses_nonterminal.2 ((ha'.mem_nonterminals m).2 (.inr ⟨_, hmem, rfl⟩))
    have hexpand : expand pairBody a'.known (.nonterminal m) = expand pairBody a.known s ++ [t] := by
      rw [ha'.expand_known _ hmem, hgrows.flatMap_eq hpair]
      exact part_pair ha ht
    have hlen : (expand pairBody a'.known (.nonterminal m)).length =
        (expand pairBody a.known s).length + 1 := by rw [hexpand, List.length_append]; rfl
    have hwhole' : expand pairBody a'.known (.nonterminal m) ++ u :: rest = whole := by
      rw [hexpand, ← hwhole, List.append_assoc]
      rfl
    refine (ih ha' hserves.counted hm hrest hwhole' ?_).imp ?_
    · rintro part ⟨hbegins, hlong, hshort⟩
      exact hparts part ⟨hbegins, by omega, hshort⟩
    · rintro ⟨form, b⟩ - hserves'
      refine ⟨hserves'.counted, ?_⟩
      rintro part (hold | hasked)
      · exact hserves'.known part (.inl (hserves.known part (.inl hold)))
      · rw [← hexpand] at hfirst
        rcases inner_cases hfirst hasked hlen with hsame | hlonger
        · rw [hsame, hexpand, ← part_pair ha ht]
          exact hserves'.known _ (.inl (hserves.known _ (.inr rfl)))
        · exact hserves'.known part (.inr hlonger)

theorem serves_shortenRule (wf : g.WellFormed) {r : Rule} (hr : r ∈ g.rules)
    (ha : Abbreviates pairBody g done a) (hc : Counted pairBody g g.endsOld g.longPrefixes a) :
    EndsIn (shortenRule a r) (Serves pairBody g g.endsOld g.longPrefixes a (Inner 1 r.body))
      (g.ShortOfNames g.longPrefixes.card) := by
  have huses : ∀ x ∈ r.body, g.uses x = true := fun x hx => wf.uses_body hr hx
  have hparts : ∀ part, Inner 1 r.body part → part ∈ g.longPrefixes :=
    fun part hpart => mem_longPrefixes_iff.2 ⟨r, hr, hpart⟩
  unfold shortenRule
  split
  · next s t rest hbody =>
    rw [hbody] at huses hparts
    obtain ⟨hs, hrest⟩ := List.forall_mem_cons.1 huses
    have hexpand := ha.expand_old s hs
    have hwhole : expand pairBody a.known s ++ t :: rest = s :: t :: rest := by
      rw [hexpand]
      rfl
    have hshort := serves_shorten ha hc (ha.uses_of_uses hs) hrest hwhole
    rw [hexpand] at hshort
    refine (hshort hparts).bind ?_
    rintro ⟨form, b⟩ - hserves
    rw [hbody]
    exact .ok (hserves.addRule r.lhs form)
  · next hbody =>
    refine .ok (Serves.addRule ⟨hc, ?_⟩ r.lhs r.body)
    rintro part (hold | ⟨-, hlong, hshort⟩)
    · exact hold
    · rcases hcases : r.body with _ | ⟨s, _ | ⟨t, rest⟩⟩
      · rw [hcases] at hshort
        exact absurd hshort (Nat.not_lt_zero _)
      · rw [hcases, List.length_singleton] at hshort
        omega
      · exact absurd hcases (hbody s t rest)

theorem endsIn_shortened (wf : g.WellFormed) :
    EndsIn (g.rules.toList.foldlM shortenRule ⟨g.clearRules, []⟩)
      (Progress pairBody g g.endsOld g.longPrefixes (fun r => Inner 1 r.body) g.rules.toList)
      (g.ShortOfNames g.longPrefixes.card) :=
  endsIn_progress wf
    (fun _ _ _ _ hr ha hab => shortenRule_spec wf ha hr hab)
    (fun _ _ _ hr ha hc => serves_shortenRule wf hr ha hc)

/-- Shortening bodies takes a name for each prefix, and fails if there are not so many. -/
theorem needs_binarize (wf : g.WellFormed) : g.Needs g.binarize g.longPrefixes.card := by
  rw [Needs, binarize, wf.valid]
  refine (endsIn_shortened wf).bind fun a _ hprogress => .ok ?_
  exact hprogress.card_freeNames fun part hpart => mem_longPrefixes_iff.1 hpart

end Pairs

section Terminals

variable {g : Grammar} {done : List Rule} {a : Abbreviating Terminal} {t : Terminal} {body : Body}

/-- The terminals that occur in bodies of two or more symbols. -/
def mixedTerminals (g : Grammar) : Finset Terminal :=
  (g.rules.toList.flatMap fun r =>
    if 2 ≤ r.body.length then r.body.filterMap Symbol.terminal? else []).toFinset

theorem mem_mixedTerminals_iff :
    t ∈ g.mixedTerminals ↔ ∃ r ∈ g.rules, 2 ≤ r.body.length ∧ .terminal t ∈ r.body := by
  have hterminal (s : Symbol) : s.terminal? = some t ↔ s = .terminal t := by
    cases s <;> simp [Symbol.terminal?]
  simp only [mixedTerminals, List.mem_toFinset, List.mem_flatMap, OrderedSet.mem_toList,
    List.mem_ite_nil_right, List.mem_filterMap, hterminal, exists_eq_right]

/-- Bodies that are such a terminal. -/
def mixedBodies (g : Grammar) : Finset Body := g.mixedTerminals.image terminalBody

theorem card_mixedBodies (g : Grammar) : g.mixedBodies.card = g.mixedTerminals.card := by
  refine Finset.card_image_of_injective _ fun t u h => ?_
  cases h
  rfl

theorem part_terminal (a : Abbreviating Terminal) (t : Terminal) :
    a.part terminalBody t = terminalBody t := by
  simp [part, terminalBody, expand_terminal]

/-- Isolating asks for the terminals of the body. -/
theorem serves_isolate (ha : Abbreviates terminalBody g done a)
    (hc : Counted terminalBody g (fun _ => True) g.mixedBodies a)
    (hbody : ∀ x ∈ body, a.result.uses x = true)
    (hparts : ∀ t, .terminal t ∈ body → t ∈ g.mixedTerminals) :
    EndsIn (isolate body a)
      (fun p => Serves terminalBody g (fun _ => True) g.mixedBodies a
        (fun part => ∃ t, .terminal t ∈ body ∧ part = terminalBody t) p.2)
      (g.ShortOfNames g.mixedBodies.card) := by
  induction body generalizing a with
  | nil =>
    refine .ok ⟨hc, ?_⟩
    rintro part (hold | ⟨t, hmem, -⟩)
    · exact hold
    · exact absurd hmem List.not_mem_nil
  | cons s body ih =>
    obtain ⟨hs, hform⟩ := List.forall_mem_cons.1 hbody
    have hrest : ∀ t, .terminal t ∈ body → t ∈ g.mixedTerminals :=
      fun t ht => hparts t (List.mem_cons_of_mem s ht)
    cases s with
    | terminal t =>
      have hkey : ∀ x ∈ terminalBody t, a.result.uses x = true := by simpa [terminalBody] using hs
      have hpart : a.part terminalBody t ∈ g.mixedBodies := by
        rw [part_terminal]
        exact Finset.mem_image_of_mem _ (hparts t List.mem_cons_self)
      have hsame (hmem : a.part terminalBody t ∈ a.knownParts terminalBody) :
          ∃ p ∈ a.known, p.1 = t := by
        obtain ⟨p, hp, heq⟩ := List.mem_map.1 hmem
        rw [part_terminal, part_terminal] at heq
        cases heq
        exact ⟨p, hp, rfl⟩
      rw [isolate]
      refine (serves_abbreviate ha hc hkey trivial hpart hsame).bind ?_
      rintro ⟨n, a'⟩ habbr hserves
      obtain ⟨hgrows, ha', -⟩ := ha.abbreviate hkey habbr
      refine (ih ha' hserves.counted (fun x hx => hgrows.uses x (hform x hx)) hrest).bind ?_
      rintro ⟨form, b⟩ - hserves'
      refine .ok ⟨hserves'.counted, ?_⟩
      rintro part (hold | ⟨u, hu, rfl⟩)
      · exact hserves'.known part (.inl (hserves.known part (.inl hold)))
      · rcases List.mem_cons.1 hu with heq | hu
        · cases heq
          exact hserves'.known _ (.inl (hserves.known _ (.inr (part_terminal a t).symm)))
        · exact hserves'.known _ (.inr ⟨u, hu, rfl⟩)
    | nonterminal m =>
      rw [isolate]
      · refine (ih ha hc hform hrest).bind ?_
        rintro ⟨form, b⟩ - hserves
        refine .ok ⟨hserves.counted, ?_⟩
        rintro part (hold | ⟨u, hu, rfl⟩)
        · exact hserves.known part (.inl hold)
        · exact hserves.known _ (.inr ⟨u, by simpa using hu, rfl⟩)
      · rintro t ⟨⟩

/-- The rule has the part in its body, as one of two symbols or more, and the part is a terminal. -/
def AsksTerminal (r : Rule) (part : Body) : Prop :=
  2 ≤ r.body.length ∧ ∃ t, .terminal t ∈ r.body ∧ part = terminalBody t

theorem serves_isolateRule (wf : g.WellFormed) {r : Rule} (hr : r ∈ g.rules)
    (ha : Abbreviates terminalBody g done a)
    (hc : Counted terminalBody g (fun _ => True) g.mixedBodies a) :
    EndsIn (isolateRule a r)
      (Serves terminalBody g (fun _ => True) g.mixedBodies a (AsksTerminal r))
      (g.ShortOfNames g.mixedBodies.card) := by
  unfold isolateRule
  split
  · next hshort =>
    refine .ok (Serves.addRule ⟨hc, ?_⟩ r.lhs r.body)
    rintro part (hold | ⟨hlong, -⟩)
    · exact hold
    · exact absurd hshort (Nat.not_lt.2 hlong)
  · next hlong =>
    have hlong : 2 ≤ r.body.length := Nat.not_lt.1 hlong
    have huses : ∀ x ∈ r.body, a.result.uses x = true :=
      fun x hx => ha.uses_of_uses (wf.uses_body hr hx)
    have hparts : ∀ t, .terminal t ∈ r.body → t ∈ g.mixedTerminals :=
      fun t ht => mem_mixedTerminals_iff.2 ⟨r, hr, hlong, ht⟩
    refine (serves_isolate ha hc huses hparts).bind ?_
    rintro ⟨form, b⟩ - hserves
    refine .ok (Serves.addRule ⟨hserves.counted, ?_⟩ r.lhs form)
    rintro part (hold | ⟨-, hasked⟩)
    · exact hserves.known part (.inl hold)
    · exact hserves.known part (.inr hasked)

theorem asked_of_mem_mixedBodies {part : Body} (hpart : part ∈ g.mixedBodies) :
    ∃ r ∈ g.rules, AsksTerminal r part := by
  obtain ⟨t, ht, rfl⟩ := Finset.mem_image.1 hpart
  obtain ⟨r, hr, hlong, hmem⟩ := mem_mixedTerminals_iff.1 ht
  exact ⟨r, hr, hlong, t, hmem, rfl⟩

theorem endsIn_isolated (wf : g.WellFormed) :
    EndsIn (g.rules.toList.foldlM isolateRule ⟨g.clearRules, []⟩)
      (Progress terminalBody g (fun _ => True) g.mixedBodies AsksTerminal g.rules.toList)
      (g.ShortOfNames g.mixedBodies.card) :=
  endsIn_progress wf
    (fun _ _ _ _ hr ha hab => isolateRule_spec wf ha hr hab)
    (fun _ _ _ hr ha hc => serves_isolateRule wf hr ha hc)

/-- Isolating terminals takes a name for each of them, and fails if there are not so many. -/
theorem needs_eliminateMixedTerminals (wf : g.WellFormed) :
    g.Needs g.eliminateMixedTerminals g.mixedTerminals.card := by
  rw [Needs, eliminateMixedTerminals, wf.valid, ← card_mixedBodies]
  refine (endsIn_isolated wf).bind fun a _ hprogress => .ok ?_
  exact hprogress.card_freeNames fun part => asked_of_mem_mixedBodies

end Terminals

section Counting

variable {g : Grammar} {x : Except GrammarError Grammar} {needed : Nat}

theorem Needs.fails_iff (hx : g.Needs x needed) :
    (∃ e, x = .error e) ↔ g.table.freeNames.card < needed := by
  constructor
  · rintro ⟨e, he⟩
    exact (hx.of_error e he).2
  · intro hfew
    cases hcases : x with
    | error e => exact ⟨e, rfl⟩
    | ok k =>
      have hcard := hx.of_ok k hcases
      omega

/-- The names that two passes in a row need are added. -/
theorem fails_bind_iff {second : Grammar → Except GrammarError Grammar} {more : Grammar → Nat}
    (hx : g.Needs x needed) (hsecond : ∀ k, x = .ok k → k.Needs (second k) (more k)) :
    (∃ e, x >>= second = .error e) ↔ g.table.freeNames.card < needed ∨
      ∃ k, x = .ok k ∧ g.table.freeNames.card < needed + more k := by
  cases hcases : x with
  | error e =>
    have hfails := hx.fails_iff.1 ⟨e, hcases⟩
    exact ⟨fun _ => .inl hfails, fun _ => ⟨e, rfl⟩⟩
  | ok k =>
    have hcard := hx.of_ok k hcases
    refine (hsecond k hcases).fails_iff.trans ⟨fun hfew => .inr ⟨k, rfl, by omega⟩, ?_⟩
    rintro (hfew | ⟨_, ⟨⟩, hfew⟩) <;> omega

end Counting

section Stages

variable {g : Grammar} {stage : Stage} {e : GrammarError}

theorem eq_exhausted_of_run (wf : g.WellFormed) (h : stage.run g = .error e) : e = g.exhausted := by
  by_cases hstage : stage ∈ preparation
  · obtain ⟨k, hk, -⟩ := exists_narrows wf hstage
    rw [hk] at h
    cases h
  · cases stage with
    | binary => exact ((needs_binarize wf).of_error e h).1
    | mixedTerminals => exact ((needs_eliminateMixedTerminals wf).of_error e h).1
    | epsilon | unit | unreachable | nonGenerating => exact absurd (by decide) hstage

theorem eq_exhausted_of_toNormalForm (wf : g.WellFormed) (h : g.toNormalForm = .error e) :
    e = g.exhausted := by
  obtain ⟨k, -, hwf, hnarrow, heq⟩ := exists_preparation wf
  rw [heq] at h
  cases hbinary : k.binarize with
  | error e' =>
    rw [hbinary] at h
    cases h
    exact ((needs_binarize hwf).of_error e hbinary).1.trans (exhausted_eq (by rw [hnarrow.table]))
  | ok short =>
    rw [hbinary] at h
    have hmixed := needs_eliminateMixedTerminals (preserves_binarize hwf hbinary).wellFormed
    refine (hmixed.of_error e h).1.trans (exhausted_eq ?_)
    rw [(enlarges_binarize hbinary).nameSpace, hnarrow.table]

/--
The stages fail only if names run out: one that shortens bodies needs a name for each prefix of two
symbols or more that is not the whole body, one that isolates terminals a name for each terminal of a
longer body, and the pipeline needs both.
-/
theorem fails_iff_names_run_out (wf : g.WellFormed) :
    (∀ stage ∈ [Stage.epsilon, .unit, .unreachable, .nonGenerating], ∃ k, stage.run g = .ok k) ∧
    ((∃ e, g.binarize = .error e) ↔ g.table.freeNames.card < g.longPrefixes.card) ∧
    ((∃ e, g.eliminateMixedTerminals = .error e) ↔
      g.table.freeNames.card < g.mixedTerminals.card) ∧
    (∃ h, preparation.foldlM (fun g stage => stage.run g) g = .ok h ∧
      ((∃ e, g.toNormalForm = .error e) ↔ g.table.freeNames.card < h.longPrefixes.card ∨
        ∃ k, h.binarize = .ok k ∧
          g.table.freeNames.card < h.longPrefixes.card + k.mixedTerminals.card)) ∧
    (∀ (stage : Stage) e, stage.run g = .error e → e = g.exhausted) ∧
    ∀ e, g.toNormalForm = .error e → e = g.exhausted := by
  have hprepares : ∀ stage ∈ [Stage.epsilon, .unit, .unreachable, .nonGenerating],
      stage ∈ preparation := by decide
  refine ⟨fun stage hstage => ?_, (needs_binarize wf).fails_iff,
    (needs_eliminateMixedTerminals wf).fails_iff, ?_, fun _ _ => eq_exhausted_of_run wf,
    fun _ => eq_exhausted_of_toNormalForm wf⟩
  · obtain ⟨k, hk, -⟩ := exists_narrows wf (hprepares stage hstage)
    exact ⟨k, hk⟩
  · obtain ⟨h, hh, hwf, hnarrow, heq⟩ := exists_preparation wf
    refine ⟨h, hh, ?_⟩
    have hfails := fails_bind_iff (needs_binarize hwf) fun k hk =>
      needs_eliminateMixedTerminals (preserves_binarize hwf hk).wellFormed
    rwa [← heq, hnarrow.table] at hfails

/-- Of three names one is bound; shortening needs one of the others, and isolating two. -/
def scarce : Grammar where
  table :=
    { entries := [⟨"S", .nonterminal⟩, ⟨"a", .terminal⟩, ⟨"b", .terminal⟩]
      nameSpace := { alphabet := ['a', '0', '1'], suffixes := 0 }
      position := 0
      nodup := by decide
      passed := fun _ h => absurd h (Nat.not_lt_zero _) }
  terminals := OrderedSet.ofList [⟨1⟩, ⟨2⟩]
  nonterminals := OrderedSet.ofList [⟨0⟩]
  rules := OrderedSet.ofList
    [⟨⟨0⟩, [.terminal ⟨1⟩, .nonterminal ⟨0⟩, .terminal ⟨2⟩]⟩, ⟨⟨0⟩, [.terminal ⟨2⟩]⟩]
  start := some ⟨0⟩

theorem scarce_fails : scarce.WellFormed ∧ ¬ (∃ e, scarce.binarize = .error e) ∧
    ¬ (∃ e, scarce.eliminateMixedTerminals = .error e) ∧
    scarce.toNormalForm = .error (.naming (.namesExhausted 3)) := by
  have wf : scarce.WellFormed := by decide +kernel
  obtain ⟨-, hbinary, hmixed, -, -, herror⟩ := fails_iff_names_run_out wf
  refine ⟨wf, fun h => absurd (hbinary.1 h) (by decide +kernel),
    fun h => absurd (hmixed.1 h) (by decide +kernel), ?_⟩
  have hfails : scarce.toNormalForm.toBool = false := by decide +kernel
  cases hcases : scarce.toNormalForm with
  | ok k => simp [hcases, Except.toBool] at hfails
  | error e => rw [herror e hcases]; rfl

end Stages

end Grammar

end FormalLanguage
