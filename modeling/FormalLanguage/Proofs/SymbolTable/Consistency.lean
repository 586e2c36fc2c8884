import Mathlib.Data.List.Forall2
import FormalLanguage.Vocabulary
import FormalLanguage.Proofs.SymbolTable.Requests

/-!
Names that are asked of a vocabulary together with their kinds. Main statement: a computation that asks
for some has a result just if no name is to have two kinds and none is reserved, in whatever order they
are asked for.
-/
namespace FormalLanguage

variable {s : Symbol} {name : String} {kind : Kind}

namespace SymbolTable

variable {t u : SymbolTable} {x : Option Entry} {xs : List (Option Entry)} {body : Body}

/-- The symbol has the name and the kind. No symbol stands for a name that may not be bound. -/
def Means (t : SymbolTable) (x : Option Entry) (s : Symbol) : Prop :=
  ∃ e, x = some e ∧ t.get? e.name = some s ∧ s.kind = e.kind

theorem Means.mono (h : t.Means x s) (htu : t.Extends u) : u.Means x s := by
  obtain ⟨e, rfl, hget, hkind⟩ := h
  exact ⟨e, rfl, htu _ _ hget, hkind⟩

theorem meansAll_mono (h : List.Forall₂ t.Means xs body) (htu : t.Extends u) :
    List.Forall₂ u.Means xs body := h.imp fun _ _ hs => hs.mono htu

theorem contains_of_means (h : List.Forall₂ t.Means xs body) : ∀ s ∈ body, t.contains s = true := by
  induction h with
  | nil => exact List.forall_mem_nil _
  | cons hs _ ih =>
    obtain ⟨e, -, hget, -⟩ := hs
    exact List.forall_mem_cons.2 ⟨contains_of_get? hget, ih⟩

/-- The table has a symbol with the name and the kind. -/
def Has (t : SymbolTable) (x : Option Entry) : Prop := ∃ s, t.Means x s

theorem has_iff {e : Entry} : t.Has (some e) ↔ ∃ s, t.get? e.name = some s ∧ s.kind = e.kind := by
  constructor
  · rintro ⟨s, e, ⟨⟩, hs⟩
    exact ⟨s, hs⟩
  · rintro ⟨s, hs⟩
    exact ⟨s, e, rfl, hs⟩

/-- A name that is interned is the only one that the table has then and had not before. -/
theorem has_iff_of_interned (h : t.Interned u name s) :
    u.Has x ↔ t.Has x ∨ x = some ⟨name, s.kind⟩ := by
  constructor
  · rintro ⟨y, e, rfl, hget, hkind⟩
    by_cases heq : e.name = name
    · rw [heq, h.get?_self] at hget
      cases hget
      exact .inr (by rw [hkind, ← heq])
    · rw [h.get?_of_ne _ heq] at hget
      exact .inl ⟨y, e, rfl, hget, hkind⟩
  · rintro (⟨y, hy⟩ | rfl)
    · exact ⟨y, hy.mono h.keeps⟩
    · exact has_iff.2 ⟨s, h.get?_self, rfl⟩

end SymbolTable

/-- Names that can be bound together: each has one kind, and none is that of the marker. -/
structure Consistent (P : Option Entry → Prop) : Prop where
  exists_entry : ∀ x, P x → ∃ e, x = some e ∧ e.name ≠ epsilonText
  eq_of_name : ∀ e e', P (some e) → P (some e') → e.name = e'.name → e = e'

theorem Consistent.mono {P Q : Option Entry → Prop} (h : Consistent Q) (hPQ : ∀ x, P x → Q x) :
    Consistent P where
  exists_entry x hx := h.exists_entry x (hPQ x hx)
  eq_of_name e e' he he' := h.eq_of_name e e' (hPQ _ he) (hPQ _ he')

/-- The names of a table are bound together. -/
theorem consistent_has {t : SymbolTable} (h : t.get? epsilonText = none) : Consistent t.Has where
  exists_entry := by
    rintro x ⟨s, e, rfl, hget, -⟩
    refine ⟨e, rfl, fun heq => ?_⟩
    rw [heq, h] at hget
    cases hget
  eq_of_name := by
    rintro ⟨name, kind⟩ ⟨name', kind'⟩ he he' heq
    obtain ⟨s, hs, hkind⟩ := SymbolTable.has_iff.1 he
    obtain ⟨s', hs', hkind'⟩ := SymbolTable.has_iff.1 he'
    cases heq
    cases hs.symm.trans hs'
    cases hkind.symm.trans hkind'
    rfl

namespace Vocabulary

variable {v u w : Vocabulary} {asked more : List (Option Entry)}

/-- The symbols in use are those of the table, and the marker has no symbol. -/
structure Sound (v : Vocabulary) : Prop where
  uses_iff : ∀ s, v.uses s = true ↔ v.table.contains s = true
  unreserved : v.table.get? epsilonText = none

theorem sound_empty : Sound {} where
  uses_iff s := by
    have hunused : ({} : Vocabulary).uses s = false := by cases s <;> rfl
    have hmissing : ({} : Vocabulary).table.contains s = false := rfl
    rw [hunused, hmissing]
  unreserved := rfl

theorem table_add (v : Vocabulary) (s : Symbol) : (v.add s).table = v.table := by cases s <;> rfl

/-- A symbol that is interned is in use from then on, and no other is new. -/
theorem uses_iff_of_intern {id : Nat} {t : SymbolTable}
    (hv : ∀ s, v.uses s = true ↔ v.table.contains s = true)
    (h : v.table.intern name kind = .ok (id, t)) (s : Symbol) :
    ({ v with table := t }.add (.ofKind kind id)).uses s = true ↔ t.contains s = true := by
  have houtcome := SymbolTable.outcome_answer v.table (.named kind name)
  rw [SymbolTable.answer_of_intern h] at houtcome
  rw [uses_add, houtcome.contains_iff, Except.ok.injEq, or_comm, eq_comm (a := s)]
  exact or_congr_left (hv s)

/-- The second vocabulary has what the first one has and what is asked for, and nothing else. -/
structure Takes (v u : Vocabulary) (asked : List (Option Entry)) : Prop where
  keeps : v.table.Extends u.table
  has_iff : ∀ x, u.table.Has x ↔ v.table.Has x ∨ x ∈ asked
  sound : v.Sound → u.Sound

namespace Takes

theorem refl (v : Vocabulary) : v.Takes v [] where
  keeps := .refl _
  has_iff _ := (or_iff_left List.not_mem_nil).symm
  sound := id

theorem append (h : v.Takes u asked) (h' : u.Takes w more) : v.Takes w (asked ++ more) where
  keeps := h.keeps.trans h'.keeps
  has_iff x := by rw [h'.has_iff, h.has_iff, List.mem_append, or_assoc]
  sound hv := h'.sound (h.sound hv)

theorem of_interned {id : Nat} {t : SymbolTable} (h : v.table.intern name kind = .ok (id, t)) :
    v.Takes ({ v with table := t }.add (.ofKind kind id)) [some ⟨name, kind⟩] := by
  have hinterned := SymbolTable.interned_of_intern h
  refine ⟨?_, fun x => ?_, fun hv => ⟨?_, ?_⟩⟩
  · rw [table_add]
    exact hinterned.keeps
  · rw [table_add, List.mem_singleton]
    have hhas := SymbolTable.has_iff_of_interned (x := x) hinterned
    rwa [Symbol.kind_ofKind] at hhas
  · rw [table_add]
    exact uses_iff_of_intern hv.uses_iff h
  · have houtcome := SymbolTable.outcome_answer v.table (.named kind name)
    rw [SymbolTable.answer_of_intern h] at houtcome
    rw [table_add, hinterned.get?_of_ne _ houtcome.names.1.symm]
    exact hv.unreserved

end Takes

section Asking

variable {ε α β : Type} {x : Except ε α} {f : α → Except ε β} {after : α → Vocabulary}
  {after' : β → Vocabulary} {P : α → Prop} {Q : β → Prop}

/-- The names in the vocabulary and those that are asked for. -/
def Wanted (v : Vocabulary) (asked : List (Option Entry)) (x : Option Entry) : Prop :=
  v.table.Has x ∨ x ∈ asked

/-- The computation binds the names that it asks for, or fails because they cannot be bound. -/
def Asks (v : Vocabulary) (asked : List (Option Entry)) (x : Except ε α) (after : α → Vocabulary)
    (P : α → Prop) : Prop :=
  EndsIn x (fun a => v.Takes (after a) asked ∧ P a) fun _ => ¬ Consistent (v.Wanted asked)

theorem wanted_append (h : v.Takes u asked) (x : Option Entry) :
    v.Wanted (asked ++ more) x ↔ u.Wanted more x := by
  rw [Wanted, Wanted, h.has_iff, List.mem_append, or_assoc]

namespace Asks

theorem ok {a : α} (hafter : after a = v) (hP : P a) :
    v.Asks [] (.ok a : Except ε α) after P := by
  refine EndsIn.ok ⟨?_, hP⟩
  rw [hafter]
  exact .refl v

/-- A name that is bound already may be asked for again. -/
theorem ok_of_has {a : α} {y : Option Entry} (hafter : after a = v) (hy : v.table.Has y)
    (hP : P a) : v.Asks [y] (.ok a : Except ε α) after P := by
  refine EndsIn.ok ⟨?_, hP⟩
  rw [hafter]
  refine ⟨.refl _, fun z => ?_, id⟩
  rw [List.mem_singleton]
  exact ⟨.inl, fun h => h.elim id fun heq => heq ▸ hy⟩

theorem bind (hx : v.Asks asked x after P)
    (hf : ∀ a, v.Takes (after a) asked → P a → (after a).Asks more (f a) after' Q) :
    v.Asks (asked ++ more) (x >>= f) after' Q := by
  have hmono : ∀ y, v.Wanted asked y → v.Wanted (asked ++ more) y :=
    fun y => Or.imp_right (List.mem_append_left more)
  have hx' : EndsIn x (fun a => v.Takes (after a) asked ∧ P a)
      fun _ => ¬ Consistent (v.Wanted (asked ++ more)) :=
    ⟨hx.of_ok, fun e he hall => hx.of_error e he (hall.mono hmono)⟩
  -- what cannot be bound after the first part cannot be bound from the start either
  refine EndsIn.bind hx' fun a _ ha => ?_
  obtain ⟨htakes, hP⟩ := ha
  have hrest := hf a htakes hP
  refine ⟨fun b hb => ?_, fun e he hall => ?_⟩
  · obtain ⟨htakes', hQ⟩ := hrest.of_ok b hb
    exact ⟨htakes.append htakes', hQ⟩
  · exact hrest.of_error e he (hall.mono fun y => (wanted_append htakes y).2)

/-- What follows binds nothing and does not fail. -/
theorem returns (hx : v.Asks asked x after P)
    (hf : ∀ a, v.Takes (after a) asked → P a → ∃ b, f a = .ok b ∧ after' b = after a ∧ Q b) :
    v.Asks asked (x >>= f) after' Q := by
  rw [← List.append_nil asked]
  refine hx.bind fun a htakes hP => ?_
  obtain ⟨b, hb, hafter, hQ⟩ := hf a htakes hP
  rw [hb]
  exact .ok hafter hQ

theorem map {k : α → β} (hx : v.Asks asked x after P) (hafter : ∀ a, after' (k a) = after a)
    (hQ : ∀ a, P a → Q (k a)) : v.Asks asked (x.map k) after' Q := by
  have hmap : x.map k = x >>= fun a => .ok (k a) := by cases x <;> rfl
  rw [hmap]
  exact hx.returns fun a _ hP => ⟨k a, rfl, hafter a, hQ a hP⟩

/-- What went wrong does not matter. -/
theorem mapError {ε' : Type} {k : ε → ε'} (hx : v.Asks asked x after P) :
    v.Asks asked (x.mapError k) after P := by
  cases x with
  | ok a => exact EndsIn.ok (hx.of_ok a rfl)
  | error e => exact ⟨by rintro a ⟨⟩, fun _ _ => hx.of_error e rfl⟩

/-- One element after the other, with an invariant of what is done. -/
theorem foldlM {σ γ : Type} {f : σ → γ → Except ε σ} {l : List γ} {after : σ → Vocabulary}
    {wish : γ → List (Option Entry)} {P : List γ → σ → Prop}
    (step : ∀ done c a, c ∈ l → P done a → (after a).Asks (wish c) (f a c) after (P (done ++ [c])))
    (done : List γ) {a : σ} (ha : P done a) :
    (after a).Asks (l.flatMap wish) (l.foldlM f a) after (P (done ++ l)) := by
  induction l generalizing done a with
  | nil =>
    rw [List.append_nil]
    exact .ok rfl ha
  | cons c l ih =>
    rw [List.foldlM_cons, List.flatMap_cons, ← List.singleton_append, ← List.append_assoc]
    refine (step done c a List.mem_cons_self ha).bind fun b _ hb => ?_
    exact ih (fun done d a hd => step done d a (List.mem_cons_of_mem c hd)) _ hb

/-- There is a result just if the names can be bound together. -/
theorem exists_iff (hv : v.Sound) (hx : v.Asks asked x after P) :
    (∃ a, x = .ok a) ↔ Consistent (v.Wanted asked) := by
  constructor
  · rintro ⟨a, ha⟩
    obtain ⟨htakes, -⟩ := hx.of_ok a ha
    exact (consistent_has (htakes.sound hv).unreserved).mono fun y hy => (htakes.has_iff y).2 hy
  · intro hall
    cases hcases : x with
    | ok a => exact ⟨a, rfl⟩
    | error e => exact absurd hall (hx.of_error e hcases)

end Asks

theorem asks_intern (v : Vocabulary) (name : String) (kind : Kind) :
    v.Asks [some ⟨name, kind⟩] (v.table.intern name kind)
      (fun p => { v with table := p.2 }.add (.ofKind kind p.1))
      (fun p => p.2.Means (some ⟨name, kind⟩) (.ofKind kind p.1)) := by
  constructor
  · rintro ⟨id, t⟩ h
    exact ⟨.of_interned h, _, rfl, (SymbolTable.interned_of_intern h).get?_self, Symbol.kind_ofKind ..⟩
  · intro e h hall
    have hself : v.Wanted [some ⟨name, kind⟩] (some ⟨name, kind⟩) := .inr (List.mem_singleton_self _)
    obtain ⟨_, ⟨⟩, hname⟩ := hall.exists_entry _ hself
    obtain ⟨id, t, hok⟩ := SymbolTable.exists_intern hname fun s hs => by
      have hbound : v.table.Has (some ⟨name, s.kind⟩) := SymbolTable.has_iff.2 ⟨s, hs, rfl⟩
      exact congrArg Entry.kind (hall.eq_of_name _ _ (.inl hbound) hself rfl)
    rw [hok] at h
    cases h

theorem asks_terminal (v : Vocabulary) (name : String) :
    v.Asks [some ⟨name, .terminal⟩] (v.terminal name) Prod.snd
      (fun p => p.2.table.Means (some ⟨name, .terminal⟩) (.terminal p.1)) := by
  have heq : v.terminal name = (v.table.intern name .terminal).map fun p =>
      (⟨p.1⟩, { v with table := p.2 }.add (.terminal ⟨p.1⟩)) := by
    rw [terminal, SymbolTable.terminal]
    cases v.table.intern name .terminal <;> rfl
  rw [heq]
  exact (asks_intern v name .terminal).map (fun p => rfl) fun p hp => hp

theorem asks_nonterminal (v : Vocabulary) (name : String) :
    v.Asks [some ⟨name, .nonterminal⟩] (v.nonterminal name) Prod.snd
      (fun p => p.2.table.Means (some ⟨name, .nonterminal⟩) (.nonterminal p.1)) := by
  have heq : v.nonterminal name = (v.table.intern name .nonterminal).map fun p =>
      (⟨p.1⟩, { v with table := p.2 }.add (.nonterminal ⟨p.1⟩)) := by
    rw [nonterminal, SymbolTable.nonterminal]
    cases v.table.intern name .nonterminal <;> rfl
  rw [heq]
  exact (asks_intern v name .nonterminal).map (fun p => rfl) fun p hp => hp

end Asking

end Vocabulary

end FormalLanguage
