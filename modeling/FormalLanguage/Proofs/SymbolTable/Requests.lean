import FormalLanguage.Proofs.History
import FormalLanguage.Proofs.SymbolTable

/-!
Requests to a table, one after the other. Main statement: whatever is asked, IDs, names and symbols
stay in step, what was given out never changes, and a refusal binds nothing.
-/
namespace FormalLanguage

namespace SymbolTable

variable {t u : SymbolTable} {s x : Symbol} {name : String} {kind : Kind}

/-- What may be asked of a table. -/
inductive Request where
  | named (kind : Kind) (name : String)
  | fresh
deriving DecidableEq

/-- The symbol of a kind with a name. -/
def ask (t : SymbolTable) (name : String) : Kind → Except NameError (Symbol × SymbolTable)
  | .terminal => (t.terminal name).map fun (a, u) => (.terminal a, u)
  | .nonterminal => (t.nonterminal name).map fun (n, u) => (.nonterminal n, u)

/-- The answer to a request, and the table after it. -/
def answer (t : SymbolTable) : Request → Except NameError Symbol × SymbolTable
  | .named kind name =>
    match t.ask name kind with
    | .ok (s, u) => (.ok s, u)
    | .error e => (.error e, t)
  | .fresh => (t.fresh.1.map .nonterminal, t.fresh.2)

def after (t : SymbolTable) (requests : List Request) : SymbolTable :=
  requests.foldl (fun t r => (t.answer r).2) t

/-- What a request comes to. -/
inductive Outcome (t : SymbolTable) : Request → Except NameError Symbol → SymbolTable → Prop
  | reserved (kind : Kind) :
      Outcome t (.named kind epsilonText) (.error .reservedName) t
  | known {name : String} {s : Symbol} (hname : name ≠ epsilonText) (h : t.get? name = some s) :
      Outcome t (.named s.kind name) (.ok s) t
  | mismatch {kind : Kind} {name : String} {s : Symbol} (hname : name ≠ epsilonText)
      (h : t.get? name = some s) (hkind : s.kind ≠ kind) :
      Outcome t (.named kind name) (.error (.kindMismatch name s.kind)) t
  | bound (kind : Kind) {name : String} (hname : name ≠ epsilonText) (free : name ∉ t.names) :
      Outcome t (.named kind name) (.ok (.ofKind kind t.size)) (t.push name kind free)
  | drawn {name : String} {u : SymbolTable} (free : name ∉ t.names)
      (h : u.entries = t.entries ++ [⟨name, .nonterminal⟩]) (hspace : u.nameSpace = t.nameSpace) :
      Outcome t .fresh (.ok (.nonterminal ⟨t.size⟩)) u
  | exhausted {u : SymbolTable} (h : u.entries = t.entries) (hspace : u.nameSpace = t.nameSpace) :
      Outcome t .fresh (.error (.namesExhausted t.nameSpace.capacity)) u

theorem ask_eq (t : SymbolTable) (name : String) (kind : Kind) :
    t.ask name kind = (t.intern name kind).map fun (id, u) => (.ofKind kind id, u) := by
  cases kind <;> simp only [ask, terminal, nonterminal] <;> cases t.intern name _ <;> rfl

theorem answer_of_intern {id : Nat} (h : t.intern name kind = .ok (id, u)) :
    t.answer (.named kind name) = (.ok (.ofKind kind id), u) := by
  rw [answer, ask_eq, h]
  rfl

theorem answer_of_intern_error {e : NameError} (h : t.intern name kind = .error e) :
    t.answer (.named kind name) = (.error e, t) := by
  rw [answer, ask_eq, h]
  rfl

theorem answer_reserved (t : SymbolTable) (kind : Kind) :
    t.answer (.named kind epsilonText) = (.error .reservedName, t) :=
  answer_of_intern_error (if_pos rfl)

/-- A name that is bound stands for its symbol, and for nothing of the other kind. -/
theorem answer_known (hname : name ≠ epsilonText) (h : t.get? name = some s) :
    t.answer (.named kind name) =
      (if s.kind = kind then .ok s else .error (.kindMismatch name s.kind), t) := by
  have hintern : t.intern name kind =
      if s.kind = kind then .ok (s.id, t) else .error (.kindMismatch name s.kind) := by
    rw [intern, if_neg hname]
    split
    · next x hx =>
      rw [h] at hx
      cases hx
      rfl
    · next hnone =>
      rw [h] at hnone
      cases hnone
  by_cases hkind : s.kind = kind
  · rw [if_pos hkind] at hintern ⊢
    rw [answer_of_intern hintern, ← hkind, Symbol.ofKind_kind_id]
  · rw [if_neg hkind] at hintern ⊢
    exact answer_of_intern_error hintern

/-- A name that is free is bound to the next ID. -/
theorem answer_free (hname : name ≠ epsilonText) (free : name ∉ t.names) :
    t.answer (.named kind name) = (.ok (.ofKind kind t.size), t.push name kind free) := by
  apply answer_of_intern
  rw [intern, if_neg hname]
  split
  · next x hx =>
    rw [get?_eq_none_iff.2 free] at hx
    cases hx
  · rfl

theorem outcome_named (t : SymbolTable) (kind : Kind) (name : String) :
    t.Outcome (.named kind name) (t.answer (.named kind name)).1 (t.answer (.named kind name)).2 := by
  by_cases hname : name = epsilonText
  · subst hname
    rw [answer_reserved]
    exact .reserved kind
  cases hget : t.get? name with
  | none =>
    have free := get?_eq_none_iff.1 hget
    rw [answer_free hname free]
    exact .bound kind hname free
  | some s =>
    rw [answer_known hname hget]
    by_cases hkind : s.kind = kind
    · subst hkind
      rw [if_pos rfl]
      exact .known hname hget
    · rw [if_neg hkind]
      exact .mismatch hname hget hkind

theorem outcome_fresh (t : SymbolTable) :
    t.Outcome .fresh (t.answer .fresh).1 (t.answer .fresh).2 := by
  rw [answer]
  obtain ⟨_, _, _, hfree, hfresh, hentries, hspace⟩ | ⟨_, -, hfresh, hentries, hspace⟩ :=
    fresh_cases t
  · rw [hfresh]
    exact .drawn (not_mem_of_free? hfree) hentries hspace
  · rw [hfresh]
    exact .exhausted hentries hspace

theorem outcome_answer (t : SymbolTable) (r : Request) :
    t.Outcome r (t.answer r).1 (t.answer r).2 := by
  cases r with
  | named kind name => exact outcome_named t kind name
  | fresh => exact outcome_fresh t

/-- A request leaves the symbols as they are, or appends the one that it gives. -/
theorem Outcome.entries {r : Request} {given : Except NameError Symbol} (h : t.Outcome r given u) :
    (u.entries = t.entries ∧ ∀ s, given = .ok s → t.contains s = true) ∨
      ∃ name kind, u.entries = t.entries ++ [⟨name, kind⟩] ∧ given = .ok (.ofKind kind t.size) := by
  cases h with
  | reserved kind | mismatch _ _ _ => exact .inl ⟨rfl, nofun⟩
  | known _ hs => exact .inl ⟨rfl, fun s h => Except.ok.inj h ▸ contains_of_get? hs⟩
  | bound kind _ _ => exact .inr ⟨_, kind, rfl, rfl⟩
  | drawn _ h _ => exact .inr ⟨_, .nonterminal, h, rfl⟩
  | exhausted h _ => exact .inl ⟨h, nofun⟩

/-- The table has the symbols that it had, and the one that it gave. -/
theorem Outcome.contains_iff {r : Request} {given : Except NameError Symbol}
    (h : t.Outcome r given u) : u.contains x = true ↔ t.contains x = true ∨ given = .ok x := by
  rcases h.entries with ⟨hsame, hold⟩ | ⟨name, kind, hnew, rfl⟩
  · rw [contains, hsame]
    exact ⟨.inl, fun hx => hx.elim id (hold x)⟩
  · rw [contains_append hnew, Except.ok.injEq, eq_comm (a := x)]

theorem Outcome.isPrefix {r : Request} {given : Except NameError Symbol}
    (h : t.Outcome r given u) : t.entries <+: u.entries := by
  rcases h.entries with ⟨hsame, -⟩ | ⟨name, kind, hnew, -⟩
  · exact ⟨[], (List.append_nil _).trans hsame.symm⟩
  · exact ⟨[⟨name, kind⟩], hnew.symm⟩

namespace Outcome

theorem given (h : t.Outcome (.named kind name) (.ok s) u) :
    s.kind = kind ∧ u.get? name = some s := by
  cases h with
  | known _ hget => exact ⟨rfl, hget⟩
  | bound _ _ _ => exact ⟨Symbol.kind_ofKind .., get?_push_self⟩

/-- A symbol that is given brings no other name than its own. -/
theorem names (h : t.Outcome (.named kind name) (.ok s) u) :
    name ≠ epsilonText ∧ ∀ other ∈ u.names, other ∈ t.names ∨ other = name := by
  cases h with
  | known hname _ => exact ⟨hname, fun other hother => .inl hother⟩
  | bound kind hname free =>
    refine ⟨hname, fun other hother => ?_⟩
    have hpush : (t.push name kind free).names = t.names ++ [name] := List.map_append
    rwa [hpush, List.mem_append, List.mem_singleton] at hother

theorem refused {e : NameError} (h : t.Outcome (.named kind name) (.error e) u) : u = t := by
  cases h with
  | reserved | mismatch => rfl

theorem exhausted_entries {e : NameError} (h : t.Outcome .fresh (.error e) u) :
    u.entries = t.entries ∧ u.nameSpace = t.nameSpace := by
  cases h with
  | exhausted h hspace => exact ⟨h, hspace⟩

end Outcome

section Runs

variable {requests more : List Request}

theorem after_append : t.after (requests ++ more) = (t.after requests).after more :=
  List.foldl_append

/-- Symbols are only ever appended. -/
theorem isPrefix_after (t : SymbolTable) (requests : List Request) :
    t.entries <+: (t.after requests).entries := by
  induction requests generalizing t with
  | nil => exact List.prefix_rfl
  | cons r requests ih => exact (outcome_answer t r).isPrefix.trans (ih (t.answer r).2)

/-- Some request of these was answered with the symbol. -/
def Given (t : SymbolTable) (requests : List Request) (s : Symbol) : Prop :=
  ∃ before r later, requests = before ++ r :: later ∧ ((t.after before).answer r).1 = .ok s

theorem given_concat {r : Request} : t.Given (requests ++ [r]) s ↔
    t.Given requests s ∨ ((t.after requests).answer r).1 = .ok s := happens_concat

/-- The symbols of a table are those that it had at first and those that it gave. -/
theorem contains_after_iff :
    (t.after requests).contains s = true ↔ t.contains s = true ∨ t.Given requests s := by
  induction requests using List.reverseRecOn with
  | nil => exact (or_iff_left not_happens_nil).symm
  | append_singleton requests r ih =>
    rw [given_concat, ← or_assoc, ← ih, after_append]
    exact (outcome_answer _ r).contains_iff

end Runs

/-- IDs count the symbols from zero, and names stand for one symbol each. -/
structure Coherent (t : SymbolTable) : Prop where
  ids : t.symbols.map Symbol.id = List.range t.size
  mem_symbols : ∀ s, s ∈ t.symbols ↔ t.contains s = true
  fits : t.size ≤ idLimit → ∀ s, t.contains s = true → idOfNat? s.id = some s.id
  named : ∀ s, t.contains s = true → ∃ name, t.nameOf? s = some name ∧ t.get? name = some s
  distinct : ∀ s x, t.contains s = true → t.contains x = true → t.nameOf? s = t.nameOf? x → s = x

theorem ids_symbols (t : SymbolTable) : t.symbols.map Symbol.id = List.range t.size := by
  apply List.ext_getElem
  · simp [symbols, size]
  · intro i _ _
    simp [symbols]

theorem mem_symbols_iff : s ∈ t.symbols ↔ t.contains s = true := by
  rw [symbols, List.mem_mapIdx, contains_iff, symbol?, Option.map_eq_some_iff]
  constructor
  · rintro ⟨i, hi, rfl⟩
    exact ⟨t.entries[i], by rw [Symbol.id_ofKind, List.getElem?_eq_getElem hi], by rw [Symbol.id_ofKind]⟩
  · rintro ⟨e, he, heq⟩
    obtain ⟨hlt, rfl⟩ := List.getElem?_eq_some_iff.1 he
    exact ⟨s.id, hlt, heq⟩

theorem idOfNat?_of_lt {n : Nat} (h : n < idLimit) : idOfNat? n = some n := by
  have hmod : n % UInt32.size = n := Nat.mod_eq_of_lt (Nat.lt_trans h (by decide))
  rw [idOfNat?, hmod, if_pos h]

theorem coherent (t : SymbolTable) : t.Coherent where
  ids := ids_symbols t
  mem_symbols _ := mem_symbols_iff
  fits hsize _ hs := idOfNat?_of_lt (Nat.lt_of_lt_of_le (lt_size_of_contains hs) hsize)
  named s hs := by
    obtain ⟨name, hname⟩ := exists_nameOf? hs
    exact ⟨name, hname, get?_eq_some_iff.2 ⟨hs, hname⟩⟩
  distinct s x hs hx heq := by
    obtain ⟨name, hname⟩ := exists_nameOf? hs
    exact eq_of_contains hs hx (id_eq_of_nameOf? hname (heq ▸ hname))

/-- Symbols that are appended to leave the others as they are. -/
theorem kept_of_isPrefix (h : t.entries <+: u.entries) (hs : t.contains s = true) :
    u.contains s = true ∧ u.nameOf? s = t.nameOf? s := by
  obtain ⟨later, hlater⟩ := h
  have hlt : s.id < t.entries.length := lt_size_of_contains hs
  have hentry : u.entries[s.id]? = t.entries[s.id]? := by
    rw [← hlater, List.getElem?_append_left hlt]
  exact ⟨by rwa [contains, hentry], by rw [nameOf?, hentry, nameOf?]⟩

end SymbolTable

end FormalLanguage
