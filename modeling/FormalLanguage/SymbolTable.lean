import FormalLanguage.Symbol
import FormalLanguage.NameSpace

/-! A table that gives every name one ID and one kind. Names are never released. -/
namespace FormalLanguage

inductive NameError where
  | namesExhausted (capacity : Nat)
  | kindMismatch (name : String) (bound : Kind)
  | reservedName
deriving DecidableEq

def NameError.message : NameError → String
  | .namesExhausted capacity => "exhausted all " ++ toString capacity ++ " fresh nonterminal names"
  | .kindMismatch name bound => "symbol `" ++ name ++ "` is already a " ++ bound.text
  | .reservedName => "`" ++ epsilonText ++ "` is reserved"

structure Entry where
  name : String
  kind : Kind
deriving DecidableEq

/-- Named symbols by ID, and the position reached in the sequence of fresh names. -/
structure SymbolTable where
  entries : List Entry
  nameSpace : NameSpace
  position : Nat
  nodup : (entries.map Entry.name).Nodup
  /-- Every name before the position is bound. -/
  passed : ∀ n < position, ∀ name, nameSpace.nth? n = some name → name ∈ entries.map Entry.name
deriving DecidableEq

namespace SymbolTable

/-- The table without symbols that draws fresh names from a name space. -/
def empty (nameSpace : NameSpace) : SymbolTable where
  entries := []
  nameSpace
  position := 0
  nodup := List.nodup_nil
  passed n h := absurd h (Nat.not_lt_zero n)

instance : Inhabited SymbolTable := ⟨empty {}⟩

variable (t : SymbolTable)

def names : List String := t.entries.map Entry.name

def size : Nat := t.entries.length

def symbol? (id : Nat) : Option Symbol := t.entries[id]?.map fun e => Symbol.ofKind e.kind id

/-- All symbols by ID. -/
def symbols : List Symbol := t.entries.mapIdx fun id e => Symbol.ofKind e.kind id

def id? (name : String) : Option Nat := t.entries.findIdx? fun e => e.name = name

/-- The symbol with this name. -/
def get? (name : String) : Option Symbol := (t.id? name).bind t.symbol?

/-- Whether the table gave out this ID with this kind. -/
def contains (s : Symbol) : Bool := t.entries[s.id]?.map Entry.kind = some s.kind

/-- The name of an ID, whatever the kind of the symbol. -/
def nameOf? (s : Symbol) : Option String := t.entries[s.id]?.map Entry.name

def markText? : Mark → Option String
  | .symbol s => t.nameOf? s
  | .epsilon => some epsilonText

/-- The name of a symbol of the table, or the text that shows a foreign one. -/
def describe (s : Symbol) : String :=
  if t.contains s then (t.nameOf? s).getD s.rawText else s.rawText

def describeTerminal (a : Terminal) : String :=
  if t.contains (.terminal a) then (t.nameOf? (.terminal a)).getD a.rawText else a.rawText

variable {t}

theorem symbol?_eq_some {id : Nat} (h : id < t.size) :
    t.symbol? id = some (Symbol.ofKind t.entries[id].kind id) := by
  simp [symbol?, List.getElem?_eq_getElem h]

theorem get?_eq_none_iff {name : String} : t.get? name = none ↔ name ∉ t.names := by
  unfold get? id?
  cases h : t.entries.findIdx? fun e => e.name = name with
  | none =>
    have := List.findIdx?_eq_none_iff.1 h
    simpa [names] using this
  | some id =>
    obtain ⟨hid, hname, -⟩ := List.findIdx?_eq_some_iff_getElem.1 h
    simp only [Option.bind_some, symbol?_eq_some hid, reduceCtorEq, false_iff, Classical.not_not]
    exact List.mem_map.2 ⟨t.entries[id], List.getElem_mem hid, by simpa using hname⟩

variable (t)

/-- Binds a free name to the next ID. -/
def push (name : String) (kind : Kind) (free : name ∉ t.names) : SymbolTable where
  entries := t.entries ++ [⟨name, kind⟩]
  nameSpace := t.nameSpace
  position := t.position
  nodup := by
    rw [List.map_append, List.nodup_append]
    refine ⟨t.nodup, by simp, fun a ha b hb hab => ?_⟩
    simp only [List.map_cons, List.map_nil, List.mem_singleton] at hb
    exact free (hb ▸ hab ▸ ha)
  passed n hn other ho := by
    rw [List.map_append]
    exact List.mem_append_left _ (t.passed n hn other ho)

/-- The symbol bound to a name, which is bound now if it was free. -/
def intern (name : String) (kind : Kind) : Except NameError (Nat × SymbolTable) :=
  if name = epsilonText then .error .reservedName
  else
    match h : t.get? name with
    | some s =>
      if s.kind = kind then .ok (s.id, t) else .error (.kindMismatch name s.kind)
    | none => .ok (t.size, t.push name kind (get?_eq_none_iff.1 h))

variable {t}

theorem contains_iff {s : Symbol} : t.contains s = true ↔ t.symbol? s.id = some s := by
  unfold contains symbol?
  cases h : t.entries[s.id]? with
  | none => simp
  | some e =>
    simp only [Option.map_some, decide_eq_true_eq, Option.some.injEq]
    constructor
    · intro hk
      rw [hk, Symbol.ofKind_kind_id]
    · intro hs
      rw [← hs, Symbol.kind_ofKind]

theorem id_of_symbol? {id : Nat} {s : Symbol} (h : t.symbol? id = some s) : s.id = id := by
  obtain ⟨e, -, rfl⟩ := Option.map_eq_some_iff.1 h
  exact Symbol.id_ofKind e.kind id

theorem contains_of_get? {name : String} {s : Symbol} (h : t.get? name = some s) :
    t.contains s = true := by
  obtain ⟨id, -, hs⟩ := Option.bind_eq_some_iff.1 h
  rw [contains_iff, id_of_symbol? hs, hs]

theorem contains_push {name : String} {kind : Kind} {free : name ∉ t.names} {s : Symbol}
    (h : t.contains s = true) : (t.push name kind free).contains s = true := by
  unfold contains push at *
  cases he : t.entries[s.id]? with
  | none => simp [he] at h
  | some e =>
    rw [List.getElem?_append_left (List.getElem?_eq_some_iff.1 he).1]
    exact h

theorem contains_push_self {name : String} {kind : Kind} {free : name ∉ t.names} :
    (t.push name kind free).contains (Symbol.ofKind kind t.size) = true := by
  simp [contains, push, size]

theorem contains_intern {name : String} {kind : Kind} {id : Nat} {u : SymbolTable}
    (h : t.intern name kind = .ok (id, u)) :
    u.contains (.ofKind kind id) = true ∧ ∀ s, t.contains s = true → u.contains s = true := by
  unfold intern at h
  split at h
  · cases h
  · split at h
    · next s hs =>
      split at h
      · next hk =>
        cases h
        subst hk
        exact ⟨by simpa using contains_of_get? hs, fun _ hx => hx⟩
      · cases h
    · cases h
      exact ⟨contains_push_self, fun _ => contains_push⟩

variable (t)

def terminal (name : String) : Except NameError (Terminal × SymbolTable) :=
  (t.intern name .terminal).map fun (id, t) => (⟨id⟩, t)

def nonterminal (name : String) : Except NameError (NonTerminal × SymbolTable) :=
  (t.intern name .nonterminal).map fun (id, t) => (⟨id⟩, t)

variable {t}

theorem intern_of_terminal {name : String} {a : Terminal} {u : SymbolTable}
    (h : t.terminal name = .ok (a, u)) : t.intern name .terminal = .ok (a.id, u) := by
  unfold terminal at h
  cases hi : t.intern name .terminal with
  | error e => simp [hi, Except.map] at h
  | ok p =>
    simp only [hi, Except.map, Except.ok.injEq, Prod.mk.injEq] at h
    obtain ⟨rfl, rfl⟩ := h
    rfl

theorem contains_of_terminal {name : String} {a : Terminal} {u : SymbolTable}
    (h : t.terminal name = .ok (a, u)) : u.contains (.terminal a) = true :=
  (contains_intern (intern_of_terminal h)).1

theorem contains_terminal {name : String} {a : Terminal} {u : SymbolTable}
    (h : t.terminal name = .ok (a, u)) {s : Symbol} (hs : t.contains s = true) :
    u.contains s = true :=
  (contains_intern (intern_of_terminal h)).2 s hs

variable (t)

/-- The first free name of the rest of the sequence, with its position. -/
def free? : Option (Nat × String) :=
  t.nameSpace.free? (· ∈ t.names) (t.nameSpace.capacity - t.position) t.position

variable {t}

theorem not_mem_of_free? {n : Nat} {name : String} (h : t.free? = some (n, name)) :
    name ∉ t.names := by
  simpa using (NameSpace.free?_eq_some h).2.2.1

theorem passed_of_free? {n : Nat} {name : String} (h : t.free? = some (n, name)) :
    ∀ k < n + 1, ∀ other, t.nameSpace.nth? k = some other → other ∈ t.names ∨ other = name := by
  intro k hk other ho
  obtain ⟨hn, hname, -, hbefore⟩ := NameSpace.free?_eq_some h
  by_cases hkn : k = n
  · subst hkn
    rw [hname] at ho
    cases ho
    exact .inr rfl
  · left
    by_cases hp : k < t.position
    · exact t.passed k hp other ho
    · simpa using hbefore k (by omega) (by omega) other ho

theorem passed_of_free?_eq_none (h : t.free? = none) :
    ∀ k < max t.position t.nameSpace.capacity, ∀ other, t.nameSpace.nth? k = some other →
      other ∈ t.names := by
  intro k hk other ho
  by_cases hp : k < t.position
  · exact t.passed k hp other ho
  · simpa using NameSpace.taken_of_free?_eq_none h (by omega) (by omega) ho

variable (t)

/-- Binds the first free name of the sequence; names that are taken are passed for good. -/
def fresh : Except NameError NonTerminal × SymbolTable :=
  match h : t.free? with
  | some (n, name) =>
    let pushed := t.push name .nonterminal (not_mem_of_free? h)
    (.ok ⟨t.size⟩, { pushed with
      position := n + 1
      passed := fun k hk other ho => by
        change other ∈ (t.entries ++ [Entry.mk name .nonterminal]).map Entry.name
        rw [List.map_append]
        exact List.mem_append.2 ((passed_of_free? h k hk other ho).imp id fun e => by simp [e]) })
  | none =>
    (.error (.namesExhausted t.nameSpace.capacity), { t with
      position := max t.position t.nameSpace.capacity
      passed := passed_of_free?_eq_none h })

end SymbolTable

end FormalLanguage
