import FormalLanguage.Proofs.Grammar.Closure
import FormalLanguage.Proofs.Grammar.Substitution
import FormalLanguage.Proofs.Grammar.WellFormed

/-!
Nullable and productive symbols. Main statement: the nullable symbols are exactly the nonterminals
that derive the empty word, and the productive ones the terminals and the nonterminals that derive
some word.
-/
namespace FormalLanguage

namespace Grammar

variable {g : Grammar} {s : SymbolSet} {form : Body} {w : Word} {x : Symbol} {id : Nat}

@[simp] theorem hasId_filled_false (size id : Nat) :
    (SymbolSet.filled size false).hasId id = false := by
  simp [SymbolSet.hasId, SymbolSet.filled]

theorem hasId_foldl_insertId {α : Type} {f : α → Nat} {p : α → Bool} {l : List α} {i : Nat} :
    (l.foldl (fun s a => if p a then s.insertId (f a) else s) s).hasId i = true ↔
      (∃ a ∈ l, p a = true ∧ f a = i) ∨ s.hasId i = true := by
  induction l generalizing s with
  | nil => simp
  | cons a l ih =>
    rw [List.foldl_cons, ih]
    by_cases ha : p a = true
    · simp only [ha, if_true, SymbolSet.hasId_insertId, List.mem_cons, exists_eq_or_imp]
      grind
    · simp [ha]

/-- The nulling symbols are those with an empty body. -/
theorem hasId_nullingSymbols {i : Nat} :
    g.nullingSymbols.hasId i = true ↔ ∃ r ∈ g.rules, r.body = [] ∧ r.lhs.id = i := by
  have h := hasId_foldl_insertId (s := .filled g.table.size false)
    (f := fun r : Rule => r.lhs.id) (p := fun r => r.body.isEmpty)
    (l := g.rules.toList) (i := i)
  unfold nullingSymbols markNulling
  simpa [OrderedSet.mem_toList] using h

theorem hasId_terminalSymbols {i : Nat} :
    g.terminalSymbols.hasId i = true ↔ ∃ a ∈ g.terminals, a.id = i := by
  have h := hasId_foldl_insertId (s := .filled g.table.size false) (f := Terminal.id)
    (p := fun _ => true) (l := g.terminals.toList) (i := i)
  unfold terminalSymbols
  simpa [OrderedSet.mem_toList] using h

theorem hasId_seed {id : Nat} :
    (g.terminalSymbols.union g.nullingSymbols).hasId id = true ↔
      (∃ a ∈ g.terminals, a.id = id) ∨ ∃ r ∈ g.rules, r.body = [] ∧ r.lhs.id = id := by
  rw [← hasId_terminalSymbols, ← hasId_nullingSymbols]
  simp [SymbolSet.hasId, SymbolSet.union]

theorem nullable_of_yields (h : g.Yields form w) (hw : w = []) :
    ∀ x ∈ form, g.nullableSymbols.has x = true := by
  induction h with
  | nil => intro x hx; cases hx
  | terminal => cases hw
  | @nonterminal r _ u v hr _ _ ihu ihv =>
    obtain ⟨rfl, rfl⟩ := List.append_eq_nil_iff.1 hw
    have hlhs : g.nullableSymbols.has (.nonterminal r.lhs) = true := by
      by_cases hbody : r.body = []
      · exact hasId_closure (hasId_nullingSymbols.2 ⟨r, hr, hbody, rfl⟩)
      · exact closed_closure g .all g.nullingSymbols r hr ⟨hbody, ihu rfl⟩
    intro x hx
    rcases List.mem_cons.1 hx with rfl | hx
    · exact hlhs
    · exact ihv rfl x hx

/--
What holds of the symbols of a set, and of a left-hand side if it holds of all symbols of a body,
holds of the symbols of the closure. Terminals and nonterminals in use have different IDs.
-/
theorem exists_of_closure (wf : g.WellFormed) {P : Symbol → Prop}
    (hrule : ∀ r ∈ g.rules, (∀ y ∈ r.body, P y) → P (.nonterminal r.lhs))
    (hs : ∀ id, s.hasId id = true → ∃ y, g.uses y = true ∧ y.id = id ∧ P y)
    (hid : (g.closure .all s).hasId id = true) : ∃ y, g.uses y = true ∧ y.id = id ∧ P y := by
  refine closure_le (C := fun id => ∃ y, g.uses y = true ∧ y.id = id ∧ P y) ?_ hs id hid
  intro r hr hbody
  refine ⟨.nonterminal r.lhs, wf.uses_lhs hr, rfl, hrule r hr fun y hy => ?_⟩
  obtain ⟨z, hz, hzid, hP⟩ := hbody.2 y hy
  rwa [← wf.eq_of_id hz (wf.uses_body hr hy) hzid]

theorem exists_of_nullable (wf : g.WellFormed) (hnull : g.nullableSymbols.hasId id = true) :
    ∃ y, g.uses y = true ∧ y.id = id ∧ g.Yields [y] [] := by
  refine exists_of_closure wf (fun r hr hbody => ?_) (fun id hid => ?_) hnull
  · exact yields_nonterminal_iff.2 ⟨r, hr, rfl, yields_nil_word_iff.2 hbody⟩
  · obtain ⟨r, hr, hbody, hlhs⟩ := hasId_nullingSymbols.1 hid
    exact ⟨_, wf.uses_lhs hr, hlhs, yields_nonterminal_iff.2 ⟨r, hr, rfl, hbody ▸ .nil⟩⟩

theorem yields_of_nullable (wf : g.WellFormed) (hx : g.uses x = true)
    (hnull : g.nullableSymbols.has x = true) : g.Yields [x] [] := by
  obtain ⟨y, hy, hid, hyields⟩ := exists_of_nullable wf hnull
  rwa [← wf.eq_of_id hy hx hid]

/-- A symbol in use is nullable just if it derives the empty word. -/
theorem nullable_iff (wf : g.WellFormed) (hx : g.uses x = true) :
    g.nullableSymbols.has x = true ↔ g.Yields [x] [] :=
  ⟨yields_of_nullable wf hx, fun h => nullable_of_yields h rfl x (List.mem_singleton.2 rfl)⟩

theorem productive_of_yields (wf : g.WellFormed) (h : g.Yields form w)
    (huse : ∀ x ∈ form, g.uses x = true) : ∀ x ∈ form, g.productiveSymbols.has x = true := by
  induction h with
  | nil => intro x hx; cases hx
  | terminal a _ ih =>
    rw [List.forall_mem_cons] at huse ⊢
    refine ⟨?_, ih huse.2⟩
    exact hasId_closure (hasId_seed.2 (.inl ⟨a, Vocabulary.uses_terminal.1 huse.1, rfl⟩))
  | @nonterminal r _ _ _ hr _ _ ihu ihv =>
    rw [List.forall_mem_cons] at huse ⊢
    refine ⟨?_, ihv huse.2⟩
    by_cases hbody : r.body = []
    · exact hasId_closure (hasId_seed.2 (.inr ⟨r, hr, hbody, rfl⟩))
    · exact closed_closure g .all _ r hr ⟨hbody, ihu fun x hx => wf.uses_body hr hx⟩

theorem exists_of_productive (wf : g.WellFormed) (hprod : g.productiveSymbols.hasId id = true) :
    ∃ y, g.uses y = true ∧ y.id = id ∧ ∃ w, g.Yields [y] w := by
  refine exists_of_closure wf (fun r hr hbody => ?_) (fun id hid => ?_) hprod
  · obtain ⟨w, hw⟩ := exists_yields hbody
    exact ⟨w, yields_nonterminal_iff.2 ⟨r, hr, rfl, hw⟩⟩
  · rcases hasId_seed.1 hid with ⟨a, ha, hid⟩ | ⟨r, hr, hbody, hid⟩
    · exact ⟨_, Vocabulary.uses_terminal.2 ha, hid, [a], yields_terminal_iff.2 rfl⟩
    · exact ⟨_, wf.uses_lhs hr, hid, [], yields_nonterminal_iff.2 ⟨r, hr, rfl, hbody ▸ .nil⟩⟩

theorem yields_of_productive (wf : g.WellFormed) (hx : g.uses x = true)
    (hprod : g.productiveSymbols.has x = true) : ∃ w, g.Yields [x] w := by
  obtain ⟨y, hy, hid, hyields⟩ := exists_of_productive wf hprod
  rwa [← wf.eq_of_id hy hx hid]

/-- A symbol in use is productive just if it derives a word. -/
theorem productive_iff (wf : g.WellFormed) (hx : g.uses x = true) :
    g.productiveSymbols.has x = true ↔ ∃ w, g.Yields [x] w := by
  refine ⟨yields_of_productive wf hx, ?_⟩
  rintro ⟨w, hw⟩
  exact productive_of_yields wf hw (by simpa using hx) x (List.mem_singleton.2 rfl)

/--
By their IDs the nullable symbols are exactly the nonterminals that derive the empty word, and the
productive ones exactly the terminals in use and the nonterminals that derive some word. A symbol in
use, whatever its kind, has no ID of theirs without being one of them.
-/
theorem nullable_productive_iff_derives (wf : g.WellFormed) :
    (∀ id, g.nullableSymbols.hasId id = true ↔
      ∃ n ∈ g.nonterminals, n.id = id ∧ g.Derives [.nonterminal n] []) ∧
    (∀ id, g.productiveSymbols.hasId id = true ↔ (∃ a ∈ g.terminals, a.id = id) ∨
      ∃ n ∈ g.nonterminals, n.id = id ∧ ∃ w, g.Derives [.nonterminal n] (.ofWord w)) ∧
    ∀ x, g.uses x = true →
      (g.nullableSymbols.has x = true ↔ g.Derives [x] []) ∧
      (g.productiveSymbols.has x = true ↔ ∃ w, g.Derives [x] (.ofWord w)) := by
  have hnil (x : Symbol) : g.Derives [x] [] ↔ g.Yields [x] [] := derives_iff_yields (w := [])
  simp only [hnil, derives_iff_yields]
  refine ⟨fun id => ⟨fun hnull => ?_, ?_⟩, fun id => ⟨fun hprod => ?_, ?_⟩, fun x hx =>
    ⟨nullable_iff wf hx, productive_iff wf hx⟩⟩
  · obtain ⟨y, hy, hid, hyields⟩ := exists_of_nullable wf hnull
    cases y with
    | terminal a => exact absurd (yields_terminal_iff.1 hyields) (List.cons_ne_nil a []).symm
    | nonterminal n => exact ⟨n, Vocabulary.uses_nonterminal.1 hy, hid, hyields⟩
  · rintro ⟨n, hn, rfl, hyields⟩
    exact (nullable_iff wf (Vocabulary.uses_nonterminal.2 hn)).2 hyields
  · obtain ⟨y, hy, hid, hyields⟩ := exists_of_productive wf hprod
    cases y with
    | terminal a => exact .inl ⟨a, Vocabulary.uses_terminal.1 hy, hid⟩
    | nonterminal n => exact .inr ⟨n, Vocabulary.uses_nonterminal.1 hy, hid, hyields⟩
  · rintro (⟨a, ha, rfl⟩ | ⟨n, hn, rfl, hyields⟩)
    · exact hasId_closure (hasId_seed.2 (.inl ⟨a, ha, rfl⟩))
    · exact (productive_iff wf (Vocabulary.uses_nonterminal.2 hn)).2 hyields

/-- `S` and `E` derive the empty word, one of them by way of the other, and `L` derives no word. -/
def lapsing : Grammar where
  table :=
    { entries := [⟨"S", .nonterminal⟩, ⟨"E", .nonterminal⟩, ⟨"L", .nonterminal⟩, ⟨"x", .terminal⟩,
        ⟨"y", .terminal⟩]
      nameSpace := {}
      position := 0
      nodup := by decide
      passed := fun _ h => absurd h (Nat.not_lt_zero _) }
  terminals := OrderedSet.ofList [⟨3⟩, ⟨4⟩]
  nonterminals := OrderedSet.ofList [⟨0⟩, ⟨1⟩, ⟨2⟩]
  rules := OrderedSet.ofList
    [⟨⟨0⟩, [.nonterminal ⟨1⟩, .nonterminal ⟨1⟩]⟩,
      ⟨⟨0⟩, [.terminal ⟨3⟩, .nonterminal ⟨2⟩]⟩,
      ⟨⟨1⟩, []⟩,
      ⟨⟨1⟩, [.terminal ⟨4⟩, .nonterminal ⟨1⟩]⟩,
      ⟨⟨2⟩, [.nonterminal ⟨2⟩, .terminal ⟨3⟩]⟩]
  start := some ⟨0⟩

theorem lapsing_derives : lapsing.WellFormed ∧
    lapsing.nullableSymbols.ids.toList = [0, 1] ∧ lapsing.Derives [.nonterminal ⟨0⟩] [] ∧
    lapsing.productiveSymbols.ids.toList = [0, 1, 3, 4] ∧
    ¬ ∃ w, lapsing.Derives [.nonterminal ⟨2⟩] (.ofWord w) := by
  have wf : lapsing.WellFormed := by decide +kernel
  obtain ⟨-, -, huse⟩ := nullable_productive_iff_derives wf
  refine ⟨wf, by decide +kernel, ?_, by decide +kernel, ?_⟩
  · exact (huse (.nonterminal ⟨0⟩) (by decide +kernel)).1.1 (by decide +kernel)
  · rw [← (huse (.nonterminal ⟨2⟩) (by decide +kernel)).2]
    decide +kernel

end Grammar

end FormalLanguage
