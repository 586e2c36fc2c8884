import FormalLanguage.Grammar.Derivation

/-!
Words of one grammar that are words of another. Main statement: if every rule of the first grammar
is followed by the second one, with bodies put in for symbols, then so is every word.
-/
namespace FormalLanguage.Grammar

variable {g h : Grammar} {form before after : Body} {s : Symbol} {w : Word}

theorem yields_nil_iff : g.Yields [] w ↔ w = [] := by
  constructor
  · intro h
    cases h
    rfl
  · intro h
    subst w
    exact .nil

theorem yields_terminal_iff {a : Terminal} : g.Yields [.terminal a] w ↔ w = [a] := by
  constructor
  · intro h
    cases h with
    | terminal _ h =>
      cases h
      rfl
  · intro h
    subst w
    exact .terminal a .nil

theorem yields_cons_iff :
    g.Yields (s :: form) w ↔ ∃ u v, w = u ++ v ∧ g.Yields [s] u ∧ g.Yields form v :=
  @yields_append_iff g [s] form w

/-- A form yields the empty word just if each of its symbols does. -/
theorem yields_nil_word_iff : g.Yields form [] ↔ ∀ s ∈ form, g.Yields [s] [] := by
  induction form with
  | nil => simp [yields_nil_iff]
  | cons s form ih =>
    rw [yields_cons_iff, List.forall_mem_cons, ← ih]
    constructor
    · rintro ⟨u, v, huv, hu, hv⟩
      obtain ⟨rfl, rfl⟩ := List.append_eq_nil_iff.1 huv.symm
      exact ⟨hu, hv⟩
    · rintro ⟨hs, hform⟩
      exact ⟨[], [], rfl, hs, hform⟩

/-- Deriving the empty word takes a rule with an empty body. -/
theorem exists_empty_rule (h : g.Yields form w) (hw : w = []) (hform : form ≠ []) :
    ∃ r ∈ g.rules, r.body = [] := by
  induction h with
  | nil => exact absurd rfl hform
  | terminal => cases hw
  | @nonterminal r _ _ _ hr _ _ ihu _ =>
    by_cases hbody : r.body = []
    · exact ⟨r, hr, hbody⟩
    · exact ihu (List.append_eq_nil_iff.1 hw).1 hbody

/-- If every symbol of a form yields a word, the form does. -/
theorem exists_yields (hs : ∀ s ∈ form, ∃ u, g.Yields [s] u) : ∃ w, g.Yields form w := by
  induction form with
  | nil => exact ⟨[], .nil⟩
  | cons s form ih =>
    obtain ⟨u, hu⟩ := hs s List.mem_cons_self
    obtain ⟨v, hv⟩ := ih (fun x hx => hs x (List.mem_cons_of_mem s hx))
    exact ⟨u ++ v, yields_cons_iff.2 ⟨u, v, rfl, hu, hv⟩⟩

/-- Words are kept when bodies are put in for symbols, if they are kept for each rule. -/
theorem Yields.substitute {σ : Symbol → Body} (ht : ∀ a, σ (.terminal a) = [.terminal a])
    (hr : ∀ r ∈ g.rules, ∀ u, h.Yields (r.body.flatMap σ) u → h.Yields (σ (.nonterminal r.lhs)) u)
    (hw : g.Yields form w) : h.Yields (form.flatMap σ) w := by
  induction hw with
  | nil => exact .nil
  | terminal a _ ih =>
    rw [List.flatMap_cons, ht]
    exact .terminal a ih
  | nonterminal hmem _ _ ihu ihv =>
    rw [List.flatMap_cons]
    exact (hr _ hmem _ ihu).append ihv

/-- Words are kept if they are kept for each rule. -/
theorem Yields.of_rules
    (hr : ∀ r ∈ g.rules, ∀ u, h.Yields r.body u → h.Yields [.nonterminal r.lhs] u)
    (hw : g.Yields form w) : h.Yields form w := by
  have hsingle : ∀ f : Body, f.flatMap (fun s => [s]) = f := List.flatMap_singleton'
  have hsub := hw.substitute (σ := fun s => [s]) (fun _ => rfl)
    (fun r hmem u hu => hr r hmem u (hsingle r.body ▸ hu))
  rwa [hsingle] at hsub

theorem Yields.mono (hr : ∀ r ∈ g.rules, r ∈ h.rules) (hw : g.Yields form w) : h.Yields form w :=
  hw.of_rules fun r hmem _ hu => yields_nonterminal_iff.2 ⟨r, hr r hmem, rfl, hu⟩

/--
A word is kept by a grammar that has those rules of kept left-hand sides that yield words, if the
bodies of such rules have kept symbols only.
-/
theorem Yields.of_kept {P : Symbol → Prop}
    (hr : ∀ r ∈ g.rules, P (.nonterminal r.lhs) → ∀ u, g.Yields r.body u →
      r ∈ h.rules ∧ ∀ s ∈ r.body, P s)
    (hw : g.Yields form w) (hform : ∀ s ∈ form, P s) : h.Yields form w := by
  induction hw with
  | nil => exact .nil
  | terminal a _ ih => exact .terminal a (ih fun s hs => hform s (List.mem_cons_of_mem _ hs))
  | nonterminal hmem hu _ ihu ihv =>
    obtain ⟨hh, hbody⟩ := hr _ hmem (hform _ List.mem_cons_self) _ hu
    exact .nonterminal hh (ihu hbody) (ihv fun s hs => hform s (List.mem_cons_of_mem _ hs))

end FormalLanguage.Grammar
