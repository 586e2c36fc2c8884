import Mathlib.Logic.Relation
import FormalLanguage.Proofs.Grammar.Substitution

/-!
Chains of bodies, and trim grammars, in which no symbol is useless. Main statements: chains lead to
the symbols of derived forms, and every rule of a trim grammar is applied in a derivation of a word.
-/
namespace FormalLanguage.Grammar

variable {g h : Grammar} {r : Rule} {x y : Symbol} {n : NonTerminal} {form next : Body}

/-- The second symbol stands in a body of the first one. -/
def Occurs (g : Grammar) (x y : Symbol) : Prop := ∃ r ∈ g.rules, x = .nonterminal r.lhs ∧ y ∈ r.body

/-- A chain of bodies, which may have no link, leads from the first symbol to the second one. -/
def Reaches (g : Grammar) : Symbol → Symbol → Prop := Relation.ReflTransGen g.Occurs

theorem reaches_body (hr : r ∈ g.rules) (hx : x ∈ r.body) : g.Reaches (.nonterminal r.lhs) x :=
  .single ⟨r, hr, rfl, hx⟩

theorem Reaches.mono (hr : ∀ r ∈ g.rules, r ∈ h.rules) (hxy : g.Reaches x y) : h.Reaches x y := by
  have hoccurs : g.Occurs ≤ h.Occurs := by
    rintro _ _ ⟨r, hmem, hlhs, hbody⟩
    exact ⟨r, hr r hmem, hlhs, hbody⟩
  exact Relation.ReflTransGen.mono hoccurs x y hxy

theorem exists_form_of_reaches (hxy : g.Reaches x y) : ∃ form, g.Derives [x] form ∧ y ∈ form := by
  induction hxy with
  | refl => exact ⟨[x], .refl [x], List.mem_singleton.2 rfl⟩
  | tail _ hyz ih =>
    obtain ⟨form, hderives, hy⟩ := ih
    obtain ⟨r, hr, rfl, hz⟩ := hyz
    obtain ⟨before, after, rfl⟩ := List.append_of_mem hy
    refine ⟨before ++ r.body ++ after, hderives.trans (.single (.replace hr before after)), ?_⟩
    exact List.mem_append_left after (List.mem_append_right before hz)

theorem exists_reaches_of_step (h : g.Step form next) (hy : y ∈ next) :
    ∃ x ∈ form, g.Reaches x y := by
  cases h with
  | @replace r hr before after =>
    simp only [List.mem_append] at hy
    rcases hy with (hy | hy) | hy
    · exact ⟨y, by simp [hy], .refl⟩
    · exact ⟨.nonterminal r.lhs, by simp, reaches_body hr hy⟩
    · exact ⟨y, by simp [hy], .refl⟩

theorem exists_reaches_of_derives (h : g.Derives form next) (hy : y ∈ next) :
    ∃ x ∈ form, g.Reaches x y := by
  induction h with
  | refl form => exact ⟨y, hy, .refl⟩
  | head first _ ih =>
    obtain ⟨z, hz, hzy⟩ := ih hy
    obtain ⟨x, hx, hxz⟩ := exists_reaches_of_step first hz
    exact ⟨x, hx, hxz.trans hzy⟩

/-- Chains of bodies lead to the symbols of the forms that are derived. -/
theorem reaches_iff_exists_form : g.Reaches x y ↔ ∃ form, g.Derives [x] form ∧ y ∈ form := by
  refine ⟨exists_form_of_reaches, ?_⟩
  rintro ⟨form, hderives, hy⟩
  obtain ⟨z, hz, hzy⟩ := exists_reaches_of_derives hderives hy
  rwa [List.mem_singleton.1 hz] at hzy

/-- Every nonterminal in use is reached from the start symbol, and all bodies are productive. -/
structure Trim (g : Grammar) : Prop where
  reached : ∀ n ∈ g.nonterminals,
    ∃ start, g.start = some start ∧ g.Reaches (.nonterminal start) (.nonterminal n)
  productive : ∀ r ∈ g.rules, ∀ s ∈ r.body, ∃ w, g.Yields [s] w

/-- The rule is applied in a derivation of a word from the start symbol. -/
def TakesPart (g : Grammar) (r : Rule) : Prop :=
  ∃ start before after w, g.start = some start ∧
    g.Derives [.nonterminal start] (before ++ .nonterminal r.lhs :: after) ∧
    g.Derives (before ++ r.body ++ after) (.ofWord w)

theorem TakesPart.exists_generates (hr : r ∈ g.rules) (hpart : g.TakesPart r) :
    ∃ w, g.Generates w := by
  obtain ⟨start, before, after, w, hstart, hlhs, hbody⟩ := hpart
  exact ⟨w, start, hstart, hlhs.trans (.head (.replace hr before after) hbody)⟩

namespace Trim

/-- What is reached stands in a derived form, beside symbols that derive words. -/
theorem exists_form (ht : g.Trim) (hxy : g.Reaches x y) :
    ∃ before after, g.Derives [x] (before ++ y :: after) ∧
      ∀ s ∈ before ++ after, ∃ w, g.Yields [s] w := by
  induction hxy with
  | refl => exact ⟨[], [], .refl [x], by simp⟩
  | tail _ hyz ih =>
    obtain ⟨before, after, hderives, hbeside⟩ := ih
    obtain ⟨r, hr, rfl, hz⟩ := hyz
    obtain ⟨left, right, hbody⟩ := List.append_of_mem hz
    have hstep := Derives.single (Step.replace hr before after)
    refine ⟨before ++ left, right ++ after, hderives.trans (by simpa [hbody] using hstep), ?_⟩
    have hinner := ht.productive r hr
    intro s hs
    simp only [List.mem_append] at hs hbeside
    rcases hs with (hs | hs) | hs | hs
    · exact hbeside s (.inl hs)
    · exact hinner s (by simp [hbody, hs])
    · exact hinner s (by simp [hbody, hs])
    · exact hbeside s (.inr hs)

/-- Only the start symbol may derive no word. -/
theorem exists_yields_nonterminal (ht : g.Trim) (hn : n ∈ g.nonterminals)
    (hne : g.start ≠ some n) : ∃ w, g.Yields [.nonterminal n] w := by
  obtain ⟨start, hstart, hreach⟩ := ht.reached n hn
  rcases Relation.ReflTransGen.cases_tail hreach with heq | ⟨_, -, r, hr, -, hbody⟩
  · cases heq
    exact absurd hstart hne
  · exact ht.productive r hr _ hbody

theorem takesPart (ht : g.Trim) (hr : r ∈ g.rules) (hlhs : r.lhs ∈ g.nonterminals) :
    g.TakesPart r := by
  obtain ⟨start, hstart, hreach⟩ := ht.reached r.lhs hlhs
  obtain ⟨before, after, hderives, hbeside⟩ := ht.exists_form hreach
  obtain ⟨w, hw⟩ : ∃ w, g.Yields (before ++ r.body ++ after) w := by
    apply exists_yields
    intro s hs
    simp only [List.mem_append] at hs hbeside
    rcases hs with (hs | hs) | hs
    · exact hbeside s (.inl hs)
    · exact ht.productive r hr s hs
    · exact hbeside s (.inr hs)
  exact ⟨start, before, after, w, hstart, hderives, derives_of_yields hw⟩

end Trim

end FormalLanguage.Grammar
