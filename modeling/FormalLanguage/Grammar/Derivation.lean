import FormalLanguage.Grammar.Basic

/-!
Derivations: nonterminals of a form are replaced one at a time. Main statement: a form derives a
word just if the word is put together from words of the symbols of the form, in order.
-/
namespace FormalLanguage

/-- A word as a form, without nonterminals. -/
def Body.ofWord (w : Word) : Body := w.map .terminal

@[simp] theorem Body.ofWord_nil : Body.ofWord [] = [] := rfl

@[simp] theorem Body.ofWord_cons (a : Terminal) (w : Word) :
    Body.ofWord (a :: w) = .terminal a :: Body.ofWord w := rfl

@[simp] theorem Body.ofWord_append (u v : Word) :
    Body.ofWord (u ++ v) = Body.ofWord u ++ Body.ofWord v := List.map_append

namespace Grammar

/-- Replaces one occurrence of a left-hand side by its body. -/
inductive Step (g : Grammar) : Body → Body → Prop
  | replace {r : Rule} (h : r ∈ g.rules) (before after : Body) :
      Step g (before ++ .nonterminal r.lhs :: after) (before ++ r.body ++ after)

/-- Replaces any number of occurrences, one after the other. -/
inductive Derives (g : Grammar) : Body → Body → Prop
  | refl (form : Body) : Derives g form form
  | head {form next last : Body} (first : g.Step form next) (rest : Derives g next last) :
      Derives g form last

/-- The start symbol derives the word. -/
def Generates (g : Grammar) (w : Word) : Prop :=
  ∃ start, g.start = some start ∧ g.Derives [.nonterminal start] (.ofWord w)

/-- The words of the symbols of a form, in order, make up the word. -/
inductive Yields (g : Grammar) : Body → Word → Prop
  | nil : Yields g [] []
  | terminal (a : Terminal) {form : Body} {w : Word} (h : Yields g form w) :
      Yields g (.terminal a :: form) (a :: w)
  | nonterminal {r : Rule} {form : Body} {u v : Word} (hr : r ∈ g.rules) (hu : Yields g r.body u)
      (hv : Yields g form v) : Yields g (.nonterminal r.lhs :: form) (u ++ v)

variable {g : Grammar} {form next last before after : Body} {u v w : Word}

namespace Derives

theorem single (h : g.Step form next) : g.Derives form next := .head h (.refl next)

theorem trans (h : g.Derives form next) (h' : g.Derives next last) : g.Derives form last := by
  induction h with
  | refl => exact h'
  | head first _ ih => exact .head first (ih h')

theorem of_rule {r : Rule} (h : r ∈ g.rules) : g.Derives [.nonterminal r.lhs] r.body := by
  simpa using single (Step.replace h [] [])

end Derives

/-- A step goes on within a larger form. -/
theorem step_within (h : g.Step form next) (before after : Body) :
    g.Step (before ++ form ++ after) (before ++ next ++ after) := by
  cases h with
  | replace h b a => simpa using Step.replace h (before ++ b) (a ++ after)

/-- A derivation goes on within a larger form. -/
theorem derives_within (h : g.Derives form next) (before after : Body) :
    g.Derives (before ++ form ++ after) (before ++ next ++ after) := by
  induction h with
  | refl => exact .refl _
  | head first _ ih => exact .head (step_within first before after) ih

/-- Parts of a form are derived apart from each other. -/
theorem derives_append {form' next' : Body} (h : g.Derives form next) (h' : g.Derives form' next') :
    g.Derives (form ++ form') (next ++ next') := by
  have left := derives_within h [] form'
  have right := derives_within h' next []
  simp only [List.nil_append, List.append_nil] at left right
  exact left.trans right

theorem yields_ofWord (w : Word) : g.Yields (.ofWord w) w := by
  induction w with
  | nil => exact .nil
  | cons a w ih => exact .terminal a ih

theorem Yields.append (hu : g.Yields before u) (hv : g.Yields after v) :
    g.Yields (before ++ after) (u ++ v) := by
  induction hu with
  | nil => exact hv
  | terminal a _ ih => exact .terminal a ih
  | nonterminal hr hu _ _ ih =>
    rw [List.append_assoc]
    exact .nonterminal hr hu ih

/-- A word of two forms in a row is a word of the first followed by a word of the second. -/
theorem yields_append_iff :
    g.Yields (before ++ after) w ↔ ∃ u v, w = u ++ v ∧ g.Yields before u ∧ g.Yields after v := by
  constructor
  · intro h
    induction before generalizing w with
    | nil => exact ⟨[], w, rfl, .nil, h⟩
    | cons s before ih =>
      cases h with
      | terminal a h =>
        obtain ⟨u, v, rfl, hu, hv⟩ := ih h
        exact ⟨a :: u, v, rfl, .terminal a hu, hv⟩
      | nonterminal hr hx h =>
        obtain ⟨u, v, rfl, hu, hv⟩ := ih h
        exact ⟨_ ++ u, v, (List.append_assoc _ _ _).symm, .nonterminal hr hx hu, hv⟩
  · rintro ⟨u, v, rfl, hu, hv⟩
    exact hu.append hv

theorem yields_nonterminal_iff {n : NonTerminal} :
    g.Yields [.nonterminal n] w ↔ ∃ r ∈ g.rules, r.lhs = n ∧ g.Yields r.body w := by
  constructor
  · intro h
    cases h with
    | nonterminal hr hu hv =>
      cases hv
      exact ⟨_, hr, rfl, by simpa using hu⟩
  · rintro ⟨r, hr, rfl, h⟩
    simpa using Yields.nonterminal hr h .nil

/-- A form yields what it yields after a step. -/
theorem yields_of_step (h : g.Step form next) (hw : g.Yields next w) : g.Yields form w := by
  cases h with
  | replace hr before after =>
    obtain ⟨x, v, rfl, hx, hv⟩ := yields_append_iff.1 hw
    obtain ⟨u, y, rfl, hu, hy⟩ := yields_append_iff.1 hx
    rw [List.append_assoc]
    exact hu.append (.nonterminal hr hy hv)

theorem derives_of_yields (h : g.Yields form w) : g.Derives form (.ofWord w) := by
  induction h with
  | nil => exact .refl []
  | terminal a _ ih => exact derives_append (.refl [.terminal a]) ih
  | nonterminal hr _ _ ihu ihv =>
    rw [Body.ofWord_append]
    exact derives_append ((Derives.of_rule hr).trans ihu) ihv

/-- A form yields what it yields further on in a derivation. -/
theorem Derives.yields (h : g.Derives form next) (hw : g.Yields next w) : g.Yields form w := by
  induction h with
  | refl => exact hw
  | head first _ ih => exact yields_of_step first (ih hw)

theorem yields_of_derives (h : g.Derives form (.ofWord w)) : g.Yields form w :=
  h.yields (yields_ofWord w)

theorem derives_iff_yields : g.Derives form (.ofWord w) ↔ g.Yields form w :=
  ⟨yields_of_derives, derives_of_yields⟩

theorem generates_iff_yields :
    g.Generates w ↔ ∃ start, g.start = some start ∧ g.Yields [.nonterminal start] w := by
  simp only [Generates, derives_iff_yields]

theorem generates_iff_of_start {start : NonTerminal} (hstart : g.start = some start) :
    g.Generates w ↔ g.Yields [.nonterminal start] w := by
  rw [generates_iff_yields, hstart]
  simp

end Grammar

end FormalLanguage
