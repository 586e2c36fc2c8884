import Mathlib.Data.List.Chain
import FormalLanguage.Notation.Document
import FormalLanguage.Proofs.Outcome

/-!
The forms that a line may have: nothing, a directive, a rule, or a continuation of the rule above.
Main statement: a text has items just if its lines have these forms, in an order in which no
continuation stands alone, and then the items are what the lines say.
-/
namespace FormalLanguage.Notation

def Written.lexeme (w : Written) : Lexeme :=
  ⟨if w.quoted then .literal w.text else .word w.text, w.position⟩

def Sequence.lexemes (s : Sequence) : List Lexeme := s.symbols.map Written.lexeme

/-- The sequence has a first symbol and stands where this one does. -/
def Sequence.Proper (s : Sequence) : Prop := ∃ first others, s = .ofSymbols first others

/-- One or more sequences between bars. -/
inductive Barred : List Lexeme → List Sequence → Prop
  | last {s : Sequence} (hs : s.Proper) : Barred s.lexemes [s]
  | more {s : Sequence} (hs : s.Proper) (position : Position) {row : List Lexeme}
      {ss : List Sequence} (rest : Barred row ss) :
      Barred (s.lexemes ++ ⟨.bar, position⟩ :: row) (s :: ss)

/-- What a line says. -/
inductive Layout where
  | blank
  | directive (name : Named) (arguments : List Named)
  | rule (lhs : Sequence) (alternatives : List Sequence)
  | continuation (alternatives : List Sequence)
deriving DecidableEq

/-- The line says this. -/
inductive Line.HasForm : Line → Layout → Prop
  | blank (ending : Position) : HasForm (.lexemes [] ending) .blank
  | directive (name : Named) (arguments : List Named) (ending : Position) :
      HasForm (.directive name arguments ending) (.directive name arguments)
  | rule {lhs : Sequence} (hlhs : lhs.Proper) (arrow : Position) {row : List Lexeme}
      {ss : List Sequence} (rest : Barred row ss) (ending : Position) :
      HasForm (.lexemes (lhs.lexemes ++ ⟨.arrow, arrow⟩ :: row) ending) (.rule lhs ss)
  | continuation (bar : Position) {row : List Lexeme} {ss : List Sequence} (rest : Barred row ss)
      (ending : Position) : HasForm (.lexemes (⟨.bar, bar⟩ :: row) ending) (.continuation ss)

namespace Layout

def isContinuation : Layout → Bool
  | continuation _ => true
  | _ => false

/-- Whether a continuation may follow. -/
def isOpen : Layout → Bool
  | rule _ _ => true
  | continuation _ => true
  | _ => false

/-- A continuation stands directly below a rule or a continuation. -/
def Follows (above below : Layout) : Prop := below.isContinuation = true → above.isOpen = true

/-- Lines in this order, the first of them at the beginning of a text. -/
def InOrder (ys : List Layout) : Prop := (blank :: ys).IsChain Follows

/-- The alternatives of the continuations that come first. -/
def continued : List Layout → List Sequence
  | continuation ss :: ys => ss ++ continued ys
  | _ => []

/-- The directives and the rules in order, each rule with the continuations directly below it. -/
def items : List Layout → List Item
  | [] => []
  | blank :: ys => items ys
  | directive name arguments :: ys => .directive name arguments :: items ys
  | rule lhs ss :: ys => .rule ⟨lhs, ss ++ continued ys⟩ :: items ys
  | continuation _ :: ys => items ys

end Layout

variable {first w : Written} {others ws : List Written} {row : List Lexeme} {s : Sequence}
  {ss : List Sequence} {ending position : Position} {current : Option WrittenRule}
  {line : Line} {lines : List Line} {y : Layout} {ys : List Layout}

theorem lexeme_cases (x : Lexeme) :
    (∃ w : Written, x = w.lexeme) ∨ (∃ p, x = ⟨.bar, p⟩) ∨ ∃ p, x = ⟨.arrow, p⟩ := by
  obtain ⟨token, position⟩ := x
  cases token with
  | word text => exact .inl ⟨⟨text, false, position⟩, rfl⟩
  | literal text => exact .inl ⟨⟨text, true, position⟩, rfl⟩
  | bar => exact .inr (.inl ⟨position, rfl⟩)
  | arrow => exact .inr (.inr ⟨position, rfl⟩)

section Reading

theorem alternatives_symbol :
    alternatives ending (w.lexeme :: row) = moreSymbols ending w [] row := by
  obtain ⟨text, quoted, position⟩ := w
  cases quoted <;> simp [Written.lexeme, alternatives]

theorem moreSymbols_symbol : moreSymbols ending first others (w.lexeme :: row) =
    moreSymbols ending first (others ++ [w]) row := by
  obtain ⟨text, quoted, position⟩ := w
  cases quoted <;> simp [Written.lexeme, moreSymbols]

theorem ruleFrom_symbol :
    ruleFrom ending first others (w.lexeme :: row) = ruleFrom ending first (others ++ [w]) row := by
  obtain ⟨text, quoted, position⟩ := w
  cases quoted <;> simp [Written.lexeme, ruleFrom]

theorem itemsFrom_symbol : itemsFrom current (.lexemes (w.lexeme :: row) ending :: lines) =
    (do let rule ← ruleFrom ending w [] row
        let items ← itemsFrom (some rule) lines
        return current.toList.map .rule ++ items) := by
  obtain ⟨text, quoted, position⟩ := w
  cases quoted <;> simp [Written.lexeme, itemsFrom]

theorem moreSymbols_symbols : moreSymbols ending first others (ws.map Written.lexeme ++ row) =
    moreSymbols ending first (others ++ ws) row := by
  induction ws generalizing others with
  | nil => rw [List.append_nil]; rfl
  | cons w ws ih =>
    rw [List.map_cons, List.cons_append, moreSymbols_symbol, ih, List.append_assoc]
    rfl

theorem ruleFrom_symbols : ruleFrom ending first others (ws.map Written.lexeme ++ row) =
    ruleFrom ending first (others ++ ws) row := by
  induction ws generalizing others with
  | nil => rw [List.append_nil]; rfl
  | cons w ws ih =>
    rw [List.map_cons, List.cons_append, ruleFrom_symbol, ih, List.append_assoc]
    rfl

theorem lexemes_ofSymbols :
    (Sequence.ofSymbols first others).lexemes = first.lexeme :: others.map Written.lexeme := rfl

theorem alternatives_sequence :
    alternatives ending ((Sequence.ofSymbols first others).lexemes ++ row) =
      moreSymbols ending first others row := by
  rw [lexemes_ofSymbols, List.cons_append, alternatives_symbol, moreSymbols_symbols, List.nil_append]

end Reading

theorem alternatives_of_barred (h : Barred row ss) : alternatives ending row = .ok ss := by
  induction h with
  | last hs =>
    obtain ⟨first, others, rfl⟩ := hs
    have hread := @alternatives_sequence first others [] ending
    rw [List.append_nil] at hread
    rw [hread, moreSymbols]
  | more hs position rest ih =>
    obtain ⟨first, others, rfl⟩ := hs
    rw [alternatives_sequence, moreSymbols, ih]
    rfl

/-- What is read as alternatives, from the start or from within the first, is one or more of them. -/
theorem barred_of_reading (row : List Lexeme) :
    (∀ ss, alternatives ending row = .ok ss → Barred row ss) ∧
      ∀ first others ss, moreSymbols ending first others row = .ok ss →
        Barred ((Sequence.ofSymbols first others).lexemes ++ row) ss := by
  induction row with
  | nil =>
    constructor
    · intro ss h
      cases h
    · intro first others ss h
      cases h
      rw [List.append_nil]
      exact .last ⟨first, others, rfl⟩
  | cons x row ih =>
    rcases lexeme_cases x with ⟨w, rfl⟩ | ⟨p, rfl⟩ | ⟨p, rfl⟩
    · constructor
      · intro ss h
        rw [alternatives_symbol] at h
        exact ih.2 w [] ss h
      · intro first others ss h
        rw [moreSymbols_symbol] at h
        have hrest := ih.2 first (others ++ [w]) ss h
        rwa [lexemes_ofSymbols, List.map_append, ← List.cons_append, List.append_assoc] at hrest
    · constructor
      · intro ss h
        cases h
      · intro first others ss h
        rw [moreSymbols] at h
        obtain ⟨ss, hss, rfl⟩ := map_eq_ok_iff.1 h
        exact .more ⟨first, others, rfl⟩ p (ih.1 ss hss)
    · constructor
      · intro ss h
        cases h
      · intro first others ss h
        cases h

theorem alternatives_eq_ok_iff : alternatives ending row = .ok ss ↔ Barred row ss :=
  ⟨(barred_of_reading row).1 ss, alternatives_of_barred⟩

theorem ruleFrom_eq_ok_iff {r : WrittenRule} : ruleFrom ending first others row = .ok r ↔
    ∃ ws arrow rest ss, row = ws.map Written.lexeme ++ ⟨.arrow, arrow⟩ :: rest ∧ Barred rest ss ∧
      r = ⟨.ofSymbols first (others ++ ws), ss⟩ := by
  constructor
  · intro h
    induction row generalizing others with
    | nil => cases h
    | cons x row ih =>
      rcases lexeme_cases x with ⟨w, rfl⟩ | ⟨p, rfl⟩ | ⟨p, rfl⟩
      · rw [ruleFrom_symbol] at h
        obtain ⟨ws, arrow, rest, ss, rfl, hss, rfl⟩ := ih h
        exact ⟨w :: ws, arrow, rest, ss, rfl, hss, by rw [List.append_assoc]; rfl⟩
      · cases h
      · rw [ruleFrom] at h
        obtain ⟨ss, hss, rfl⟩ := map_eq_ok_iff.1 h
        exact ⟨[], p, row, ss, rfl, alternatives_eq_ok_iff.1 hss, by rw [List.append_nil]⟩
  · rintro ⟨ws, arrow, rest, ss, rfl, hss, rfl⟩
    rw [ruleFrom_symbols, ruleFrom, alternatives_of_barred hss]
    rfl

namespace Layout

/-- The rule that is still open below a line. -/
def next (current : Option WrittenRule) : Layout → Option WrittenRule
  | blank => none
  | directive _ _ => none
  | rule lhs ss => some ⟨lhs, ss⟩
  | continuation ss => current.map fun r => { r with alternatives := r.alternatives ++ ss }

/-- The items that a line completes. -/
def completed (current : Option WrittenRule) : Layout → List Item
  | blank => current.toList.map .rule
  | directive name arguments => current.toList.map .rule ++ [.directive name arguments]
  | rule _ _ => current.toList.map .rule
  | continuation _ => []

/-- The items of the lines below a rule that is still open, if there is one. -/
def itemsBelow (current : Option WrittenRule) (ys : List Layout) : List Item :=
  (current.map fun r => Item.rule { r with alternatives := r.alternatives ++ continued ys }).toList ++
    items ys

theorem itemsBelow_cons (h : y.isContinuation = true → current.isSome = true) :
    itemsBelow current (y :: ys) = y.completed current ++ itemsBelow (y.next current) ys := by
  cases current with
  | none =>
    cases y with
    | continuation ss => cases h rfl
    | blank | directive _ _ | rule _ _ => rfl
  | some r =>
    cases y <;> simp [itemsBelow, items, continued, completed, next]

theorem isOpen_eq_isSome_next (h : y.isContinuation = true → current.isSome = true) :
    y.isOpen = (y.next current).isSome := by
  cases y with
  | continuation ss => simpa [isOpen, next] using (h rfl).symm
  | blank | directive _ _ | rule _ _ => rfl

end Layout

section HasForm

theorem lexeme_injective {v : Written} (h : v.lexeme = w.lexeme) : v = w := by
  obtain ⟨text, quoted, position⟩ := v
  obtain ⟨text', quoted', position'⟩ := w
  cases quoted <;> cases quoted' <;> simp_all [Written.lexeme]

theorem lexeme_ne_arrow : w.lexeme ≠ ⟨.arrow, position⟩ := by
  obtain ⟨text, quoted, position⟩ := w
  cases quoted <;> simp [Written.lexeme]

theorem lexeme_ne_bar : w.lexeme ≠ ⟨.bar, position⟩ := by
  obtain ⟨text, quoted, position⟩ := w
  cases quoted <;> simp [Written.lexeme]

theorem hasForm_directive_iff {name : Named} {arguments : List Named} :
    (Line.directive name arguments ending).HasForm y ↔ y = .directive name arguments := by
  constructor
  · intro h
    cases h
    rfl
  · rintro rfl
    exact .directive name arguments ending

theorem hasForm_lexemes_iff : (Line.lexemes row ending).HasForm y ↔
    (row = [] ∧ y = .blank) ∨
    (∃ first others arrow rest ss,
      row = (Sequence.ofSymbols first others).lexemes ++ ⟨.arrow, arrow⟩ :: rest ∧
        Barred rest ss ∧ y = .rule (.ofSymbols first others) ss) ∨
    ∃ bar rest ss, row = ⟨.bar, bar⟩ :: rest ∧ Barred rest ss ∧ y = .continuation ss := by
  constructor
  · intro h
    generalize hline : Line.lexemes row ending = line at h
    cases h with
    | blank ending =>
      cases hline
      exact .inl ⟨rfl, rfl⟩
    | directive => cases hline
    | rule hlhs arrow rest ending =>
      obtain ⟨first, others, rfl⟩ := hlhs
      cases hline
      exact .inr (.inl ⟨first, others, arrow, _, _, rfl, rest, rfl⟩)
    | continuation bar rest ending =>
      cases hline
      exact .inr (.inr ⟨bar, _, _, rfl, rest, rfl⟩)
  · rintro (⟨rfl, rfl⟩ | ⟨first, others, arrow, rest, ss, rfl, hss, rfl⟩ |
      ⟨bar, rest, ss, rfl, hss, rfl⟩)
    · exact .blank ending
    · exact .rule ⟨first, others, rfl⟩ arrow hss ending
    · exact .continuation bar hss ending

theorem hasForm_nil_iff : (Line.lexemes [] ending).HasForm y ↔ y = .blank := by
  rw [hasForm_lexemes_iff]
  simp [lexemes_ofSymbols]

theorem hasForm_symbol_iff : (Line.lexemes (w.lexeme :: row) ending).HasForm y ↔
    ∃ r, ruleFrom ending w [] row = .ok r ∧ y = .rule r.lhs r.alternatives := by
  simp only [hasForm_lexemes_iff, ruleFrom_eq_ok_iff, List.nil_append]
  constructor
  · rintro (⟨h, -⟩ | ⟨first, others, arrow, rest, ss, h, hss, rfl⟩ | ⟨bar, rest, ss, h, -⟩)
    · cases h
    · rw [lexemes_ofSymbols, List.cons_append, List.cons.injEq] at h
      cases lexeme_injective h.1
      exact ⟨_, ⟨others, arrow, rest, ss, h.2, hss, rfl⟩, rfl⟩
    · exact absurd (List.cons.inj h).1 lexeme_ne_bar
  · rintro ⟨_, ⟨ws, arrow, rest, ss, rfl, hss, rfl⟩, rfl⟩
    exact .inr (.inl ⟨w, ws, arrow, rest, ss, rfl, hss, rfl⟩)

theorem hasForm_bar_iff : (Line.lexemes (⟨.bar, position⟩ :: row) ending).HasForm y ↔
    ∃ ss, alternatives ending row = .ok ss ∧ y = .continuation ss := by
  simp only [hasForm_lexemes_iff, alternatives_eq_ok_iff]
  constructor
  · rintro (⟨h, -⟩ | ⟨first, others, arrow, rest, ss, h, -⟩ | ⟨bar, rest, ss, h, hss, rfl⟩)
    · cases h
    · exact absurd (List.cons.inj h).1.symm lexeme_ne_bar
    · cases h
      exact ⟨ss, hss, rfl⟩
  · rintro ⟨ss, hss, rfl⟩
    exact .inr (.inr ⟨position, row, ss, rfl, hss, rfl⟩)

theorem not_hasForm_arrow : ¬(Line.lexemes (⟨.arrow, position⟩ :: row) ending).HasForm y := by
  rw [hasForm_lexemes_iff]
  rintro (⟨h, -⟩ | ⟨first, others, arrow, rest, ss, h, -⟩ | ⟨bar, rest, ss, h, -⟩)
  · cases h
  · exact absurd (List.cons.inj h).1.symm lexeme_ne_arrow
  · cases h

end HasForm

theorem row_cases (row : List Lexeme) : row = [] ∨ (∃ w rest, row = Written.lexeme w :: rest) ∨
    (∃ p rest, row = ⟨.bar, p⟩ :: rest) ∨ ∃ p rest, row = ⟨.arrow, p⟩ :: rest := by
  cases row with
  | nil => exact .inl rfl
  | cons x rest =>
    rcases lexeme_cases x with ⟨w, rfl⟩ | ⟨p, rfl⟩ | ⟨p, rfl⟩
    · exact .inr (.inl ⟨w, rest, rfl⟩)
    · exact .inr (.inr (.inl ⟨p, rest, rfl⟩))
    · exact .inr (.inr (.inr ⟨p, rest, rfl⟩))

theorem bind_return_eq_map {x : Except LoadError (List Item)} {f : List Item → List Item} :
    (do let items ← x; return f items) = x.map f := by
  cases x <;> rfl

/-- A line of some form is read to its end, and then the lines below it. -/
theorem itemsFrom_of_hasForm (h : line.HasForm y)
    (hcurrent : y.isContinuation = true → current.isSome = true) :
    itemsFrom current (line :: lines) =
      (itemsFrom (y.next current) lines).map (y.completed current ++ ·) := by
  cases line with
  | directive name arguments ending =>
    cases hasForm_directive_iff.1 h
    rw [itemsFrom, bind_return_eq_map]
    simp only [Layout.completed, List.append_assoc]
    rfl
  | lexemes row ending =>
    rcases row_cases row with rfl | ⟨w, rest, rfl⟩ | ⟨p, rest, rfl⟩ | ⟨p, rest, rfl⟩
    · cases hasForm_nil_iff.1 h
      rw [itemsFrom, bind_return_eq_map]
      rfl
    · obtain ⟨r, hr, rfl⟩ := hasForm_symbol_iff.1 h
      rw [itemsFrom_symbol, hr]
      exact bind_return_eq_map
    · obtain ⟨ss, hss, rfl⟩ := hasForm_bar_iff.1 h
      obtain ⟨r, rfl⟩ := Option.isSome_iff_exists.1 (hcurrent rfl)
      simp only [itemsFrom, hss, Layout.next, Layout.completed, Option.map_some]
      change itemsFrom _ lines = _
      cases itemsFrom _ lines <;> rfl
    · exact absurd h not_hasForm_arrow

/-- Only lines that have a form are read. -/
theorem exists_hasForm {items : List Item} (h : itemsFrom current (line :: lines) = .ok items) :
    ∃ y, line.HasForm y ∧ (y.isContinuation = true → current.isSome = true) := by
  cases line with
  | directive name arguments ending =>
    exact ⟨_, .directive name arguments ending, fun hy => by cases hy⟩
  | lexemes row ending =>
    rcases row_cases row with rfl | ⟨w, rest, rfl⟩ | ⟨p, rest, rfl⟩ | ⟨p, rest, rfl⟩
    · exact ⟨.blank, .blank ending, fun hy => by cases hy⟩
    · rw [itemsFrom_symbol, bind_eq_ok_iff] at h
      obtain ⟨r, hr, -⟩ := h
      exact ⟨_, hasForm_symbol_iff.2 ⟨r, hr, rfl⟩, fun hy => by cases hy⟩
    · cases current with
      | none => cases h
      | some r =>
        rw [itemsFrom, bind_eq_ok_iff] at h
        obtain ⟨ss, hss, -⟩ := h
        exact ⟨_, hasForm_bar_iff.2 ⟨ss, hss, rfl⟩, fun _ => rfl⟩
    · cases h

/-- The lines have the forms, in order below a line that is open if a rule is. -/
def ReadAs (above : Layout) (lines : List Line) (ys : List Layout) : Prop :=
  List.Forall₂ Line.HasForm lines ys ∧ (above :: ys).IsChain Layout.Follows

theorem itemsFrom_of_readAs {above : Layout} (habove : above.isOpen = current.isSome)
    (h : ReadAs above lines ys) : itemsFrom current lines = .ok (Layout.itemsBelow current ys) := by
  obtain ⟨hforms, hchain⟩ := h
  induction hforms generalizing above current with
  | nil => cases current <;> simp [itemsFrom, Layout.itemsBelow, Layout.items, Layout.continued]
  | @cons line y lines ys hform _ ih =>
    obtain ⟨hfollows, hbelow⟩ := List.isChain_cons_cons.1 hchain
    have hcurrent : y.isContinuation = true → current.isSome = true := habove ▸ hfollows
    rw [itemsFrom_of_hasForm hform hcurrent, ih (Layout.isOpen_eq_isSome_next hcurrent) hbelow,
      Layout.itemsBelow_cons hcurrent]
    rfl

theorem exists_readAs {items : List Item} {above : Layout} (habove : above.isOpen = current.isSome)
    (h : itemsFrom current lines = .ok items) : ∃ ys, ReadAs above lines ys := by
  induction lines generalizing above current items with
  | nil => exact ⟨[], .nil, .singleton above⟩
  | cons line lines ih =>
    obtain ⟨y, hform, hcurrent⟩ := exists_hasForm h
    rw [itemsFrom_of_hasForm hform hcurrent, map_eq_ok_iff] at h
    obtain ⟨rest, hrest, -⟩ := h
    obtain ⟨ys, hforms, hchain⟩ := ih (Layout.isOpen_eq_isSome_next hcurrent) hrest
    exact ⟨y :: ys, .cons hform hforms, .cons_cons (fun hy => habove.trans (hcurrent hy)) hchain⟩

/-- A text has items just if its lines have forms in order, and then it has the items of these. -/
theorem itemsFrom_eq_ok_iff {items : List Item} : itemsFrom none lines = .ok items ↔
    ∃ ys, List.Forall₂ Line.HasForm lines ys ∧ Layout.InOrder ys ∧ items = Layout.items ys := by
  have habove : Layout.blank.isOpen = (none : Option WrittenRule).isSome := rfl
  constructor
  · intro h
    obtain ⟨ys, hys⟩ := exists_readAs habove h
    rw [itemsFrom_of_readAs habove hys] at h
    exact ⟨ys, hys.1, hys.2, (Except.ok.inj h).symm⟩
  · rintro ⟨ys, hforms, horder, rfl⟩
    exact itemsFrom_of_readAs habove ⟨hforms, horder⟩

theorem Barred.ne_nil (h : Barred row ss) : ss ≠ [] := by
  cases h with
  | last | more => exact List.cons_ne_nil _ _

/-- A rule has alternatives. -/
theorem alternatives_ne_nil {items : List Item} (h : itemsFrom none lines = .ok items)
    {r : WrittenRule} (hr : .rule r ∈ items) : r.alternatives ≠ [] := by
  obtain ⟨ys, hforms, -, rfl⟩ := itemsFrom_eq_ok_iff.1 h
  clear h
  induction hforms with
  | nil => cases hr
  | cons hform _ ih =>
    cases hform with
    | blank | continuation => exact ih hr
    | directive =>
      rcases List.mem_cons.1 hr with hr | hr
      · cases hr
      · exact ih hr
    | rule hlhs arrow rest ending =>
      rcases List.mem_cons.1 hr with hr | hr
      · cases hr
        exact List.append_ne_nil_of_left_ne_nil rest.ne_nil _
      · exact ih hr

end FormalLanguage.Notation
