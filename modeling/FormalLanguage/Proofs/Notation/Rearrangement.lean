import FormalLanguage.Proofs.Notation.LineKind
import FormalLanguage.Proofs.Notation.Texts

/-!
Texts with their lines in another order. Main statement: directives may stand anywhere in a text, and
lines without rules and directives may come and go, if each continuation still stands below its rule:
the grammar that is loaded is the same.
-/
namespace FormalLanguage.Notation

variable {l : List Char} {n : Nat} {y : Layout} {ys : List Layout}

section Orders

namespace Layout

/-- What a directive line declares. -/
def arguments? : Layout → Option (List Named)
  | directive _ arguments => some arguments
  | _ => none

theorem declared_items (name : String) (ys : List Layout) : declared name (items ys) =
    (ys.filter (·.directiveName? = some name.toList)).filterMap arguments? := by
  induction ys with
  | nil => rfl
  | cons y ys ih =>
    cases y with
    | blank => exact ih
    | rule lhs ss => exact ih
    | continuation ss => exact ih
    | directive n arguments =>
      by_cases hn : n.text = name.toList
      · simp_all [declared, items, Item.arguments?, directiveName?, arguments?]
      · simp_all [declared, items, Item.arguments?, directiveName?]

theorem known_items : (∀ item ∈ items ys, item.Known) ↔
    ∀ y ∈ ys, ∀ name, y.directiveName? = some name → name ∈ directiveNames := by
  induction ys with
  | nil => exact iff_of_true (List.forall_mem_nil _) (List.forall_mem_nil _)
  | cons y ys ih => cases y <;> simp_all [items, Item.Known, directiveName?]

/-- Below a line that is closed, no continuation comes before another rule. -/
theorem isContinuation_of_head {above : Layout} (habove : above.isOpen = false)
    (h : (above :: ys).IsChain Follows) : ∀ y ∈ (ys.filter isOpen).head?, y.isContinuation = false := by
  induction ys generalizing above with
  | nil => exact nofun
  | cons y ys ih =>
    obtain ⟨hfollows, hbelow⟩ := List.isChain_cons_cons.1 h
    by_cases hy : y.isOpen = true
    · rw [List.filter_cons_of_pos hy]
      rintro _ ⟨⟩
      rw [Follows, habove] at hfollows
      simpa using hfollows
    · rw [List.filter_cons_of_neg hy]
      exact ih (Bool.eq_false_iff.2 hy) hbelow

theorem continued_eq_nil (h : ∀ y ∈ ys.head?, y.isContinuation = false) : continued ys = [] := by
  cases ys with
  | nil => rfl
  | cons y ys =>
    cases y with
    | continuation ss => cases h _ rfl
    | blank | directive _ _ | rule _ _ => rfl

theorem continued_filter (h : ys.IsChain Follows) :
    continued (ys.filter isOpen) = continued ys := by
  induction ys with
  | nil => rfl
  | cons y ys ih =>
    cases y with
    | blank =>
      have hhead := isContinuation_of_head (rfl : blank.isOpen = false) h
      exact continued_eq_nil hhead
    | directive name arguments =>
      have hhead := isContinuation_of_head (rfl : (directive name arguments).isOpen = false) h
      exact continued_eq_nil hhead
    | rule lhs ss => rfl
    | continuation ss => exact congrArg (ss ++ ·) (ih h.tail)

/-- The rules of the lines do not depend on the lines between them. -/
theorem rules_filter (h : ys.IsChain Follows) :
    (items (ys.filter isOpen)).filterMap Item.rule? = (items ys).filterMap Item.rule? := by
  induction ys with
  | nil => rfl
  | cons y ys ih =>
    have hbelow : ys.IsChain Follows := h.tail
    have hrest := ih hbelow
    cases y with
    | blank => exact hrest
    | directive name arguments => exact hrest
    | continuation ss => exact hrest
    | rule lhs ss =>
      show _ :: (items (ys.filter isOpen)).filterMap Item.rule? =
        _ :: (items ys).filterMap Item.rule?
      rw [hrest, continued_filter hbelow]

end Layout

end Orders

section Lines

/-- The lines of a text, without blanks at their ends. -/
def trimmedLines (text : String) : List (List Char) :=
  (splitLines text.toList).map (List.rdropWhile isBlank)

/-- Directly above a line that starts with a bar there is a line of a rule. -/
abbrev BarsBelowRules (ls : List (List Char)) : Prop :=
  ls.IsChain fun above below => startsWithBar below = true → isRuleLine above = true

/--
Lines that are put elsewhere: those of rules have kept their order, and so have the directives of each
name, while empty lines may have come or gone. No directive and no empty line stands above a bar.
-/
structure Rearranged (ls ls' : List (List Char)) : Prop where
  rules : ls'.filter isRuleLine = ls.filter isRuleLine
  directives : ∀ name, ls'.filter (directiveName? · = some name) =
    ls.filter (directiveName? · = some name)
  bars : BarsBelowRules ls'

variable {ls ls' : List (List Char)} {lines : List Line}

/-- Only the names of directives that there are need be looked at. -/
theorem rearranged_iff : Rearranged ls ls' ↔ ls'.filter isRuleLine = ls.filter isRuleLine ∧
    (∀ name ∈ (ls ++ ls').filterMap directiveName?,
      ls'.filter (directiveName? · = some name) = ls.filter (directiveName? · = some name)) ∧
    BarsBelowRules ls' := by
  constructor
  · rintro ⟨hrules, hdirectives, hbars⟩
    exact ⟨hrules, fun name _ => hdirectives name, hbars⟩
  · rintro ⟨hrules, hdirectives, hbars⟩
    refine ⟨hrules, fun name => ?_, hbars⟩
    by_cases hname : name ∈ (ls ++ ls').filterMap directiveName?
    · exact hdirectives name hname
    · have hnone {l : List Char} (hl : l ∈ ls ++ ls') : ¬decide (directiveName? l = some name) = true :=
        fun h => hname (List.mem_filterMap.2 ⟨l, hl, of_decide_eq_true h⟩)
      rw [List.filter_eq_nil_iff.2 fun l hl => hnone (List.mem_append_right ls hl),
        List.filter_eq_nil_iff.2 fun l hl => hnone (List.mem_append_left ls' hl)]

instance : Decidable (Rearranged ls ls') := decidable_of_iff' _ rearranged_iff

theorem readLines_eq_ok_iff : relocated .textStart (List.map (Line.relocate .textStart))
    (scanLines n ls) = .ok lines ↔ List.Forall₂ (fun l line => readLine l = .ok line) ls lines := by
  constructor
  · intro h
    induction ls generalizing n lines with
    | nil =>
      cases h
      exact .nil
    | cons l ls ih =>
      rw [scanLines_cons_relocate, ← readLine_eq, bind_eq_ok_iff] at h
      obtain ⟨line, hline, h⟩ := h
      obtain ⟨rest, hrest, h⟩ := bind_eq_ok_iff.1 h
      cases h
      exact .cons hline (ih hrest)
  · intro h
    induction h generalizing n with
    | nil => rfl
    | cons hline _ ih =>
      rw [scanLines_cons_relocate, ← readLine_eq, hline, ih]
      rfl

theorem forall₂_says_iff : List.Forall₂ Says ls ys ↔
    ∃ lines, List.Forall₂ (fun l line => readLine l = .ok line) ls lines ∧
      List.Forall₂ Line.HasForm lines ys := by
  constructor
  · intro h
    induction h with
    | nil => exact ⟨[], .nil, .nil⟩
    | cons hl _ ih =>
      obtain ⟨line, hline, hform⟩ := hl
      obtain ⟨lines, hlines, hforms⟩ := ih
      exact ⟨line :: lines, .cons hline hlines, .cons hform hforms⟩
  · rintro ⟨lines, hlines, hforms⟩
    induction hlines generalizing ys with
    | nil =>
      cases hforms
      exact .nil
    | cons hline _ ih =>
      cases hforms with
      | cons hform hforms => exact .cons ⟨_, hline, hform⟩ (ih hforms)

theorem says_rdropWhile : Says (l.rdropWhile isBlank) y ↔ Says l y := by
  rw [Says, Says, readLine_rdropWhile]

/-- The document of a text is that of what its lines say, in an order that layouts may have. -/
theorem parse_eq_ok_iff {text : String} {d : Document} :
    relocated .textStart (Document.relocate .textStart) (Document.parse text.toList) = .ok d ↔
      ∃ ys, List.Forall₂ Says (trimmedLines text) ys ∧ Layout.InOrder ys ∧
        (Layout.items ys).foldlM Document.addItem {} = .ok d := by
  have htrim {ys : List Layout} : List.Forall₂ Says (trimmedLines text) ys ↔
      List.Forall₂ Says (splitLines text.toList) ys := by
    rw [trimmedLines, List.forall₂_map_left_iff]
    simp only [says_rdropWhile]
  simp only [parse_relocate, lexLines, bind_eq_ok_iff, readLines_eq_ok_iff, itemsFrom_eq_ok_iff,
    htrim, forall₂_says_iff]
  constructor
  · rintro ⟨lines, hlines, items, ⟨ys, hforms, horder, rfl⟩, hd⟩
    exact ⟨ys, ⟨lines, hlines, hforms⟩, horder, hd⟩
  · rintro ⟨ys, ⟨lines, hlines, hforms⟩, horder, hd⟩
    exact ⟨lines, hlines, _, ⟨ys, hforms, horder, rfl⟩, hd⟩

theorem exists_forall₂_iff {α β : Type} {R : α → β → Prop} {xs : List α} :
    (∃ ys, List.Forall₂ R xs ys) ↔ ∀ x ∈ xs, ∃ y, R x y := by
  induction xs with
  | nil => exact iff_of_true ⟨[], .nil⟩ (List.forall_mem_nil _)
  | cons x xs ih =>
    rw [List.forall_mem_cons, ← ih]
    constructor
    · rintro ⟨_, hxs⟩
      cases hxs with
      | cons hx hxs => exact ⟨⟨_, hx⟩, _, hxs⟩
    · rintro ⟨⟨y, hy⟩, ys, hys⟩
      exact ⟨y :: ys, .cons hy hys⟩

theorem eq_of_forall₂_says {ys' : List Layout} (h : List.Forall₂ Says ls ys)
    (h' : List.Forall₂ Says ls ys') : ys = ys' := by
  have hunique : Relator.RightUnique Says := fun _ _ _ => Says.unique
  exact hunique.forall₂ h h'

theorem filter_isOpen (h : List.Forall₂ Says ls ys) :
    List.Forall₂ Says (ls.filter isRuleLine) (ys.filter Layout.isOpen) :=
  List.rel_filter (fun l y hl => by simp only [hl.kind.1]) h

theorem filter_directiveName? (name : List Char) (h : List.Forall₂ Says ls ys) :
    List.Forall₂ Says (ls.filter (directiveName? · = some name))
      (ys.filter (·.directiveName? = some name)) :=
  List.rel_filter (fun l y hl => by simp only [hl.kind.2.2]) h

theorem BarsBelowRules.isChain (hbars : BarsBelowRules ls) (h : List.Forall₂ Says ls ys) :
    ys.IsChain Layout.Follows := by
  induction h with
  | nil => exact .nil
  | cons hl hrest ih =>
    obtain ⟨hhead, htail⟩ := List.isChain_cons.1 hbars
    refine List.isChain_cons.2 ⟨?_, ih htail⟩
    cases hrest with
    | nil => exact nofun
    | cons hbelow _ =>
      rintro _ ⟨⟩ hy
      rw [← hl.kind.1]
      exact hhead _ rfl (hbelow.kind.2.1.trans hy)

/-- Every line that is rearranged says something, if all of them did before. -/
theorem Rearranged.exists_says (hr : Rearranged ls ls') (h : ∀ l ∈ ls, ∃ y, Says l y) :
    ∀ l ∈ ls', ∃ y, Says l y := by
  intro l hl
  cases hempty : isEmptyLine l with
  | true => exact ⟨.blank, says_blank hempty⟩
  | false =>
    cases hdirective : isDirective l with
    | true =>
      have hname : ∃ name, Notation.directiveName? l = some name := by
        rw [Notation.directiveName?, if_pos hdirective]
        exact ⟨_, rfl⟩
      obtain ⟨name, hname⟩ := hname
      have hmem : l ∈ ls'.filter (Notation.directiveName? · = some name) := by simp [hl, hname]
      rw [hr.directives name] at hmem
      exact h l (List.mem_of_mem_filter hmem)
    | false =>
      have hmem : l ∈ ls'.filter isRuleLine := by simp [isRuleLine, hl, hempty, hdirective]
      rw [hr.rules] at hmem
      exact h l (List.mem_of_mem_filter hmem)

/-- What the lines say is rearranged as well. -/
theorem Rearranged.exists_layouts (hr : Rearranged ls ls') (h : List.Forall₂ Says ls ys)
    (horder : Layout.InOrder ys) : ∃ ys', List.Forall₂ Says ls' ys' ∧ Layout.InOrder ys' ∧
      ys'.filter Layout.isOpen = ys.filter Layout.isOpen ∧
      ∀ name, ys'.filter (·.directiveName? = some name) = ys.filter (·.directiveName? = some name) := by
  obtain ⟨ys', h'⟩ := exists_forall₂_iff.2 (hr.exists_says (exists_forall₂_iff.1 ⟨ys, h⟩))
  have hrules := filter_isOpen h'
  rw [hr.rules] at hrules
  have hopen := eq_of_forall₂_says hrules (filter_isOpen h)
  refine ⟨ys', h', List.isChain_cons.2 ⟨?_, hr.bars.isChain h'⟩, hopen, fun name => ?_⟩
  · intro y hy hcontinuation
    obtain ⟨rest, rfl⟩ := List.head?_eq_some_iff.1 hy
    have hy : y.isOpen = true := by cases y <;> first | rfl | cases hcontinuation
    have hhead := Layout.isContinuation_of_head (rfl : Layout.blank.isOpen = false) horder y
    rw [← hopen, List.filter_cons_of_pos hy, hcontinuation] at hhead
    cases hhead rfl
  · have hdirectives := filter_directiveName? name h'
    rw [hr.directives name] at hdirectives
    exact eq_of_forall₂_says hdirectives (filter_directiveName? name h)

/-- A text that is rearranged has the same document, but for positions. -/
theorem parse_rearranged {text text' : String} {d : Document}
    (hr : Rearranged (trimmedLines text) (trimmedLines text'))
    (h : Document.parse text.toList = .ok d) :
    relocated .textStart (Document.relocate .textStart) (Document.parse text'.toList) =
      .ok (d.relocate .textStart) := by
  have hread : relocated .textStart (Document.relocate .textStart) (Document.parse text.toList) =
      .ok (d.relocate .textStart) := congrArg _ h
  obtain ⟨ys, hys, horder, hd⟩ := parse_eq_ok_iff.1 hread
  obtain ⟨hknown, hgathers⟩ := Document.foldlM_addItem_eq_ok_iff.1 hd
  obtain ⟨ys', hys', horder', hopen, hnames⟩ := hr.exists_layouts hys horder
  refine parse_eq_ok_iff.2 ⟨ys', hys', horder', Document.foldlM_addItem_eq_ok_iff.2 ⟨?_, ?_⟩⟩
  · rw [Layout.known_items] at hknown ⊢
    intro y hy name hname
    have hmem : y ∈ ys'.filter (·.directiveName? = some name) := by simp [hy, hname]
    rw [hnames name] at hmem
    exact hknown y (List.mem_of_mem_filter hmem) name hname
  · have hdeclared (name : String) :
        declared name (Layout.items ys') = declared name (Layout.items ys) := by
      rw [Layout.declared_items, Layout.declared_items, hnames]
    have hrules : (Layout.items ys').filterMap Item.rule? = (Layout.items ys).filterMap Item.rule? := by
      have hchain : ys.IsChain Layout.Follows := horder.tail
      have hchain' : ys'.IsChain Layout.Follows := horder'.tail
      rw [← Layout.rules_filter hchain, ← Layout.rules_filter hchain', hopen]
    exact ⟨by rw [hrules, hgathers.rules], by rw [hdeclared, hgathers.start],
      by rw [hdeclared, hgathers.nonterminals], by rw [hdeclared, hgathers.terminals]⟩

/--
A text that is loaded is loaded to the same grammar if its directives are moved, those of one name in
their order, and lines that have nothing in them, or a comment, are put in or left out, none of them
directly above a line that starts with a bar.
-/
theorem load_rearranged {text text' : String} {g : Grammar} (h : loadGrammar text = .ok g)
    (hr : Rearranged (trimmedLines text) (trimmedLines text')) : loadGrammar text' = .ok g := by
  rw [loadGrammar_eq, bind_eq_ok_iff] at h
  obtain ⟨d, hd, hg⟩ := h
  have hload : relocated .textStart id (loadGrammar text') = .ok g := by
    rw [loadGrammar_relocate rfl, parse_rearranged hr hd]
    exact (grammar_relocate rfl d).trans (congrArg _ hg)
  obtain ⟨_, hsame, rfl⟩ := relocated_eq_ok_iff.1 hload
  exact hsame

/-- Directives below the rules. -/
def directivesBelow : String :=
  "A -> a B\n| b # two\n%terminals a b\nB -> A\n%start B\n%terminals c\r"

/-- The same directives above the rules and between them, and empty lines. -/
def directivesAbove : String :=
  "# first\n%start B\r\n%terminals a b\n\nA -> a B\n| b # two\n%terminals c\n\nB -> A"

theorem load_directivesAbove : ∃ g, loadGrammar directivesBelow = .ok g ∧
    Rearranged (trimmedLines directivesBelow) (trimmedLines directivesAbove) ∧
    loadGrammar directivesAbove = .ok g := by
  obtain ⟨g, hg⟩ : ∃ g, loadGrammar directivesBelow = .ok g := exists_ok (by decide +kernel)
  have hr : Rearranged (trimmedLines directivesBelow) (trimmedLines directivesAbove) := by
    decide +kernel
  exact ⟨g, hg, hr, load_rearranged hg hr⟩

end Lines

end FormalLanguage.Notation
