import FormalLanguage.Proofs.Notation.LineForm
import FormalLanguage.Proofs.Notation.Scanning

/-!
What a text hands on, from its lines to its document. Main statement: the rules and directives of a
document are those of its items, and the names in it are those of the lines, none of them empty.
-/
namespace FormalLanguage.Notation

variable {c : Char} {cs : List Char} {line n col : Nat} {token : Token} {row : List Lexeme}
  {lines : List Line} {items : List Item} {d : Document}

/-- What a token spells, if it is no sign. -/
def Token.text? : Token → Option (List Char)
  | word text => some text
  | literal text => some text
  | arrow => none
  | bar => none

/-- The texts of a line in order, without the name of its directive. -/
def Line.texts : Line → List (List Char)
  | directive _ arguments _ => arguments.map Named.text
  | lexemes row _ => row.filterMap (·.token.text?)

def Sequence.texts (s : Sequence) : List (List Char) := s.symbols.map Written.text

def WrittenRule.texts (r : WrittenRule) : List (List Char) :=
  r.lhs.texts ++ r.alternatives.flatMap Sequence.texts

def Item.texts : Item → List (List Char)
  | rule r => r.texts
  | directive _ arguments => arguments.map Named.text

section Scanning

theorem text_ne_nil (h : opening c cs = .token token n) {text : List Char}
    (htext : token.text? = some text) : text ≠ [] := by
  obtain ⟨-, hs, -⟩ := spelled_of_opening h
  generalize c :: cs.take n = spelling at hs
  cases hs with
  | word hne | literal hne =>
    cases htext
    exact hne
  | arrow | bar => cases htext

theorem text_ne_nil_of_scan (h : scan line n col cs = .ok row) :
    ∀ x ∈ row, ∀ text, x.token.text? = some text → text ≠ [] := by
  -- `n` counts the characters that still belong to the lexeme before
  induction cs generalizing n col row with
  | nil =>
    have hrow : row = [] := by cases n <;> cases h <;> rfl
    exact hrow ▸ List.forall_mem_nil _
  | cons c cs ih =>
    cases n with
    | succ n => exact ih h
    | zero =>
      rw [scan] at h
      cases hopening : opening c cs with
      | blank =>
        rw [hopening] at h
        exact ih h
      | comment =>
        rw [hopening] at h
        cases h
        exact List.forall_mem_nil _
      | token token n =>
        rw [hopening] at h
        obtain ⟨row, hrow, rfl⟩ := map_eq_ok_iff.1 h
        rw [List.forall_mem_cons]
        exact ⟨fun text => text_ne_nil hopening, ih hrow⟩
      | problem reason =>
        rw [hopening] at h
        cases h

theorem text_ne_nil_of_scanWords : ∀ w ∈ scanWords line n col cs, w.text ≠ [] := by
  induction cs generalizing n col with
  | nil => cases n <;> exact List.forall_mem_nil _
  | cons c cs ih =>
    cases n with
    | succ n => exact ih
    | zero =>
      rw [scanWords]
      split_ifs
      · exact ih
      · exact List.forall_mem_nil _
      · rw [List.forall_mem_cons]
        exact ⟨List.cons_ne_nil _ _, ih⟩

theorem ne_nil_of_scanLine {text : List Char} {l : Line} (h : scanLine n text = .ok l) :
    ∀ t ∈ l.texts, t ≠ [] := by
  have hlexemes {ending : Position}
      (h : (Line.lexemes · ending) <$> scan n 0 1 text = .ok l) : ∀ t ∈ l.texts, t ≠ [] := by
    obtain ⟨row, hrow, rfl⟩ := map_eq_ok_iff.1 h
    intro t ht
    obtain ⟨x, hx, htext⟩ := List.mem_filterMap.1 ht
    exact text_ne_nil_of_scan hrow x hx t htext
  rw [scanLine] at h
  split at h
  · next name arguments _ hwords =>
    cases h
    have hall := @text_ne_nil_of_scanWords text n 0 1
    rw [hwords, List.forall_mem_cons] at hall
    exact List.forall_mem_map.2 hall.2
  · exact hlexemes h

/-- No name of a line is empty. -/
theorem ne_nil_of_scanLines {texts : List (List Char)} (h : scanLines n texts = .ok lines) :
    ∀ t ∈ lines.flatMap Line.texts, t ≠ [] := by
  induction texts generalizing n lines with
  | nil =>
    cases h
    exact List.forall_mem_nil _
  | cons text texts ih =>
    obtain ⟨first, hfirst, h⟩ := bind_eq_ok_iff.1 h
    obtain ⟨rest, hrest, h⟩ := bind_eq_ok_iff.1 h
    cases h
    rw [List.flatMap_cons, List.forall_mem_append]
    exact ⟨ne_nil_of_scanLine hfirst, ih hrest⟩

end Scanning

section Reading

variable {s : Sequence} {ss : List Sequence} {y : Layout} {l : Line} {current : Option WrittenRule}

/-- The texts of what a line says. -/
def Layout.texts : Layout → List (List Char)
  | blank => []
  | directive _ arguments => arguments.map Named.text
  | rule lhs ss => lhs.texts ++ ss.flatMap Sequence.texts
  | continuation ss => ss.flatMap Sequence.texts

/-- The texts of a rule that is still open, if there is one. -/
def openTexts (current : Option WrittenRule) : List (List Char) :=
  current.toList.flatMap WrittenRule.texts

theorem texts_lexemes (s : Sequence) : s.lexemes.filterMap (·.token.text?) = s.texts := by
  have hlexeme (w : Written) : w.lexeme.token.text? = some w.text := by
    obtain ⟨text, quoted, position⟩ := w
    cases quoted <;> rfl
  rw [Sequence.lexemes, List.filterMap_map, Sequence.texts, ← List.filterMap_eq_map]
  exact congrArg (List.filterMap · s.symbols) (funext hlexeme)

theorem texts_barred (h : Barred row ss) :
    row.filterMap (·.token.text?) = ss.flatMap Sequence.texts := by
  induction h with
  | last hs => rw [texts_lexemes, List.flatMap_singleton]
  | more hs position rest ih =>
    rw [List.filterMap_append, texts_lexemes, List.flatMap_cons, ← ih]
    rfl

theorem texts_of_hasForm (h : l.HasForm y) : l.texts = y.texts := by
  cases h with
  | blank | directive => rfl
  | rule hlhs arrow rest ending =>
    rw [Line.texts, List.filterMap_append, texts_lexemes, Layout.texts, ← texts_barred rest]
    rfl
  | continuation bar rest ending =>
    rw [Layout.texts, ← texts_barred rest]
    rfl

theorem texts_open (current : Option WrittenRule) :
    (current.toList.map Item.rule).flatMap Item.texts = openTexts current := by
  rw [List.flatMap_map]
  rfl

/-- A line adds its texts to those of the rule above it. -/
theorem texts_completed (h : y.isContinuation = true → current.isSome = true) :
    (y.completed current).flatMap Item.texts ++ openTexts (y.next current) =
      openTexts current ++ y.texts := by
  cases y with
  | blank =>
    rw [Layout.completed, texts_open]
    rfl
  | directive name arguments =>
    rw [Layout.completed, List.flatMap_append, texts_open, List.flatMap_singleton]
    exact List.append_nil _
  | rule lhs ss =>
    rw [Layout.completed, texts_open]
    exact congrArg _ (List.flatMap_singleton ..)
  | continuation ss =>
    obtain ⟨r, rfl⟩ := Option.isSome_iff_exists.1 (h rfl)
    simp [Layout.completed, Layout.next, openTexts, WrittenRule.texts, Layout.texts]

/-- The items have the texts of the lines, in the same order. -/
theorem texts_itemsFrom (h : itemsFrom current lines = .ok items) :
    items.flatMap Item.texts = openTexts current ++ lines.flatMap Line.texts := by
  induction lines generalizing current items with
  | nil =>
    cases h
    rw [List.flatMap_nil, List.append_nil, texts_open]
  | cons l lines ih =>
    obtain ⟨y, hform, hcurrent⟩ := exists_hasForm h
    rw [itemsFrom_of_hasForm hform hcurrent, map_eq_ok_iff] at h
    obtain ⟨rest, hrest, rfl⟩ := h
    rw [List.flatMap_append, ih hrest, ← List.append_assoc, texts_completed hcurrent,
      List.append_assoc, List.flatMap_cons, texts_of_hasForm hform]

end Reading

section Gathering

def Item.rule? : Item → Option WrittenRule
  | rule r => some r
  | directive _ _ => none

/-- The arguments of a directive with this name. -/
def Item.arguments? (directive : String) : Item → Option (List Named)
  | rule _ => none
  | .directive name arguments => if name.text = directive.toList then some arguments else none

/-- What the directives of this name declare, one after the other. -/
def declared (directive : String) (items : List Item) : List (List Named) :=
  items.filterMap (Item.arguments? directive)

/-- The document has the rules of the items in order, and what their directives declare. -/
structure Document.Gathers (items : List Item) (d : Document) : Prop where
  rules : d.rules = items.filterMap Item.rule?
  start : declared "%start" items = d.start.toList.map ([·])
  nonterminals : d.nonterminals = (declared "%nonterminals" items).flatten
  terminals : d.terminals = match declared "%terminals" items with
    | [] => none
    | names => some names.flatten

@[simp] theorem declared_rule (directive : String) (items : List Item) (r : WrittenRule) :
    declared directive (items ++ [.rule r]) = declared directive items := by
  rw [declared, List.filterMap_append]
  exact List.append_nil _

@[simp] theorem declared_directive (directive : String) (items : List Item) (name : Named)
    (arguments : List Named) : declared directive (items ++ [.directive name arguments]) =
      declared directive items ++ if name.text = directive.toList then [arguments] else [] := by
  rw [declared, List.filterMap_append, declared]
  by_cases h : name.text = directive.toList <;> simp [Item.arguments?, h]

/-- The names that directives may have. -/
def directiveNames : List (List Char) :=
  ["%start".toList, "%nonterminals".toList, "%terminals".toList]

/-- A rule, or a directive with one of these names. -/
def Item.Known : Item → Prop
  | rule _ => True
  | directive name _ => name.text ∈ directiveNames

namespace Document

/-- What adding an item comes to. -/
inductive Adds (d : Document) : Item → Document → Prop
  | rule (r : WrittenRule) : Adds d (.rule r) { d with rules := d.rules ++ [r] }
  | start {name : Named} (hname : name.text = "%start".toList) (start : Named)
      (hnone : d.start = none) : Adds d (.directive name [start]) { d with start := some start }
  | nonterminals {name : Named} (hname : name.text = "%nonterminals".toList)
      (arguments : List Named) : Adds d (.directive name arguments)
        { d with nonterminals := d.nonterminals ++ arguments }
  | terminals {name : Named} (hname : name.text = "%terminals".toList) (arguments : List Named) :
      Adds d (.directive name arguments)
        { d with terminals := some (d.terminals.getD [] ++ arguments) }

theorem adds_of_addItem {item : Item} {d' : Document} (h : d.addItem item = .ok d') :
    d.Adds item d' := by
  cases item with
  | rule r =>
    cases h
    exact .rule r
  | directive name arguments =>
    change d.addDirective name arguments = .ok d' at h
    unfold addDirective at h
    by_cases hstart : name.text = "%start".toList
    · rw [if_pos hstart] at h
      by_cases hset : d.start.isSome = true
      · rw [if_pos hset] at h
        cases h
      · rw [if_neg hset] at h
        match arguments with
        | [start] =>
          cases h
          exact .start hstart start (Option.not_isSome_iff_eq_none.1 hset)
        | [] | _ :: _ :: _ => cases h
    · rw [if_neg hstart] at h
      split_ifs at h with hnonterminals hterminals
      · cases h
        exact .nonterminals hnonterminals arguments
      · cases h
        exact .terminals hterminals arguments

theorem Gathers.terminals_getD (h : d.Gathers items) :
    d.terminals.getD [] = (declared "%terminals" items).flatten := by
  rw [h.terminals]
  cases declared "%terminals" items <;> rfl

/-- An item that is added leaves what the others say. -/
theorem Gathers.adds {item : Item} {d' : Document} (h : d.Gathers items) (hitem : d.Adds item d') :
    d'.Gathers (items ++ [item]) := by
  obtain ⟨hrules, hstart, hnonterminals, hterminals⟩ := h
  cases hitem with
  | rule r =>
    exact ⟨by simp [hrules, Item.rule?], by simp [hstart], by simp [hnonterminals],
      by simp [hterminals]⟩
  | start hname start hnone =>
    exact ⟨by simp [hrules, Item.rule?], by simp [hname, hstart, hnone],
      by simp [hname, hnonterminals], by simp [hname, hterminals]⟩
  | nonterminals hname arguments =>
    exact ⟨by simp [hrules, Item.rule?], by simp [hname, hstart], by simp [hname, hnonterminals],
      by simp [hname, hterminals]⟩
  | terminals hname arguments =>
    refine ⟨by simp [hrules, Item.rule?], by simp [hname, hstart], by simp [hname, hnonterminals], ?_⟩
    cases hdeclared : declared "%terminals" items with
    | nil => simp [hname, hterminals, hdeclared]
    | cons names more => simp [hname, hterminals, hdeclared]

theorem gathers_nil : Gathers [] {} := ⟨rfl, rfl, rfl, rfl⟩

theorem gathers_of_foldlM (h : items.foldlM addItem {} = .ok d) : d.Gathers items := by
  have step (done : List Item) (item : Item) (d d' : Document) (_ : item ∈ items)
      (hd : d.Gathers done) (h : d.addItem item = .ok d') : d'.Gathers (done ++ [item]) :=
    hd.adds (adds_of_addItem h)
  exact foldlM_invariant step gathers_nil h

theorem Adds.known {item : Item} {d' : Document} (h : d.Adds item d') : item.Known := by
  cases h with
  | rule r => trivial
  | start hname | nonterminals hname | terminals hname => simp [Item.Known, directiveNames, hname]

theorem known_of_foldlM {d' : Document} (h : items.foldlM addItem d = .ok d') :
    ∀ item ∈ items, item.Known := by
  induction items generalizing d with
  | nil => exact List.forall_mem_nil _
  | cons item items ih =>
    rw [List.foldlM_cons, bind_eq_ok_iff] at h
    obtain ⟨next, hnext, hrest⟩ := h
    exact List.forall_mem_cons.2 ⟨(adds_of_addItem hnext).known, ih hrest⟩

theorem Gathers.unique {d' : Document} (h : d.Gathers items) (h' : d'.Gathers items) : d = d' := by
  have hstart : d.start = d'.start := by
    have heq := h.start.symm.trans h'.start
    cases hd : d.start <;> cases hd' : d'.start <;> simp_all
  obtain ⟨rules, start, nonterminals, terminals⟩ := d
  obtain ⟨rules', start', nonterminals', terminals'⟩ := d'
  cases hstart
  cases h.rules.trans h'.rules.symm
  cases h.nonterminals.trans h'.nonterminals.symm
  cases h.terminals.trans h'.terminals.symm
  rfl

theorem addItem_of_adds {item : Item} {d' : Document} (h : d.Adds item d') :
    d.addItem item = .ok d' := by
  cases h with
  | rule r => rfl
  | @start name hname start hnone =>
    change d.addDirective name [start] = _
    unfold addDirective
    rw [if_pos hname, hnone]
    rfl
  | @nonterminals name hname arguments =>
    change d.addDirective name arguments = _
    unfold addDirective
    rw [if_neg (by rw [hname]; decide), if_pos hname]
  | @terminals name hname arguments =>
    change d.addDirective name arguments = _
    unfold addDirective
    rw [if_neg (by rw [hname]; decide), if_neg (by rw [hname]; decide), if_pos hname]

/-- Items are added one after the other, if at most one of them declares the start. -/
theorem exists_foldlM_addItem {start : Option Named} (hknown : ∀ item ∈ items, item.Known)
    (hstart : declared "%start" items = start.toList.map ([·]))
    (hfree : start.isSome = true → d.start = none) :
    ∃ d', items.foldlM addItem d = .ok d' := by
  induction items generalizing d start with
  | nil => exact ⟨d, rfl⟩
  | cons item items ih =>
    obtain ⟨hitem, hrest⟩ := List.forall_mem_cons.1 hknown
    suffices h : ∃ next, d.Adds item next ∧ ∃ start : Option Named,
        declared "%start" items = start.toList.map ([·]) ∧
          (start.isSome = true → next.start = none) by
      obtain ⟨next, hnext, start, hstart, hfree⟩ := h
      rw [List.foldlM_cons, addItem_of_adds hnext]
      exact ih hrest hstart hfree
    cases item with
    | rule r => exact ⟨_, .rule r, start, hstart, hfree⟩
    | directive name arguments =>
      simp only [Item.Known, directiveNames, List.mem_cons, List.not_mem_nil, or_false] at hitem
      rw [declared, List.filterMap_cons] at hstart
      rcases hitem with hname | hname | hname
      · simp only [Item.arguments?, if_pos hname] at hstart
        cases start with
        | none => cases hstart
        | some start =>
          obtain ⟨rfl, hnil⟩ := List.cons.inj hstart
          exact ⟨_, .start hname start (hfree rfl), none, hnil, nofun⟩
      · have hne : name.text ≠ "%start".toList := by rw [hname]; decide
        simp only [Item.arguments?, if_neg hne] at hstart
        exact ⟨_, .nonterminals hname arguments, start, hstart, hfree⟩
      · have hne : name.text ≠ "%start".toList := by rw [hname]; decide
        simp only [Item.arguments?, if_neg hne] at hstart
        exact ⟨_, .terminals hname arguments, start, hstart, hfree⟩

/-- Items make a document just if their directives have known names and it gathers what they say. -/
theorem foldlM_addItem_eq_ok_iff : items.foldlM addItem {} = .ok d ↔
    (∀ item ∈ items, item.Known) ∧ d.Gathers items := by
  constructor
  · intro h
    exact ⟨known_of_foldlM h, gathers_of_foldlM h⟩
  · rintro ⟨hknown, hgathers⟩
    obtain ⟨d', h⟩ := exists_foldlM_addItem (d := {}) hknown hgathers.start fun _ => rfl
    rw [h, (gathers_of_foldlM h).unique hgathers]

end Document

theorem mem_texts_of_declared {directive : String} {names : List Named} {named : Named}
    (h : names ∈ declared directive items) (hnamed : named ∈ names) :
    named.text ∈ items.flatMap Item.texts := by
  obtain ⟨item, hitem, harguments⟩ := List.mem_filterMap.1 h
  cases item with
  | rule r => cases harguments
  | directive name arguments =>
    obtain ⟨-, heq⟩ := Option.ite_none_right_eq_some.1 harguments
    cases heq
    exact List.mem_flatMap.2 ⟨_, hitem, List.mem_map_of_mem hnamed⟩

theorem mem_texts_of_rule {r : WrittenRule} (h : r ∈ items.filterMap Item.rule?) {t : List Char}
    (ht : t ∈ r.texts) : t ∈ items.flatMap Item.texts := by
  obtain ⟨item, hitem, hr⟩ := List.mem_filterMap.1 h
  cases item with
  | rule r =>
    cases hr
    exact List.mem_flatMap.2 ⟨_, hitem, ht⟩
  | directive name arguments => cases hr

/-- All texts of a document. -/
def Document.texts (d : Document) : List (List Char) :=
  d.rules.flatMap WrittenRule.texts ++
    (d.start.toList ++ d.nonterminals ++ d.terminals.getD []).map Named.text

/-- A document has no other texts than its items. -/
theorem Document.Gathers.texts_subset (h : d.Gathers items) : d.texts ⊆ items.flatMap Item.texts := by
  intro t ht
  rcases List.mem_append.1 ht with ht | ht
  · obtain ⟨r, hr, ht⟩ := List.mem_flatMap.1 ht
    exact mem_texts_of_rule (h.rules ▸ hr) ht
  · obtain ⟨named, hnamed, rfl⟩ := List.mem_map.1 ht
    rw [h.terminals_getD, h.nonterminals, List.mem_append, List.mem_append, List.mem_flatten,
      List.mem_flatten] at hnamed
    rcases hnamed with (hstart | ⟨names, hnames, hnamed⟩) | ⟨names, hnames, hnamed⟩
    · have hdeclared : [named] ∈ declared "%start" items := h.start ▸ List.mem_map_of_mem hstart
      exact mem_texts_of_declared hdeclared (List.mem_singleton_self named)
    · exact mem_texts_of_declared hnames hnamed
    · exact mem_texts_of_declared hnames hnamed

end Gathering

/-- The document of a text is what its items say, in names that are not empty. -/
theorem exists_gathers {text : List Char} (h : Document.parse text = .ok d) : ∃ lines items,
    lexLines text = .ok lines ∧ itemsFrom none lines = .ok items ∧ d.Gathers items ∧
      ∀ t ∈ d.texts, t ≠ [] := by
  obtain ⟨lines, hlines, h⟩ := bind_eq_ok_iff.1 h
  obtain ⟨items, hitems, h⟩ := bind_eq_ok_iff.1 h
  have hd := Document.gathers_of_foldlM h
  refine ⟨lines, items, hlines, hitems, hd, fun t ht => ne_nil_of_scanLines hlines t ?_⟩
  have hsame : items.flatMap Item.texts = lines.flatMap Line.texts := texts_itemsFrom hitems
  exact hsame ▸ hd.texts_subset ht

theorem alternatives_of_parse {text : List Char} {r : WrittenRule}
    (h : Document.parse text = .ok d) (hr : r ∈ d.rules) : r.alternatives ≠ [] := by
  obtain ⟨lines, items, -, hitems, hd, -⟩ := exists_gathers h
  rw [hd.rules] at hr
  obtain ⟨item, hitem, hrule⟩ := List.mem_filterMap.1 hr
  cases item with
  | rule r =>
    cases hrule
    exact alternatives_ne_nil hitems hitem
  | directive name arguments => cases hrule

end FormalLanguage.Notation
