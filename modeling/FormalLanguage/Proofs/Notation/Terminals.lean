import FormalLanguage.Proofs.Notation.Loading

/-!
Which terminals a grammar is loaded with. Main statement: if its text declares terminals, they are the
declared ones and the literals of its rules, so that no unquoted name is another one.
-/
namespace FormalLanguage.Notation

variable {scope : Scope} {t : Sequence} {r : WrittenRule} {name : String} {names : List (List Char)}
  {d : Document} {items : List Item} {g : Grammar}

/-- A directive for terminals has the name. -/
def DeclaresTerminal (items : List Item) (name : String) : Prop :=
  ∃ names ∈ declared "%terminals" items, ∃ n ∈ names, n.name = name

/-- A literal of the sequence has the name. -/
def Sequence.Quotes (t : Sequence) (name : String) : Prop :=
  ∃ w ∈ t.symbols, w.quoted = true ∧ w.name = name

/-- A literal in an alternative of some rule has the name. -/
def QuotesTerminal (items : List Item) (name : String) : Prop :=
  ∃ r ∈ items.filterMap Item.rule?, ∃ t ∈ r.alternatives, t.Quotes name

section Wishes

/-- An unquoted name is a terminal only if that is declared. -/
theorem mem_of_wish (hterminals : scope.terminals = some names) {text : List Char}
    (h : scope.wish text = some ⟨name, .terminal⟩) : text ∈ names ∧ String.ofList text = name := by
  rw [Scope.wish, Scope.isTerminal, hterminals] at h
  split_ifs at h with hnonterminal hdeclared
  · cases h
  · cases h
    exact ⟨of_decide_eq_true hdeclared, rfl⟩

/-- The terminals of a sequence are its literals, and declared names. -/
theorem declared_or_quotes (hterminals : scope.terminals = some names)
    (h : some ⟨name, .terminal⟩ ∈ scope.wishes t) :
    (∃ text ∈ names, String.ofList text = name) ∨ t.Quotes name := by
  obtain ⟨w, hw, h⟩ := List.mem_flatMap.1 h
  rw [Scope.writtenWishes] at h
  split_ifs at h with hquoted
  · cases List.mem_singleton.1 h
    exact .inr ⟨w, hw, hquoted, rfl⟩
  · obtain ⟨text, -, hwish⟩ := List.mem_map.1 h
    obtain ⟨htext, hname⟩ := mem_of_wish hterminals hwish
    exact .inl ⟨text, htext, hname⟩

theorem mem_wishes_of_quotes (h : t.Quotes name) : some ⟨name, .terminal⟩ ∈ scope.wishes t := by
  obtain ⟨w, hw, hquoted, rfl⟩ := h
  refine List.mem_flatMap.2 ⟨w, hw, ?_⟩
  rw [Scope.writtenWishes, if_pos hquoted]
  exact List.mem_singleton_self _

/-- A left-hand side is no terminal. -/
theorem side_ne_terminal : r.side ≠ some ⟨name, .terminal⟩ := by
  intro h
  obtain ⟨text, -, hentry⟩ := Option.bind_eq_some_iff.1 h
  cases hentry

theorem startWish_ne_terminal :
    d.startWish (d.rules.head?.bind WrittenRule.side) ≠ some ⟨name, .terminal⟩ := by
  rw [Document.startWish]
  split
  · rintro ⟨⟩
  · intro h
    obtain ⟨r, -, hside⟩ := Option.bind_eq_some_iff.1 h
    exact side_ne_terminal hside

/-- The declared terminals, as the names in bodies are looked up among them. -/
theorem exists_terminals (hd : d.Gathers items) (hdeclared : declared "%terminals" items ≠ []) :
    ∃ names, (d.scope true).terminals = some names ∧
      ∀ name, (∃ text ∈ names, String.ofList text = name) ↔ DeclaresTerminal items name := by
  obtain ⟨first, more, hsome⟩ := List.exists_cons_of_ne_nil hdeclared
  refine ⟨(declared "%terminals" items).flatten.map Named.text, ?_, fun name => ?_⟩
  · rw [Document.scope, hd.terminals, hsome]
    rfl
  · constructor
    · rintro ⟨text, htext, rfl⟩
      obtain ⟨n, hn, rfl⟩ := List.mem_map.1 htext
      obtain ⟨names, hnames, hn⟩ := List.mem_flatten.1 hn
      exact ⟨names, hnames, n, hn, rfl⟩
    · rintro ⟨names, hnames, n, hn, rfl⟩
      exact ⟨n.text, List.mem_map_of_mem (List.mem_flatten_of_mem hnames hn), rfl⟩

/-- What a sequence of some rule asks for, the text does. -/
theorem mem_wishes_of_alternative {x : Option Entry} (hr : r ∈ d.rules) (ht : t ∈ r.alternatives)
    (hx : x ∈ (d.scope true).wishes t) : x ∈ d.wishes := by
  refine List.mem_append_right _ (List.mem_append_left _ (List.mem_flatMap.2 ⟨r, hr, ?_⟩))
  exact List.mem_cons_of_mem _ (List.mem_flatMap.2 ⟨t, ht, hx⟩)

/-- The terminals that a text asks for, if it declares some. -/
theorem mem_wishes_terminal_iff (hd : d.Gathers items) (hdeclared : declared "%terminals" items ≠ []) :
    some ⟨name, .terminal⟩ ∈ d.wishes ↔ DeclaresTerminal items name ∨ QuotesTerminal items name := by
  obtain ⟨names, hterminals, hnames⟩ := exists_terminals hd hdeclared
  constructor
  · intro h
    rw [Document.wishes, Document.declarations, if_pos rfl, hd.terminals_getD] at h
    simp only [List.mem_append, List.mem_singleton] at h
    rcases h with (h | h | h) | h | h
    · obtain ⟨n, -, hentry⟩ := List.mem_map.1 h
      cases hentry
    · obtain ⟨r, -, hside⟩ := List.mem_map.1 h
      exact absurd hside side_ne_terminal
    · obtain ⟨n, hn, hentry⟩ := List.mem_map.1 h
      obtain ⟨arguments, harguments, hn⟩ := List.mem_flatten.1 hn
      cases hentry
      exact .inl ⟨arguments, harguments, n, hn, rfl⟩
    · obtain ⟨r, hr, h⟩ := List.mem_flatMap.1 h
      rcases List.mem_cons.1 h with hside | h
      · exact absurd hside.symm side_ne_terminal
      · obtain ⟨t, ht, h⟩ := List.mem_flatMap.1 h
        refine (declared_or_quotes hterminals h).imp (hnames name).1 fun hquotes => ?_
        exact ⟨r, hd.rules ▸ hr, t, ht, hquotes⟩
    · exact absurd h.symm startWish_ne_terminal
  · rintro (⟨arguments, harguments, n, hn, rfl⟩ | ⟨r, hr, t, ht, hquotes⟩)
    · refine List.mem_append_left _ (List.mem_append_right _ (List.mem_append_right _ ?_))
      rw [hd.terminals_getD]
      exact List.mem_map.2 ⟨n, List.mem_flatten_of_mem harguments hn, rfl⟩
    · exact mem_wishes_of_alternative (hd.rules ▸ hr) ht (mem_wishes_of_quotes hquotes)

end Wishes

section Terminals

variable {text : String}

/-- The terminals in use are those that the text asks for. -/
theorem terminal_iff (htakes : Vocabulary.Takes {} g.toVocabulary d.wishes) :
    (∃ a, g.uses (.terminal a) = true ∧ g.table.nameOf? (.terminal a) = some name) ↔
      some ⟨name, .terminal⟩ ∈ d.wishes := by
  have hsound := htakes.sound Vocabulary.sound_empty
  rw [← has_iff_mem_wishes htakes, SymbolTable.has_iff]
  constructor
  · rintro ⟨a, huses, hname⟩
    exact ⟨_, SymbolTable.get?_eq_some_iff.2 ⟨(hsound.uses_iff _).1 huses, hname⟩, rfl⟩
  · rintro ⟨s, hget, hkind⟩
    obtain ⟨hcontains, hname⟩ := SymbolTable.get?_eq_some_iff.1 hget
    cases s with
    | terminal a => exact ⟨a, (hsound.uses_iff _).2 hcontains, hname⟩
    | nonterminal n => cases hkind

/-- An unquoted name in a body is that of a nonterminal, or it is declared. -/
theorem nonterminal_or_declared (htakes : Vocabulary.Takes {} g.toVocabulary d.wishes)
    (hterminals : (d.scope true).terminals = some names) (hr : r ∈ d.rules) (ht : t ∈ r.alternatives)
    {w : Written} (hw : w ∈ t.symbols) (hquoted : w.quoted = false) {part : List Char}
    (hpart : part ∈ (d.scope true).names (t.symbols.length ≤ 1) w.text) :
    (∃ n, g.table.get? (String.ofList part) = some (.nonterminal n)) ∨ part ∈ names := by
  have hwish : (d.scope true).wish part ∈ d.wishes := by
    refine mem_wishes_of_alternative hr ht (List.mem_flatMap.2 ⟨w, hw, ?_⟩)
    rw [Scope.writtenWishes, if_neg (Bool.eq_false_iff.1 hquoted)]
    exact List.mem_map_of_mem hpart
  obtain ⟨s, e, he, hget, hkind⟩ := (has_iff_mem_wishes htakes _).2 hwish
  rw [Scope.wish, Scope.isTerminal, hterminals] at he
  split_ifs at he with hnonterminal hdeclared
  · cases he
    cases s with
    | nonterminal n => exact .inl ⟨n, hget⟩
    | terminal a => cases hkind
  · exact .inr (of_decide_eq_true hdeclared)

/--
If a text declares terminals, the terminals of the grammar that it is loaded to are the declared ones
and the literals of its rules, which need not be declared. Every other name in a body is that of a
nonterminal.
-/
theorem terminals_of_loadGrammar (h : loadGrammar text = .ok g) :
    ∃ lines items, ∃ d : Document, lexLines text.toList = .ok lines ∧
      itemsFrom none lines = .ok items ∧ d.Gathers items ∧
      (declared "%terminals" items ≠ [] →
        (∀ a, g.uses (.terminal a) = true → ∃ name, g.table.nameOf? (.terminal a) = some name ∧
          (DeclaresTerminal items name ∨ QuotesTerminal items name)) ∧
        (∀ name, DeclaresTerminal items name ∨ QuotesTerminal items name →
          ∃ a, g.uses (.terminal a) = true ∧ g.table.nameOf? (.terminal a) = some name) ∧
        ∀ r ∈ d.rules, ∀ t ∈ r.alternatives, ∀ w ∈ t.symbols, w.quoted = false →
          ∀ part ∈ (d.scope true).names (t.symbols.length ≤ 1) w.text,
            (∃ n, g.table.get? (String.ofList part) = some (.nonterminal n)) ∨
              DeclaresTerminal items (String.ofList part)) := by
  obtain ⟨d, hparse, -⟩ := bind_eq_ok_iff.1 h
  obtain ⟨lines, items, hlines, hitems, hd, -⟩ := exists_gathers hparse
  obtain ⟨htakes, -⟩ := (asks_loadGrammar hparse).of_ok g h
  refine ⟨lines, items, d, hlines, hitems, hd, fun hdeclared => ⟨fun a ha => ?_, ?_, ?_⟩⟩
  · have hcontains := ((htakes.sound Vocabulary.sound_empty).uses_iff _).1 ha
    obtain ⟨name, hname⟩ := SymbolTable.exists_nameOf? hcontains
    have hasked := (terminal_iff htakes).1 ⟨a, ha, hname⟩
    exact ⟨name, hname, (mem_wishes_terminal_iff hd hdeclared).1 hasked⟩
  · exact fun name hname => (terminal_iff htakes).2 ((mem_wishes_terminal_iff hd hdeclared).2 hname)
  · intro r hr t ht w hw hquoted part hpart
    obtain ⟨names, hterminals, hnames⟩ := exists_terminals hd hdeclared
    refine (nonterminal_or_declared htakes hterminals hr ht hw hquoted hpart).imp_right fun hmem => ?_
    exact (hnames _).1 ⟨part, hmem, rfl⟩

/-- One terminal is declared, and a literal is used as well. -/
def literalText : String := "%terminals a\nS -> a \"b\" | aS"

theorem literalText_items : ∃ lines items, lexLines literalText.toList = .ok lines ∧
    itemsFrom none lines = .ok items ∧ declared "%terminals" items ≠ [] ∧
      ∀ name, DeclaresTerminal items name ↔ name = "a" := by
  have hnames : (lexLines literalText.toList >>= itemsFrom none).map
      (fun items => (declared "%terminals" items).map (List.map Named.name)) = .ok [["a"]] := by
    decide +kernel
  obtain ⟨items, hitems, hnames⟩ := map_eq_ok_iff.1 hnames
  obtain ⟨lines, hlines, hitems⟩ := bind_eq_ok_iff.1 hitems
  refine ⟨lines, items, hlines, hitems, fun hnone => ?_, fun name => ?_⟩
  · rw [hnone] at hnames
    cases hnames
  · have hflat : name ∈ ((declared "%terminals" items).map (List.map Named.name)).flatten ↔
        DeclaresTerminal items name := by
      simp [DeclaresTerminal]
    rw [← hflat, hnames]
    simp

theorem literalText_terminals : ∃ g lines items, loadGrammar literalText = .ok g ∧
    lexLines literalText.toList = .ok lines ∧ itemsFrom none lines = .ok items ∧
    declared "%terminals" items ≠ [] ∧
    (∀ a, g.uses (.terminal a) = true → ∃ name, g.table.nameOf? (.terminal a) = some name ∧
      (name = "a" ∨ QuotesTerminal items name)) ∧
    ∃ a, g.uses (.terminal a) = true ∧ g.table.nameOf? (.terminal a) = some "a" := by
  obtain ⟨g, hg⟩ : ∃ g, loadGrammar literalText = .ok g := exists_ok (by decide +kernel)
  obtain ⟨lines, items, d, hlines, hitems, -, hterminals⟩ := terminals_of_loadGrammar hg
  obtain ⟨lines', items', hlines', hitems', hdeclared, hnames⟩ := literalText_items
  cases hlines.symm.trans hlines'
  cases hitems.symm.trans hitems'
  obtain ⟨hsound, hcomplete, -⟩ := hterminals hdeclared
  refine ⟨g, lines, items, hg, hlines, hitems, hdeclared, fun a ha => ?_, ?_⟩
  · obtain ⟨name, hname, hfrom⟩ := hsound a ha
    exact ⟨name, hname, hfrom.imp_left (hnames name).1⟩
  · exact hcomplete "a" (.inl ((hnames "a").2 rfl))

/-- The literal is a terminal, though terminals are declared and it is not among them. -/
theorem literalText_undeclared : ∃ g lines items a, loadGrammar literalText = .ok g ∧
    lexLines literalText.toList = .ok lines ∧ itemsFrom none lines = .ok items ∧
    declared "%terminals" items ≠ [] ∧ g.uses (.terminal a) = true ∧
    g.table.nameOf? (.terminal a) = some "b" ∧ ¬ DeclaresTerminal items "b" := by
  have hload : (loadGrammar literalText).map
      (fun g => (g.uses (.terminal ⟨2⟩), g.table.nameOf? (.terminal ⟨2⟩))) = .ok (true, some "b") := by
    decide +kernel
  obtain ⟨g, hg, hb⟩ := map_eq_ok_iff.1 hload
  obtain ⟨lines, items, hlines, hitems, hdeclared, hnames⟩ := literalText_items
  refine ⟨g, lines, items, ⟨2⟩, hg, hlines, hitems, hdeclared, congrArg Prod.fst hb,
    congrArg Prod.snd hb, ?_⟩
  rw [hnames]
  decide

end Terminals

end FormalLanguage.Notation
