import FormalLanguage.Notation.Productions
import FormalLanguage.Proofs.Notation.LineForm

/-!
What the productions mean. Main statement: a tree of a whole text is one of lines with forms in
order, and its value is the items of these lines.
-/
namespace FormalLanguage.Notation

variable {parts : List Part} {ts : List Tree} {xs ys : List Placed}
  {v : Value} {vs : List Value} {first w : Written} {others : List Written} {row : List Lexeme}
  {s : Sequence} {ss : List Sequence} {lines : List Line} {y : Layout} {layouts : List Layout}

/-- What the signs of a part are, and what its value is. -/
def Means : Part → Value → List Placed → Prop
  | .sign .word, v, xs => ∃ n : Named, xs = [n.placed] ∧ v = .token ⟨n.text, false, n.position⟩
  | .sign .quoted, v, xs => ∃ n : Named,
      xs = [⟨.token (.literal n.text), n.position⟩] ∧ v = .token ⟨n.text, true, n.position⟩
  | .sign .percent, v, xs => ∃ n : Named, xs = [⟨.percent n.text, n.position⟩] ∧ v = .name n
  | .sign .arrow, _, xs => ∃ position, xs = [⟨.token .arrow, position⟩]
  | .sign .bar, _, xs => ∃ position, xs = [⟨.token .bar, position⟩]
  | .sign .newline, _, xs => ∃ position, xs = [⟨.newline, position⟩]
  | .sign .eof, _, xs => ∃ position, xs = [⟨.eof, position⟩]
  | .phrase .symbol, v, xs => ∃ w : Written, xs = [w.lexeme.placed] ∧ v = .token w
  | .phrase .lhs, v, xs | .phrase .alternative, v, xs => ∃ first others,
      xs = (Sequence.ofSymbols first others).lexemes.map Lexeme.placed ∧
        v = .alternative (.ofSymbols first others)
  | .phrase .alternatives, v, xs => ∃ row ss,
      xs = row.map Lexeme.placed ∧ Barred row ss ∧ v = .alternatives ss
  | .phrase .directive, v, xs => ∃ (name : Named) (arguments : List Named),
      xs = ⟨.percent name.text, name.position⟩ :: arguments.map Named.placed ∧
        v = .directive name arguments
  | .phrase .rule, v, xs => ∃ lines lhs ss, ∃ more : List (List Sequence),
      xs = lines.flatMap Line.signs ∧
        List.Forall₂ Line.HasForm lines (.rule lhs ss :: more.map .continuation) ∧
          v = .rule ⟨lhs, ss ++ more.flatten⟩
  | .phrase .item, v, xs => ∃ lines y layouts,
      xs = lines.flatMap Line.signs ∧ ReadAs .blank lines (y :: layouts) ∧
        v.item?.toList = Layout.items (y :: layouts)
  | .phrase .items, v, xs => ∃ lines layouts,
      xs = lines.flatMap Line.signs ∧ ReadAs .blank lines layouts ∧
        v = .items (Layout.items layouts)
  | .phrase .start, v, xs => ∃ lines layouts position,
      xs = lines.flatMap Line.signs ++ [⟨.eof, position⟩] ∧ ReadAs .blank lines layouts ∧
        v = .items (Layout.items layouts)

/-- The same for parts in a row. -/
inductive MeansAll : List Part → List Value → List Placed → Prop
  | nil : MeansAll [] [] []
  | cons {part : Part} {parts : List Part} {v : Value} {vs : List Value} {xs ys : List Placed}
      (head : Means part v xs) (tail : MeansAll parts vs ys) :
      MeansAll (part :: parts) (v :: vs) (xs ++ ys)

theorem means_leaf (x : Placed) : Means (.sign x.sign.category) x.value [x] := by
  obtain ⟨sign, position⟩ := x
  match sign with
  | .token (.word text) => exact ⟨⟨text, position⟩, rfl, rfl⟩
  | .token (.literal text) => exact ⟨⟨text, position⟩, rfl, rfl⟩
  | .token .arrow => exact ⟨position, rfl⟩
  | .token .bar => exact ⟨position, rfl⟩
  | .percent name => exact ⟨⟨name, position⟩, rfl, rfl⟩
  | .newline => exact ⟨position, rfl⟩
  | .eof => exact ⟨position, rfl⟩

theorem continued_map (more : List (List Sequence)) :
    Layout.continued (more.map .continuation) = more.flatten := by
  induction more with
  | nil => rfl
  | cons ss more ih => rw [List.map_cons, Layout.continued, ih, List.flatten_cons]

theorem items_map (more : List (List Sequence)) :
    Layout.items (more.map .continuation) = [] := by
  induction more with
  | nil => rfl
  | cons ss more ih => rw [List.map_cons, Layout.items, ih]

theorem isChain_continuations (h : y.isOpen = true) (more : List (List Sequence)) :
    (y :: more.map .continuation).IsChain Layout.Follows := by
  induction more generalizing y with
  | nil => exact .singleton y
  | cons ss more ih => exact .cons_cons (fun _ => h) (ih rfl)

theorem continued_append {below : List Layout} (hy : y.isContinuation = false) :
    Layout.continued (layouts ++ y :: below) = Layout.continued layouts := by
  induction layouts with
  | nil => cases y <;> first | rfl | cases hy
  | cons z layouts ih => cases z <;> simp_all [Layout.continued]

/-- Lines below a line that continues nothing do not change the items above. -/
theorem items_append {below : List Layout} (hy : y.isContinuation = false) :
    Layout.items (layouts ++ y :: below) = Layout.items layouts ++ Layout.items (y :: below) := by
  induction layouts with
  | nil => rfl
  | cons z layouts ih =>
    cases z <;> simp only [List.cons_append, Layout.items, ih, continued_append hy]

theorem ReadAs.append {above : Layout} {below : List Layout} {lines' : List Line}
    (h : ReadAs above lines layouts) (h' : ReadAs .blank lines' (y :: below)) :
    ReadAs above (lines ++ lines') (layouts ++ y :: below) := by
  obtain ⟨hfollows, hbelow⟩ := List.isChain_cons_cons.1 h'.2
  refine ⟨List.rel_append h.1 h'.1, ?_⟩
  rw [← List.cons_append, List.isChain_append]
  refine ⟨h.2, hbelow, fun x _ z hz => ?_⟩
  cases hz
  exact fun hy => absurd (hfollows hy) Bool.false_ne_true

theorem not_isContinuation_of_readAs (h : ReadAs .blank lines (y :: layouts)) :
    y.isContinuation = false := by
  have hfollows := (List.isChain_cons_cons.1 h.2).1
  cases hy : y.isContinuation with
  | false => rfl
  | true => exact absurd (hfollows hy) Bool.false_ne_true

theorem Barred.concat (h : Barred row ss) (bar : Position) (hs : s.Proper) :
    Barred (row ++ ⟨.bar, bar⟩ :: s.lexemes) (ss ++ [s]) := by
  induction h with
  | last hfirst => exact .more hfirst bar (.last hs)
  | more hfirst position rest ih =>
    rw [List.append_assoc]
    exact .more hfirst position ih

/-- A line that continues nothing may be the first of a text. -/
theorem readAs_singleton {line : Line} (h : line.HasForm y) (hy : y.isContinuation = false) :
    ReadAs .blank [line] [y] :=
  ⟨.cons h .nil, .cons_cons (fun hcont => absurd (hy.symm.trans hcont) Bool.false_ne_true)
    (.singleton y)⟩

/-- Every production keeps to what its phrase means. -/
theorem means_of_parts (p : Production) (h : MeansAll p.parts vs xs) :
    ∃ v, p.value vs = some v ∧ Means (.phrase p.phrase) v xs := by
  cases p with
  | startItems =>
    obtain _ | ⟨⟨lines, layouts, rfl, hread, rfl⟩, _ | ⟨⟨position, rfl⟩, _ | _⟩⟩ := h
    exact ⟨_, rfl, lines, layouts, position, rfl, hread, rfl⟩
  | startEmpty =>
    obtain _ | ⟨⟨position, rfl⟩, _ | _⟩ := h
    exact ⟨_, rfl, [], [], position, rfl, ⟨.nil, .singleton _⟩, rfl⟩
  | itemsMore =>
    obtain _ | ⟨⟨lines, layouts, rfl, hread, rfl⟩,
      _ | ⟨⟨lines', y, below, rfl, hread', hv⟩, _ | _⟩⟩ := h
    refine ⟨_, rfl, lines ++ lines', layouts ++ y :: below, ?_, hread.append hread', ?_⟩
    · rw [List.flatMap_append, List.append_nil]
    · rw [items_append (not_isContinuation_of_readAs hread'), ← hv]
      rfl
  | itemsOne =>
    obtain _ | ⟨⟨lines, y, below, rfl, hread, hv⟩, _ | _⟩ := h
    exact ⟨_, rfl, lines, y :: below, List.append_nil _, hread, hv ▸ rfl⟩
  | itemNewline =>
    obtain _ | ⟨⟨position, rfl⟩, _ | _⟩ := h
    exact ⟨_, rfl, [.lexemes [] position], .blank, [], rfl, readAs_singleton (.blank _) rfl, rfl⟩
  | itemDirective =>
    obtain _ | ⟨⟨name, arguments, rfl, rfl⟩, _ | ⟨⟨position, rfl⟩, _ | _⟩⟩ := h
    refine ⟨_, rfl, [.directive name arguments position], .directive name arguments, [], ?_,
      readAs_singleton (.directive _ _ _) rfl, rfl⟩
    simp [Line.signs]
  | itemRule =>
    obtain _ | ⟨⟨lines, lhs, ss, more, rfl, hforms, rfl⟩, _ | _⟩ := h
    refine ⟨_, rfl, lines, .rule lhs ss, more.map .continuation, List.append_nil _,
      ⟨hforms, ?_⟩, ?_⟩
    · exact .cons_cons (fun hy => nomatch hy) (isChain_continuations rfl more)
    · rw [Layout.items, continued_map, items_map]
      rfl
  | ruleArrow =>
    obtain _ | ⟨⟨first, others, rfl, rfl⟩, _ | ⟨⟨arrow, rfl⟩, _ | ⟨⟨row, ss, rfl, hrow, rfl⟩,
      _ | ⟨⟨ending, rfl⟩, _ | _⟩⟩⟩⟩ := h
    let line := (Sequence.ofSymbols first others).lexemes ++ ⟨.arrow, arrow⟩ :: row
    refine ⟨_, rfl, [.lexemes line ending], .ofSymbols first others, ss, [], ?_,
      .cons (.rule ⟨first, others, rfl⟩ arrow hrow ending) .nil, ?_⟩
    · simp [line, Line.signs, Lexeme.placed]
    · simp
  | ruleBar =>
    obtain _ | ⟨⟨lines, lhs, ss, more, rfl, hforms, rfl⟩, _ | ⟨⟨bar, rfl⟩,
      _ | ⟨⟨row, ss', rfl, hrow, rfl⟩, _ | ⟨⟨ending, rfl⟩, _ | _⟩⟩⟩⟩ := h
    refine ⟨_, rfl, lines ++ [.lexemes (⟨.bar, bar⟩ :: row) ending], lhs, ss, more ++ [ss'],
      ?_, ?_, ?_⟩
    · simp [Line.signs, Lexeme.placed]
    · rw [List.map_append, ← List.cons_append]
      exact List.rel_append hforms (.cons (.continuation bar hrow ending) .nil)
    · simp
  | lhsMore | alternativeMore =>
    obtain _ | ⟨⟨first, others, rfl, rfl⟩, _ | ⟨⟨w, rfl, rfl⟩, _ | _⟩⟩ := h
    refine ⟨_, rfl, first, others ++ [w], ?_, rfl⟩
    simp [lexemes_ofSymbols]
  | lhsOne | alternativeOne =>
    obtain _ | ⟨⟨w, rfl, rfl⟩, _ | _⟩ := h
    exact ⟨_, rfl, w, [], rfl, rfl⟩
  | alternativesMore =>
    obtain _ | ⟨⟨row, ss, rfl, hrow, rfl⟩, _ | ⟨⟨bar, rfl⟩, _ | ⟨⟨first, others, rfl, rfl⟩,
      _ | _⟩⟩⟩ := h
    refine ⟨_, rfl, _, _, ?_, hrow.concat bar ⟨first, others, rfl⟩, rfl⟩
    simp [Lexeme.placed]
  | alternativesOne =>
    obtain _ | ⟨⟨first, others, rfl, rfl⟩, _ | _⟩ := h
    exact ⟨_, rfl, _, _, List.append_nil _, .last ⟨first, others, rfl⟩, rfl⟩
  | symbolWord | symbolQuoted =>
    obtain _ | ⟨⟨n, rfl, rfl⟩, _ | _⟩ := h
    exact ⟨_, rfl, ⟨n.text, _, n.position⟩, rfl, rfl⟩
  | directiveMore =>
    obtain _ | ⟨⟨name, arguments, rfl, rfl⟩, _ | ⟨⟨n, rfl, rfl⟩, _ | _⟩⟩ := h
    refine ⟨_, rfl, name, arguments ++ [n], ?_, rfl⟩
    simp
  | directiveOne =>
    obtain _ | ⟨⟨n, rfl, rfl⟩, _ | _⟩ := h
    exact ⟨_, rfl, n, [], rfl, rfl⟩

/-- From the leaves up, trees have the values that their parts mean. -/
theorem meansAll_of_spans (h : Spans parts ts xs) :
    ∃ vs, Tree.values ts = some vs ∧ MeansAll parts vs xs := by
  induction h with
  | nil => exact ⟨[], rfl, .nil⟩
  | leaf x rest ih =>
    obtain ⟨vs, hvs, hmeans⟩ := ih
    exact ⟨x.value :: vs, by simp [Tree.values, Tree.value, hvs], .cons (means_leaf x) hmeans⟩
  | node p inner rest ihinner ihrest =>
    obtain ⟨children, hchildren, hinner⟩ := ihinner
    obtain ⟨vs, hvs, hrest⟩ := ihrest
    obtain ⟨v, hv, hmeans⟩ := means_of_parts p hinner
    exact ⟨v :: vs, by simp [Tree.values, Tree.value, hchildren, hv, hvs], .cons hmeans hrest⟩

/-- A tree of a whole text is one of lines with forms in order, and has their items. -/
theorem means_of_treeOf {t : Tree} (h : TreeOf t xs) : ∃ lines layouts position,
    xs = lines.flatMap Line.signs ++ [⟨.eof, position⟩] ∧ ReadAs .blank lines layouts ∧
      t.value = some (.items (Layout.items layouts)) := by
  obtain ⟨vs, hvs, hmeans⟩ := meansAll_of_spans h
  obtain _ | ⟨⟨lines, layouts, position, rfl, hread, rfl⟩, _ | _⟩ := hmeans
  refine ⟨lines, layouts, position, List.append_nil _, hread, ?_⟩
  simpa [Tree.values, Option.bind_eq_some_iff] using hvs

/-- The signs of a line before its end. -/
def Line.inner : Line → List Placed
  | .directive name arguments _ =>
    ⟨.percent name.text, name.position⟩ :: arguments.map Named.placed
  | .lexemes row _ => row.map Lexeme.placed

def Line.ending : Line → Position
  | .directive _ _ ending => ending
  | .lexemes _ ending => ending

theorem Line.signs_eq (line : Line) : line.signs = line.inner ++ [⟨.newline, line.ending⟩] := by
  cases line <;> rfl

theorem sign_of_mem_inner {line : Line} {x : Placed} (h : x ∈ line.inner) :
    (∃ name, x.sign = .percent name) ∨ ∃ token, x.sign = .token token := by
  cases line with
  | directive name arguments ending =>
    rcases List.mem_cons.1 h with rfl | h
    · exact .inl ⟨name.text, rfl⟩
    · obtain ⟨n, -, rfl⟩ := List.mem_map.1 h
      exact .inr ⟨.word n.text, rfl⟩
  | lexemes row ending =>
    obtain ⟨x, -, rfl⟩ := List.mem_map.1 h
    exact .inr ⟨x.token, rfl⟩

theorem placed_injective : Function.Injective Lexeme.placed := by
  rintro ⟨token, position⟩ ⟨token', position'⟩ h
  simpa [Lexeme.placed] using h

theorem named_placed_injective : Function.Injective Named.placed := by
  rintro ⟨text, position⟩ ⟨text', position'⟩ h
  simpa [Named.placed] using h

theorem Line.eq_of_inner_eq {line line' : Line} (hrow : line.inner = line'.inner)
    (hending : line.ending = line'.ending) : line = line' := by
  cases line with
  | directive name arguments ending =>
    cases line' with
    | directive name' arguments' ending' =>
      obtain ⟨text, position⟩ := name
      obtain ⟨text', position'⟩ := name'
      simp only [Line.inner, List.cons.injEq, Placed.mk.injEq, Sign.percent.injEq] at hrow
      obtain ⟨⟨rfl, rfl⟩, harguments⟩ := hrow
      cases hending
      rw [named_placed_injective.list_map harguments]
    | lexemes row ending' => cases row <;> simp [Line.inner, Lexeme.placed] at hrow
  | lexemes row ending =>
    cases line' with
    | directive name' arguments' ending' => cases row <;> simp [Line.inner, Lexeme.placed] at hrow
    | lexemes row' ending' =>
      cases hending
      rw [placed_injective.list_map hrow]

/-- A line is what stands up to the first end of a line. -/
theorem signs_append_inj {line line' : Line}
    (h : line.signs ++ xs = line'.signs ++ ys) : line = line' ∧ xs = ys := by
  let within (x : Placed) : Bool := x.sign ≠ .newline
  have hwithin : ∀ (line : Line), ∀ x ∈ line.inner, within x = true := by
    intro line x hx
    rcases sign_of_mem_inner hx with ⟨name, hsign⟩ | ⟨token, hsign⟩ <;> simp [within, hsign]
  have htake : ∀ (line : Line) zs, (line.signs ++ zs).takeWhile within = line.inner := by
    intro line zs
    rw [Line.signs_eq, List.append_assoc, List.takeWhile_append_of_pos (hwithin line)]
    simp [within]
  have hdrop : ∀ (line : Line) zs,
      (line.signs ++ zs).dropWhile within = ⟨.newline, line.ending⟩ :: zs := by
    intro line zs
    rw [Line.signs_eq, List.append_assoc, List.dropWhile_append_of_pos (hwithin line)]
    simp [within]
  have hrow : line.inner = line'.inner := by rw [← htake line xs, h, htake]
  have htail : (⟨.newline, line.ending⟩ :: xs : List Placed) = ⟨.newline, line'.ending⟩ :: ys := by
    rw [← hdrop line xs, h, hdrop]
  simp only [List.cons.injEq, Placed.mk.injEq, true_and] at htail
  exact ⟨Line.eq_of_inner_eq hrow htail.1, htail.2⟩

theorem ne_signs_append {position : Position} {line : Line} :
    [⟨.eof, position⟩] ≠ line.signs ++ xs := by
  intro h
  have hmem : (⟨.newline, line.ending⟩ : Placed) ∈ [(⟨.eof, position⟩ : Placed)] := by
    rw [h, Line.signs_eq]
    simp
  simp at hmem

/-- The signs of a text determine its lines. -/
theorem lines_unique {lines' : List Line} {position position' : Position}
    (h : lines.flatMap Line.signs ++ [⟨.eof, position⟩] =
      lines'.flatMap Line.signs ++ [⟨.eof, position'⟩]) : lines = lines' := by
  induction lines generalizing lines' with
  | nil =>
    cases lines' with
    | nil => rfl
    | cons line' lines' =>
      rw [List.flatMap_cons, List.append_assoc] at h
      exact absurd h ne_signs_append
  | cons line lines ih =>
    rw [List.flatMap_cons, List.append_assoc] at h
    cases lines' with
    | nil => exact absurd h.symm ne_signs_append
    | cons line' lines' =>
      rw [List.flatMap_cons, List.append_assoc] at h
      obtain ⟨rfl, hrest⟩ := signs_append_inj h
      rw [ih hrest]

/-- Every tree of a text has the items of the text as its value. -/
theorem value_of_treeOf {t : Tree} (h : TreeOf t (textSigns lines)) :
    ∃ items, itemsFrom none lines = .ok items ∧ t.value = some (.items items) := by
  obtain ⟨lines', layouts, position, hsigns, hread, hvalue⟩ := means_of_treeOf h
  cases lines_unique hsigns
  exact ⟨_, itemsFrom_of_readAs rfl hread, hvalue⟩

end FormalLanguage.Notation
