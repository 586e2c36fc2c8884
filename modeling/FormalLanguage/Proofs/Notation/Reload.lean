import FormalLanguage.Proofs.Notation.Printed

/-!
Loading the text of a grammar whose names are single characters. Main statement: the grammar that is
loaded has the same start symbol and the same rules, if symbols with the same kind and name are the
same.
-/
namespace FormalLanguage

open Notation

variable {g h u : Grammar} {v : Vocabulary} {scope : Scope} {name : List Char} {p : Position}
  {r r' : Rule} {s s' : Symbol} {n n' : NonTerminal} {body : Body} {w : List Char} {t : Sequence}

/-- A symbol by its kind and its name. -/
def SymbolTable.named (t : SymbolTable) (s : Symbol) : Kind × Option String := (s.kind, t.nameOf? s)

namespace Notation

/-- The kind of an unquoted name. -/
def Scope.kind (scope : Scope) (name : List Char) : Kind :=
  if scope.isNonTerminal name then .nonterminal else .terminal

/-- Every name of the table has the kind that the scope gives it. -/
def Scope.Governs (scope : Scope) (t : SymbolTable) : Prop :=
  ∀ name s, t.get? (String.ofList name) = some s → s.kind = scope.kind name

/-- The table has the symbol for the name, and all that it had before. -/
structure Scope.Names (scope : Scope) (t u : SymbolTable) (name : List Char) (s : Symbol) : Prop where
  kind : s.kind = scope.kind name
  get? : u.get? (String.ofList name) = some s
  keeps : t.Extends u
  governs : scope.Governs u

theorem names_of_interned {t u : SymbolTable} (ht : scope.Governs t) (hkind : s.kind = scope.kind name)
    (h : t.Interned u (String.ofList name) s) : scope.Names t u name s := by
  refine ⟨hkind, h.get?_self, h.keeps, fun other x hx => ?_⟩
  by_cases heq : other = name
  · subst heq
    rw [h.get?_self] at hx
    cases hx
    exact hkind
  · rw [h.get?_of_ne _ fun hname => heq (String.ofList_injective hname)] at hx
    exact ht other x hx

theorem exists_intern {t : SymbolTable} (ht : scope.Governs t) (hname : isEpsilon name = false) :
    ∃ id u, t.intern (String.ofList name) (scope.kind name) = .ok (id, u) ∧
      scope.Names t u name (.ofKind (scope.kind name) id) := by
  have hreserved : String.ofList name ≠ epsilonText := by
    intro heq
    rw [isEpsilon, ← heq, String.toList_ofList, decide_eq_false_iff_not] at hname
    exact hname rfl
  obtain ⟨id, u, hu⟩ := SymbolTable.exists_intern hreserved (ht name)
  exact ⟨id, u, hu, names_of_interned ht (Symbol.kind_ofKind ..) (SymbolTable.interned_of_intern hu)⟩

/-- A name that the scope takes for a nonterminal is bound to one. -/
theorem exists_bindNonTerminal (hv : scope.Governs v.table) (hname : isEpsilon name = false)
    (hkind : scope.isNonTerminal name = true) (p : Position) : ∃ n u,
      bindNonTerminal v name p = .ok (n, u) ∧ scope.Names v.table u.table name (.nonterminal n) := by
  obtain ⟨id, t, ht, hnames⟩ := exists_intern hv hname
  rw [Scope.kind, if_pos hkind] at ht hnames
  refine ⟨⟨id⟩, { v with table := t }.add (.nonterminal ⟨id⟩), ?_, hnames⟩
  rw [bindNonTerminal, Vocabulary.nonterminal, SymbolTable.nonterminal, ht]
  rfl

/-- Where no terminals are declared, every name stands for a symbol of its kind. -/
theorem exists_symbol (hscope : scope.terminals = none) (hv : scope.Governs v.table)
    (hname : isEpsilon name = false) (p : Position) : ∃ s u,
      scope.symbol v name p = .ok (s, u) ∧ scope.Names v.table u.table name s := by
  cases hkind : scope.isNonTerminal name with
  | true =>
    obtain ⟨n, u, hu, hnames⟩ := exists_bindNonTerminal hv hname hkind p
    exact ⟨.nonterminal n, u, by rw [Scope.symbol, if_pos hkind, hu]; rfl, hnames⟩
  | false =>
    obtain ⟨id, t, ht, hnames⟩ := exists_intern hv hname
    rw [Scope.kind, if_neg (Bool.eq_false_iff.1 hkind)] at ht hnames
    have hterminal : scope.isTerminal name = true := by rw [Scope.isTerminal, hscope]
    refine ⟨.terminal ⟨id⟩, { v with table := t }.add (.terminal ⟨id⟩), ?_, hnames⟩
    rw [Scope.symbol, if_neg (Bool.eq_false_iff.1 hkind), if_pos hterminal, bindTerminal,
      Vocabulary.terminal, SymbolTable.terminal, ht]
    rfl

/-- The names of a body are bound one after the other. -/
theorem exists_symbolList {names : List (List Char)} (hscope : scope.terminals = none)
    (hv : scope.Governs v.table) (hnames : ∀ name ∈ names, isEpsilon name = false) (p : Position) :
    ∃ body u, scope.symbolList v p names = .ok (body, u) ∧ v.table.Extends u.table ∧
      scope.Governs u.table ∧ List.Forall₂ (fun name s =>
        s.kind = scope.kind name ∧ u.table.get? (String.ofList name) = some s) names body := by
  induction names generalizing v with
  | nil => exact ⟨[], v, rfl, .refl _, hv, .nil⟩
  | cons name names ih =>
    rw [List.forall_mem_cons] at hnames
    obtain ⟨s, u, hs, hfirst⟩ := exists_symbol hscope hv hnames.1 p
    obtain ⟨body, w, hbody, hkeeps, hgoverns, hall⟩ := ih hfirst.governs hnames.2
    refine ⟨s :: body, w, ?_, hfirst.keeps.trans hkeeps, hgoverns,
      .cons ⟨hfirst.kind, hkeeps _ _ hfirst.get?⟩ hall⟩
    rw [Scope.symbolList, hs]
    show (scope.symbolList u p names >>= _) = _
    rw [hbody]
    rfl

/-- A sequence of one unquoted word is the list of the names in it. -/
theorem body_alone (h : Grammar.Alone w t) :
    ∃ p, scope.body v t = scope.symbolList v p (scope.names true w) := by
  obtain ⟨p, rfl⟩ := h
  refine ⟨p, ?_⟩
  show (scope.symbolList v p (scope.names true w) >>= fun x => _) = _
  cases scope.symbolList v p (scope.names true w) with
  | error e => rfl
  | ok x =>
    show Except.ok (x.1 ++ [], x.2) = _
    rw [List.append_nil]

end Notation

namespace Grammar

/-- What the text says about kinds: the nonterminals with rules are known before the bodies. -/
def textScope (g : Grammar) : Scope where
  nonterminals := g.lineOrder.map fun n => [g.letter (.nonterminal n)]
  terminals := none

theorem isEpsilon_letter (h : g.Reloadable) (hs : g.InRules s) : isEpsilon [g.letter s] = false := by
  rw [isEpsilon, decide_eq_false_iff_not]
  intro heq
  have hletter : g.letter s = 'ε' := (List.cons.inj heq).1
  exact (h.isName hs).2 (by simp [hletter])

theorem isNonTerminal_letter (hn : g.HasRule n) :
    g.textScope.isNonTerminal [g.letter (.nonterminal n)] = true := by
  rw [Scope.isNonTerminal, Bool.or_eq_true, decide_eq_true_eq]
  exact .inl (List.mem_map.2 ⟨n, mem_lineOrder.2 hn, rfl⟩)

/-- The letters of a grammar keep their kinds. -/
theorem kind_letter (h : g.Reloadable) (hs : g.InRules s) :
    g.textScope.kind [g.letter s] = s.kind := by
  have hname := h.nameOf?_eq hs
  cases s with
  | nonterminal n =>
    have hkind : g.textScope.isNonTerminal [g.letter (.nonterminal n)] = true := by
      rcases h.upper n hs with hrule | ⟨c, hc, hupper⟩
      · exact isNonTerminal_letter hrule
      · rw [← letter_eq hc] at hupper
        exact Bool.or_eq_true_iff.2 (.inr hupper)
    exact if_pos hkind
  | terminal a =>
    have hkind : g.textScope.isNonTerminal [g.letter (.terminal a)] = false := by
      rw [Scope.isNonTerminal, Bool.or_eq_false_iff, decide_eq_false_iff_not]
      refine ⟨fun hmem => ?_, h.lower a _ hs hname⟩
      obtain ⟨n, hn, heq⟩ := List.mem_map.1 hmem
      have hn' := inRules_lhs (mem_lineOrder.1 hn)
      have hname' := h.nameOf?_eq hn'
      rw [(List.cons.inj heq).1] at hname'
      have hsame := SymbolTable.eq_of_contains (h.contains _ hn') (h.contains _ hs)
        (SymbolTable.id_eq_of_nameOf? hname' hname)
      cases hsame
    exact if_neg (Bool.eq_false_iff.1 hkind)

theorem length_of_isKnown (h : g.textScope.isKnown w = true) : w.length = 1 := by
  rw [Scope.isKnown, Bool.or_eq_true, decide_eq_true_eq, decide_eq_true_eq] at h
  rcases h with h | h
  · obtain ⟨n, -, rfl⟩ := List.mem_map.1 h
    rfl
  · cases h

/-- The word of a body is taken apart into its letters. -/
theorem names_bodyChars (h : g.Reloadable) (hbody : ∀ s ∈ body, g.InRules s) :
    g.textScope.names true (g.bodyChars body) = body.map fun s => [g.letter s] := by
  have hletters : ∀ name ∈ body.map fun s => [g.letter s], isEpsilon name = false :=
    List.forall_mem_map.2 fun s hs => isEpsilon_letter h (hbody s hs)
  match body with
  | [] => rfl
  | [s] =>
    have hs := isEpsilon_letter h (hbody s (by simp))
    simp [Scope.names, bodyChars, hs]
  | s :: s' :: body =>
    have hunknown : g.textScope.isKnown (g.bodyChars (s :: s' :: body)) = false :=
      Bool.eq_false_iff.2 fun hknown => by cases length_of_isKnown hknown
    have hlong : ¬isEpsilon (g.bodyChars (s :: s' :: body)) = true := by
      intro hepsilon
      have hlength : (g.bodyChars (s :: s' :: body)).length = 1 :=
        congrArg List.length (of_decide_eq_true hepsilon)
      simp [bodyChars] at hlength
    have hsplit : (g.bodyChars (s :: s' :: body)).map (fun c => [c]) =
        (s :: s' :: body).map fun s => [g.letter s] := List.map_map
    rw [Scope.names, if_neg hlong, hunknown, if_neg (by simp [bodyChars]), hsplit,
      List.filter_eq_self.2 fun name hname => by simp [hletters name hname]]

theorem filterMap_name? {ns : List NonTerminal} {rs : List WrittenRule}
    (h : List.Forall₂ g.Spells ns rs) :
    rs.filterMap WrittenRule.name? = ns.map fun n => [g.letter (.nonterminal n)] := by
  induction h with
  | nil => rfl
  | cons hr _ ih =>
    obtain ⟨⟨p, hlhs⟩, -⟩ := hr
    rw [List.filterMap_cons, WrittenRule.name?, hlhs, ih]
    rfl

theorem scope_eq {rs : List WrittenRule} (hrs : List.Forall₂ g.Spells g.lineOrder rs) :
    Document.scope { rules := rs } true = g.textScope := by
  rw [Document.scope, filterMap_name? hrs]
  rfl

section Loading

/-- The symbol is the one with the same kind and name in the table. -/
def Stands (g : Grammar) (t : SymbolTable) (s s' : Symbol) : Prop :=
  s'.kind = s.kind ∧ t.get? (String.ofList [g.letter s]) = some s'

/-- The same for the symbols of a rule. -/
def StandsRule (g : Grammar) (t : SymbolTable) (r r' : Rule) : Prop :=
  g.Stands t (.nonterminal r.lhs) (.nonterminal r'.lhs) ∧ List.Forall₂ (g.Stands t) r.body r'.body

theorem Stands.mono {t u : SymbolTable} (h : g.Stands t s s') (htu : t.Extends u) :
    g.Stands u s s' := ⟨h.1, htu _ _ h.2⟩

theorem StandsRule.mono {t u : SymbolTable} (h : g.StandsRule t r r') (htu : t.Extends u) :
    g.StandsRule u r r' := ⟨h.1.mono htu, h.2.imp fun _ _ hs => hs.mono htu⟩

/-- The rules so far, and the ones of these that have been added. -/
structure Loaded (g : Grammar) (done : List Rule) (h : Grammar) : Prop where
  governs : g.textScope.Governs h.table
  sound : ∀ r' ∈ h.rules, ∃ r ∈ g.rules, g.StandsRule h.table r r'
  complete : ∀ r ∈ done, ∃ r' ∈ h.rules, g.StandsRule h.table r r'

/-- Binding names keeps what has been loaded. -/
theorem Loaded.bind {done : List Rule} (h : g.Loaded done u) (hkeeps : u.table.Extends v.table)
    (hgoverns : g.textScope.Governs v.table) : g.Loaded done { u with toVocabulary := v } := by
  refine ⟨hgoverns, fun r' hr' => ?_, fun r hr => ?_⟩
  · obtain ⟨r, hr, hstands⟩ := h.sound r' hr'
    exact ⟨r, hr, hstands.mono hkeeps⟩
  · obtain ⟨r', hr', hstands⟩ := h.complete r hr
    exact ⟨r', hr', hstands.mono hkeeps⟩

theorem Loaded.addRule {done : List Rule} (h : g.Loaded done u) (hr : r ∈ g.rules)
    (hstands : g.StandsRule u.table r r') : g.Loaded (done ++ [r]) (u.addRule r'.lhs r'.body) := by
  refine ⟨h.governs, fun x hx => ?_, fun x hx => ?_⟩
  · rcases OrderedSet.mem_insert.1 hx with rfl | hx
    · exact ⟨r, hr, hstands⟩
    · exact h.sound x hx
  · rcases List.mem_append.1 hx with hx | hx
    · obtain ⟨x', hx', hx⟩ := h.complete x hx
      exact ⟨x', OrderedSet.mem_insert.2 (.inr hx'), hx⟩
    · rw [List.mem_singleton.1 hx]
      exact ⟨r', OrderedSet.mem_insert.2 (.inl rfl), hstands⟩

/-- A body is read back with the kinds and names that it has. -/
theorem exists_body (hg : g.Reloadable) (hv : g.textScope.Governs v.table)
    (hbody : ∀ s ∈ body, g.InRules s) (ht : Alone (g.bodyChars body) t) : ∃ body' u,
      g.textScope.body v t = .ok (body', u) ∧ v.table.Extends u.table ∧
        g.textScope.Governs u.table ∧ List.Forall₂ (g.Stands u.table) body body' := by
  obtain ⟨p, hread⟩ := @body_alone v g.textScope _ _ ht
  have hletters : ∀ name ∈ body.map fun s => [g.letter s], isEpsilon name = false :=
    List.forall_mem_map.2 fun s hs => isEpsilon_letter hg (hbody s hs)
  obtain ⟨body', u, hu, hkeeps, hgoverns, hall⟩ :=
    @exists_symbolList v g.textScope _ rfl hv hletters p
  refine ⟨body', u, ?_, hkeeps, hgoverns, ?_⟩
  · rw [hread, names_bodyChars hg hbody, hu]
  · rw [List.forall₂_map_left_iff] at hall
    refine ((List.forall₂_and_left _ _).2 ⟨hbody, hall⟩).imp fun s s' ⟨hs, hkind, hget⟩ => ?_
    exact ⟨hkind.trans (kind_letter hg hs), hget⟩

/-- A left-hand side is bound to the nonterminal with its name. -/
theorem exists_bindLhs (hg : g.Reloadable) (hv : g.textScope.Governs v.table) (hn : g.HasRule n)
    {r : WrittenRule} (hr : Alone [g.letter (.nonterminal n)] r.lhs) : ∃ n' u,
      bindLhs v r = .ok (n', u) ∧ v.table.Extends u.table ∧ g.textScope.Governs u.table ∧
        g.Stands u.table (.nonterminal n) (.nonterminal n') := by
  obtain ⟨p, hlhs⟩ := hr
  have hepsilon := isEpsilon_letter hg (inRules_lhs hn)
  obtain ⟨n', u, hu, hnames⟩ :=
    exists_bindNonTerminal hv hepsilon (isNonTerminal_letter hn) p
  refine ⟨n', u, ?_, hnames.keeps, hnames.governs, rfl, hnames.get?⟩
  rw [bindLhs, hlhs]
  show (if (false || isEpsilon [g.letter (.nonterminal n)]) = true then _ else _) = _
  rw [Bool.false_or, hepsilon, if_neg Bool.false_ne_true, hu]

theorem exists_loadAlternative (hg : g.Reloadable) {done : List Rule} (hu : g.Loaded done u)
    (hbody : body ∈ g.bodies n) (hn : g.Stands u.table (.nonterminal n) (.nonterminal n'))
    (ht : Alone (g.bodyChars body) t) : ∃ h, loadAlternative g.textScope n' u t = .ok h ∧
      u.table.Extends h.table ∧ g.Loaded (done ++ [⟨n, body⟩]) h := by
  obtain ⟨body', v, hread, hkeeps, hgoverns, hall⟩ :=
    exists_body hg hu.governs (fun s hs => inRules_body hbody hs) ht
  refine ⟨{ u with toVocabulary := v }.addRule n' body', ?_, hkeeps, ?_⟩
  · rw [loadAlternative, hread]
    rfl
  · have hstands : g.StandsRule v.table ⟨n, body⟩ ⟨n', body'⟩ := ⟨hn.mono hkeeps, hall⟩
    exact (hu.bind hkeeps hgoverns).addRule (mem_bodies.1 hbody) hstands

/-- The alternatives of a line become the bodies of its nonterminal. -/
theorem exists_loadAlternatives (hg : g.Reloadable) {done : List Rule} (hu : g.Loaded done u)
    {bodies : List Body} (hbodies : ∀ body ∈ bodies, body ∈ g.bodies n)
    (hn : g.Stands u.table (.nonterminal n) (.nonterminal n')) {ts : List Sequence}
    (hts : List.Forall₂ (fun body t => Alone (g.bodyChars body) t) bodies ts) : ∃ h,
      ts.foldlM (loadAlternative g.textScope n') u = .ok h ∧ u.table.Extends h.table ∧
        g.Loaded (done ++ bodies.map (⟨n, ·⟩)) h := by
  induction hts generalizing u done with
  | nil => exact ⟨u, rfl, .refl _, by rwa [List.map_nil, List.append_nil]⟩
  | cons ht _ ih =>
    rw [List.forall_mem_cons] at hbodies
    obtain ⟨next, hnext, hkeeps, hloaded⟩ := exists_loadAlternative hg hu hbodies.1 hn ht
    obtain ⟨h, hh, hkeeps', hall⟩ := ih hloaded hbodies.2 (hn.mono hkeeps)
    refine ⟨h, ?_, hkeeps.trans hkeeps', ?_⟩
    · rw [List.foldlM_cons, hnext]
      exact hh
    · rwa [List.append_assoc] at hall

/-- All rules of these nonterminals. -/
def rulesOf (g : Grammar) (ns : List NonTerminal) : List Rule :=
  ns.flatMap fun n => (g.bodies n).map (⟨n, ·⟩)

/-- Line by line, all rules are read back. -/
theorem exists_loadRules (hg : g.Reloadable) {done : List Rule} (hu : g.Loaded done u)
    {ns : List NonTerminal} (hns : ∀ n ∈ ns, g.HasRule n) {rs : List WrittenRule}
    (hrs : List.Forall₂ g.Spells ns rs) : ∃ first h,
      loadRules g.textScope u rs = .ok (first, h) ∧ u.table.Extends h.table ∧
        g.Loaded (done ++ g.rulesOf ns) h ∧ ∀ n ∈ ns.head?, ∃ n', first = some n' ∧
          g.Stands h.table (.nonterminal n) (.nonterminal n') := by
  induction hrs generalizing u done with
  | nil => exact ⟨none, u, rfl, .refl _, by rwa [rulesOf, List.flatMap_nil, List.append_nil], nofun⟩
  | @cons n r ns rs hr _ ih =>
    rw [List.forall_mem_cons] at hns
    obtain ⟨n', v, hv, hkeeps, hgoverns, hn⟩ := exists_bindLhs hg hu.governs hns.1 hr.1
    obtain ⟨next, hnext, hkeeps', hloaded⟩ := exists_loadAlternatives hg (hu.bind hkeeps hgoverns)
      (fun body hbody => hbody) hn hr.2
    obtain ⟨first, h, hh, hkeeps'', hall, -⟩ := ih hloaded hns.2
    have hextends : v.table.Extends h.table := SymbolTable.Extends.trans hkeeps' hkeeps''
    refine ⟨some n', h, ?_, SymbolTable.Extends.trans hkeeps hextends, ?_, ?_⟩
    · simp only [loadRules, bind_eq_ok_iff]
      exact ⟨_, hv, _, hnext, _, hh, rfl⟩
    · rwa [List.append_assoc] at hall
    · rintro _ ⟨rfl⟩
      exact ⟨n', rfl, hn.mono hextends⟩

/-- The left-hand sides are bound before any body is read. -/
theorem exists_bindSides (hg : g.Reloadable) (hv : g.textScope.Governs v.table)
    {ns : List NonTerminal} (hns : ∀ n ∈ ns, g.HasRule n) {rs : List WrittenRule}
    (hrs : List.Forall₂ g.Spells ns rs) :
    ∃ u, bindSides v rs = .ok u ∧ g.textScope.Governs u.table := by
  induction hrs generalizing v with
  | nil => exact ⟨v, rfl, hv⟩
  | @cons n r ns rs hr _ ih =>
    rw [List.forall_mem_cons] at hns
    obtain ⟨n', next, hnext, -, hgoverns, -⟩ := exists_bindLhs hg hv hns.1 hr.1
    obtain ⟨u, hu, hall⟩ := ih hgoverns hns.2
    refine ⟨u, ?_, hall⟩
    rw [bindSides, List.foldlM_cons, hnext]
    exact hu

end Loading

/-- The rule by the kinds and the names of its symbols. -/
def namedRule (g : Grammar) (r : Rule) : (Kind × Option String) × List (Kind × Option String) :=
  (g.table.named (.nonterminal r.lhs), r.body.map g.table.named)

theorem named_of_stands {t : SymbolTable} (hg : g.Reloadable) (hs : g.InRules s)
    (h : g.Stands t s s') : t.named s' = g.table.named s := by
  have hname : t.nameOf? s' = g.table.nameOf? s := by
    rw [(SymbolTable.get?_eq_some_iff.1 h.2).2, hg.nameOf?_eq hs, String.singleton_eq_ofList]
  rw [SymbolTable.named, SymbolTable.named, h.1, hname]

theorem namedRule_of_stands (hg : g.Reloadable) (hr : r ∈ g.rules) (h : g.StandsRule u.table r r') :
    u.namedRule r' = g.namedRule r := by
  have hbody : r'.body.map u.table.named = r.body.map g.table.named := by
    have hin : ∀ s ∈ r.body, g.InRules s := fun s hs => ⟨r, hr, .inr hs⟩
    have hall := ((List.forall₂_and_left _ _).2 ⟨hin, h.2⟩).imp
      fun s s' hs => (named_of_stands hg hs.1 hs.2).symm
    have hmaps : List.Forall₂ (· = ·) (r.body.map g.table.named) (r'.body.map u.table.named) :=
      List.forall₂_map_left_iff.2 (List.forall₂_map_right_iff.2 hall)
    rw [List.forall₂_eq_eq_eq] at hmaps
    exact hmaps.symm
  rw [namedRule, namedRule, named_of_stands hg ⟨r, hr, .inl rfl⟩ h.1, hbody]

theorem mem_rulesOf_lineOrder (hr : r ∈ g.rules) : r ∈ g.rulesOf g.lineOrder :=
  List.mem_flatMap.2 ⟨r.lhs, mem_lineOrder.2 ⟨r.body, hr⟩,
    List.mem_map.2 ⟨r.body, mem_bodies.2 hr, rfl⟩⟩

theorem governs_empty : scope.Governs ({} : Vocabulary).table := fun _ _ hs => nomatch hs

/--
A grammar whose symbols are told apart by their letters is loaded from its own text, with the same
start symbol and the same rules by kinds and names.
-/
theorem loadGrammar_text (hg : g.Reloadable) : ∃ text h, g.text? = some text ∧
    loadGrammar text = .ok h ∧
      (∃ start start' name, g.start = some start ∧ h.start = some start' ∧
        g.table.nameOf? (.nonterminal start) = some name ∧
          h.table.nameOf? (.nonterminal start') = some name) ∧
      ∀ x, (∃ r ∈ h.rules, h.namedRule r = x) ↔ ∃ r ∈ g.rules, g.namedRule r = x := by
  have hns : ∀ n ∈ g.lineOrder, g.HasRule n := fun n => mem_lineOrder.1
  obtain ⟨text, rs, htext, hparse, hspells⟩ := exists_document hg
  obtain ⟨v, hv, hgoverns⟩ := exists_bindSides hg governs_empty hns hspells
  have hinitial : g.Loaded [] { toVocabulary := v } := ⟨hgoverns, nofun, nofun⟩
  obtain ⟨first, h, hh, -, hloaded, hfirst⟩ := exists_loadRules hg hinitial hns hspells
  obtain ⟨start, hstart, hrule⟩ := hg.start
  obtain ⟨rest, hrest⟩ := exists_lineOrder hstart hrule
  obtain ⟨start', rfl, hstands⟩ := hfirst start (by rw [hrest]; rfl)
  refine ⟨text, { h with start := some start' }, htext, ?_, ?_, fun x => ⟨?_, ?_⟩⟩
  · simp only [loadGrammar, bind_eq_ok_iff]
    refine ⟨_, hparse, v, ?_, ⟨some start', h⟩, ?_, ⟨start', h.toVocabulary⟩, rfl, rfl⟩
    · show (bindSides {} rs >>= fun v => bindTerminals v []) = _
      rw [hv]
      rfl
    · rw [scope_eq hspells]
      exact hh
  · have hname := hg.nameOf?_eq (inRules_lhs hrule)
    have hnamed := congrArg Prod.snd (named_of_stands hg (inRules_lhs hrule) hstands)
    exact ⟨start, start', _, hstart, rfl, hname, hnamed.trans hname⟩
  · rintro ⟨r', hr', rfl⟩
    obtain ⟨r, hr, hstands⟩ := hloaded.sound r' hr'
    exact ⟨r, hr, (namedRule_of_stands hg hr hstands).symm⟩
  · rintro ⟨r, hr, rfl⟩
    obtain ⟨r', hr', hstands⟩ := hloaded.complete r (mem_rulesOf_lineOrder hr)
    exact ⟨r', hr', namedRule_of_stands hg hr hstands⟩

/-- A nonterminal by its rules, one by its letter, and signs that are parts of an arrow elsewhere. -/
def dashed : Grammar where
  table :=
    { entries := [⟨"a", .terminal⟩, ⟨"X", .nonterminal⟩, ⟨"z", .nonterminal⟩, ⟨"S", .nonterminal⟩,
        ⟨"-", .terminal⟩, ⟨":", .terminal⟩]
      nameSpace := {}
      position := 0
      nodup := by decide
      passed := fun _ h => absurd h (Nat.not_lt_zero _) }
  rules := OrderedSet.ofList
    [⟨⟨2⟩, [.terminal ⟨4⟩]⟩,
      ⟨⟨2⟩, [.terminal ⟨5⟩, .terminal ⟨5⟩]⟩,
      ⟨⟨3⟩, []⟩,
      ⟨⟨3⟩, [.terminal ⟨0⟩, .nonterminal ⟨2⟩, .nonterminal ⟨1⟩]⟩]
  start := some ⟨3⟩

/-- The text has the lines `S -> ε | azX` and `z -> - | ::`. -/
theorem dashed_text : dashed.Reloadable ∧ ∃ text h, dashed.text? = some text ∧
    loadGrammar text = .ok h ∧
      ∀ x, (∃ r ∈ h.rules, h.namedRule r = x) ↔ ∃ r ∈ dashed.rules, dashed.namedRule r = x := by
  have hreloadable : dashed.Reloadable := by decide +kernel
  obtain ⟨text, h, htext, hload, -, hrules⟩ := loadGrammar_text hreloadable
  exact ⟨hreloadable, text, h, htext, hload, hrules⟩

end Grammar

end FormalLanguage
