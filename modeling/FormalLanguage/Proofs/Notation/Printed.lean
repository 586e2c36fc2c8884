import FormalLanguage.Grammar.Printer
import FormalLanguage.Notation.Load
import FormalLanguage.Proofs.Grammar.WellFormed
import FormalLanguage.Proofs.Notation.LineForm
import FormalLanguage.Proofs.Notation.Scanning
import FormalLanguage.Proofs.Outcome

/-!
The text of a grammar whose names are single characters. Main statement: it is read as a document with
one rule for each nonterminal that has rules, whose alternatives spell its bodies.
-/
namespace FormalLanguage.Grammar

open Notation

variable {g : Grammar} {r : Rule} {s : Symbol} {n : NonTerminal} {body : Body}

/-- The symbol stands in a rule. -/
def InRules (g : Grammar) (s : Symbol) : Prop := ∃ r ∈ g.rules, s = .nonterminal r.lhs ∨ s ∈ r.body

def HasRule (g : Grammar) (n : NonTerminal) : Prop := ∃ body, ⟨n, body⟩ ∈ g.rules

/-- A character that names a symbol and has no other meaning in a text. -/
def IsName (c : Char) : Prop := isBlank c = false ∧ c ∉ ['|', '"', '#', '%', '>', '=', '→', 'ε']

/-- The text of the grammar says which symbols its characters stand for. -/
structure Reloadable (g : Grammar) : Prop where
  start : ∃ start, g.start = some start ∧ g.HasRule start
  contains : ∀ s, g.InRules s → g.table.contains s = true
  named : ∀ s, g.InRules s → ∃ c, g.table.nameOf? s = some (String.singleton c) ∧ IsName c
  lower : ∀ a c, g.InRules (.terminal a) → g.table.nameOf? (.terminal a) = some (String.singleton c) →
    isUpper c = false
  upper : ∀ n, g.InRules (.nonterminal n) → g.HasRule n ∨
    ∃ c, g.table.nameOf? (.nonterminal n) = some (String.singleton c) ∧ isUpper c = true

/-- The character that a symbol is written with. -/
def letter (g : Grammar) (s : Symbol) : Char :=
  ((g.table.nameOf? s).bind fun name => name.toList.head?).getD default

def bodyChars (g : Grammar) : Body → List Char
  | [] => ['ε']
  | s :: body => (s :: body).map g.letter

def lineChars (g : Grammar) (n : NonTerminal) : List Char :=
  g.letter (.nonterminal n) :: ' ' :: '-' :: '>' :: ' ' ::
    [' ', '|', ' '].intercalate ((g.bodies n).map g.bodyChars)

theorem inRules_lhs (h : g.HasRule n) : g.InRules (.nonterminal n) := by
  obtain ⟨body, hbody⟩ := h
  exact ⟨_, hbody, .inl rfl⟩

theorem inRules_body (h : body ∈ g.bodies n) (hs : s ∈ body) : g.InRules s :=
  ⟨_, mem_bodies.1 h, .inr hs⟩

theorem mem_leftSides : n ∈ g.leftSides ↔ g.HasRule n := by
  rw [leftSides, OrderedSet.mem_ofList, List.mem_map]
  constructor
  · rintro ⟨r, hr, rfl⟩
    exact ⟨r.body, hr⟩
  · rintro ⟨body, hbody⟩
    exact ⟨_, hbody, rfl⟩

theorem mem_lineOrder : n ∈ g.lineOrder ↔ g.HasRule n := by
  rw [lineOrder, List.mem_append, List.mem_filter, List.mem_filter, OrderedSet.mem_toList,
    mem_leftSides]
  simp only [decide_eq_true_eq, ← and_or_left]
  exact and_iff_left (Classical.em _)

/-- The start symbol has the first line. -/
theorem exists_lineOrder {start : NonTerminal} (hstart : g.start = some start)
    (hrule : g.HasRule start) : ∃ rest, g.lineOrder = start :: rest := by
  have hmem : start ∈ g.leftSides.toList.filter fun n => some n = g.start := by
    have hsides := mem_lineOrder.2 hrule
    rw [lineOrder, List.mem_append, List.mem_filter, List.mem_filter] at hsides
    simpa [hstart] using hsides
  cases hfirst : g.leftSides.toList.filter fun n => some n = g.start with
  | nil =>
    rw [hfirst] at hmem
    cases hmem
  | cons n rest =>
    have hn : n ∈ g.leftSides.toList.filter fun n => some n = g.start :=
      hfirst ▸ List.mem_cons_self
    have heq : n = start := by simpa [hstart] using (List.mem_filter.1 hn).2
    exact ⟨_, by rw [lineOrder, hfirst, heq, List.cons_append]⟩

theorem letter_eq {c : Char} (h : g.table.nameOf? s = some (String.singleton c)) :
    g.letter s = c := by
  rw [letter, h]
  simp

namespace Reloadable

theorem nameOf?_eq (h : g.Reloadable) (hs : g.InRules s) :
    g.table.nameOf? s = some (String.singleton (g.letter s)) := by
  obtain ⟨c, hname, -⟩ := h.named s hs
  rw [letter_eq hname, hname]

theorem isName (h : g.Reloadable) (hs : g.InRules s) : IsName (g.letter s) := by
  obtain ⟨c, hname, hc⟩ := h.named s hs
  rwa [letter_eq hname]

end Reloadable

section Decidable

def ruleSymbols (g : Grammar) : List Symbol :=
  g.rules.toList.flatMap fun r => .nonterminal r.lhs :: r.body

theorem mem_ruleSymbols : s ∈ g.ruleSymbols ↔ g.InRules s := by
  simp [ruleSymbols, InRules, OrderedSet.mem_toList]

/-- The letter of a symbol says what its kind is. -/
def tellsKind (g : Grammar) : Symbol → Bool
  | .terminal a => !isUpper (g.letter (.terminal a))
  | .nonterminal n => n ∈ g.leftSides || isUpper (g.letter (.nonterminal n))

instance (c : Char) : Decidable (IsName c) := inferInstanceAs (Decidable (_ ∧ _))

theorem reloadable_iff : g.Reloadable ↔ (∃ start ∈ g.start, start ∈ g.leftSides) ∧
    ∀ s ∈ g.ruleSymbols, g.table.contains s = true ∧
      g.table.nameOf? s = some (String.singleton (g.letter s)) ∧ IsName (g.letter s) ∧
        g.tellsKind s = true := by
  simp only [mem_leftSides, mem_ruleSymbols]
  constructor
  · intro h
    refine ⟨h.start, fun s hs => ⟨h.contains s hs, h.nameOf?_eq hs, h.isName hs, ?_⟩⟩
    cases s with
    | terminal a => simpa [tellsKind] using h.lower a _ hs (h.nameOf?_eq hs)
    | nonterminal n =>
      rw [tellsKind, Bool.or_eq_true, decide_eq_true_eq, mem_leftSides]
      rcases h.upper n hs with hleft | ⟨c, hc, hupper⟩
      · exact .inl hleft
      · exact .inr (letter_eq hc ▸ hupper)
  · rintro ⟨hstart, hall⟩
    refine ⟨hstart, fun s hs => (hall s hs).1, fun s hs => ⟨_, (hall s hs).2.1, (hall s hs).2.2.1⟩,
      fun a c hs hc => ?_, fun n hs => ?_⟩
    · simpa [tellsKind, letter_eq hc] using (hall _ hs).2.2.2
    · have htells := (hall _ hs).2.2.2
      rw [tellsKind, Bool.or_eq_true, decide_eq_true_eq, mem_leftSides] at htells
      exact htells.imp_right fun hupper => ⟨_, (hall _ hs).2.1, hupper⟩

instance : Decidable g.Reloadable := decidable_of_iff _ reloadable_iff.symm

end Decidable

theorem bodyText?_eq (h : g.Reloadable) (hbody : ∀ s ∈ body, g.InRules s) :
    g.bodyText? (body.map .symbol) = some (String.ofList (g.bodyChars body)) := by
  cases body with
  | nil => rfl
  | cons s body =>
    have hnames : ((s :: body).map Mark.symbol).mapM g.table.markText? =
        some ((s :: body).map fun s => String.singleton (g.letter s)) := by
      rw [List.mapM_map]
      exact mapM_eq_map fun s hs => h.nameOf?_eq (hbody s hs)
    show (((s :: body).map Mark.symbol).mapM g.table.markText?).map joinNames = _
    rw [hnames, Option.map_some, Option.some.injEq, ← String.toList_inj, joinNames, if_pos]
    · rw [String.toList_join, String.toList_ofList]
      simp [bodyChars, List.flatMap_map, ← List.map_eq_flatMap]
    · simp

theorem lineText?_eq (h : g.Reloadable) (hn : g.HasRule n) :
    g.lineText? n = some (String.ofList (g.lineChars n ++ ['\n'])) := by
  have hbodies : ((g.bodies n).mapM fun body => g.bodyText? (body.map .symbol)) =
      some ((g.bodies n).map fun body => String.ofList (g.bodyChars body)) :=
    mapM_eq_map fun body hbody => bodyText?_eq h fun s hs => inRules_body hbody hs
  have hchars : (g.bodies n).map (String.toList ∘ fun body => String.ofList (g.bodyChars body)) =
      (g.bodies n).map g.bodyChars := List.map_congr_left fun body _ => String.toList_ofList
  simp only [lineText?, h.nameOf?_eq (inRules_lhs hn), hbodies, Option.pure_def, Option.bind_eq_bind,
    Option.bind_some, Option.some.injEq, ← String.toList_inj, String.toList_append,
    String.toList_intercalate, String.toList_singleton, String.toList_ofList, List.map_map, hchars]
  rw [lineChars]
  simp

/-- The text is one line for each nonterminal with rules. -/
theorem text?_eq (h : g.Reloadable) : g.text? =
    some (String.ofList (g.lineOrder.flatMap fun n => g.lineChars n ++ ['\n'])) := by
  rw [text?, mapM_eq_map fun n hn => lineText?_eq h (mem_lineOrder.1 hn), Option.map_some,
    Option.some.injEq, ← String.toList_inj, String.toList_join, String.toList_ofList]
  simp [List.flatMap_map]

section Lines

variable {c : Char} {w : List Char} {ws : List (List Char)} {line col : Nat}

/-- The sequence is one unquoted word. -/
def Alone (w : List Char) (s : Sequence) : Prop := ∃ p, s = .ofSymbols ⟨w, false, p⟩ []

/-- The written rule has the nonterminal on its left and its bodies as alternatives. -/
def Spells (g : Grammar) (n : NonTerminal) (r : WrittenRule) : Prop :=
  Alone [g.letter (.nonterminal n)] r.lhs ∧
    List.Forall₂ (fun body s => Alone (g.bodyChars body) s) (g.bodies n) r.alternatives

def IsWord (w : List Char) : Prop := w ≠ [] ∧ ∀ c ∈ w, InWord c

theorem scan_isWord {tail : List Char} (hw : IsWord w) (htail : stops tail = true) :
    scan line 0 col (w ++ tail) =
      (scan line 0 (col + w.length) tail).map (⟨.word w, ⟨line, col⟩⟩ :: ·) :=
  scan_spelled (spelled_of_inWord hw.1 hw.2) fun _ _ => htail

/-- Words between bars are read as alternatives. -/
theorem exists_barred (hne : ws ≠ []) (hws : ∀ w ∈ ws, IsWord w) : ∃ row ss,
    scan line 0 col ([' ', '|', ' '].intercalate ws) = .ok row ∧ Barred row ss ∧
      List.Forall₂ Alone ws ss := by
  induction ws generalizing col with
  | nil => exact absurd rfl hne
  | cons w ws ih =>
    rw [List.forall_mem_cons] at hws
    let first : Written := ⟨w, false, line, col⟩
    have hproper : (Sequence.ofSymbols first []).Proper := ⟨first, [], rfl⟩
    cases ws with
    | nil =>
      have hscan := @scan_isWord w line col [] hws.1 rfl
      rw [List.append_nil] at hscan
      refine ⟨[first.lexeme], [.ofSymbols first []], ?_, .last hproper, .cons ⟨_, rfl⟩ .nil⟩
      rw [List.intercalate_singleton, hscan, scan]
      rfl
    | cons w' ws =>
      obtain ⟨row, ss, hrow, hss, halone⟩ :=
        @ih (col + w.length + 1 + 1 + 1) (List.cons_ne_nil _ _) hws.2
      refine ⟨first.lexeme :: ⟨.bar, line, col + w.length + 1⟩ :: row, .ofSymbols first [] :: ss, ?_,
        .more hproper _ hss, .cons ⟨_, rfl⟩ halone⟩
      rw [List.intercalate_cons_cons, List.append_assoc, scan_isWord hws.1 rfl, List.cons_append,
        scan_blank rfl, List.cons_append, scan_token (show opening '|' _ = .token .bar 0 from rfl),
        List.cons_append, List.drop_zero, List.nil_append, scan_blank rfl, hrow]
      rfl

theorem isWord_letter (h : g.Reloadable) (hs : g.InRules s) : InWord (g.letter s) := by
  obtain ⟨hblank, hc⟩ := h.isName hs
  refine ⟨hblank, fun hmem => hc ?_⟩
  simp only [List.mem_cons, List.not_mem_nil, or_false] at hmem ⊢
  grind

theorem isWord_bodyChars (h : g.Reloadable) (hbody : ∀ s ∈ body, g.InRules s) :
    IsWord (g.bodyChars body) := by
  cases body with
  | nil => exact ⟨List.cons_ne_nil _ _, by simp [bodyChars, InWord]; decide⟩
  | cons s body =>
    exact ⟨List.cons_ne_nil _ _, List.forall_mem_map.2 fun s hs => isWord_letter h (hbody s hs)⟩

theorem notMem_intercalate {d : Char} {sep : List Char} (hsep : d ∉ sep) (hws : ∀ w ∈ ws, d ∉ w) :
    d ∉ sep.intercalate ws := by
  induction ws with
  | nil => simp
  | cons w ws ih =>
    rw [List.forall_mem_cons] at hws
    cases ws with
    | nil => simpa using hws.1
    | cons w' ws =>
      rw [List.intercalate_cons_cons, List.mem_append, List.mem_append, not_or, not_or]
      exact ⟨⟨hws.1, hsep⟩, ih hws.2⟩

theorem notMem_lineChars {d : Char} (h : g.Reloadable) (hn : g.HasRule n) (hblank : isBlank d = true)
    (hd : d ∉ [' ', '-', '>', '|']) : d ∉ g.lineChars n := by
  have hword : ∀ w : List Char, (∀ c ∈ w, InWord c) → d ∉ w := by
    intro w hw hmem
    rw [(hw d hmem).1] at hblank
    cases hblank
  have hbodies : d ∉ [' ', '|', ' '].intercalate ((g.bodies n).map g.bodyChars) := by
    refine notMem_intercalate (by simp_all) (List.forall_mem_map.2 fun body hbody => ?_)
    exact hword _ (isWord_bodyChars h fun s hs => inRules_body hbody hs).2
  have hletter : d ∉ [g.letter (.nonterminal n)] :=
    hword _ (by simpa using isWord_letter h (inRules_lhs hn))
  simp_all [lineChars]

/-- A line of the text is read as a rule. -/
theorem exists_scanLine (h : g.Reloadable) (hn : g.HasRule n) (k : Nat) : ∃ l r,
    scanLine k (g.lineChars n) = .ok l ∧ l.HasForm (.rule r.lhs r.alternatives) ∧ g.Spells n r := by
  have hletter := isWord_letter h (inRules_lhs hn)
  have hpercent : g.letter (.nonterminal n) ≠ '%' := fun heq =>
    (h.isName (inRules_lhs hn)).2 (by simp [heq])
  have hdirective : isDirective (g.lineChars n) = false := by
    rw [isDirective, lineChars, List.dropWhile_cons_of_neg (Bool.eq_false_iff.1 hletter.1)]
    simpa using hpercent
  have hne : (g.bodies n).map g.bodyChars ≠ [] := by
    obtain ⟨body, hbody⟩ := hn
    exact List.ne_nil_of_mem (List.mem_map_of_mem (mem_bodies.2 hbody))
  have hwords : ∀ w ∈ (g.bodies n).map g.bodyChars, IsWord w :=
    List.forall_mem_map.2 fun body hbody => isWord_bodyChars h fun s hs => inRules_body hbody hs
  obtain ⟨row, ss, hrow, hss, halone⟩ := @exists_barred _ k 6 hne hwords
  let first : Written := ⟨[g.letter (.nonterminal n)], false, k, 1⟩
  have hscan : scan k 0 1 (g.lineChars n) =
      .ok ((Sequence.ofSymbols first []).lexemes ++ ⟨.arrow, k, 3⟩ :: row) := by
    have hword : IsWord [g.letter (.nonterminal n)] :=
      ⟨List.cons_ne_nil _ _, by simpa using hletter⟩
    rw [lineChars, ← List.singleton_append, scan_isWord hword rfl, scan_blank rfl,
      scan_token (show opening '-' _ = .token .arrow 1 from rfl), List.drop_one, List.tail_cons,
      scan_blank rfl]
    exact congrArg (Except.map _ ∘ Except.map _) hrow
  rw [scanLine_of_not_isDirective hdirective, hscan]
  refine ⟨_, ⟨.ofSymbols first [], ss⟩, rfl, .rule ⟨first, [], rfl⟩ _ hss _, ⟨_, rfl⟩, ?_⟩
  rwa [List.forall₂_map_left_iff] at halone

theorem exists_scanLines (h : g.Reloadable) {ns : List NonTerminal} (hns : ∀ n ∈ ns, g.HasRule n)
    (k : Nat) : ∃ ls rs, scanLines k (ns.map g.lineChars) = .ok ls ∧
      List.Forall₂ Line.HasForm ls (rs.map fun r => .rule r.lhs r.alternatives) ∧
        List.Forall₂ g.Spells ns rs := by
  induction ns generalizing k with
  | nil => exact ⟨[], [], rfl, .nil, .nil⟩
  | cons n ns ih =>
    rw [List.forall_mem_cons] at hns
    obtain ⟨l, r, hl, hform, hspells⟩ := exists_scanLine h hns.1 k
    obtain ⟨ls, rs, hls, hforms, hall⟩ := ih hns.2 (k + 1)
    refine ⟨l :: ls, r :: rs, ?_, .cons hform hforms, .cons hspells hall⟩
    rw [List.map_cons, scanLines, hl, hls]
    rfl

end Lines

section Document

variable {rs : List WrittenRule}

theorem items_rules (rs : List WrittenRule) :
    Layout.items (rs.map fun r => .rule r.lhs r.alternatives) = rs.map .rule := by
  induction rs with
  | nil => rfl
  | cons r rs ih =>
    have hcontinued : Layout.continued (rs.map fun r => .rule r.lhs r.alternatives) = [] := by
      cases rs <;> rfl
    rw [List.map_cons, Layout.items, hcontinued, ih, List.append_nil, List.map_cons]

theorem inOrder_rules (rs : List WrittenRule) :
    Layout.InOrder (rs.map fun r => .rule r.lhs r.alternatives) := by
  suffices h : ∀ above, (above :: rs.map fun r => Layout.rule r.lhs r.alternatives).IsChain
      Layout.Follows from h .blank
  induction rs with
  | nil => exact .singleton
  | cons r rs ih => exact fun above => .cons_cons (fun hy => nomatch hy) (ih _)

theorem foldlM_addItem (rs : List WrittenRule) (d : Document) :
    (rs.map Item.rule).foldlM Document.addItem d = .ok { d with rules := d.rules ++ rs } := by
  induction rs generalizing d with
  | nil => rw [List.append_nil]; rfl
  | cons r rs ih =>
    rw [List.map_cons, List.foldlM_cons]
    show (rs.map Item.rule).foldlM Document.addItem { d with rules := d.rules ++ [r] } = _
    rw [ih, List.append_assoc]
    rfl

/-- The text is read as one rule for each nonterminal that has rules, the start symbol first. -/
theorem exists_document (h : g.Reloadable) : ∃ text rs, g.text? = some text ∧
    Document.parse text.toList = .ok { rules := rs } ∧ List.Forall₂ g.Spells g.lineOrder rs := by
  have hns : ∀ n ∈ g.lineOrder, g.HasRule n := fun n => mem_lineOrder.1
  obtain ⟨ls, rs, hls, hforms, hspells⟩ := exists_scanLines h hns 1
  refine ⟨_, rs, text?_eq h, ?_, hspells⟩
  have hsplit : splitLines (g.lineOrder.flatMap fun n => g.lineChars n ++ ['\n']) =
      g.lineOrder.map g.lineChars := by
    have hlines : ∀ l ∈ g.lineOrder.map g.lineChars, '\n' ∉ l ∧ (['\n'] = ['\n'] → '\r' ∉ l) :=
      List.forall_mem_map.2 fun n hn =>
        ⟨notMem_lineChars h (hns n hn) (by decide) (by decide), fun _ =>
          notMem_lineChars h (hns n hn) (by decide) (by decide)⟩
    have hjoined := @splitLines_flatMap [] _ _ (.inl rfl) hlines
    rwa [List.flatMap_map, List.append_nil, splitLines, List.append_nil] at hjoined
  have hitems : itemsFrom none ls = .ok (rs.map .rule) :=
    itemsFrom_eq_ok_iff.2 ⟨_, hforms, inOrder_rules rs, (items_rules rs).symm⟩
  rw [Document.parse, String.toList_ofList, lexLines, hsplit, hls]
  show (itemsFrom none ls >>= _) = _
  rw [hitems]
  exact foldlM_addItem rs {}

end Document

end FormalLanguage.Grammar
