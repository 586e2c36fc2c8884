import FormalLanguage.Generation.Sampling
import FormalLanguage.Grammar.Leftmost
import FormalLanguage.Proofs.Grammar.Productive

/-!
Words drawn at random. Main statement: whatever is picked, a choice is never empty and a word that
comes out is derived leftmost, one step for each pick; and every word whose leftmost derivation is
within the limits comes out for some picks.
-/
namespace FormalLanguage

universe u

variable {σ : Type u} {pick : (n : Nat) → 0 < n → σ → Fin n × σ}

/-- Picks that are counted. -/
def counted (pick : (n : Nat) → 0 < n → σ → Fin n × σ) (n : Nat) (h : 0 < n) :
    σ × Nat → Fin n × (σ × Nat)
  | (s, k) => ((pick n h s).1, (pick n h s).2, k + 1)

/-- Picks that are read off a list, modulo the number of choices. -/
def scripted (n : Nat) (h : 0 < n) : List Nat → Fin n × List Nat
  | [] => (⟨0, h⟩, [])
  | i :: script => (⟨i % n, Nat.mod_lt i h⟩, script)

theorem leadingTerminals_ofWord (w : Word) : leadingTerminals (.ofWord w) = (w, []) := by
  induction w with
  | nil => rfl
  | cons a w ih => rw [Body.ofWord_cons, leadingTerminals, ih]

theorem leadingTerminals_append (w : Word) (n : NonTerminal) (after : Body) :
    leadingTerminals (.ofWord w ++ .nonterminal n :: after) = (w, .nonterminal n :: after) := by
  induction w with
  | nil => rfl
  | cons a w ih => rw [Body.ofWord_cons, List.cons_append, leadingTerminals, ih]

/-- A form is a word, or has a leftmost nonterminal. -/
theorem form_cases (form : Body) : (∃ w, form = Body.ofWord w) ∨
    ∃ w n after, form = Body.ofWord w ++ .nonterminal n :: after := by
  induction form with
  | nil => exact .inl ⟨[], rfl⟩
  | cons s form ih =>
    cases s with
    | nonterminal n => exact .inr ⟨[], n, form, rfl⟩
    | terminal a =>
      rcases ih with ⟨w, rfl⟩ | ⟨w, n, after, rfl⟩
      · exact .inl ⟨a :: w, rfl⟩
      · exact .inr ⟨a :: w, n, after, rfl⟩

namespace Grammar

variable {g : Grammar} {productive : SymbolSet} {maxTerminals left m : Nat} {word more w : Word}
  {form after body : Body} {n : NonTerminal} {s : σ} {limits : Limits}

/-- The start symbol and all symbols in use or in a rule are symbols of the table. -/
structure OverTable (g : Grammar) : Prop where
  start : ∀ n, g.start = some n → g.table.contains (.nonterminal n) = true
  uses : ∀ s, g.uses s = true → g.table.contains s = true
  lhs : ∀ r ∈ g.rules, g.table.contains (.nonterminal r.lhs) = true
  body : ∀ r ∈ g.rules, ∀ s ∈ r.body, g.table.contains s = true

theorem WellFormed.overTable (wf : g.WellFormed) : g.OverTable where
  start _ hstart := wf.contains _ (Vocabulary.uses_nonterminal.2 (wf.start_mem hstart))
  uses := wf.contains
  lhs _ hr := wf.contains _ (wf.uses_lhs hr)
  body _ hr _ hs := wf.contains _ (wf.uses_body hr hs)

theorem finishWord_ofWord :
    finishWord pick g productive maxTerminals left word (.ofWord more) s =
      if maxTerminals < (word ++ more).length then (.error .limitExceeded, s)
      else (.ok (word ++ more), s) := by
  rw [finishWord]
  simp only [leadingTerminals_ofWord]

theorem finishWord_zero :
    finishWord pick g productive maxTerminals 0 word (.ofWord more ++ .nonterminal n :: after) s =
      (.error .limitExceeded, s) := by
  rw [finishWord]
  simp only [leadingTerminals_append, ite_self]

theorem finishWord_succ :
    finishWord pick g productive maxTerminals (left + 1) word
        (.ofWord more ++ .nonterminal n :: after) s =
      if maxTerminals < (word ++ more).length then (.error .limitExceeded, s)
      else if h : 0 < (g.choices productive n).length then
        finishWord pick g productive maxTerminals left (word ++ more)
          ((g.choices productive n)[(pick _ h s).1] ++ after) (pick _ h s).2
      else (.error .noChoice, s) := by
  rw [finishWord]
  simp only [leadingTerminals_append]

/--
What holds of a word in hand, of a limit that is exceeded and of a nonterminal without choices, and
is handed back from each choice, holds of what comes out.
-/
theorem finishWord_induction
    {P : Nat → Word → Body → σ → Except SamplingError Word × σ → Prop}
    (finished : ∀ left word more s, (word ++ more).length ≤ maxTerminals →
      P left word (Body.ofWord more) s (.ok (word ++ more), s))
    (exceeded : ∀ left word form s, P left word form s (.error .limitExceeded, s))
    (stuck : ∀ left word more n after s, g.choices productive n = [] →
      P left word (Body.ofWord more ++ .nonterminal n :: after) s (.error .noChoice, s))
    (replaced : ∀ left word more n after s out, ∀ h : 0 < (g.choices productive n).length,
      P left (word ++ more) ((g.choices productive n)[(pick _ h s).1] ++ after) (pick _ h s).2 out →
      P (left + 1) word (Body.ofWord more ++ .nonterminal n :: after) s out)
    (left : Nat) (word : Word) (form : Body) (s : σ) :
    P left word form s (finishWord pick g productive maxTerminals left word form s) := by
  have hword (left : Nat) (word more : Word) (s : σ) : P left word (Body.ofWord more) s
      (finishWord pick g productive maxTerminals left word (Body.ofWord more) s) := by
    rw [finishWord_ofWord]
    split
    · exact exceeded left word _ s
    · next hle => exact finished left word more s (Nat.le_of_not_lt hle)
  induction left generalizing word form s with
  | zero =>
    rcases form_cases form with ⟨more, rfl⟩ | ⟨more, n, after, rfl⟩
    · exact hword 0 word more s
    · rw [finishWord_zero]
      exact exceeded 0 word _ s
  | succ left ih =>
    rcases form_cases form with ⟨more, rfl⟩ | ⟨more, n, after, rfl⟩
    · exact hword (left + 1) word more s
    · rw [finishWord_succ]
      split
      · exact exceeded (left + 1) word _ s
      · split
        · next h => exact replaced left word more n after s _ h (ih _ _ _)
        · next h =>
          exact stuck (left + 1) word more n after s (List.eq_nil_of_length_eq_zero (by omega))

theorem mem_choices :
    body ∈ g.choices productive n ↔ ⟨n, body⟩ ∈ g.rules ∧ ∀ x ∈ body, productive.has x = true := by
  rw [choices, List.mem_filter, mem_bodies, List.all_eq_true]

/-- A replacement by a choice is a leftmost step. -/
theorem leftmostStep_of_choice (h : body ∈ g.choices productive n) (before : Word) :
    g.LeftmostStep (.ofWord before ++ .nonterminal n :: after)
      (.ofWord before ++ (body ++ after)) := by
  have hstep := LeftmostStep.replace (mem_choices.1 h).1 before after
  rwa [List.append_assoc] at hstep

/-- No more picks are made than replacements are left. -/
theorem picks_finishWord_le (k : Nat) :
    (finishWord (counted pick) g productive maxTerminals left word form (s, k)).2.2 ≤ k + left :=
  finishWord_induction (P := fun left _ _ s out => out.2.2 ≤ s.2 + left)
    (fun _ _ _ _ _ => Nat.le_add_right _ _) (fun _ _ _ _ => Nat.le_add_right _ _)
    (fun _ _ _ _ _ _ _ => Nat.le_add_right _ _)
    (fun left _ _ _ _ s out _ hout => by
      have hcount : out.2.2 ≤ s.2 + 1 + left := hout
      omega) left word form (s, k)

/-- A word that comes out is derived leftmost in as many steps as picks were made. -/
theorem leftmost_of_finishWord (k : Nat)
    (h : (finishWord (counted pick) g productive maxTerminals left word form (s, k)).1 = .ok w) :
    w.length ≤ maxTerminals ∧ ∃ m,
      (finishWord (counted pick) g productive maxTerminals left word form (s, k)).2.2 = k + m ∧
        g.LeftmostDerives m (.ofWord word ++ form) (.ofWord w) := by
  refine finishWord_induction
    (P := fun _ word form s out => out.1 = .ok w → w.length ≤ maxTerminals ∧
      ∃ m, out.2.2 = s.2 + m ∧ g.LeftmostDerives m (.ofWord word ++ form) (.ofWord w))
    ?_ ?_ ?_ ?_ left word form (s, k) h
  · intro left word more s hle hout
    cases hout
    exact ⟨hle, 0, rfl, Body.ofWord_append word more ▸ .refl _⟩
  · intro left word form s hout
    cases hout
  · intro left word more n after s _ hout
    cases hout
  · intro left word more n after s out hpos hrest hout
    obtain ⟨hlen, m, hpicks, hm⟩ := hrest hout
    refine ⟨hlen, m + 1, ?_, ?_⟩
    · have hcount : out.2.2 = s.2 + 1 + m := hpicks
      omega
    · have hstep := @leftmostStep_of_choice g productive after _ n
        (List.getElem_mem (counted pick _ hpos s).1.isLt) (word ++ more)
      rw [Body.ofWord_append, List.append_assoc] at hstep
      rw [Body.ofWord_append] at hm
      exact .head hstep (List.append_assoc _ _ _ ▸ hm)

/-- Counting the picks does not change what comes out. -/
theorem fst_finishWord_counted (k : Nat) :
    (finishWord (counted pick) g productive maxTerminals left word form (s, k)).1 =
      (finishWord pick g productive maxTerminals left word form s).1 := by
  induction left generalizing word form s k with
  | zero =>
    rcases form_cases form with ⟨more, rfl⟩ | ⟨more, n, after, rfl⟩
    · rw [finishWord_ofWord, finishWord_ofWord]
      split <;> rfl
    · rw [finishWord_zero, finishWord_zero]
  | succ left ih =>
    rcases form_cases form with ⟨more, rfl⟩ | ⟨more, n, after, rfl⟩
    · rw [finishWord_ofWord, finishWord_ofWord]
      split <;> rfl
    · rw [finishWord_succ, finishWord_succ]
      split
      · rfl
      · split
        · exact ih (k + 1)
        · rfl

/-- A productive nonterminal has a body to choose, whose symbols are productive as well. -/
theorem exists_choice (hg : g.OverTable) (hn : g.table.contains (.nonterminal n) = true)
    (hprod : g.productiveSymbols.has (.nonterminal n) = true) :
    g.choices g.productiveSymbols n ≠ [] := by
  -- The closure adds a left-hand side only for a body that is a choice.
  refine (closure_le (C := fun id => g.productiveSymbols.hasId id = true ∧
    ∀ n, g.table.contains (.nonterminal n) = true → n.id = id →
      g.choices g.productiveSymbols n ≠ []) ?_ ?_ n.id hprod).2 n hn rfl
  · intro r hr hbody
    refine ⟨closed_closure g .all _ r hr ⟨hbody.1, fun x hx => (hbody.2 x hx).1⟩, ?_⟩
    intro n hn hid
    cases SymbolTable.eq_of_contains hn (hg.lhs r hr) hid
    exact List.ne_nil_of_mem (mem_choices.2 ⟨hr, fun x hx => (hbody.2 x hx).1⟩)
  · intro id hid
    refine ⟨hasId_closure hid, ?_⟩
    intro n hn hnid
    rcases hasId_seed.1 hid with ⟨a, ha, haid⟩ | ⟨r, hr, hbody, hrid⟩
    · have hcontains := hg.uses _ (Vocabulary.uses_terminal.2 ha)
      cases SymbolTable.eq_of_contains hn hcontains (hnid.trans haid.symm)
    · cases SymbolTable.eq_of_contains hn (hg.lhs r hr) (hnid.trans hrid.symm)
      refine List.ne_nil_of_mem (mem_choices.2 ⟨hr, fun x hx => ?_⟩)
      rw [hbody] at hx
      cases hx

/-- No choice is empty as long as all symbols of the form are productive. -/
theorem finishWord_ne_noChoice (hg : g.OverTable)
    (hform : ∀ x ∈ form, g.table.contains x = true ∧ g.productiveSymbols.has x = true) :
    (finishWord pick g g.productiveSymbols maxTerminals left word form s).1 ≠ .error .noChoice := by
  refine finishWord_induction
    (P := fun _ _ form _ out => (∀ x ∈ form, g.table.contains x = true ∧
      g.productiveSymbols.has x = true) → out.1 ≠ .error .noChoice)
    ?_ ?_ ?_ ?_ left word form s hform
  · intro left word more s _ _ hout
    cases hout
  · intro left word form s _ hout
    cases hout
  · intro left word more n after s hempty hform
    obtain ⟨hn, hprod⟩ := hform (.nonterminal n) (by simp)
    exact absurd hempty (exists_choice hg hn hprod)
  · intro left word more n after s out hpos hrest hform
    refine hrest fun x hx => ?_
    rcases List.mem_append.1 hx with hx | hx
    · obtain ⟨hrule, hprod⟩ :=
        mem_choices.1 (List.getElem_mem (l := g.choices g.productiveSymbols n) (pick _ hpos s).1.isLt)
      exact ⟨hg.body _ hrule x hx, hprod x hx⟩
    · exact hform x (by simp [hx])

theorem yields_ofWord_iff {u : Word} : g.Yields (.ofWord u) w ↔ w = u := by
  constructor
  · intro h
    induction u generalizing w with
    | nil => exact yields_nil_iff.1 h
    | cons a u ih =>
      cases h with
      | terminal _ h => rw [ih h]
  · rintro rfl
    exact yields_ofWord w

/-- The terminals in front of a form stay in front. -/
theorem length_le_of_leftmost (h : g.LeftmostDerives m (.ofWord word ++ form) (.ofWord w)) :
    word.length ≤ w.length := by
  obtain ⟨u, v, rfl, hu, -⟩ := yields_append_iff.1 (yields_of_derives h.derives)
  rw [yields_ofWord_iff.1 hu, List.length_append]
  exact Nat.le_add_right _ _

/-- Only the leftmost nonterminal is replaced. -/
theorem LeftmostStep.exists_rule {next : Body}
    (h : g.LeftmostStep (.ofWord word ++ .nonterminal n :: after) next) :
    ∃ r ∈ g.rules, r.lhs = n ∧ next = .ofWord word ++ (r.body ++ after) := by
  generalize hform : Body.ofWord word ++ .nonterminal n :: after = form at h
  cases h with
  | @replace r hr before after' =>
    have hleading := congrArg leadingTerminals hform
    rw [leadingTerminals_append, leadingTerminals_append] at hleading
    cases hleading
    exact ⟨r, hr, rfl, List.append_assoc _ _ _⟩

theorem not_leftmostStep_ofWord {next : Body} (h : g.LeftmostStep (.ofWord word) next) : False := by
  generalize hform : Body.ofWord word = form at h
  cases h with
  | replace hr before after =>
    have hleading := congrArg leadingTerminals hform
    rw [leadingTerminals_ofWord, leadingTerminals_append] at hleading
    cases hleading

/-- A body in a derivation of a word is a choice. -/
theorem mem_choices_of_leftmost (wf : g.WellFormed) {r : Rule} (hr : r ∈ g.rules)
    (h : g.LeftmostDerives m (.ofWord word ++ (r.body ++ after)) (.ofWord w)) :
    r.body ∈ g.choices g.productiveSymbols r.lhs := by
  obtain ⟨_, _, -, -, hrest⟩ := yields_append_iff.1 (yields_of_derives h.derives)
  obtain ⟨u, _, -, hu, -⟩ := yields_append_iff.1 hrest
  exact mem_choices.2 ⟨hr, productive_of_yields wf hu fun x hx => wf.uses_body hr hx⟩

/-- Every word whose leftmost derivation is within the limits comes out for some picks. -/
theorem exists_script (wf : g.WellFormed) (hleft : m ≤ left) (hlen : w.length ≤ maxTerminals)
    (h : g.LeftmostDerives m (.ofWord word ++ form) (.ofWord w)) :
    ∃ script, (finishWord scripted g g.productiveSymbols maxTerminals left word form script).1 =
      .ok w := by
  induction m generalizing word form left with
  | zero =>
    rcases form_cases form with ⟨more, rfl⟩ | ⟨more, n, after, rfl⟩
    · have hw : w = word ++ more := by
        rw [← Body.ofWord_append] at h
        exact yields_ofWord_iff.1 (yields_of_derives h.derives)
      subst hw
      exact ⟨[], by rw [finishWord_ofWord, if_neg (Nat.not_lt.2 hlen)]⟩
    · rw [← List.append_assoc, ← Body.ofWord_append] at h
      generalize hform : Body.ofWord (word ++ more) ++ .nonterminal n :: after = start at h
      generalize hlast : Body.ofWord w = last at h
      cases h with
      | refl =>
        have hleading := congrArg leadingTerminals (hform.trans hlast.symm)
        rw [leadingTerminals_append, leadingTerminals_ofWord] at hleading
        cases hleading
  | succ m ih =>
    rcases form_cases form with ⟨more, rfl⟩ | ⟨more, n, after, rfl⟩
    · rw [← Body.ofWord_append] at h
      cases h with
      | head first _ => exact (not_leftmostStep_ofWord first).elim
    · rw [← List.append_assoc, ← Body.ofWord_append] at h
      have hmore := length_le_of_leftmost h
      cases h with
      | head first rest =>
        obtain ⟨r, hr, rfl, rfl⟩ := first.exists_rule
        obtain ⟨i, hi, hbody⟩ := List.getElem_of_mem (mem_choices_of_leftmost wf hr rest)
        obtain ⟨left, rfl⟩ : ∃ k, left = k + 1 := ⟨left - 1, by omega⟩
        obtain ⟨script, hscript⟩ := ih (Nat.le_of_succ_le_succ hleft) rest
        refine ⟨i :: script, ?_⟩
        have hpos : 0 < (g.choices g.productiveSymbols r.lhs).length := Nat.zero_lt_of_lt hi
        have hpick : scripted _ hpos (i :: script) = (⟨i, hi⟩, script) := by
          simp only [scripted, Nat.mod_eq_of_lt hi]
        rw [finishWord_succ, if_neg (by omega), dif_pos hpos]
        simpa only [hpick, Fin.getElem_fin, hbody] using hscript

theorem sample_of_start {start : NonTerminal} (hstart : g.start = some start) :
    g.sample pick limits s = if g.productiveSymbols.has (.nonterminal start) = true then
      finishWord pick g g.productiveSymbols limits.terminals limits.expansions []
        [.nonterminal start] s
      else (.error .noStart, s) := by
  simp only [sample, hstart]
  rfl

/-- Drawing goes on to a word or to a limit. -/
theorem finishWord_ne_noStart :
    (finishWord pick g productive maxTerminals left word form s).1 ≠ .error .noStart := by
  refine finishWord_induction
    (P := fun _ _ _ _ out => out.1 ≠ .error .noStart) ?_ ?_ ?_ ?_ left word form s
  · intro left word more s _ hout
    cases hout
  · intro left word form s hout
    cases hout
  · intro left word more n after s _ hout
    cases hout
  · intro left word more n after s out _ hrest
    exact hrest

/-- Nothing can be drawn just if there is no word. -/
theorem sample_eq_noStart_iff (wf : g.WellFormed) :
    (g.sample pick limits s).1 = .error .noStart ↔ ∀ w, ¬g.Generates w := by
  obtain ⟨start, hstart, hmem⟩ := wf.exists_start
  have hwords := productive_iff wf (Vocabulary.uses_nonterminal.2 hmem)
  simp only [generates_iff_of_start hstart, ← not_exists]
  rw [sample_of_start hstart, ← hwords]
  split
  · next hprod => simp [hprod, finishWord_ne_noStart]
  · next hprod => simp [hprod]

/--
For a grammar over the symbols of its table, whatever is picked: at most as many picks are made as
expansions are allowed, each from at least one choice, and a word that comes out has a leftmost
derivation with one step for each pick and is not too long. If the grammar also passes its check,
every word that has a leftmost derivation within the limits comes out for some picks, and nothing
can be drawn just if the start symbol derives no word.
-/
theorem sample_agrees_with_leftmost (hg : g.OverTable) (limits : Limits) :
    (∀ (σ : Type u) (pick : (n : Nat) → 0 < n → σ → Fin n × σ) (s : σ),
      (g.sample (counted pick) limits (s, 0)).1 = (g.sample pick limits s).1 ∧
      (g.sample (counted pick) limits (s, 0)).2.2 ≤ limits.expansions ∧
      (g.sample pick limits s).1 ≠ .error .noChoice ∧
      ∀ w, (g.sample pick limits s).1 = .ok w →
        g.Generates w ∧ w.length ≤ limits.terminals ∧ ∃ start, g.start = some start ∧
          g.LeftmostDerives (g.sample (counted pick) limits (s, 0)).2.2 [.nonterminal start]
            (.ofWord w)) ∧
    (g.validate = .ok () →
      (∀ start m w, g.start = some start → g.LeftmostDerives m [.nonterminal start] (.ofWord w) →
        w.length ≤ limits.terminals → m ≤ limits.expansions →
          ∃ script, (g.sample scripted limits script).1 = .ok w) ∧
      ∀ (σ : Type u) (pick : (n : Nat) → 0 < n → σ → Fin n × σ) (s : σ),
        (g.sample pick limits s).1 = .error .noStart ↔ ∀ w, ¬g.Generates w) := by
  constructor
  · intro σ pick s
    cases hstart : g.start with
    | none => simp [sample, hstart]
    | some start =>
      rw [sample_of_start hstart, sample_of_start hstart]
      split
      · next hprod =>
        have hform : ∀ x ∈ [Symbol.nonterminal start],
            g.table.contains x = true ∧ g.productiveSymbols.has x = true :=
          List.forall_mem_singleton.2 ⟨hg.start start hstart, hprod⟩
        refine ⟨fst_finishWord_counted 0, ?_, finishWord_ne_noChoice hg hform, ?_⟩
        · exact Nat.le_trans (picks_finishWord_le 0) (Nat.le_of_eq (Nat.zero_add _))
        · intro w hw
          obtain ⟨hlen, m, hpicks, hm⟩ :=
            leftmost_of_finishWord 0 ((fst_finishWord_counted 0).trans hw)
          rw [Nat.zero_add] at hpicks
          exact ⟨⟨start, hstart, hm.derives⟩, hlen, start, rfl, hpicks ▸ hm⟩
      · simp
  · intro hvalid
    have wf : g.WellFormed := ⟨hvalid, hg.uses⟩
    refine ⟨?_, fun σ pick s => sample_eq_noStart_iff wf⟩
    intro start m w hstart hm hlen hleft
    have hm' : g.LeftmostDerives m (Body.ofWord [] ++ [.nonterminal start]) (.ofWord w) := hm
    obtain ⟨script, hscript⟩ := exists_script wf hleft hlen hm'
    refine ⟨script, ?_⟩
    have hprod : g.productiveSymbols.has (.nonterminal start) = true :=
      (productive_iff wf (Vocabulary.uses_nonterminal.2 (wf.start_mem hstart))).2
        ⟨w, yields_of_derives hm.derives⟩
    rw [sample_of_start hstart, if_pos hprod, hscript]

/-- Words of one letter, with a nonterminal that derives no word among the choices. -/
def wasteful : Grammar where
  table :=
    { entries := [⟨"S", .nonterminal⟩, ⟨"C", .nonterminal⟩, ⟨"a", .terminal⟩]
      nameSpace := {}
      position := 0
      nodup := by decide
      passed := fun _ h => absurd h (Nat.not_lt_zero _) }
  terminals := OrderedSet.ofList [⟨2⟩]
  nonterminals := OrderedSet.ofList [⟨0⟩, ⟨1⟩]
  rules := OrderedSet.ofList
    [⟨⟨0⟩, []⟩,
      ⟨⟨0⟩, [.terminal ⟨2⟩, .nonterminal ⟨0⟩]⟩,
      ⟨⟨0⟩, [.nonterminal ⟨1⟩, .nonterminal ⟨0⟩]⟩,
      ⟨⟨1⟩, [.nonterminal ⟨1⟩, .terminal ⟨2⟩]⟩]
  start := some ⟨0⟩

/-- Two letters take three picks, and just so many are allowed. -/
theorem wasteful_sample : wasteful.OverTable ∧ wasteful.validate = .ok () ∧
    (∀ script, (wasteful.sample scripted ⟨2, 3⟩ script).1 ≠ .error .noChoice) ∧
    ∃ script, (wasteful.sample scripted ⟨2, 3⟩ script).1 = .ok [⟨2⟩, ⟨2⟩] := by
  have wf : wasteful.WellFormed := by decide +kernel
  have hletter : ⟨⟨0⟩, [.terminal ⟨2⟩, .nonterminal ⟨0⟩]⟩ ∈ wasteful.rules := by decide +kernel
  have hempty : ⟨⟨0⟩, []⟩ ∈ wasteful.rules := by decide +kernel
  have hword : wasteful.LeftmostDerives 3 [.nonterminal ⟨0⟩] (.ofWord [⟨2⟩, ⟨2⟩]) :=
    .head (.replace hletter [] [])
      (.head (.replace hletter [⟨2⟩] []) (.head (.replace hempty [⟨2⟩, ⟨2⟩] []) (.refl _)))
  obtain ⟨hsound, hcomplete⟩ := sample_agrees_with_leftmost wf.overTable ⟨2, 3⟩
  refine ⟨wf.overTable, wf.valid, ?_, ?_⟩
  · exact fun script => (hsound _ scripted script).2.2.1
  · exact (hcomplete wf.valid).1 ⟨0⟩ 3 [⟨2⟩, ⟨2⟩] rfl hword (Nat.le_refl 2) (Nat.le_refl 3)

end Grammar

end FormalLanguage
