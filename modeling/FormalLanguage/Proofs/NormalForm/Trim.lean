import FormalLanguage.Proofs.NormalForm.Chomsky

/-!
Useful symbols in the normal form. Main statement: what the pipeline ends in is trim, fresh
nonterminals included, and it has no rules just if no word is derived.
-/
namespace FormalLanguage

universe u

namespace Abbreviating

variable {κ : Type u} {body : κ → Body} {g h : Grammar} {a b : Abbreviating κ}
  {known : List (κ × NonTerminal)} {key : κ} {n : NonTerminal} {x y s : Symbol}
  {form pending more : Body}

/-- What a symbol stands for is reached from it. -/
theorem reaches_of_mem_expand (hknown : ∀ p ∈ known, ⟨p.2, body p.1⟩ ∈ h.rules)
    (hx : x ∈ expand body known s) : h.Reaches s x := by
  induction known generalizing s with
  | nil =>
    rw [expand, List.mem_singleton] at hx
    rw [hx]
    exact .refl
  | cons p known ih =>
    obtain ⟨key, n⟩ := p
    rw [List.forall_mem_cons] at hknown
    rw [expand] at hx
    split at hx
    · next hs =>
      obtain ⟨t, ht, hx⟩ := List.mem_flatMap.1 hx
      rw [hs]
      exact (Grammar.reaches_body hknown.1 ht).trans (ih hknown.2 hx)
    · exact ih hknown.2 hx

/--
Every fresh nonterminal has its rule, and is reached from a nonterminal of the abbreviated grammar
or from a symbol of a body whose rule is yet to be added.
-/
structure Rooted (body : κ → Body) (g : Grammar) (pending : Body) (a : Abbreviating κ) :
    Prop where
  known_rule : ∀ p ∈ a.known, ⟨p.2, body p.1⟩ ∈ a.result.rules
  reached : ∀ p ∈ a.known, ∃ x, ((∃ n ∈ g.nonterminals, x = .nonterminal n) ∨ x ∈ pending) ∧
    a.result.Reaches x (.nonterminal p.2)

namespace Rooted

theorem init (body : κ → Body) (g : Grammar) : Rooted body g [] ⟨g.clearRules, []⟩ where
  known_rule _ hp := absurd hp List.not_mem_nil
  reached _ hp := absurd hp List.not_mem_nil

/-- Roots may be exchanged for symbols that reach them. -/
theorem of_reaches (ha : Rooted body g pending a)
    (hrules : ∀ r ∈ a.result.rules, r ∈ b.result.rules)
    (hknown : ∀ p ∈ b.known, p ∈ a.known ∨ .nonterminal p.2 ∈ more)
    (hrule : ∀ p ∈ b.known, ⟨p.2, body p.1⟩ ∈ b.result.rules)
    (hpending : ∀ x ∈ pending, ∃ y, ((∃ n ∈ g.nonterminals, y = .nonterminal n) ∨ y ∈ more) ∧
      b.result.Reaches y x) : Rooted body g more b where
  known_rule := hrule
  reached p hp := by
    rcases hknown p hp with hp | hp
    · obtain ⟨x, hx | hx, hreach⟩ := ha.reached p hp
      · exact ⟨x, .inl hx, hreach.mono hrules⟩
      · obtain ⟨y, hy, hyx⟩ := hpending x hx
        exact ⟨y, hy, hyx.trans (hreach.mono hrules)⟩
    · exact ⟨_, .inr hp, .refl⟩

theorem mono (ha : Rooted body g pending a) (hsub : ∀ x ∈ pending, x ∈ more) :
    Rooted body g more a :=
  ha.of_reaches (fun _ hr => hr) (fun _ hp => .inl hp) ha.known_rule
    fun x hx => ⟨x, .inr (hsub x hx), .refl⟩

/-- A nonterminal that stands for pending symbols is pending in their place. -/
theorem abbreviate [DecidableEq κ] (more : Body) (ha : Rooted body g pending a)
    (h : a.abbreviate body key = .ok (n, b)) (hpending : ∀ x ∈ pending, x ∈ body key ∨ x ∈ more) :
    Rooted body g (.nonterminal n :: more) b := by
  have hroots : ∀ c : Abbreviating κ, ⟨n, body key⟩ ∈ c.result.rules → ∀ x ∈ pending,
      ∃ y, ((∃ n ∈ g.nonterminals, y = .nonterminal n) ∨ y ∈ .nonterminal n :: more) ∧
        c.result.Reaches y x := by
    intro c hc x hx
    rcases hpending x hx with hx | hx
    · exact ⟨_, .inr List.mem_cons_self, Grammar.reaches_body hc hx⟩
    · exact ⟨x, .inr (List.mem_cons_of_mem _ hx), .refl⟩
  obtain ⟨hlookup, rfl⟩ | ⟨result, -, hfresh, rfl⟩ := abbreviate_cases h
  · obtain ⟨before, after, hknown, -⟩ := List.lookup_eq_some_iff.1 hlookup
    have hrule := ha.known_rule (key, n) (by simp [hknown])
    exact ha.of_reaches (fun _ hr => hr) (fun _ hp => .inl hp) ha.known_rule (hroots _ hrule)
  · have hrules : ∀ r ∈ a.result.rules, r ∈ (result.addRule n (body key)).rules := by
      intro r hr
      rw [← (Grammar.freshened_of_fresh hfresh).rules] at hr
      exact OrderedSet.mem_insert.2 (.inr hr)
    have hrule : ⟨n, body key⟩ ∈ (result.addRule n (body key)).rules :=
      OrderedSet.mem_insert.2 (.inl rfl)
    refine ha.of_reaches hrules ?_ ?_ (hroots _ hrule)
    · rw [List.forall_mem_cons]
      exact ⟨.inr List.mem_cons_self, fun _ hp => .inl hp⟩
    · rw [List.forall_mem_cons]
      exact ⟨hrule, fun p hp => hrules _ (ha.known_rule p hp)⟩

/-- Nothing is pending once the rule is added. -/
theorem addRule (ha : Rooted body g form a) (hn : n ∈ g.nonterminals) :
    Rooted body g [] (a.addRule n form) := by
  have hrules : ∀ r ∈ a.result.rules, r ∈ (a.result.addRule n form).rules :=
    fun r hr => OrderedSet.mem_insert.2 (.inr hr)
  have hrule : ⟨n, form⟩ ∈ (a.result.addRule n form).rules := OrderedSet.mem_insert.2 (.inl rfl)
  refine ha.of_reaches hrules (fun _ hp => .inl hp) (fun p hp => hrules _ (ha.known_rule p hp)) ?_
  intro x hx
  exact ⟨_, .inl ⟨n, hn, rfl⟩, Grammar.reaches_body hrule hx⟩

end Rooted

/-- The symbol stands for symbols that derive words. -/
def Productive (body : κ → Body) (g : Grammar) (a : Abbreviating κ) (s : Symbol) : Prop :=
  ∀ x ∈ expand body a.known s, ∃ w, g.Yields [x] w

namespace Abbreviates

/-- Chains of bodies go on through the fresh nonterminals. -/
theorem reaches_new (ha : Abbreviates body g g.rules.toList a) (hxy : g.Reaches x y) :
    a.result.Reaches x y := by
  refine Relation.reflTransGen_closed ?_ x y hxy
  rintro _ z ⟨r, hr, rfl, hz⟩
  obtain ⟨form, hform, heq⟩ := ha.exists_rule r (OrderedSet.mem_toList.2 hr)
  rw [← heq] at hz
  obtain ⟨s, hs, hz⟩ := List.mem_flatMap.1 hz
  exact (Grammar.reaches_body hform hs).trans (reaches_of_mem_expand ha.known_rule hz)

theorem exists_yields (ha : Abbreviates body g g.rules.toList a) (hs : Productive body g a s) :
    ∃ w, a.result.Yields [s] w := by
  obtain ⟨w, hw⟩ := Grammar.exists_yields hs
  exact ⟨w, (derives_expand ha.known_rule _).yields (by simpa using ha.yields_new hw)⟩

/-- The body of a nonterminal of the abbreviated grammar, or of a productive one, is productive. -/
theorem productive_body (ha : Abbreviates body g g.rules.toList a) (ht : g.Trim) {r : Rule}
    (hr : r ∈ a.result.rules)
    (hlhs : r.lhs ∈ g.nonterminals ∨ Productive body g a (.nonterminal r.lhs)) :
    ∀ s ∈ r.body, Productive body g a s := by
  intro s hs x hx
  rcases ha.rule_cases r hr with ⟨p, hp, rfl⟩ | ⟨-, hold⟩
  · have hprod := hlhs.resolve_left (ha.known_new p hp)
    rw [Productive, ha.expand_known p hp] at hprod
    exact hprod x (List.mem_flatMap.2 ⟨s, hs, hx⟩)
  · exact ht.productive _ (OrderedSet.mem_toList.1 hold) x (List.mem_flatMap.2 ⟨s, hs, hx⟩)

/-- What the nonterminals of the abbreviated grammar reach is productive. -/
theorem productive_of_reaches (ha : Abbreviates body g g.rules.toList a) (ht : g.Trim)
    (hn : n ∈ g.nonterminals) (hreach : a.result.Reaches (.nonterminal n) x) :
    x = .nonterminal n ∨ Productive body g a x := by
  induction hreach with
  | refl => exact .inl rfl
  | tail _ hlast ih =>
    obtain ⟨r, hr, rfl, hz⟩ := hlast
    refine .inr (ha.productive_body ht hr ?_ _ hz)
    refine ih.imp_left fun hlhs => ?_
    cases hlhs
    exact hn

/-- Abbreviating keeps a grammar trim, if every fresh nonterminal is reached. -/
theorem trim (ha : Abbreviates body g g.rules.toList a) (hroot : Rooted body g [] a) (ht : g.Trim) :
    a.result.Trim := by
  have hold : ∀ n ∈ g.nonterminals, ∃ start, a.result.start = some start ∧
      a.result.Reaches (.nonterminal start) (.nonterminal n) := by
    intro n hn
    obtain ⟨start, hstart, hreach⟩ := ht.reached n hn
    exact ⟨start, ha.start.trans hstart, ha.reaches_new hreach⟩
  have hroots : ∀ p ∈ a.known, ∃ n ∈ g.nonterminals,
      a.result.Reaches (.nonterminal n) (.nonterminal p.2) := by
    intro p hp
    obtain ⟨_, ⟨n, hn, rfl⟩ | hx, hreach⟩ := hroot.reached p hp
    · exact ⟨n, hn, hreach⟩
    · cases hx
  refine ⟨?_, ?_⟩
  · intro n hn
    rcases (ha.mem_nonterminals n).1 hn with hn | ⟨p, hp, rfl⟩
    · exact hold n hn
    · obtain ⟨m, hm, hreach⟩ := hroots p hp
      obtain ⟨start, hstart, hchain⟩ := hold m hm
      exact ⟨start, hstart, hchain.trans hreach⟩
  · intro r hr s hs
    refine ha.exists_yields (ha.productive_body ht hr ?_ s hs)
    rcases ha.rule_cases r hr with ⟨p, hp, rfl⟩ | ⟨hlhs, -⟩
    · obtain ⟨m, hm, hreach⟩ := hroots p hp
      right
      refine (ha.productive_of_reaches ht hm hreach).resolve_left fun heq => ?_
      cases heq
      exact ha.known_new p hp hm
    · exact .inl hlhs

end Abbreviates

end Abbreviating

namespace Grammar

open Abbreviating

variable {g k : Grammar} {r : Rule} {s t : Symbol} {rest body form pending : Body}

theorem rooted_shorten {a b : Abbreviating (Symbol × Symbol)} (ha : Rooted pairBody g [s] a)
    (h : shorten s t rest a = .ok (form, b)) : Rooted pairBody g form b := by
  induction rest generalizing s t a with
  | nil =>
    cases h
    exact ha.mono (by simp)
  | cons u rest ih =>
    rw [shorten, bind_eq_ok_iff] at h
    obtain ⟨⟨n, a'⟩, habbr, hshort⟩ := h
    exact ih (ha.abbreviate [] habbr (by simp [pairBody])) hshort

theorem rooted_shortenRule {a b : Abbreviating (Symbol × Symbol)} (hlhs : r.lhs ∈ g.nonterminals)
    (ha : Rooted pairBody g [] a) (h : shortenRule a r = .ok b) : Rooted pairBody g [] b := by
  obtain ⟨-, rfl⟩ | ⟨s, t, rest, form, c, -, hshort, rfl⟩ := shortenRule_cases h
  · exact (ha.mono (by simp)).addRule hlhs
  · exact (rooted_shorten (ha.mono (by simp)) hshort).addRule hlhs

theorem rooted_isolate {a b : Abbreviating Terminal} (ha : Rooted terminalBody g pending a)
    (h : isolate body a = .ok (form, b)) : Rooted terminalBody g (pending ++ form) b := by
  induction body generalizing a form pending with
  | nil =>
    cases h
    exact ha.mono (by simp)
  | cons s body ih =>
    cases s with
    | terminal t =>
      simp only [isolate, bind_eq_ok_iff] at h
      obtain ⟨⟨n, a'⟩, habbr, ⟨rest, b'⟩, hrest, heq⟩ := h
      cases heq
      have hn := ha.abbreviate pending habbr (fun _ hx => .inr hx)
      exact (ih hn hrest).mono (by grind)
    | nonterminal m =>
      simp only [isolate, bind_eq_ok_iff] at h
      obtain ⟨⟨rest, b'⟩, hrest, heq⟩ := h
      cases heq
      exact (ih ha hrest).mono (by grind)

theorem rooted_isolateRule {a b : Abbreviating Terminal} (hlhs : r.lhs ∈ g.nonterminals)
    (ha : Rooted terminalBody g [] a) (h : isolateRule a r = .ok b) :
    Rooted terminalBody g [] b := by
  obtain ⟨-, rfl⟩ | ⟨form, c, -, hiso, rfl⟩ := isolateRule_cases h
  · exact (ha.mono (by simp)).addRule hlhs
  · exact (rooted_isolate ha hiso).addRule hlhs

theorem trim_binarize (wf : g.WellFormed) (ht : g.Trim) (h : g.binarize = .ok k) : k.Trim := by
  obtain ⟨a, rfl, hfold⟩ := exists_shortened h
  have hroot : Rooted pairBody g [] a :=
    foldlM_keeps (fun r _ _ hr ha hab => rooted_shortenRule (wf.lhs_mem hr) ha hab)
      (Rooted.init pairBody g) hfold
  exact (abbreviates_shortened wf hfold).trim hroot ht

theorem trim_eliminateMixedTerminals (wf : g.WellFormed) (ht : g.Trim)
    (h : g.eliminateMixedTerminals = .ok k) : k.Trim := by
  obtain ⟨a, rfl, hfold⟩ := exists_isolated h
  have hroot : Rooted terminalBody g [] a :=
    foldlM_keeps (fun r _ _ hr ha hab => rooted_isolateRule (wf.lhs_mem hr) ha hab)
      (Rooted.init terminalBody g) hfold
  exact (abbreviates_isolated wf hfold).trim hroot ht

/--
In the normal form every nonterminal but the start symbol stands in a form that the start symbol
derives and derives a word, and every rule takes part in a word. There are no rules just if there
are no words.
-/
theorem useful_of_toNormalForm (wf : g.WellFormed) (h : g.toNormalForm = .ok k) :
    (∀ n ∈ k.nonterminals, k.start ≠ some n →
      (∃ start before after, k.start = some start ∧
        k.Derives [.nonterminal start] (before ++ .nonterminal n :: after)) ∧
      ∃ w, k.Derives [.nonterminal n] (.ofWord w)) ∧
    (∀ r ∈ k.rules, k.TakesPart r) ∧
    (k.rules = ∅ ↔ ∀ w, ¬ g.Generates w) := by
  obtain ⟨h₅, h₆, hprep, hbin, hiso⟩ := exists_prepared wf h
  have hpres₆ := preserves_binarize hprep.preserves.wellFormed hbin
  have hpres := preserves_eliminateMixedTerminals hpres₆.wellFormed hiso
  have htrim : k.Trim := trim_eliminateMixedTerminals hpres₆.wellFormed
    (trim_binarize hprep.preserves.wellFormed hprep.trim hbin) hiso
  have hpart : ∀ r ∈ k.rules, k.TakesPart r :=
    fun r hr => htrim.takesPart hr (hpres.wellFormed.lhs_mem hr)
  have hgenerates := (hprep.preserves.trans (hpres₆.trans hpres)).generates
  refine ⟨?_, hpart, ?_⟩
  · intro n hn hne
    obtain ⟨start, hstart, hreach⟩ := htrim.reached n hn
    obtain ⟨before, after, hderives, -⟩ := htrim.exists_form hreach
    obtain ⟨w, hw⟩ := htrim.exists_yields_nonterminal hn hne
    exact ⟨⟨start, before, after, hstart, hderives⟩, w, derives_of_yields hw⟩
  · constructor
    · intro hempty w hw
      obtain ⟨start, hstart, hyields⟩ := generates_iff_yields.1 ((hgenerates w).2 hw)
      obtain ⟨r, hr, -⟩ := yields_nonterminal_iff.1 hyields
      rw [hempty] at hr
      exact OrderedSet.not_mem_empty r hr
    · intro hnone
      apply OrderedSet.ext
      intro r
      refine iff_of_false (fun hr => ?_) (OrderedSet.not_mem_empty r)
      obtain ⟨w, hw⟩ := (hpart r hr).exists_generates hr
      exact hnone w ((hgenerates w).1 hw)

/-- Leaving out the unproductive nonterminal makes another one unreachable. -/
def orphaned : Grammar where
  table :=
    { entries := [⟨"S", .nonterminal⟩, ⟨"A", .nonterminal⟩, ⟨"B", .nonterminal⟩, ⟨"a", .terminal⟩,
        ⟨"b", .terminal⟩]
      nameSpace := {}
      position := 0
      nodup := by decide
      passed := fun _ h => absurd h (Nat.not_lt_zero _) }
  terminals := OrderedSet.ofList [⟨3⟩, ⟨4⟩]
  nonterminals := OrderedSet.ofList [⟨0⟩, ⟨1⟩, ⟨2⟩]
  rules := OrderedSet.ofList
    [⟨⟨0⟩, [.terminal ⟨3⟩, .nonterminal ⟨0⟩, .terminal ⟨4⟩]⟩,
      ⟨⟨0⟩, [.terminal ⟨3⟩, .terminal ⟨4⟩]⟩,
      ⟨⟨0⟩, [.nonterminal ⟨1⟩, .nonterminal ⟨2⟩]⟩,
      ⟨⟨1⟩, [.terminal ⟨3⟩, .nonterminal ⟨1⟩]⟩,
      ⟨⟨2⟩, [.terminal ⟨4⟩]⟩]
  start := some ⟨0⟩

theorem orphaned_useful : orphaned.WellFormed ∧ ∃ k, orphaned.toNormalForm = .ok k ∧
    k.nonterminals.toList = [⟨0⟩, ⟨5⟩, ⟨6⟩, ⟨7⟩] ∧ (∀ r ∈ k.rules, k.TakesPart r) ∧
    ∀ n ∈ k.nonterminals, n ≠ ⟨0⟩ → ∃ w, k.Derives [.nonterminal n] (.ofWord w) := by
  have wf : orphaned.WellFormed := by decide +kernel
  obtain ⟨k, hk⟩ : ∃ k, orphaned.toNormalForm = .ok k := exists_ok (by decide +kernel)
  have hshape : (orphaned.toNormalForm.map fun k => (k.nonterminals.toList, k.start)) =
      .ok ([⟨0⟩, ⟨5⟩, ⟨6⟩, ⟨7⟩], some ⟨0⟩) := by decide +kernel
  rw [hk] at hshape
  obtain ⟨hnonterminals, hstart⟩ := Prod.mk.inj (Except.ok.inj hshape)
  obtain ⟨huseful, hpart, -⟩ := useful_of_toNormalForm wf hk
  refine ⟨wf, k, hk, hnonterminals, hpart, fun n hn hne => (huseful n hn ?_).2⟩
  rw [show k.start = some ⟨0⟩ from hstart]
  exact fun heq => hne (Option.some.inj heq).symm

end Grammar

end FormalLanguage
