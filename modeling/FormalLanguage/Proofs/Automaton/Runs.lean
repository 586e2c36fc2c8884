import FormalLanguage.Proofs.Automaton.Discovery
import FormalLanguage.Proofs.Automaton.Lookups

/-!
Words read with rows of marks, and the paths that spell them. Main statement: the states that are
marked at the end are the ends of the paths of the word, in order and each of them once, and there are
none once some beginning of the word has no path.
-/
namespace FormalLanguage.Automaton

variable {m : Automaton} {u v w : Word}

theorem run_eq_empty_iff : m.run w = ∅ ↔ ∀ q, ¬ m.Path m.start w q := by
  constructor
  · intro hempty q hpath
    exact OrderedSet.not_mem_empty q (hempty ▸ mem_run_iff.2 hpath)
  · intro hnone
    apply OrderedSet.ext
    intro q
    exact iff_of_false (fun hq => hnone q (mem_run_iff.1 hq)) (OrderedSet.not_mem_empty q)

/-- Once a beginning of the word leads nowhere, the word does. -/
theorem run_append_of_no_path (hnone : ∀ q, ¬ m.Path m.start u q) : m.run (u ++ v) = ∅ := by
  rw [run_eq_empty_iff]
  intro q hpath
  obtain ⟨r, hu, -⟩ := path_append_iff.1 hpath
  exact hnone r hu

/--
Reading a word marks no index that is out of range, and lists the ends of the paths that spell it, in
increasing order. After a beginning without a path there are none. The word is accepted if one of the
paths ends in an accepting state.
-/
theorem run_lists_path_ends (m : Automaton) (w : Word) :
    m.run? w = some (m.run w) ∧
    (m.run w).toList.Pairwise (· < ·) ∧
    (∀ q, q ∈ m.run w ↔ m.Path m.start w q) ∧
    (∀ u v, w = u ++ v → (∀ q, ¬ m.Path m.start u q) → m.run w = ∅) ∧
    (m.accepts w = true ↔ ∃ q, m.Path m.start w q ∧ m.isAccepting q = true) := by
  refine ⟨run?_eq m w, pairwise_lt_toList _, fun q => mem_run_iff, ?_, ?_⟩
  · rintro u v rfl hnone
    exact run_append_of_no_path hnone
  · simp only [accepts_iff, isAccepting, decide_eq_true_eq]
    exact exists_congr fun q => And.comm

end FormalLanguage.Automaton
