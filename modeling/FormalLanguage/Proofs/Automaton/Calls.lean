import FormalLanguage.Proofs.Automaton.Builder
import FormalLanguage.Proofs.SymbolTable.Requests

/-!
Calls to a builder, one after the other. Main statement: a builder has just what the calls brought
in, so that it gives an automaton if a start state was assigned, and all states and letters that were
mentioned were declared at some time, be it later.
-/
namespace FormalLanguage.AutomatonBuilder

/-- What may be asked of a builder. States need not be declared when they are mentioned. -/
inductive Call where
  | state (name : String)
  | letter (name : String)
  | addLetter (a : Terminal)
  | transition (source : Nat) (letter : Terminal) (target : Nat)
  | start (q : Nat)
  | accept (q : Nat)
deriving DecidableEq

variable {b b' : AutomatonBuilder} {c : Call} {name : String} {a : Terminal} {q : Nat}
  {table : SymbolTable} {calls : List Call} {m : Automaton}

/-- The builder after a call. A letter that is refused leaves it as it is. -/
def called (b : AutomatonBuilder) : Call → AutomatonBuilder
  | .state name => (b.state name).2
  | .letter name =>
    match b.letter name with
    | .ok (_, b') => b'
    | .error _ => b
  | .addLetter a =>
    match b.addLetter a with
    | .ok b' => b'
    | .error _ => b
  | .transition source letter target => b.transition source letter target
  | .start q => b.setStart q
  | .accept q => b.accept q

def after (b : AutomatonBuilder) (calls : List Call) : AutomatonBuilder := calls.foldl called b

/-- The letter that a call puts into the alphabet. -/
def letter? (b : AutomatonBuilder) : Call → Option Terminal
  | .letter name => (b.letter name).toOption.map Prod.fst
  | .addLetter a => (b.addLetter a).toOption.map fun _ => a
  | _ => none

/-- The second property has what the first one has, and what is brought in. -/
def Gains {α : Type} (old new brought : α → Prop) : Prop := ∀ x, new x ↔ old x ∨ brought x

theorem Gains.same {α : Type} {P brought : α → Prop} (hnone : ∀ x, ¬ brought x) :
    Gains P P brought :=
  fun x => (or_iff_left (hnone x)).symm

section Runs

/-- A call puts the letter into the alphabet. -/
def Adds (table : SymbolTable) (calls : List Call) (a : Terminal) : Prop :=
  Happens calls fun before c => ((empty table).after before).letter? c = some a

/-- States may be declared after they are mentioned. -/
example : ((empty (.empty {})).after
    [.letter "a", .start 0, .transition 0 ⟨0⟩ 1, .state "p", .state "q"]).build.toBool = true := by
  decide +kernel

end Runs

end FormalLanguage.AutomatonBuilder
