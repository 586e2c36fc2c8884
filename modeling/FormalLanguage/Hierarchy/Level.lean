/-! The levels of the Chomsky hierarchy. -/
namespace FormalLanguage

/-- A class of grammars. A later class is contained in an earlier one. -/
inductive Level where
  | unrestricted
  | contextSensitive
  | contextFree
  | regular
deriving DecidableEq

namespace Level

/-- The type number, from 0 to 3. -/
def number : Level → Nat
  | unrestricted => 0
  | contextSensitive => 1
  | contextFree => 2
  | regular => 3

/-- Levels are ordered by restriction. -/
instance : Ord Level := ⟨compareOn number⟩

instance : LE Level := ⟨fun a b => a.number ≤ b.number⟩

instance (a b : Level) : Decidable (a ≤ b) := inferInstanceAs (Decidable (a.number ≤ b.number))

def className : Level → String
  | unrestricted => "Unrestricted"
  | contextSensitive => "Context-sensitive"
  | contextFree => "Context-free"
  | regular => "Regular"

def text (l : Level) : String := "Type-" ++ toString l.number ++ " (" ++ l.className ++ ")"

end Level

end FormalLanguage
