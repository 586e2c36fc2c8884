import FormalLanguage.Grammar.Derivation
import FormalLanguage.Grammar.RuleMap
import FormalLanguage.NormalForm.Chomsky
import FormalLanguage.Hierarchy.Derivation
import FormalLanguage.Automaton.Path
import FormalLanguage.Automaton.Deterministic
import FormalLanguage.Automaton.StateRow
import FormalLanguage.RightLinear.Automaton
import FormalLanguage.RightLinear.Grammar
import FormalLanguage.Generation.Bounded
import FormalLanguage.Generation.Sampling
import FormalLanguage.Generation.Xoshiro
import FormalLanguage.Notation.Load
import FormalLanguage.Proofs.NormalForm.Trim
import FormalLanguage.Proofs.RightLinear.Determinized
import FormalLanguage.Proofs.RightLinear.RoundTrip
import FormalLanguage.Proofs.Generation.Bounded
import FormalLanguage.Proofs.Generation.Sampling
import FormalLanguage.Proofs.Notation.Syntax
import FormalLanguage.Proofs.Notation.Reload
import FormalLanguage.Proofs.Automaton.Discovery
import FormalLanguage.Proofs.SymbolTable.Requests
import FormalLanguage.Proofs.Hierarchy.Regular
import FormalLanguage.Proofs.Notation.Texts
import FormalLanguage.Proofs.Notation.Loading
import FormalLanguage.Proofs.NormalForm.Failure
import FormalLanguage.Proofs.Hierarchy.Noncontracting
import FormalLanguage.Proofs.NormalForm.Extension
import FormalLanguage.Proofs.NormalForm.Shortage
import FormalLanguage.Proofs.NormalForm.Unfolding
import FormalLanguage.Proofs.Notation.Agreement
import FormalLanguage.Proofs.Notation.Asked
import FormalLanguage.Proofs.SymbolTable.Marker
import FormalLanguage.Proofs.ForeignSymbols
import FormalLanguage.Proofs.Automaton.Lookups
import FormalLanguage.Proofs.Automaton.Calls
import FormalLanguage.Proofs.Grammar.Relations
import FormalLanguage.Proofs.Automaton.Runs
import FormalLanguage.Proofs.Automaton.Idempotence
import FormalLanguage.Proofs.SymbolTable.Position
import FormalLanguage.Proofs.Hierarchy.Growth
import FormalLanguage.Proofs.Notation.Spelling
import FormalLanguage.Proofs.Notation.Respelling
import FormalLanguage.Proofs.Notation.Rearrangement
import FormalLanguage.Proofs.Notation.Reports
import FormalLanguage.Proofs.Notation.Terminals
import FormalLanguage.Proofs.Automaton.StateRow
import FormalLanguage.Proofs.NormalForm.Omission
import FormalLanguage.Proofs.NameSpace
import FormalLanguage.Proofs.Grammar.RuleMap
