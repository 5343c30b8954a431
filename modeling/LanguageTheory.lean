import LanguageTheory.Automaton.Analysis
import LanguageTheory.Automaton.Basic
import LanguageTheory.Automaton.Calls
import LanguageTheory.Automaton.Label
import LanguageTheory.Error
import LanguageTheory.Finite.Ascending
import LanguageTheory.Finite.Exploration
import LanguageTheory.Finite.Saturation
import LanguageTheory.Grammar.Action
import LanguageTheory.Grammar.Basic
import LanguageTheory.Grammar.Converter
import LanguageTheory.Grammar.FirstFollow
import LanguageTheory.Grammar.Item
import LanguageTheory.Grammar.Notation
import LanguageTheory.Grammar.OfAutomaton
import LanguageTheory.Grammar.Parsing
import LanguageTheory.Grammar.Predictive
import LanguageTheory.Grammar.Production
import LanguageTheory.Grammar.ShiftReduce
import LanguageTheory.Machine.Configuration
import LanguageTheory.Machine.Search
import LanguageTheory.Machine.Simulator
import LanguageTheory.Machine.Stack
import LanguageTheory.Machine.Tape
import LanguageTheory.Proofs.Automaton.Calls
import LanguageTheory.Proofs.Automaton.Determinism
import LanguageTheory.Proofs.Automaton.Edits
import LanguageTheory.Proofs.Automaton.Language
import LanguageTheory.Proofs.Finite.BreadthFirst
import LanguageTheory.Proofs.Finite.Exploration
import LanguageTheory.Proofs.Finite.Saturation
import LanguageTheory.Proofs.Grammar.Agreement
import LanguageTheory.Proofs.Grammar.Derivation
import LanguageTheory.Proofs.Grammar.FirstFollow
import LanguageTheory.Proofs.Grammar.Forest
import LanguageTheory.Proofs.Grammar.ItemAutomaton
import LanguageTheory.Proofs.Grammar.ItemSets
import LanguageTheory.Proofs.Grammar.Notation
import LanguageTheory.Proofs.Grammar.Predictive
import LanguageTheory.Proofs.Grammar.PredictiveTermination
import LanguageTheory.Proofs.Grammar.PushdownGrammar
import LanguageTheory.Proofs.Grammar.RightLinear
import LanguageTheory.Proofs.Grammar.ShiftReduce
import LanguageTheory.Proofs.Grammar.StateGrammar
import LanguageTheory.Proofs.Grammar.TableCells
import LanguageTheory.Proofs.Grammar.TableConsistency
import LanguageTheory.Proofs.Grammar.Termination
import LanguageTheory.Proofs.Grammar.TopDown
import LanguageTheory.Proofs.Grammar.TripleRules
import LanguageTheory.Proofs.Grammar.Unambiguity
import LanguageTheory.Proofs.Grammar.ViablePrefix
import LanguageTheory.Proofs.Machine.Acceptance
import LanguageTheory.Proofs.Machine.AcceptanceMode
import LanguageTheory.Proofs.Machine.Arena
import LanguageTheory.Proofs.Machine.Choice
import LanguageTheory.Proofs.Machine.Deduplication
import LanguageTheory.Proofs.Machine.Enumeration
import LanguageTheory.Proofs.Machine.FiniteSearch
import LanguageTheory.Proofs.Machine.Resumption
import LanguageTheory.Proofs.Machine.Search
import LanguageTheory.Proofs.Machine.Tape
import LanguageTheory.Proofs.Machine.Ways
import LanguageTheory.Proofs.Regex.Elimination
import LanguageTheory.Proofs.Regex.Fragment
import LanguageTheory.Proofs.Regex.Language
import LanguageTheory.Proofs.Regex.Reading
import LanguageTheory.Proofs.Regex.Thompson
import LanguageTheory.Proofs.Regex.Writing
import LanguageTheory.Proofs.Regular.ClosureCache
import LanguageTheory.Proofs.Regular.DeterministicAutomaton
import LanguageTheory.Proofs.Regular.Determinization
import LanguageTheory.Proofs.Regular.Dfa
import LanguageTheory.Proofs.Regular.DfaEdits
import LanguageTheory.Proofs.Regular.EpsilonNfa
import LanguageTheory.Proofs.Regular.Equivalence
import LanguageTheory.Proofs.Regular.Graph
import LanguageTheory.Proofs.Regular.Import
import LanguageTheory.Proofs.Regular.LanguageEquality
import LanguageTheory.Proofs.Regular.LiveCorrespondence
import LanguageTheory.Proofs.Regular.MinimalAutomaton
import LanguageTheory.Proofs.Regular.Minimization
import LanguageTheory.Proofs.Regular.Partition
import LanguageTheory.Proofs.Regular.Refinement
import LanguageTheory.Proofs.Regular.RefinementHistory
import LanguageTheory.Proofs.Regular.SubsetNumbering
import LanguageTheory.Proofs.Regular.Subsets
import LanguageTheory.Proofs.Words.AcceptedWords
import LanguageTheory.Proofs.Words.GeneratedWords
import LanguageTheory.Proofs.Words.Order
import LanguageTheory.Proofs.Words.Sampling
import LanguageTheory.Proofs.Words.ShortestYields
import LanguageTheory.Proofs.Words.YieldSums
import LanguageTheory.Regex.Basic
import LanguageTheory.Regex.Elimination
import LanguageTheory.Regex.Notation
import LanguageTheory.Regex.Thompson
import LanguageTheory.Regular.Determinization
import LanguageTheory.Regular.Dfa
import LanguageTheory.Regular.EpsilonNfa
import LanguageTheory.Regular.Equivalence
import LanguageTheory.Regular.Minimization
import LanguageTheory.Regular.Subsets
import LanguageTheory.Symbol
import LanguageTheory.Text.Blank
import LanguageTheory.Text.Printable
import LanguageTheory.Text.Quoted
import LanguageTheory.Wire.Decimal
import LanguageTheory.Wire.Forms
import LanguageTheory.Wire.Value
import LanguageTheory.Words.OfAutomaton
import LanguageTheory.Words.OfGrammar
import LanguageTheory.Words.Sampling
