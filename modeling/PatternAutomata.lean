import PatternAutomata.Dfa.Keyed
import PatternAutomata.Dfa.Listing
import PatternAutomata.Dfa.Subset
import PatternAutomata.Grammar
import PatternAutomata.Language
import PatternAutomata.Matcher
import PatternAutomata.Nfa.Checked
import PatternAutomata.Nfa.Path
import PatternAutomata.WrittenOut
import PatternAutomata.Proofs.Arena
import PatternAutomata.Proofs.CheckedArena
import PatternAutomata.Proofs.ExplicitConcatenation
import PatternAutomata.Proofs.LanguageOperations
import PatternAutomata.Proofs.PathSemantics
import PatternAutomata.Proofs.Precedence
import PatternAutomata.Proofs.Balance
import PatternAutomata.Proofs.Parsing
import PatternAutomata.Proofs.Compilation
import PatternAutomata.Proofs.Exploration
import PatternAutomata.Proofs.Determinization
import PatternAutomata.Proofs.Assembly
import PatternAutomata.Proofs.PostfixText
import PatternAutomata.Proofs.SubsetConstruction
import PatternAutomata.Proofs.Marking
import PatternAutomata.Proofs.Trim
import PatternAutomata.Proofs.History
import PatternAutomata.Brackets
import PatternAutomata.Proofs.BracketFaults
import PatternAutomata.Proofs.Refusals
import PatternAutomata.Culprit
import PatternAutomata.Proofs.Culprits
import PatternAutomata.Proofs.Grouping
import PatternAutomata.Proofs.Conservation
import PatternAutomata.Proofs.Combination
import PatternAutomata.Proofs.Size
import PatternAutomata.Factors
import PatternAutomata.Proofs.Layout
import PatternAutomata.Proofs.Recovery
import PatternAutomata.Proofs.RedundantMarkers
import PatternAutomata.Proofs.Regrouping
import PatternAutomata.Proofs.Renaming
import PatternAutomata.Proofs.SilentClosure
import PatternAutomata.Proofs.Listings
import PatternAutomata.Proofs.Closedness
import PatternAutomata.Proofs.LocalShape
