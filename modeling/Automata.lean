import Automata.SortedSet
import Automata.Sorting
import Automata.Table
import Automata.Worklist
import Automata.Text.Unassigned
import Automata.Text.Printable
import Automata.Text.Quoted
import Automata.Text.Blank
import Automata.Text.Lines
import Automata.Text.Shortlex
import Automata.State
import Automata.Error
import Automata.Allocator
import Automata.Allocator.History
import Automata.Alphabet
import Automata.DisjointSets
import Automata.DisjointSets.History
import Automata.Regex.Basic
import Automata.Regex.Simplified
import Automata.Regex.Printer
import Automata.Regex.Reader
import Automata.Regex.Pattern
import Automata.Regex.Characters
import Automata.Regex.Language
import Automata.Edge
import Automata.StateDiagram
import Automata.StateDiagram.Isomorphism
import Automata.NFA.Basic
import Automata.NFA.Run
import Automata.NFA.Path
import Automata.NFA.Walk
import Automata.NFA.Simplify
import Automata.NFA.Fragment
import Automata.NFA.Combine
import Automata.NFA.OfRegex
import Automata.DFA.Basic
import Automata.DFA.Determinize
import Automata.DFA.Distinguish
import Automata.DFA.Minimize
import Automata.DFA.Product
import Automata.DFA.Equivalence
import Automata.GNFA.Labels
import Automata.GNFA.Basic
import Automata.GNFA.Eliminate
import Automata.GNFA.Path
import Automata.PDA.Rule
import Automata.PDA.Basic
import Automata.PDA.Run
import Automata.PDA.Path
import Automata.Grammar.Form
import Automata.Grammar.Basic
import Automata.Grammar.Rules
import Automata.CFG.Basic
import Automata.CFG.Sample
import Automata.CFG.ToPDA
import Automata.Grammar.Derivation
import Automata.Text.Numeral
import Automata.Text.Plain
import Automata.Drawing
import Automata.Report
import Automata.CommandLine.Options
import Automata.CommandLine.Command
import Automata.Flags
import Automata.Main
import Automata.Proofs.Allocator
import Automata.Proofs.Building
import Automata.Proofs.NFA.Basic
import Automata.Proofs.NFA.Combine
import Automata.Proofs.NFA.Extend
import Automata.Proofs.NFA.Fragment
import Automata.Proofs.NFA.OfRegex
import Automata.Proofs.Regex.Simplified
import Automata.Proofs.GNFA.Eliminate
import Automata.Proofs.CFG.Elements
import Automata.Proofs.CFG.Relaxed
import Automata.Proofs.CFG.Plan
import Automata.Proofs.CFG.Roles
import Automata.Proofs.CFG.ToPDA
import Automata.Proofs.Regex.Printer
import Automata.Proofs.DFA.Determinize
import Automata.Proofs.DFA.Minimize
import Automata.Proofs.CommandLine.Extract
import Automata.Proofs.CommandLine.Testing
import Automata.Proofs.DFA.Canonical
import Automata.Proofs.Grammar.Leftmost
import Automata.Proofs.CFG.Sample
import Automata.Proofs.CFG.Shortlex
import Automata.Proofs.CFG.Stopping
import Automata.Proofs.Regex.Tree
import Automata.Regex.Descent
import Automata.Proofs.Regex.Descent
import Automata.Proofs.NFA.StateCount
import Automata.Proofs.NFA.Supply
import Automata.Proofs.CFG.Greibach
import Automata.Proofs.CFG.Soundness
import Automata.Proofs.PDA.Acceptance
import Automata.Proofs.DFA.Subsets
import Automata.Proofs.DisjointSets.History
import Automata.Proofs.DFA.Separation
import Automata.DFA.Nerode
import Automata.Proofs.DFA.Nerode
import Automata.Proofs.NFA.Draws
import Automata.Proofs.DFA.Rename
import Automata.Proofs.DFA.Product
import Automata.Proofs.Checks
import Automata.Proofs.NFA.Scan
import Automata.Proofs.NFA.NormalForm
import Automata.Proofs.NFA.Words
import Automata.Proofs.NFA.Walk
import Automata.Proofs.GNFA.Order
import Automata.Proofs.DFA.Pairs
import Automata.Proofs.NFA.Joining
import Automata.Proofs.Grammar.Rules
import Automata.Proofs.Regex.Canonical
import Automata.Proofs.GNFA.Cost
import Automata.Proofs.DisjointSets.Balance
import Automata.Proofs.Cloning
import Automata.Proofs.Freshness
