import GateSynth.CommandLine.Arguments
import GateSynth.CommandLine.Run
import GateSynth.Decimal.Read
import GateSynth.Decimal.Write
import GateSynth.Flow.Basic
import GateSynth.Flow.Config
import GateSynth.Json.Basic
import GateSynth.Json.Decode
import GateSynth.Json.Printer
import GateSynth.Json.Reader
import GateSynth.Library.Basic
import GateSynth.Library.Cell
import GateSynth.Library.Indexed
import GateSynth.Library.Pattern
import GateSynth.Library.PatternReader
import GateSynth.Main
import GateSynth.Mapping.Basic
import GateSynth.Mapping.Cost
import GateSynth.Mapping.Cover
import GateSynth.Mapping.Error
import GateSynth.Mapping.Match
import GateSynth.Mapping.Selection
import GateSynth.Mapping.Strategy
import GateSynth.Mapping.Subject
import GateSynth.Mapping.Timing
import GateSynth.Netlist.Basic
import GateSynth.Netlist.CountedOrder
import GateSynth.Netlist.Error
import GateSynth.Netlist.Exchange
import GateSynth.Netlist.Hops
import GateSynth.Netlist.Indexed
import GateSynth.Netlist.Kind
import GateSynth.Netlist.Node
import GateSynth.Netlist.NodeId
import GateSynth.Netlist.Operation
import GateSynth.Netlist.Order
import GateSynth.Netlist.Validate
import GateSynth.Optimize.Balancing
import GateSynth.Optimize.Folding
import GateSynth.Optimize.Liveness
import GateSynth.Optimize.Merging
import GateSynth.Optimize.Pass
import GateSynth.Optimize.Rounds
import GateSynth.Proofs.Exchange.Decoding
import GateSynth.Proofs.Exchange.Importing
import GateSynth.Proofs.Exchange.RoundTrip
import GateSynth.Proofs.Flow.Checking
import GateSynth.Proofs.Flow.Stages
import GateSynth.Proofs.Flow.Validation
import GateSynth.Proofs.Json.Reading
import GateSynth.Proofs.Library.Checked
import GateSynth.Proofs.Library.Generic
import GateSynth.Proofs.Library.Indices
import GateSynth.Proofs.Library.PatternText
import GateSynth.Proofs.Library.Spacing
import GateSynth.Proofs.Library.StoredForm
import GateSynth.Proofs.Mapping.AreaOptimality
import GateSynth.Proofs.Mapping.ArrivalOptimality
import GateSynth.Proofs.Mapping.Arrivals
import GateSynth.Proofs.Mapping.Assembly
import GateSynth.Proofs.Mapping.Choices
import GateSynth.Proofs.Mapping.Correctness
import GateSynth.Proofs.Mapping.Covers
import GateSynth.Proofs.Mapping.Demand
import GateSynth.Proofs.Mapping.Enumeration
import GateSynth.Proofs.Mapping.ExactCosts
import GateSynth.Proofs.Mapping.Existence
import GateSynth.Proofs.Mapping.Inverters
import GateSynth.Proofs.Mapping.Occurrences
import GateSynth.Proofs.Mapping.Origins
import GateSynth.Proofs.Mapping.Outcomes
import GateSynth.Proofs.Mapping.Regions
import GateSynth.Proofs.Mapping.Reimport
import GateSynth.Proofs.Mapping.Remapping
import GateSynth.Proofs.Mapping.Rivals
import GateSynth.Proofs.Mapping.SelectedTimes
import GateSynth.Proofs.Mapping.Subjects
import GateSynth.Proofs.Mapping.Tilings
import GateSynth.Proofs.Netlist.CanonicalOrder
import GateSynth.Proofs.Netlist.Chains
import GateSynth.Proofs.Netlist.Coherence
import GateSynth.Proofs.Netlist.Cones
import GateSynth.Proofs.Netlist.Construction
import GateSynth.Proofs.Netlist.CountedOrder
import GateSynth.Proofs.Netlist.Cycles
import GateSynth.Proofs.Netlist.FreshNames
import GateSynth.Proofs.Netlist.Histories
import GateSynth.Proofs.Netlist.Indices
import GateSynth.Proofs.Netlist.Legality
import GateSynth.Proofs.Netlist.Provenance
import GateSynth.Proofs.Netlist.Readers
import GateSynth.Proofs.Netlist.Renaming
import GateSynth.Proofs.Netlist.Rewriting
import GateSynth.Proofs.Netlist.Substitution
import GateSynth.Proofs.Netlist.TopologicalOrder
import GateSynth.Proofs.Optimize.BalancedTrees
import GateSynth.Proofs.Optimize.BalancedValues
import GateSynth.Proofs.Optimize.Balancing
import GateSynth.Proofs.Optimize.Convergence
import GateSynth.Proofs.Optimize.DeadNodes
import GateSynth.Proofs.Optimize.FixedPoints
import GateSynth.Proofs.Optimize.FoldedCompletely
import GateSynth.Proofs.Optimize.FoldedValues
import GateSynth.Proofs.Optimize.Folding
import GateSynth.Proofs.Optimize.Integrity
import GateSynth.Proofs.Optimize.Joining
import GateSynth.Proofs.Optimize.Liveness
import GateSynth.Proofs.Optimize.MergedCompletely
import GateSynth.Proofs.Optimize.MergedValues
import GateSynth.Proofs.Optimize.Merging
import GateSynth.Proofs.Optimize.MergingEnds
import GateSynth.Proofs.Optimize.Rebuilding
import GateSynth.Proofs.Optimize.RefusedDivisions
import GateSynth.Proofs.Optimize.SkippedFolds
import GateSynth.Proofs.Optimize.Trees
import GateSynth.Proofs.Optimize.Weights
import GateSynth.Proofs.Results
import GateSynth.Proofs.Simulation.Exhaustion
import GateSynth.Proofs.Simulation.Extensions
import GateSynth.Proofs.Simulation.Implementation
import GateSynth.Proofs.Simulation.Meaning
import GateSynth.Proofs.Simulation.Operators
import GateSynth.Proofs.Simulation.Ports
import GateSynth.Proofs.Simulation.Reproduction
import GateSynth.Proofs.Simulation.Solutions
import GateSynth.Proofs.Tables
import GateSynth.Proofs.Verilog.Addresses
import GateSynth.Proofs.Verilog.Behaviours
import GateSynth.Proofs.Verilog.BodyItems
import GateSynth.Proofs.Verilog.Building
import GateSynth.Proofs.Verilog.Completions
import GateSynth.Proofs.Verilog.Composition
import GateSynth.Proofs.Verilog.Connections
import GateSynth.Proofs.Verilog.Contexts
import GateSynth.Proofs.Verilog.Copies
import GateSynth.Proofs.Verilog.Counterparts
import GateSynth.Proofs.Verilog.CutWidths
import GateSynth.Proofs.Verilog.DeclaredPorts
import GateSynth.Proofs.Verilog.Determination
import GateSynth.Proofs.Verilog.Drivers
import GateSynth.Proofs.Verilog.Echoes
import GateSynth.Proofs.Verilog.Elaboration
import GateSynth.Proofs.Verilog.Flattening
import GateSynth.Proofs.Verilog.Grammar
import GateSynth.Proofs.Verilog.Insertion
import GateSynth.Proofs.Verilog.Integrity
import GateSynth.Proofs.Verilog.Interchange
import GateSynth.Proofs.Verilog.Isolation
import GateSynth.Proofs.Verilog.Lexemes
import GateSynth.Proofs.Verilog.LineIndex
import GateSynth.Proofs.Verilog.LongConcatenations
import GateSynth.Proofs.Verilog.Lookahead
import GateSynth.Proofs.Verilog.Lowering
import GateSynth.Proofs.Verilog.Meaning
import GateSynth.Proofs.Verilog.ModuleTexts
import GateSynth.Proofs.Verilog.NamedLiterals
import GateSynth.Proofs.Verilog.Nesting
import GateSynth.Proofs.Verilog.Operations
import GateSynth.Proofs.Verilog.Outlines
import GateSynth.Proofs.Verilog.ParallelStatements
import GateSynth.Proofs.Verilog.Parsing
import GateSynth.Proofs.Verilog.Positions
import GateSynth.Proofs.Verilog.Precedence
import GateSynth.Proofs.Verilog.Redeclarations
import GateSynth.Proofs.Verilog.SettledScopes
import GateSynth.Proofs.Verilog.Statements
import GateSynth.Proofs.Verilog.Terminals
import GateSynth.Proofs.Verilog.Tokenizing
import GateSynth.Proofs.Verilog.TruthTests
import GateSynth.Proofs.Verilog.WidthContracts
import GateSynth.Proofs.Verilog.WidthRanges
import GateSynth.Quantity
import GateSynth.Simulation.Apply
import GateSynth.Simulation.Equivalence
import GateSynth.Simulation.Evaluator
import GateSynth.Table
import GateSynth.Text.Blank
import GateSynth.Text.Numeral
import GateSynth.Total
import GateSynth.Verilog.Elaborate
import GateSynth.Verilog.Error
import GateSynth.Verilog.Lexer
import GateSynth.Verilog.Parser
import GateSynth.Verilog.Position
import GateSynth.Verilog.Token
import GateSynth.Verilog.Tree
import GateSynth.Word
