import SymbolicRegression.Random.Uniform
import SymbolicRegression.Random.Xoshiro
import SymbolicRegression.Random.Cycle
import SymbolicRegression.Program.Tree
import SymbolicRegression.Program.Evaluation
import SymbolicRegression.Decimal.Text
import SymbolicRegression.Decimal.Reader
import SymbolicRegression.Text.Blank
import SymbolicRegression.Formula.Text
import SymbolicRegression.Formula.Reader
import SymbolicRegression.CaseFile.Reader
import SymbolicRegression.Breeding.Growth
import SymbolicRegression.Breeding.Crossover
import SymbolicRegression.Breeding.Mutation
import SymbolicRegression.Breeding.Tournament
import SymbolicRegression.Breeding.Constants
import SymbolicRegression.Fitness.Scorer
import SymbolicRegression.Fitness.Population
import SymbolicRegression.Settings.Json
import SymbolicRegression.Report.Format
import SymbolicRegression.Evolution.Run
import SymbolicRegression.Command.Run
import SymbolicRegression.Main
import SymbolicRegression.Proofs.Outcome
import SymbolicRegression.Proofs.Random.Draws
import SymbolicRegression.Proofs.Random.Streams
import SymbolicRegression.Proofs.Random.Endings
import SymbolicRegression.Proofs.Program.Shape
import SymbolicRegression.Proofs.Program.Value
import SymbolicRegression.Proofs.Program.Stack
import SymbolicRegression.Proofs.Program.Recognition
import SymbolicRegression.Proofs.Program.Traversal
import SymbolicRegression.Proofs.Program.Extents
import SymbolicRegression.Proofs.Float.Packing
import SymbolicRegression.Proofs.Float.Order
import SymbolicRegression.Proofs.Float.Rounding
import SymbolicRegression.Proofs.Float.Arithmetic
import SymbolicRegression.Proofs.Float.Operations
import SymbolicRegression.Proofs.Float.Quotients
import SymbolicRegression.Proofs.Float.Sums
import SymbolicRegression.Proofs.Decimal.Digits
import SymbolicRegression.Proofs.Decimal.Numerals
import SymbolicRegression.Proofs.Decimal.Literal
import SymbolicRegression.Proofs.Decimal.Shortest
import SymbolicRegression.Proofs.Decimal.Bits
import SymbolicRegression.Proofs.Decimal.Text
import SymbolicRegression.Proofs.Json.Datum
import SymbolicRegression.Proofs.Json.Reading
import SymbolicRegression.Proofs.Formula.Grammar
import SymbolicRegression.Proofs.Formula.Reading
import SymbolicRegression.Proofs.Formula.Unambiguous
import SymbolicRegression.Proofs.Text.Pieces
import SymbolicRegression.Proofs.CaseFile.Format
import SymbolicRegression.Proofs.CaseFile.Faults
import SymbolicRegression.Proofs.CaseFile.Layout
import SymbolicRegression.Proofs.CaseFile.Reading
import SymbolicRegression.Proofs.Breeding.Growth
import SymbolicRegression.Proofs.Breeding.Capacity
import SymbolicRegression.Proofs.Breeding.Visits
import SymbolicRegression.Proofs.Breeding.Generator
import SymbolicRegression.Proofs.Breeding.Retries
import SymbolicRegression.Proofs.Breeding.Crossover
import SymbolicRegression.Proofs.Breeding.Splicing
import SymbolicRegression.Proofs.Breeding.Context
import SymbolicRegression.Proofs.Breeding.Mutation
import SymbolicRegression.Proofs.Breeding.Bounds
import SymbolicRegression.Proofs.Breeding.Assembly
import SymbolicRegression.Proofs.Breeding.Tournament
import SymbolicRegression.Proofs.Breeding.Contest
import SymbolicRegression.Proofs.Breeding.Constants
import SymbolicRegression.Proofs.Breeding.ConstantRange
import SymbolicRegression.Proofs.Breeding.SampledRange
import SymbolicRegression.Proofs.Breeding.Endings
import SymbolicRegression.Proofs.Fitness.Scoring
import SymbolicRegression.Proofs.Fitness.Turns
import SymbolicRegression.Proofs.Fitness.Best
import SymbolicRegression.Proofs.Fitness.Ranking
import SymbolicRegression.Proofs.Fitness.Zeros
import SymbolicRegression.Proofs.Fitness.Extremes
import SymbolicRegression.Proofs.Evolution.Step
import SymbolicRegression.Proofs.Evolution.Start
import SymbolicRegression.Proofs.Evolution.SmallestBuffer
import SymbolicRegression.Proofs.Evolution.TerminalLimit
import SymbolicRegression.Proofs.Evolution.Reachable
import SymbolicRegression.Proofs.Evolution.Population
import SymbolicRegression.Proofs.Evolution.Formula
import SymbolicRegression.Proofs.Evolution.Calls
import SymbolicRegression.Proofs.Evolution.Lifecycle
import SymbolicRegression.Proofs.Evolution.Elitism
import SymbolicRegression.Proofs.Evolution.Eviction
import SymbolicRegression.Proofs.Evolution.Reporting
import SymbolicRegression.Proofs.Evolution.Unreachable
import SymbolicRegression.Proofs.Evolution.Safety
import SymbolicRegression.Proofs.Evolution.Recovery
import SymbolicRegression.Proofs.Evolution.Snapshots
import SymbolicRegression.Proofs.Evolution.Truncation
import SymbolicRegression.Proofs.Evolution.Endings
import SymbolicRegression.Proofs.Report.Written
import SymbolicRegression.Proofs.Report.JsonStream
import SymbolicRegression.Proofs.Report.LastLines
import SymbolicRegression.Proofs.Files.Directory
import SymbolicRegression.Proofs.Command.Arguments
import SymbolicRegression.Proofs.Command.Evolve
