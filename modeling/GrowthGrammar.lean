import GrowthGrammar.Decimal.Binary
import GrowthGrammar.Decimal.Layout
import GrowthGrammar.Decimal.Read
import GrowthGrammar.Decimal.Rounding
import GrowthGrammar.Decimal.Shortest
import GrowthGrammar.File.Grammars
import GrowthGrammar.File.Path
import GrowthGrammar.File.Tree
import GrowthGrammar.Grammar.Basic
import GrowthGrammar.Grammar.Derivation
import GrowthGrammar.Grammar.Engine
import GrowthGrammar.Grammar.File
import GrowthGrammar.Json.Decode
import GrowthGrammar.Json.Document
import GrowthGrammar.Json.Encode
import GrowthGrammar.Json.Value
import GrowthGrammar.Lint.Basic
import GrowthGrammar.Main
import GrowthGrammar.Plant.Basic
import GrowthGrammar.Plant.System
import GrowthGrammar.Program.Demo
import GrowthGrammar.Program.Grow
import GrowthGrammar.Program.Linter
import GrowthGrammar.Program.Transcript
import GrowthGrammar.Proofs.Double.Arithmetic
import GrowthGrammar.Proofs.Double.Rounding
import GrowthGrammar.Proofs.Double.Unpacked
import GrowthGrammar.Proofs.Double.Value
import GrowthGrammar.Proofs.File.Grammars
import GrowthGrammar.Proofs.Grammar.Acceptance
import GrowthGrammar.Proofs.Grammar.Composition
import GrowthGrammar.Proofs.Grammar.Depth
import GrowthGrammar.Proofs.Grammar.Derivation
import GrowthGrammar.Proofs.Grammar.Index
import GrowthGrammar.Proofs.Grammar.Interleaving
import GrowthGrammar.Proofs.Grammar.Scan
import GrowthGrammar.Proofs.Grammar.Series
import GrowthGrammar.Proofs.Grammar.Substitution
import GrowthGrammar.Proofs.Grammar.Validation
import GrowthGrammar.Proofs.Grammar.Weights
import GrowthGrammar.Proofs.Lint.Pruning
import GrowthGrammar.Proofs.Lint.Reachability
import GrowthGrammar.Proofs.Plant.Draws
import GrowthGrammar.Proofs.Plant.Fields
import GrowthGrammar.Proofs.Plant.Motion
import GrowthGrammar.Proofs.Plant.Shape
import GrowthGrammar.Proofs.Plant.Table
import GrowthGrammar.Proofs.Plant.Tapering
import GrowthGrammar.Proofs.Program.Arguments
import GrowthGrammar.Proofs.Program.Directory
import GrowthGrammar.Proofs.Random.Cursor
import GrowthGrammar.Proofs.Random.Draws
import GrowthGrammar.Proofs.Random.Interval
import GrowthGrammar.Proofs.Random.Uniform
import GrowthGrammar.Proofs.Random.Weighted
import GrowthGrammar.Proofs.Space.Hull
import GrowthGrammar.Proofs.Space.Isometry
import GrowthGrammar.Proofs.Space.Rotation
import GrowthGrammar.Proofs.System.Building
import GrowthGrammar.Proofs.System.CleanLint
import GrowthGrammar.Proofs.System.FaultyStart
import GrowthGrammar.Proofs.System.History
import GrowthGrammar.Proofs.System.SettingOrder
import GrowthGrammar.Proofs.System.Structure
import GrowthGrammar.Proofs.System.Variants
import GrowthGrammar.Proofs.Walk.Calls
import GrowthGrammar.Proofs.Walk.Draws
import GrowthGrammar.Proofs.Walk.FirstCome
import GrowthGrammar.Proofs.Walk.Inert
import GrowthGrammar.Proofs.Walk.Invariant
import GrowthGrammar.Proofs.Walk.Jumps
import GrowthGrammar.Proofs.Walk.Outline
import GrowthGrammar.Proofs.Walk.Path
import GrowthGrammar.Proofs.Walk.Peak
import GrowthGrammar.Proofs.Walk.Records
import GrowthGrammar.Proofs.Walk.Registry
import GrowthGrammar.Proofs.Walk.Scoping
import GrowthGrammar.Proofs.Walk.Stack
import GrowthGrammar.Proofs.Walk.Transport
import GrowthGrammar.Proofs.Walk.Verdict
import GrowthGrammar.Proofs.Word.Active
import GrowthGrammar.Proofs.Word.Balance
import GrowthGrammar.Proofs.Word.Depth
import GrowthGrammar.Proofs.Word.Openings
import GrowthGrammar.Proofs.Word.Parts
import GrowthGrammar.Proofs.Word.Sorted
import GrowthGrammar.Random.ChaCha
import GrowthGrammar.Random.Cursor
import GrowthGrammar.Random.Generator
import GrowthGrammar.Random.Stream
import GrowthGrammar.Random.Uniform
import GrowthGrammar.Random.Weighted
import GrowthGrammar.Ron.Compound
import GrowthGrammar.Ron.Failure
import GrowthGrammar.Ron.Reader
import GrowthGrammar.Ron.Scalar
import GrowthGrammar.Space.Bounds
import GrowthGrammar.Space.Pose
import GrowthGrammar.Space.Quat
import GrowthGrammar.Space.Vec3
import GrowthGrammar.System.Basic
import GrowthGrammar.System.Config
import GrowthGrammar.Text.Printable
import GrowthGrammar.Text.Quoted
import GrowthGrammar.Walk.Basic
import GrowthGrammar.Walk.Context
import GrowthGrammar.Walk.Recursive
import GrowthGrammar.Walk.Table
import GrowthGrammar.Word.Basic
import GrowthGrammar.Word.Nesting
