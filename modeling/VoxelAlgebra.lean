import VoxelAlgebra.Box.View
import VoxelAlgebra.World
import VoxelAlgebra.Proofs.Edit
import VoxelAlgebra.Proofs.Edit.Outcome
import VoxelAlgebra.Proofs.Issuer
import VoxelAlgebra.Proofs.Expression
import VoxelAlgebra.Proofs.Grid.Convexity
import VoxelAlgebra.Proofs.Grid.Hull
import VoxelAlgebra.Proofs.Grid.Reversal
import VoxelAlgebra.Proofs.Grid.Segment
import VoxelAlgebra.Proofs.Grid.Steps
import VoxelAlgebra.Proofs.Box.Correction
import VoxelAlgebra.Proofs.Box.Extents
import VoxelAlgebra.Proofs.Box.Intersection
import VoxelAlgebra.Proofs.Box.Overlap
import VoxelAlgebra.Proofs.Box.Region
import VoxelAlgebra.Proofs.Box.Slices
import VoxelAlgebra.Proofs.Equation.Acceptance
import VoxelAlgebra.Proofs.Equation.Brackets
import VoxelAlgebra.Proofs.Equation.Checks
import VoxelAlgebra.Proofs.Equation.Evaluation
import VoxelAlgebra.Proofs.Equation.Grammar
import VoxelAlgebra.Proofs.Equation.Levels
import VoxelAlgebra.Proofs.Equation.Lexing
import VoxelAlgebra.Proofs.Equation.Meaning
import VoxelAlgebra.Proofs.Equation.Precedence
import VoxelAlgebra.Proofs.Equation.Reduction
import VoxelAlgebra.Proofs.Equation.Rendering
import VoxelAlgebra.Proofs.Equation.Resolution
import VoxelAlgebra.Proofs.Equation.Simplification
import VoxelAlgebra.Proofs.SetEquation
import VoxelAlgebra.Proofs.SetEquation.Current
import VoxelAlgebra.Proofs.SetEquation.Difference
import VoxelAlgebra.Proofs.Solid.Accumulation
import VoxelAlgebra.Proofs.Solid.Building
import VoxelAlgebra.Proofs.Solid.Cap
import VoxelAlgebra.Proofs.Solid.Composite
import VoxelAlgebra.Proofs.Solid.Drawing
import VoxelAlgebra.Proofs.Solid.Evaluation
import VoxelAlgebra.Proofs.Solid.Extrusion
import VoxelAlgebra.Proofs.Solid.FailedChange
import VoxelAlgebra.Proofs.Solid.Faults
import VoxelAlgebra.Proofs.Solid.HullSlices
import VoxelAlgebra.Proofs.Solid.HulledLines
import VoxelAlgebra.Proofs.Solid.Known
import VoxelAlgebra.Proofs.Solid.Layer
import VoxelAlgebra.Proofs.Solid.Line
import VoxelAlgebra.Proofs.Solid.Loft
import VoxelAlgebra.Proofs.Solid.Moving
import VoxelAlgebra.Proofs.Solid.Outline
import VoxelAlgebra.Proofs.Solid.Pass
import VoxelAlgebra.Proofs.Solid.Representation
import VoxelAlgebra.Proofs.Solid.RowFill
import VoxelAlgebra.Proofs.Solid.Runs.Basic
import VoxelAlgebra.Proofs.Solid.Runs.Composite
import VoxelAlgebra.Proofs.Solid.Runs.Fill
import VoxelAlgebra.Proofs.Solid.Runs.Loft
import VoxelAlgebra.Proofs.Solid.Runs.Sweep
import VoxelAlgebra.Proofs.Solid.Section
import VoxelAlgebra.Proofs.Solid.Sharing
import VoxelAlgebra.Proofs.Solid.Stages
import VoxelAlgebra.Proofs.Solid.Sweep
import VoxelAlgebra.Proofs.Solid.Translation
import VoxelAlgebra.Proofs.Solid.VoxelSet
import VoxelAlgebra.Proofs.World.Accumulation
import VoxelAlgebra.Proofs.World.Building
import VoxelAlgebra.Proofs.World.Calls
import VoxelAlgebra.Proofs.World.Drawing
import VoxelAlgebra.Proofs.World.Extrusion
import VoxelAlgebra.Proofs.World.Failure
import VoxelAlgebra.Proofs.World.Filling
import VoxelAlgebra.Proofs.World.Finding
import VoxelAlgebra.Proofs.World.Interpretation
import VoxelAlgebra.Proofs.World.Layers
import VoxelAlgebra.Proofs.World.Lofting
import VoxelAlgebra.Proofs.World.Moving
import VoxelAlgebra.Proofs.World.Objects
import VoxelAlgebra.Proofs.World.Operations
import VoxelAlgebra.Proofs.World.Ownership
import VoxelAlgebra.Proofs.World.Partition
import VoxelAlgebra.Proofs.World.Sections
import VoxelAlgebra.Proofs.World.Shapes
import VoxelAlgebra.Proofs.World.Sharing
import VoxelAlgebra.Proofs.World.Sweeping
