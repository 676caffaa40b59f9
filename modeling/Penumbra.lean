import Penumbra.Source.Span
import Penumbra.Text.Column
import Penumbra.Text.Hidden
import Penumbra.Text.Quoted
import Penumbra.Doc.Basic
import Penumbra.Doc.Layout
import Penumbra.Doc.Ansi
import Penumbra.Ty.Basic
import Penumbra.Ty.Statement
import Penumbra.Env
import Penumbra.Program.Kind
import Penumbra.Tree.Basic
import Penumbra.Tree.Build
import Penumbra.Tree.Order
import Penumbra.Tree.Copy
import Penumbra.Tree.Print
import Penumbra.Tree.Expand
import Penumbra.Erase.Fault
import Penumbra.Erase.Note
import Penumbra.Erase.Pass
import Penumbra.Erase.Declared
import Penumbra.Erase.Family
import Penumbra.Erase.Dispatch
import Penumbra.Erase.Concrete
import Penumbra.Erase.Residue
import Penumbra.Erase.Basic
import Penumbra.Proofs.Kind.MapM
import Penumbra.Proofs.Kind.Refill
import Penumbra.Proofs.Span.Conversion
import Penumbra.Proofs.Env.ConcreteBindings
import Penumbra.Proofs.Env.Lookup
import Penumbra.Proofs.Env.SetVariable
import Penumbra.Proofs.Doc.NestedText
import Penumbra.Proofs.Doc.TerminalColours
import Penumbra.Proofs.Doc.WrittenText
import Penumbra.Proofs.Tree.CheckedTrees
import Penumbra.Proofs.Tree.ExactCopy
import Penumbra.Proofs.Tree.Extension
import Penumbra.Proofs.Tree.NamedOnce
import Penumbra.Proofs.Tree.OrderComparison
import Penumbra.Proofs.Tree.OrderEquations
import Penumbra.Proofs.Tree.Owned
import Penumbra.Proofs.Tree.PrintedBlocks
import Penumbra.Proofs.Tree.Reach
import Penumbra.Proofs.Tree.ReadAfterWrite
import Penumbra.Proofs.Tree.Terms
import Penumbra.Proofs.Pass.NodeQueue
import Penumbra.Proofs.Pass.Stops
import Penumbra.Proofs.Pass.Yields
import Penumbra.Proofs.Lower.ClearedBinders
import Penumbra.Proofs.Lower.Dispatch
import Penumbra.Proofs.Lower.EnclosingArms
import Penumbra.Proofs.Lower.FamilyMerge
import Penumbra.Proofs.Lower.FamilyNodes
import Penumbra.Proofs.Lower.FamilySwitch
import Penumbra.Proofs.Lower.FitVisitors
import Penumbra.Proofs.Lower.HaltedRuns
import Penumbra.Proofs.Lower.KeepsOwned
import Penumbra.Proofs.Lower.KeptDeclarations
import Penumbra.Proofs.Lower.KeptNodes
import Penumbra.Proofs.Lower.MalformedVisitors
import Penumbra.Proofs.Lower.NoShadowArms
import Penumbra.Proofs.Lower.ParentLinks
import Penumbra.Proofs.Lower.PendingVisitors
import Penumbra.Proofs.Lower.RemainingNodes
import Penumbra.Proofs.Lower.SortedArms
import Penumbra.Proofs.Lower.TreeGrowth
import Penumbra.Proofs.Lower.VisitorOutline
import Penumbra.Proofs.Lower.VisitorShapes
import Penumbra.Proofs.Lower.WildcardCoverage
import Penumbra.Proofs.Concrete.AccessNodes
import Penumbra.Proofs.Concrete.FieldExpression
import Penumbra.Proofs.Concrete.FieldTypes
import Penumbra.Proofs.Concrete.FirstFault
import Penumbra.Proofs.Concrete.FitPrograms
import Penumbra.Proofs.Concrete.KeepsOwned
import Penumbra.Proofs.Concrete.NodeChange
import Penumbra.Proofs.Concrete.NodeTurns
import Penumbra.Proofs.Concrete.TermImage
import Penumbra.Proofs.Concrete.TermRefinement
import Penumbra.Proofs.Concrete.Termination
import Penumbra.Proofs.Concrete.TreeEvolution
import Penumbra.Proofs.Concrete.VisitCensus
import Penumbra.Proofs.Concrete.WalkOutcomes
import Penumbra.Proofs.Concrete.WorkList
import Penumbra.Proofs.Erase.Completeness
import Penumbra.Proofs.Erase.Environment
import Penumbra.Proofs.Erase.ErasablePrograms
import Penumbra.Proofs.Erase.FitNodes
import Penumbra.Proofs.Erase.Idempotence
import Penumbra.Proofs.Erase.OverlookedTypes
import Penumbra.Proofs.Erase.PassFrames
import Penumbra.Proofs.Erase.RemainingShadows
import Penumbra.Proofs.Erase.ShallowShadows
import Penumbra.Proofs.Program.AttachedNodes
import Penumbra.Proofs.Program.Edits
import Penumbra.Proofs.Program.Tidy
