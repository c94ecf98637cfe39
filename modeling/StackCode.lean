import StackCode.Span
import StackCode.Ty
import StackCode.Kind
import StackCode.Number.Format
import StackCode.Const
import StackCode.Symbol
import StackCode.Tree.Operator
import StackCode.Tree.Basic
import StackCode.Tree.Build
import StackCode.Opcode.Basic
import StackCode.ScopeKind
import StackCode.Error
import StackCode.Opcode.Select
import StackCode.Config
import StackCode.Limit
import StackCode.Frame
import StackCode.Chain
import StackCode.Code.Basic
import StackCode.Code.Resolve
import StackCode.Code.Emit
import StackCode.Code.Local
import StackCode.Pool
import StackCode.Instruction
import StackCode.Switch.Layout
import StackCode.Switch.Sort
import StackCode.Scope
import StackCode.Resolver
import StackCode.Cond
import StackCode.Item.Basic
import StackCode.Item.Access
import StackCode.Generate.Basic
import StackCode.Generate.Cleanup
import StackCode.Tree.Weight
import StackCode.Tree.Initializers
import StackCode.Generate.Text
import StackCode.Generate.Expression
import StackCode.Generate.Operator
import StackCode.Generate.Statement
import StackCode.Generate.Switch
import StackCode.Generate.Protect
import StackCode.Generate.Tree
import StackCode.Generate.Method
import StackCode.Generate.Class
import StackCode.Proofs.JumpDiscipline
import StackCode.Proofs.SwitchTable
import StackCode.Proofs.Diagnostics
import StackCode.Proofs.DebugSwitches
import StackCode.Proofs.Decoding
import StackCode.Proofs.LockstepSteps
import StackCode.Proofs.LockstepExpressions
import StackCode.Proofs.LockstepLeaving
import StackCode.Proofs.LockstepRegions
import StackCode.Proofs.LockstepSwitch
import StackCode.Proofs.LockstepMethods
import StackCode.Proofs.WideJumps
import StackCode.Proofs.PoolIntegrity
import StackCode.Proofs.SwitchDispatch
import StackCode.Proofs.Formulas
import StackCode.Proofs.InitializerPlacement
import StackCode.Proofs.ResolvedChains
import StackCode.Proofs.SeenPositions
import StackCode.Proofs.Sessions
import StackCode.Proofs.ColumnSorting
import StackCode.Proofs.Increments
import StackCode.Proofs.BoundedWeight
import StackCode.Proofs.MergedChains
import StackCode.Proofs.Concatenation
import StackCode.Proofs.Subtyping
import StackCode.Proofs.LineTables
import StackCode.Proofs.Descriptors
