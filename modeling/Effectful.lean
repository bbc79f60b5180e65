import Effectful.Main
import Effectful.Program.Script
import Effectful.Proofs.ClauseAnnotations
import Effectful.Proofs.ClauseExits
import Effectful.Proofs.ConstantHandler
import Effectful.Proofs.EntryArguments
import Effectful.Proofs.Exports
import Effectful.Proofs.FrameReuse
import Effectful.Proofs.HandledNames
import Effectful.Proofs.HandlerKeys
import Effectful.Proofs.LiftedUnits
import Effectful.Proofs.LivePoints
import Effectful.Proofs.LoweredOperations
import Effectful.Proofs.MemoryLayout
import Effectful.Proofs.OperatorCode
import Effectful.Proofs.RowAlgebra
import Effectful.Proofs.RowConvergence
import Effectful.Proofs.TableBounds
import Effectful.Proofs.UsageSoundness
import Effectful.Report.Host
import Effectful.Report.Lowering
import Effectful.Report.Module
