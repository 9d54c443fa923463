import ShaderIR.Interner
import ShaderIR.Printer
import ShaderIR.Proofs.Chain.Calls
import ShaderIR.Proofs.Lower.Faithful
import ShaderIR.Proofs.Validity.First
import ShaderIR.Proofs.Run.Walk
import ShaderIR.Proofs.Body.Growth
import ShaderIR.Proofs.Lower.Analyses
import ShaderIR.Proofs.Lower.Consolidation
import ShaderIR.Proofs.Lower.Upkeep
import ShaderIR.Proofs.Lower.Settled
import ShaderIR.Proofs.Text.Legible
import ShaderIR.Proofs.Lower.Commute
import ShaderIR.Proofs.Flow.Immediate
import ShaderIR.Proofs.Lower.Stop
import ShaderIR.Proofs.Lower.InPlace
import ShaderIR.Proofs.Edit.Visits
import ShaderIR.Proofs.Chain.Misuse
import ShaderIR.Proofs.Chain.Tour
import ShaderIR.Proofs.Run.Order
import ShaderIR.Proofs.Body.Building
import ShaderIR.Proofs.Scalar.Integers
import ShaderIR.Proofs.Body.Cache
import ShaderIR.Proofs.Interning
import ShaderIR.Proofs.Identity
import ShaderIR.Proofs.Body.Lifetime
