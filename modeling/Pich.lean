import Pich.Backends
import Pich.Bigint.Computations
import Pich.Bigint.Int192
import Pich.Bulk
import Pich.Design
import Pich.Diffusion
import Pich.DispatchResults
import Pich.Examples
import Pich.KeyCollision
import Pich.KeyEntropy
import Pich.Ledger
import Pich.Period
import Pich.PinnedBodies
import Pich.Resumption
import Pich.SboxTransform
import Pich.Selection
import Pich.Sha256.Conformance
import Pich.Sha256.Iteration
import Pich.TapCount
