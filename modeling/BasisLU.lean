import BasisLU.Config.Document
import BasisLU.Operation
import BasisLU.Proofs.Chain
import BasisLU.Proofs.Factorization.Safety
import BasisLU.System
import BasisLU.Proofs.Factorization.Layouts
import BasisLU.Proofs.Refactoring
import BasisLU.Proofs.Factorization.History
import BasisLU.Proofs.Factorization.Atomic
import BasisLU.Proofs.Factorization.Clean
import BasisLU.Proofs.Factorization.Outside
import BasisLU.Proofs.Factorization.Overwritten
import BasisLU.Proofs.Factorization.Separate
import BasisLU.Proofs.Factorization.Expanded
import BasisLU.Proofs.Factorization.Retried
import BasisLU.Proofs.Factorization.InPlace
import BasisLU.Proofs.Ordered
import BasisLU.Proofs.Elimination.Presorted
import BasisLU.Proofs.Factorization.Presorted
import BasisLU.Proofs.Factorization.Compressed
import BasisLU.Proofs.Factorization.Appended
import BasisLU.Proofs.Elimination.LeftToRight
import BasisLU.Proofs.Factorization.LeftToRight
import BasisLU.Proofs.System
import BasisLU.Proofs.Factorization.Output
import BasisLU.Proofs.Factorization.Dropped
import BasisLU.Proofs.Factorization.Assigned
import BasisLU.Proofs.Factorization.Room
import BasisLU.Proofs.Factorization.Beside
import BasisLU.Proofs.Factorization.Lengthened
import BasisLU.Proofs.Factorization.Readers
import BasisLU.Proofs.Largest
import BasisLU.Proofs.Elimination.Bounded
import BasisLU.Proofs.Factorization.Bounded
import BasisLU.Proofs.Factorization.Grown
