import Entail.Backend
import Entail.Command.Run
import Entail.Entailment
import Entail.Formula.Dnf
import Entail.Options.Toml
import Entail.Proofs.Applied
import Entail.Proofs.Entailment
import Entail.Proofs.Refutation
import Entail.Proofs.Nodes
import Entail.Proofs.Ranks
import Entail.Proofs.Sizes
import Entail.Proofs.Live
import Entail.Proofs.Termination
import Entail.Proofs.Cells
import Entail.Proofs.Idempotence
import Entail.Proofs.FirstOrder
import Entail.Proofs.MostGeneral
import Entail.Proofs.Subsumption
import Entail.Proofs.Preservation
import Entail.Proofs.Implication
import Entail.Proofs.Narrowing
import Entail.Proofs.Transparency
import Entail.Proofs.Reflexivity
import Entail.Proofs.NormalForm
import Entail.Proofs.Merging
import Entail.Proofs.Mismatches
import Entail.Proofs.Orientation
import Entail.Proofs.Search
import Entail.Proofs.Sequencing
import Entail.Proofs.Readding
import Entail.Proofs.Scoping
import Entail.Proofs.Solving
import Entail.Proofs.Injectivity
import Entail.Proofs.Clashes
import Entail.Proofs.Caching
import Entail.Proofs.Overloads
import Entail.Proofs.Identifiers
import Entail.Proofs.Derivations
import Entail.Proofs.Declarations
