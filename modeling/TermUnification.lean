import TermUnification.FileTree
import TermUnification.Main
import TermUnification.Proofs.ArgumentOrder
import TermUnification.Proofs.Bindings
import TermUnification.Proofs.Clashes
import TermUnification.Proofs.Effects
import TermUnification.Proofs.EqualTerms
import TermUnification.Proofs.EquationOrder
import TermUnification.Proofs.Equivariance
import TermUnification.Proofs.FreshVariables
import TermUnification.Proofs.Generality
import TermUnification.Proofs.GroundMatching
import TermUnification.Proofs.GroundTerms
import TermUnification.Proofs.Histories
import TermUnification.Proofs.Indirection
import TermUnification.Proofs.Locality
import TermUnification.Proofs.MapEntries
import TermUnification.Proofs.Matching
import TermUnification.Proofs.Memberwise
import TermUnification.Proofs.NewVariables
import TermUnification.Proofs.OccursCheck
import TermUnification.Proofs.OptionGrammar
import TermUnification.Proofs.Queries
import TermUnification.Proofs.RecordLayouts
import TermUnification.Proofs.Reports
import TermUnification.Proofs.UniqueKeys
import TermUnification.Proofs.Walks
import TermUnification.Proofs.Wildcard
