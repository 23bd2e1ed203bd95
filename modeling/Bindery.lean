import Bindery.Expectations
import Bindery.Main
import Bindery.Proofs.Hoisting
import Bindery.Proofs.IdentityText
import Bindery.Proofs.Memoization
import Bindery.Proofs.WriteBack
import Bindery.Proofs.StringLiterals
import Bindery.Proofs.FormIndependence
import Bindery.Proofs.NumericCasts
import Bindery.Proofs.ScalarTerms
import Bindery.Proofs.Negation
import Bindery.Proofs.ExplicitConversions
import Bindery.Proofs.IntegerOrder
import Bindery.Proofs.FailFast
import Bindery.Proofs.SuppliedSlots
import Bindery.Proofs.Tidying
import Bindery.Proofs.TypeNameParsing
import Bindery.Proofs.FieldReferences
import Bindery.Proofs.GuardShape
import Bindery.Proofs.BranchUnification
import Bindery.Proofs.ManifestHistories
