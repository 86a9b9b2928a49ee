import SpecUpgrade.Main
import SpecUpgrade.Proofs.Rewriting
import SpecUpgrade.Proofs.Unfolding
import SpecUpgrade.Proofs.Walk
import SpecUpgrade.Scope.Scan
import SpecUpgrade.Proofs.Checked
import SpecUpgrade.Proofs.Isolation
import SpecUpgrade.Proofs.Bracketing
import SpecUpgrade.Proofs.Construction
import SpecUpgrade.Proofs.Fallback
import SpecUpgrade.Proofs.Adoption
import SpecUpgrade.Proofs.Derivation
import SpecUpgrade.Proofs.Depth
import SpecUpgrade.Proofs.Workspace
import SpecUpgrade.Proofs.OneByOne
import SpecUpgrade.Proofs.Wrapping
import SpecUpgrade.Proofs.Traversal
import SpecUpgrade.Proofs.ExampleContext
import SpecUpgrade.Proofs.PlainBlocks
import SpecUpgrade.Proofs.ProbeArguments
import SpecUpgrade.Proofs.Lookup
import SpecUpgrade.Proofs.Removal
import SpecUpgrade.Proofs.SelectedSet
import SpecUpgrade.Proofs.Stopping
import SpecUpgrade.Proofs.Symbols
import SpecUpgrade.Proofs.Positions
import SpecUpgrade.Proofs.Reports
