import MaskLayout.Document.RuleFile
import MaskLayout.Proofs.Bounds
import MaskLayout.Proofs.Cell.AutoNames
import MaskLayout.Proofs.Cell.Bundles
import MaskLayout.Proofs.Cell.Masters
import MaskLayout.Proofs.Cell.Modes
import MaskLayout.Proofs.Cell.Queries
import MaskLayout.Proofs.Cell.Rebind
import MaskLayout.Proofs.Grid.Division
import MaskLayout.Proofs.Path.Bus
import MaskLayout.Proofs.Path.Thickening
import MaskLayout.Proofs.Region.Decomposition
import MaskLayout.Proofs.Region.SingleLoop
import MaskLayout.Proofs.Tech.Acceptance
import MaskLayout.Proofs.Tech.Spacing
import MaskLayout.Proofs.Validity
import MaskLayout.Proofs.Via.Legal
import MaskLayout.Proofs.Via.Optimal
import MaskLayout.Text.Dedent
