import LittleMan.Binary.Snapshot
import LittleMan.Main
import LittleMan.Proofs.Clashes
import LittleMan.Proofs.Blocks.Operators
import LittleMan.Proofs.Reports
import LittleMan.Proofs.Assembly.Acceptance
import LittleMan.Proofs.Grammar
import LittleMan.Proofs.Grammar.Soundness
import LittleMan.Proofs.Grammar.Completeness
import LittleMan.Proofs.Verdict
import LittleMan.Proofs.Safety
import LittleMan.Proofs.Correctness
import LittleMan.Proofs.Sessions
import LittleMan.Proofs.Schedules
import LittleMan.Proofs.Notes
import LittleMan.Proofs.Cells
import LittleMan.Proofs.Operands
import LittleMan.Proofs.Rewinding
import LittleMan.Proofs.Binary
import LittleMan.Proofs.Division
import LittleMan.Proofs.Calls
import LittleMan.Proofs.Products
import LittleMan.Proofs.Comparisons
import LittleMan.Proofs.Grammar.Offending
import LittleMan.Proofs.Grammar.Layout
import LittleMan.Proofs.Assembly.Faithful
import LittleMan.Proofs.Positions
import LittleMan.Proofs.Spelling
import LittleMan.Proofs.Scopes
import LittleMan.Proofs.Faults
import LittleMan.Proofs.Limits
import LittleMan.Proofs.Assembly.Sheets
import LittleMan.Proofs.Assembly.Listings
