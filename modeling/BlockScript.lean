import BlockScript.CallLimit
import BlockScript.Code.Sequence
import BlockScript.Kit
import BlockScript.Session
import BlockScript.Proofs.Running
import BlockScript.Proofs.Law
import BlockScript.Proofs.LawfulRun
import BlockScript.Proofs.Writing
import BlockScript.Proofs.ReturnSlots
import BlockScript.Proofs.LawfulKit
import BlockScript.Proofs.LikenessKit
import BlockScript.Proofs.Depth
import BlockScript.Proofs.Blur
import BlockScript.Proofs.CallSite
import BlockScript.Proofs.Reports
import BlockScript.Proofs.Resemblance
import BlockScript.Proofs.Hosting
import BlockScript.Proofs.Consecutive
import BlockScript.Proofs.Constants
import BlockScript.Proofs.Heap
import BlockScript.Proofs.RaisedLimit
import BlockScript.Proofs.Records
import BlockScript.Proofs.Housing
import BlockScript.Proofs.Modules
import BlockScript.Proofs.Levels
import BlockScript.Proofs.Unbounded
import BlockScript.Proofs.Grounding
import BlockScript.Proofs.Termination
import BlockScript.Proofs.Protection
import BlockScript.Proofs.Precedence
import BlockScript.Proofs.Removal
import BlockScript.Proofs.Traces
import BlockScript.Proofs.Extension
import BlockScript.Proofs.Conservation
import BlockScript.Proofs.ConservedRun
import BlockScript.Proofs.ConservedKit
import BlockScript.Proofs.Seclusion
import BlockScript.Proofs.Installation
import BlockScript.Proofs.Indirection
import BlockScript.Proofs.Positions
import BlockScript.Proofs.ListSlots
import BlockScript.Proofs.Definitions
import BlockScript.Proofs.Conduct
import BlockScript.Proofs.ConductKit
import BlockScript.Proofs.Muting
import BlockScript.Proofs.Giving
import BlockScript.Proofs.Backtrace
import BlockScript.Proofs.Indentation
import BlockScript.Proofs.Propagation
import BlockScript.Proofs.Existence
import BlockScript.Proofs.Readability
import BlockScript.Proofs.Sources
import BlockScript.Proofs.Layering
import BlockScript.Proofs.Operators
import BlockScript.Proofs.Equivalence
import BlockScript.Proofs.Keys
import BlockScript.Proofs.Parameters
import BlockScript.Proofs.Watching
import BlockScript.Proofs.WatchingKit
import BlockScript.Proofs.Foundations
import BlockScript.Proofs.Ancestry
