import RumaStateRes.Core.Result
import RumaStateRes.Core.Collections
import RumaStateRes.Core.Event
import RumaStateRes.Separate
import RumaStateRes.AuthCheck
import RumaStateRes.TopoSort.Model
import RumaStateRes.TopoSort.Reference
import RumaStateRes.TopoSort.Correct
import RumaStateRes.TopoSort.Failure
import RumaStateRes.PowerSort
import RumaStateRes.GraphTermination
import RumaStateRes.Mainline
import RumaStateRes.MainlineTermination
import RumaStateRes.Resolve
import RumaStateRes.Totality
import RumaStateRes.Agreement
