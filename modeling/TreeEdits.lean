import TreeEdits.Folder
import TreeEdits.Main
import TreeEdits.Proofs.Buffer.Writes
import TreeEdits.Proofs.Context.Changed
import TreeEdits.Proofs.Context.Placed
import TreeEdits.Proofs.Edit.Form
import TreeEdits.Proofs.Json.Depth
import TreeEdits.Proofs.Json.Members
import TreeEdits.Proofs.Json.Reads
import TreeEdits.Proofs.Json.Stripped
import TreeEdits.Proofs.Json.Tokens
import TreeEdits.Proofs.Json.Written
import TreeEdits.Proofs.Json.Yields
import TreeEdits.Proofs.Pool.Apart
import TreeEdits.Proofs.Recording.Carried
import TreeEdits.Proofs.Recording.Order
import TreeEdits.Proofs.Recording.Stages
import TreeEdits.Proofs.Report.Failure
import TreeEdits.Proofs.Report.Nesting
import TreeEdits.Proofs.Report.Printed
import TreeEdits.Proofs.Script.Form
import TreeEdits.Proofs.Script.Repeated
import TreeEdits.Proofs.Script.Reread
import TreeEdits.Proofs.Session.Either
import TreeEdits.Proofs.Session.Glance
import TreeEdits.Proofs.Session.Growth
import TreeEdits.Proofs.Session.History
import TreeEdits.Proofs.Session.Kept
import TreeEdits.Proofs.Session.Refused
import TreeEdits.Proofs.Tree.Form
import TreeEdits.Proofs.Walk.Conflict
import TreeEdits.Proofs.Walk.Handed
import TreeEdits.Proofs.Walk.Numbers
import TreeEdits.Proofs.Walk.Shown
