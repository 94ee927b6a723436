import ZipR.Comments
import ZipR.Screens
import ZipR.Ownership
import ZipR.Logins
import ZipR.Device
import ZipR.Balance
import ZipR.Records
import ZipR.Deletion
import ZipR.Editing
import ZipR.Agreement
import ZipR.Tags
import ZipR.Cells
import ZipR.Registrations
import ZipR.CommentTable
import ZipR.SortedEntries
import ZipR.Patches
import ZipR.Node
import ZipR.CompoundWrite
import ZipR.WriteTree
import ZipR.Keys
import ZipR.Views
import ZipR.SyncTree
import ZipR.Connection
import ZipR.Requests
import ZipR.Delivery
import ZipR.Coverage
import ZipR.Observers
import ZipR.Listens
import ZipR.Repo
import ZipR.RepoSteps
import ZipR.RepoRuns
