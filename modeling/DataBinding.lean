import DataBinding.Number.Reader
import DataBinding.Session.Machine
import DataBinding.Template.MarkerPath
import DataBinding.Proofs.Heap.Entries
import DataBinding.Proofs.Heap.Observation
import DataBinding.Proofs.Heap.Edits
import DataBinding.Proofs.Heap.Following
import DataBinding.Proofs.Heap.Histories
import DataBinding.Proofs.Heap.Rendering
import DataBinding.Proofs.Page.Faces
import DataBinding.Proofs.Page.Trees
import DataBinding.Proofs.Page.Edits
import DataBinding.Proofs.Page.Order
import DataBinding.Proofs.Page.Writing
import DataBinding.Proofs.Page.Frames
import DataBinding.Proofs.Session.Acts
import DataBinding.Proofs.Session.Calls
import DataBinding.Proofs.Session.Freshness
import DataBinding.Proofs.Session.Subscribers
import DataBinding.Proofs.Template.Binding
import DataBinding.Proofs.Template.Echoes
import DataBinding.Proofs.Heap.Spreading
import DataBinding.Proofs.Heap.Depth
import DataBinding.Proofs.Session.Collecting
import DataBinding.Proofs.Session.Depth
import DataBinding.Proofs.World.Holding
import DataBinding.Proofs.Session.Display
import DataBinding.Proofs.Session.Growth
import DataBinding.Proofs.Template.DocumentOrder
import DataBinding.Proofs.Session.Dropping
import DataBinding.Proofs.Template.Faults
import DataBinding.Proofs.Template.Places
import DataBinding.Proofs.Session.Stopping
import DataBinding.Proofs.Session.Framing
import DataBinding.Proofs.World.Sites
import DataBinding.Proofs.Session.Assignments
import DataBinding.Proofs.Page.Searching
import DataBinding.Proofs.Heap.Attaching
import DataBinding.Proofs.Session.Properties
import DataBinding.Proofs.Session.Properties.Steps
import DataBinding.Proofs.Session.Flattening
import DataBinding.Proofs.Session.Footprints
import DataBinding.Proofs.Session.Updates
import DataBinding.Proofs.Heap.Documents
import DataBinding.Proofs.Session.ListOperations
import DataBinding.Proofs.World.Rejecting
import DataBinding.Proofs.Template.Interpolation
import DataBinding.Proofs.Template.Classification
import DataBinding.Proofs.Text.KeyPaths
