import Rehome.Config.Load
import Rehome.Disk.Basic
import Rehome.Move.Service
import Rehome.Tsconfig.Aliases
import Rehome.Workspace.Document
import Rehome.Proofs.Files.Directories
import Rehome.Proofs.Index.Listed
import Rehome.Proofs.Index.Scan
import Rehome.Proofs.Index.Coherence
import Rehome.Proofs.Index.Runs
import Rehome.Proofs.Job.Run
import Rehome.Proofs.Move.Acceptance
import Rehome.Proofs.Path.Normalize
import Rehome.Proofs.Job.Plain
import Rehome.Proofs.Job.Standing
import Rehome.Proofs.Job.Questions
import Rehome.Proofs.Job.Search
import Rehome.Proofs.Graph.Pairs
import Rehome.Proofs.Job.Dependencies
import Rehome.Proofs.Move.Propagation
import Rehome.Proofs.Move.Candidates
import Rehome.Proofs.Move.Stages
import Rehome.Proofs.Move.CacheFree
import Rehome.Proofs.Job.Cover
import Rehome.Proofs.Job.Rereading
import Rehome.Proofs.Move.Closure
import Rehome.Proofs.Move.Integrity
import Rehome.Proofs.Ecma.Lexemes
import Rehome.Proofs.Specifier.Verbatim
import Rehome.Proofs.Job.Schedules
import Rehome.Proofs.Specifier.Slots
import Rehome.Proofs.Specifier.Listing
import Rehome.Proofs.Move.Capture
import Rehome.Proofs.Path.Detours
import Rehome.Proofs.Move.Inside
import Rehome.Proofs.Move.RoundTrip
import Rehome.Proofs.Move.Aliases
import Rehome.Proofs.Move.Passing
import Rehome.Proofs.Move.Frame
import Rehome.Proofs.Move.Export
import Rehome.Proofs.Move.Backing
import Rehome.Proofs.Job.Twins
import Rehome.Proofs.Move.Unread
import Rehome.Proofs.Move.Realizable
import Rehome.Proofs.Job.Shortcuts
import Rehome.Proofs.Move.Selfless
import Rehome.Proofs.Specifier.Reparse
import Rehome.Proofs.Path.Reaching
import Rehome.Proofs.Specifier.Spans
import Rehome.Proofs.Specifier.Splicing
import Rehome.Proofs.Specifier.Removal
import Rehome.Proofs.Workspace.Ownership
import Rehome.Proofs.Tsconfig.Comments
import Rehome.Proofs.Workspace.Longest
import Rehome.Proofs.Tsconfig.Aliases
import Rehome.Proofs.Job.Imports
import Rehome.Proofs.Graph.Loading
import Rehome.Proofs.Files.Journal
import Rehome.Proofs.Move.Derived
import Rehome.Proofs.Move.Loading
import Rehome.Proofs.Path.Folding
import Rehome.Proofs.Specifier.Mark
import Rehome.Proofs.Specifier.Places
import Rehome.Proofs.Index.Absent
import Rehome.Proofs.Files.Lookup
import Rehome.Proofs.Index.Exactness
import Rehome.Proofs.Move.Listings
