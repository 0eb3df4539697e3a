import TreePatch.Blocks
import TreePatch.Board
import TreePatch.Json.Reader
import TreePatch.Script
import TreePatch.Proofs.Joint
import TreePatch.Proofs.Matching
import TreePatch.Proofs.Takes
import TreePatch.Proofs.Rendering
import TreePatch.Proofs.Stretches
import TreePatch.Proofs.Assembly
import TreePatch.Proofs.Nesting
import TreePatch.Proofs.Runs
import TreePatch.Proofs.Between
import TreePatch.Proofs.RoundTrip
import TreePatch.Proofs.RootReuse
import TreePatch.Proofs.Surface
import TreePatch.Proofs.Persistence
import TreePatch.Proofs.Watched
import TreePatch.Proofs.Rewind
import TreePatch.Proofs.Saves
import TreePatch.Proofs.Stamps
import TreePatch.Proofs.Copies
import TreePatch.Proofs.Recovery
import TreePatch.Proofs.Shape
import TreePatch.Proofs.Strays
import TreePatch.Proofs.LineSession
import TreePatch.Proofs.Handles
import TreePatch.Proofs.Grammar
import TreePatch.Proofs.Places
import TreePatch.Proofs.Splices
import TreePatch.Proofs.Locations
import TreePatch.Proofs.Rounds
import TreePatch.Proofs.Fronts
import TreePatch.Proofs.Locality
import TreePatch.Proofs.Cuts
import TreePatch.Proofs.Paths
import TreePatch.Proofs.Siblings
import TreePatch.Proofs.Coverage
import TreePatch.Proofs.Removed
import TreePatch.Proofs.Added
import TreePatch.Proofs.FirstChange
import TreePatch.Proofs.Canonical
import TreePatch.Proofs.Unmatched
import TreePatch.Proofs.Inverses
import TreePatch.Proofs.LineExtents
import TreePatch.Proofs.Incremental
import TreePatch.Proofs.Populate
import TreePatch.Proofs.Chronicle
import TreePatch.Proofs.Renaming
import TreePatch.Proofs.Determined
import TreePatch.Proofs.Exchange
import TreePatch.Proofs.Rereading
import TreePatch.Proofs.TouchedLines
import TreePatch.Proofs.JsonText
import TreePatch.Proofs.Codecs
import TreePatch.Proofs.Boards
import TreePatch.Proofs.Walks
import TreePatch.Proofs.Outlines
import TreePatch.Proofs.Enclosures
