import FlatRecord.CodeUnit
import FlatRecord.Schema
import FlatRecord.Record.Declared
import FlatRecord.Definition.Reader
import FlatRecord.Words
import FlatRecord.Proofs.NormalForm
import FlatRecord.Proofs.Positions
import FlatRecord.Proofs.Declaration
import FlatRecord.Proofs.Refusal
import FlatRecord.Proofs.Cells
import FlatRecord.Proofs.TypedRecord
import FlatRecord.Proofs.Bounds
import FlatRecord.Proofs.Packing
import FlatRecord.Proofs.Observation
import FlatRecord.Proofs.Runs
import FlatRecord.Proofs.Windows
import FlatRecord.Proofs.Json.Trees
import FlatRecord.Proofs.Json.Grammar
import FlatRecord.Proofs.Json.Rendering
import FlatRecord.Proofs.Json.Cuts
import FlatRecord.Proofs.Json.SelfDelimiting
import FlatRecord.Proofs.Definition.Written
import FlatRecord.Proofs.Definition.Levels
import FlatRecord.Proofs.Definition.Objects
import FlatRecord.Proofs.Definition.Members
import FlatRecord.Proofs.Definition.Names
import FlatRecord.Proofs.Definition.Tagged
import FlatRecord.Proofs.Definition.Spellings
import FlatRecord.Proofs.Definition.Extents
import FlatRecord.Proofs.Acceptance
import FlatRecord.Proofs.PlacementLaw
import FlatRecord.Proofs.Lookup
import FlatRecord.Proofs.Extension
import FlatRecord.Proofs.CodePoints
import FlatRecord.Proofs.Enumeration
import FlatRecord.Proofs.ScalarAccess
import FlatRecord.Proofs.Views
