import WireSchema.Bytes.Cursor
import WireSchema.Bytes.Item
import WireSchema.CommandLine.Session
import WireSchema.Main
import WireSchema.Proofs.Bytes.Cursor
import WireSchema.Proofs.Bytes.Item
import WireSchema.Proofs.Json.ReadBack
import WireSchema.Proofs.Outcome
import WireSchema.Proofs.Schema.Blank
import WireSchema.Proofs.Schema.Block
import WireSchema.Proofs.Schema.Declaration
import WireSchema.Proofs.Schema.WellFormed
import WireSchema.Proofs.Text.Utf8
import WireSchema.Proofs.Typing.Resolve
import WireSchema.Proofs.Wire.Canonical
import WireSchema.Proofs.Wire.Cut
import WireSchema.Proofs.Wire.Direct
import WireSchema.Publication
import WireSchema.Value.Equality
import WireSchema.Wire.Decode
import WireSchema.Proofs.Text.Identifier
import WireSchema.Proofs.Wire.Safe
import WireSchema.Proofs.Schema.Opening
import WireSchema.Proofs.Schema.Cutting
import WireSchema.Proofs.Schema.Written
import WireSchema.Proofs.Schema.Reading
import WireSchema.Proofs.Schema.Sound
import WireSchema.Proofs.Schema.Compose
import WireSchema.Proofs.Schema.Grammar
import WireSchema.Proofs.Schema.Layout
import WireSchema.Proofs.Schema.Parts
import WireSchema.Proofs.Schema.Complete
import WireSchema.Proofs.Number.Rounding
import WireSchema.Proofs.Wire.Taken
import WireSchema.Proofs.Wire.Consumed
import WireSchema.Proofs.Wire.Stable
import WireSchema.Proofs.Wire.Typed
import WireSchema.Proofs.Wire.Default
import WireSchema.Proofs.Wire.Reencode
import WireSchema.Proofs.Wire.Admitted
import WireSchema.Proofs.Wire.Growth
import WireSchema.Proofs.Wire.Codes
import WireSchema.Proofs.Wire.Local
import WireSchema.Proofs.Wire.Literal
import WireSchema.Proofs.Json.Depth
import WireSchema.Proofs.Wire.Depth
import WireSchema.Proofs.Publication
import WireSchema.Proofs.CommandLine.FileSystem
import WireSchema.Proofs.CommandLine.Session
import WireSchema.Proofs.Number.Nearest
import WireSchema.Proofs.Number.Shortest
import WireSchema.Proofs.Json.Scaled
import WireSchema.Proofs.Json.Spelled
import WireSchema.Proofs.Wire.FloatText
import WireSchema.Proofs.Text.Position
import WireSchema.Proofs.Schema.Masked
import WireSchema.Proofs.Schema.Place
import WireSchema.Proofs.Schema.Located
import WireSchema.Proofs.Wire.Refused
import WireSchema.Proofs.Wire.NamedDefault
import WireSchema.Proofs.Number.Exact
import WireSchema.Proofs.Wire.Integer
import WireSchema.Proofs.Value.Equality
import WireSchema.Proofs.Wire.Alike
import WireSchema.Proofs.Wire.Filled
import WireSchema.Proofs.Wire.Supplied
import WireSchema.Proofs.Wire.Groups
import WireSchema.Proofs.Schema.Numbering
import WireSchema.Proofs.Schema.TypeToken
import WireSchema.Proofs.Schema.OneField
import WireSchema.Proofs.Bytes.Read
import WireSchema.Proofs.Bytes.ReadBack
import WireSchema.Proofs.Text.Bytes
import WireSchema.Proofs.Schema.Blanked
import WireSchema.Proofs.Schema.Comments
import WireSchema.Proofs.Schema.Braces
