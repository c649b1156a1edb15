import ChannelCodec.Arena
import ChannelCodec.Bits.Basic
import ChannelCodec.Bits.Text
import ChannelCodec.Circuit.Basic
import ChannelCodec.Circuit.Builder
import ChannelCodec.Circuit.Design
import ChannelCodec.Circuit.Evaluation
import ChannelCodec.Circuit.Misuse
import ChannelCodec.Circuit.Operation
import ChannelCodec.Circuit.Simulation
import ChannelCodec.Circuit.Text
import ChannelCodec.CommandLine.Directory
import ChannelCodec.CommandLine.Options
import ChannelCodec.CommandLine.Session
import ChannelCodec.CommandLine.Target
import ChannelCodec.Diagnostic
import ChannelCodec.Emission
import ChannelCodec.Gasket.Cache
import ChannelCodec.Gasket.Decoder
import ChannelCodec.Gasket.Encoder
import ChannelCodec.Gasket.Segment
import ChannelCodec.Gasket.Slice
import ChannelCodec.HwType.Basic
import ChannelCodec.HwType.Reader
import ChannelCodec.HwType.Text
import ChannelCodec.Identifier
import ChannelCodec.Json
import ChannelCodec.Main
import ChannelCodec.Message.Declaration
import ChannelCodec.Message.Report
import ChannelCodec.Message.Schema
import ChannelCodec.Message.Support
import ChannelCodec.NameSupply
import ChannelCodec.Proofs.Bits.Arithmetic
import ChannelCodec.Proofs.Bits.Conversions
import ChannelCodec.Proofs.Bits.Pieces
import ChannelCodec.Proofs.Bits.Positions
import ChannelCodec.Proofs.Bits.Signs
import ChannelCodec.Proofs.Circuit.Aggregates
import ChannelCodec.Proofs.Circuit.Calls
import ChannelCodec.Proofs.Circuit.Construction
import ChannelCodec.Proofs.Circuit.Demand
import ChannelCodec.Proofs.Circuit.Extension
import ChannelCodec.Proofs.Circuit.Growing
import ChannelCodec.Proofs.Circuit.Guards
import ChannelCodec.Proofs.Circuit.History
import ChannelCodec.Proofs.Circuit.Meaning
import ChannelCodec.Proofs.Circuit.Labels
import ChannelCodec.Proofs.Circuit.Printing
import ChannelCodec.Proofs.Circuit.Requests
import ChannelCodec.Proofs.Circuit.Running
import ChannelCodec.Proofs.Circuit.Sizes
import ChannelCodec.Proofs.Circuit.Steps
import ChannelCodec.Proofs.Circuit.Typing
import ChannelCodec.Proofs.Circuit.WellTyped
import ChannelCodec.Proofs.Circuit.Whole
import ChannelCodec.Proofs.Design.Aggregates
import ChannelCodec.Proofs.Design.Growing
import ChannelCodec.Proofs.Design.Ordering
import ChannelCodec.Proofs.Design.Reference
import ChannelCodec.Proofs.Design.Refinement
import ChannelCodec.Proofs.Design.Soundness
import ChannelCodec.Proofs.Design.Visits
import ChannelCodec.Proofs.Design.Writing
import ChannelCodec.Proofs.FreshNames
import ChannelCodec.Proofs.Gasket.Agreement
import ChannelCodec.Proofs.Gasket.Assembly
import ChannelCodec.Proofs.Gasket.Checking
import ChannelCodec.Proofs.Gasket.Decoding
import ChannelCodec.Proofs.Gasket.Encoding
import ChannelCodec.Proofs.Gasket.Framing
import ChannelCodec.Proofs.Gasket.Growing
import ChannelCodec.Proofs.Gasket.Inserts
import ChannelCodec.Proofs.Gasket.Labels
import ChannelCodec.Proofs.Gasket.Segments
import ChannelCodec.Proofs.Gasket.Sharing
import ChannelCodec.Proofs.Gasket.Slices
import ChannelCodec.Proofs.Gasket.Tracking
import ChannelCodec.Proofs.Gasket.Widening
import ChannelCodec.Proofs.HwType.Forms
import ChannelCodec.Proofs.HwType.Reading
import ChannelCodec.Proofs.HwType.Writing
import ChannelCodec.Proofs.Message.Acceptance
import ChannelCodec.Proofs.Message.Admission
import ChannelCodec.Proofs.Message.Carried
import ChannelCodec.Proofs.Message.Compilation
import ChannelCodec.Proofs.Message.Converting
import ChannelCodec.Proofs.Message.Decoded
import ChannelCodec.Proofs.Message.Encoded
import ChannelCodec.Proofs.Message.Layout
import ChannelCodec.Proofs.Message.Naming
import ChannelCodec.Proofs.Message.Pointers
import ChannelCodec.Proofs.Message.Printing
import ChannelCodec.Proofs.Message.Readout
import ChannelCodec.Proofs.Message.Repeated
import ChannelCodec.Proofs.Message.RoundTrip
import ChannelCodec.Proofs.Message.WireFormat
import ChannelCodec.Proofs.Schema.Acceptance
import ChannelCodec.Proofs.Schema.Compiling
import ChannelCodec.Proofs.Schema.Evolution
import ChannelCodec.Proofs.Schema.Fingerprint
import ChannelCodec.Proofs.Schema.Legality
import ChannelCodec.Proofs.Schema.Packing
import ChannelCodec.Proofs.Schema.Placing
import ChannelCodec.Proofs.Schema.Reading
import ChannelCodec.Proofs.Schema.Rendering
import ChannelCodec.Proofs.Schema.Slots
import ChannelCodec.Proofs.Schema.Tightness
import ChannelCodec.Proofs.SchemaFile
import ChannelCodec.Proofs.Success
import ChannelCodec.Proofs.Text.Numerals
import ChannelCodec.Proofs.Text.Outcomes
import ChannelCodec.Proofs.Text.Reads
import ChannelCodec.Repetition
import ChannelCodec.Schema.Compiled
import ChannelCodec.Schema.Fingerprint
import ChannelCodec.Schema.Placement
import ChannelCodec.Schema.Reader
import ChannelCodec.Schema.Source
import ChannelCodec.Schema.WireType
import ChannelCodec.SchemaFile
import ChannelCodec.Text.Blank
import ChannelCodec.Text.Numeral
import ChannelCodec.Text.Position
import ChannelCodec.Text.Scanner
import ChannelCodec.Text.Utf8
import ChannelCodec.Width
