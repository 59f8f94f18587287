import ChainScript.Assembly.Call
import ChainScript.Assembly.Draft
import ChainScript.Assembly.Invocation
import ChainScript.Assembly.Load
import ChainScript.Assembly.Statement
import ChainScript.Assembly.Token
import ChainScript.Bytes
import ChainScript.Curve.Ed25519
import ChainScript.Curve.Edwards
import ChainScript.Curve.Field
import ChainScript.Decimal.FloatText
import ChainScript.Decimal.Shortest
import ChainScript.Envelope.Key
import ChainScript.Envelope.Signature
import ChainScript.Envelope.Terms
import ChainScript.Envelope.Transaction
import ChainScript.Event.Kind
import ChainScript.Event.Payload
import ChainScript.Event.Report
import ChainScript.Hash.Sha2
import ChainScript.Hex
import ChainScript.Machine.Instr
import ChainScript.Machine.Limits
import ChainScript.Machine.Listing
import ChainScript.Machine.Opcode
import ChainScript.Machine.Operation
import ChainScript.Machine.TypeTag
import ChainScript.Proofs.Assembly.Convention
import ChainScript.Proofs.Assembly.Emission
import ChainScript.Proofs.Assembly.Footprint
import ChainScript.Proofs.Assembly.Invariant
import ChainScript.Proofs.Assembly.Loading
import ChainScript.Proofs.Assembly.Piece
import ChainScript.Proofs.Assembly.Plan
import ChainScript.Proofs.Assembly.Program
import ChainScript.Proofs.Assembly.Recovery
import ChainScript.Proofs.Assembly.Relocation
import ChainScript.Proofs.Assembly.Structured
import ChainScript.Proofs.Assembly.TwoPass
import ChainScript.Proofs.Envelope.Acceptance
import ChainScript.Proofs.Envelope.Binding
import ChainScript.Proofs.Envelope.Countersigning
import ChainScript.Proofs.Envelope.ForgedCount
import ChainScript.Proofs.Envelope.KeyText
import ChainScript.Proofs.Envelope.Layout
import ChainScript.Proofs.Envelope.RoundTrip
import ChainScript.Proofs.Envelope.Truncation
import ChainScript.Proofs.Event.Payload
import ChainScript.Proofs.Hex
import ChainScript.Proofs.Hex.Entrances
import ChainScript.Proofs.Hex.Spelling
import ChainScript.Proofs.Machine.Disassembly
import ChainScript.Proofs.Machine.Grammar
import ChainScript.Proofs.Machine.Listing
import ChainScript.Proofs.Machine.Rendering
import ChainScript.Proofs.Machine.Replay
import ChainScript.Proofs.SelfDelimiting
import ChainScript.Proofs.Text.SingleByte
import ChainScript.Proofs.Text.SingleLine
import ChainScript.Proofs.Text.Trimming
import ChainScript.Proofs.Text.Unambiguous
import ChainScript.Proofs.Wire.Accounting
import ChainScript.Proofs.Wire.Canonical
import ChainScript.Proofs.Wire.Delimited
import ChainScript.Proofs.Wire.Form
import ChainScript.Proofs.Wire.Interrupted
import ChainScript.Proofs.Wire.Outcome
import ChainScript.Proofs.Wire.ReadBack
import ChainScript.Proofs.Wire.Shortage
import ChainScript.Proofs.Wire.Stream
import ChainScript.Proofs.Wire.Written
import ChainScript.Refusal
import ChainScript.Text.Blank
import ChainScript.Text.Quoted
import ChainScript.Text.SingleByte
import ChainScript.Text.Unprintable
import ChainScript.Timestamp
import ChainScript.Value
import ChainScript.Wire.Cursor
import ChainScript.Wire.Forward
import ChainScript.Wire.Input
import ChainScript.Wire.Inspect
import ChainScript.Wire.Item
import ChainScript.Wire.LittleEndian
import ChainScript.Wire.Slot
import ChainScript.Wire.VarInt
