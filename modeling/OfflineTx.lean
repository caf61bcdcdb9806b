import OfflineTx.AddressMap
import OfflineTx.Builder
import OfflineTx.Bytes
import OfflineTx.Bytes.Fixed
import OfflineTx.Curve.Ed25519
import OfflineTx.Curve.Field
import OfflineTx.Curve.Membership
import OfflineTx.Curve.Point
import OfflineTx.Derivation
import OfflineTx.Digest.Sha256
import OfflineTx.Digest.Sha512
import OfflineTx.Draft
import OfflineTx.DraftMessage
import OfflineTx.Fault
import OfflineTx.Fault.Kind
import OfflineTx.Fault.State
import OfflineTx.Fault.System
import OfflineTx.Instruction
import OfflineTx.Key.File
import OfflineTx.Key.Pair
import OfflineTx.KeyStore.Basic
import OfflineTx.KeyStore.Volume
import OfflineTx.Limits
import OfflineTx.Log
import OfflineTx.Message.Append
import OfflineTx.Message.Basic
import OfflineTx.Message.Codec
import OfflineTx.Message.Compile
import OfflineTx.Message.Size
import OfflineTx.Method
import OfflineTx.Program
import OfflineTx.Proofs.Adding
import OfflineTx.Proofs.AddressMap
import OfflineTx.Proofs.Admission
import OfflineTx.Proofs.Agreement
import OfflineTx.Proofs.Appending
import OfflineTx.Proofs.Base58
import OfflineTx.Proofs.Base64
import OfflineTx.Proofs.Bytes
import OfflineTx.Proofs.Calendar
import OfflineTx.Proofs.Calls
import OfflineTx.Proofs.Chains
import OfflineTx.Proofs.CompactLength
import OfflineTx.Proofs.Compilation
import OfflineTx.Proofs.Cosigning
import OfflineTx.Proofs.Cursor
import OfflineTx.Proofs.Delimiting
import OfflineTx.Proofs.Derivation
import OfflineTx.Proofs.Envelope
import OfflineTx.Proofs.Extension
import OfflineTx.Proofs.Field
import OfflineTx.Proofs.Growth
import OfflineTx.Proofs.Indexing
import OfflineTx.Proofs.Interruption
import OfflineTx.Proofs.KeyFile
import OfflineTx.Proofs.Loading
import OfflineTx.Proofs.Membership
import OfflineTx.Proofs.MessageWire
import OfflineTx.Proofs.NarrowLinks
import OfflineTx.Proofs.PacketSize
import OfflineTx.Proofs.Paths
import OfflineTx.Proofs.Permissions
import OfflineTx.Proofs.Placement
import OfflineTx.Proofs.Positions
import OfflineTx.Proofs.Prefixes
import OfflineTx.Proofs.Primality
import OfflineTx.Proofs.Radix
import OfflineTx.Proofs.Reading
import OfflineTx.Proofs.Recompiling
import OfflineTx.Proofs.Refilling
import OfflineTx.Proofs.Reporting
import OfflineTx.Proofs.Reuse
import OfflineTx.Proofs.Room
import OfflineTx.Proofs.RoundTrip
import OfflineTx.Proofs.Runs
import OfflineTx.Proofs.Seen
import OfflineTx.Proofs.Signing
import OfflineTx.Proofs.Survival
import OfflineTx.Proofs.Texts
import OfflineTx.Proofs.Timestamps
import OfflineTx.Proofs.Verdict
import OfflineTx.Proofs.Verification
import OfflineTx.Proofs.Volume
import OfflineTx.Proofs.Written
import OfflineTx.Text.Base58
import OfflineTx.Text.Base64
import OfflineTx.Text.Decimal
import OfflineTx.Text.Hex
import OfflineTx.Text.Radix
import OfflineTx.Text.Timestamp
import OfflineTx.Transaction.Basic
import OfflineTx.Transaction.Codec
import OfflineTx.Transaction.Listing
import OfflineTx.Transaction.Signing
import OfflineTx.Wire.CompactLength
import OfflineTx.Wire.Cursor
import OfflineTx.Wire.Reader
import OfflineTx.Wire.Writer
