import Http4.Data.Unicode

/-!
# HTTP4 packets

The nine packet types of `docs/wire-format.md` as the structures of
`server/internal/wire/wire.go` (lines 97–164) declare them. A Go `string` is
its bytes. A nil and an empty slice are one value here.

`Packet.WellFormed` states the per-type rules of the document. It is written
from the document alone; that the codecs accept exactly the well-formed packets
is proved in `Http4.Wire.GoRoundTrip` and `Http4.Wire.Agreement`.
-/

namespace Http4.Wire

open Unicode (utf8)

/-- The bytes of a Go or TypeScript string literal. -/
def lit (s : String) : Bytes := utf8 s.toList

/-- `Req` (lines 105–109). -/
structure Req where
  rpcId : UInt64
  initialGrant : UInt32
  assetId : Bytes
  deriving DecidableEq

/-- `Data` (lines 111–116). -/
structure Data where
  rpcId : UInt64
  totalSize : UInt32
  offset : UInt32
  payload : Bytes
  deriving DecidableEq

/-- `Grant` (lines 118–122). -/
structure Grant where
  rpcId : UInt64
  maxOffset : UInt32
  priority : UInt8
  deriving DecidableEq

/-- `Resend` (lines 124–127); the missing range is `[start, stop)`. -/
structure Resend where
  rpcId : UInt64
  start : UInt32
  stop : UInt32
  deriving DecidableEq

/-- `Error` (lines 129–132). -/
structure ErrorPacket where
  rpcId : UInt64
  code : UInt8
  deriving DecidableEq

/-- `Field` (lines 162–164). -/
structure Field where
  name : Bytes
  value : Bytes
  deriving DecidableEq

/-- `Meta` (lines 135–138). -/
structure Meta where
  rpcId : UInt64
  fields : List Field
  deriving DecidableEq

/-- `Hello` (lines 142–145). -/
structure Hello where
  rpcId : UInt64
  caps : UInt32
  deriving DecidableEq

/-- `DataSeq` (lines 150–153), which embeds `Data`. -/
structure DataSeq extends Data where
  seq : UInt32
  deriving DecidableEq

/-- `ResendSeq` (lines 157–160). -/
structure ResendSeq where
  rpcId : UInt64
  start : UInt32
  stop : UInt32
  deriving DecidableEq

/-- The Go interface `Packet`. -/
inductive Packet
  | req (p : Req)
  | data (p : Data)
  | grant (p : Grant)
  | resend (p : Resend)
  | error (p : ErrorPacket)
  | metaData (p : Meta)
  | hello (p : Hello)
  | dataSeq (p : DataSeq)
  | resendSeq (p : ResendSeq)
  deriving DecidableEq

/-- `RPC()`. -/
def Packet.rpc : Packet → UInt64
  | .req p => p.rpcId
  | .data p => p.rpcId
  | .grant p => p.rpcId
  | .resend p => p.rpcId
  | .error p => p.rpcId
  | .metaData p => p.rpcId
  | .hello p => p.rpcId
  | .dataSeq p => p.rpcId
  | .resendSeq p => p.rpcId

/-! ## The documented rules -/

/-- "printable ASCII (0x20–0x7E)". -/
def Printable (c : UInt8) : Prop := 0x20 ≤ c.toNat ∧ c.toNat ≤ 0x7E

/-- A META value: "1..65535 bytes of printable ASCII, with no leading or
    trailing space". -/
structure MetaValue (v : Bytes) : Prop where
  nonempty : 1 ≤ v.length
  short : v.length ≤ 65535
  printable : ∀ c ∈ v, Printable c
  leading : v.head? ≠ some 0x20
  trailing : v.getLast? ≠ some 0x20

/-- The four names META may carry. -/
def docNames : List Bytes :=
  [lit "content-type", lit "etag", lit "last-modified", lit "cache-control"]

/-- The rules of META: at most four fields, allowed names, none repeated, each
    value a `MetaValue`. -/
structure MetaFields (fields : List Field) : Prop where
  count : fields.length ≤ 4
  names : ∀ f ∈ fields, f.name ∈ docNames
  distinct : (fields.map Field.name).Nodup
  values : ∀ f ∈ fields, MetaValue f.value

/-- The rule of DATA and DATA_SEQ: `offset + n ≤ total_size`, over ℕ. -/
def Data.InBounds (p : Data) : Prop := p.offset.toNat + p.payload.length ≤ p.totalSize.toNat

/-- The per-type rules of `docs/wire-format.md`. -/
def Packet.WellFormed : Packet → Prop
  | .req p => 1 ≤ p.assetId.length ∧ p.assetId.length ≤ 65535 ∧ ∃ cs, p.assetId = utf8 cs
  | .data p => p.InBounds
  | .grant _ => True
  | .resend p => p.start < p.stop
  | .error _ => True
  | .metaData p => MetaFields p.fields
  | .hello _ => True
  | .dataSeq p => p.toData.InBounds
  | .resendSeq p => p.start < p.stop

/-! ## Rejections -/

/-- The packet types, as error messages name them. -/
inductive PacketType
  | req | data | grant | resend | error | metaData | hello | dataSeq | resendSeq
  deriving DecidableEq, Repr

/-- The messages of `malformed(…)` in Go and `MalformedPacketError` in
    TypeScript, with the values they print. A field name is the numbers of its
    bytes in Go and of its code units in TypeScript. -/
inductive Malformed
  /-- "%d bytes, shorter than the header" -/
  | shortHeader (n : ℕ)
  /-- "T is %d bytes, need at least %d" -/
  | short (t : PacketType) (n need : ℕ)
  /-- "T is %d bytes, want %d" -/
  | length (t : PacketType) (n want : ℕ)
  /-- "REQ with empty asset_id" -/
  | emptyAssetId
  /-- "REQ is %d bytes, id_len says %d" -/
  | idLen (n want : ℕ)
  /-- "REQ asset_id is not UTF-8"; "REQ asset_id is not valid Unicode" -/
  | assetIdNotUnicode
  /-- "REQ asset_id length %d outside 1..65535" -/
  | assetIdLength (n : ℕ)
  /-- "T range [%d, %d) is empty" -/
  | emptyRange (t : PacketType) (start stop : ℤ)
  /-- "DATA [%d, %d) runs past total_size %d" -/
  | pastTotalSize (offset stop totalSize : ℤ)
  /-- "META truncated before field %d" -/
  | metaTruncated (i : ℕ)
  /-- "META field %d truncated" -/
  | metaFieldTruncated (i : ℕ)
  /-- "META value of %q truncated" -/
  | metaValueTruncated (name : List ℕ)
  /-- "META has %d trailing bytes" -/
  | metaTrailing (n : ℕ)
  /-- "META has %d fields, at most %d allowed" -/
  | metaCount (n most : ℕ)
  /-- "META field name %q not allowed" -/
  | metaName (name : List ℕ)
  /-- "META field %q repeated" -/
  | metaRepeated (name : List ℕ)
  /-- "META value of %q must be 1..65535 printable ASCII bytes without
      surrounding spaces" -/
  | metaValue (name : List ℕ)
  /-- "unknown type 0x%02x" -/
  | unknownType (t : UInt8)
  /-- "rpcId n is not a u64", "field n is not a u32", "field n is not a u8" -/
  | notUnsigned (bits : ℕ) (n : ℤ)
  deriving DecidableEq

/-- How a codec function can fail: a `malformed` packet is reported, while an
    index out of range is a Go panic or a JavaScript `RangeError`. -/
inductive Fault
  | outOfRange
  | malformed (m : Malformed)
  deriving DecidableEq

/-- `return nil, malformed(…)` and `throw new MalformedPacketError(…)`. -/
def malformed {α : Type} (m : Malformed) : Except Fault α := .error (.malformed m)

end Http4.Wire
