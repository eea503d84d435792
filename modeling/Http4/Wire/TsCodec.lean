import Http4.Wire.Packet

/-!
# The TypeScript codec

Model of `client/src/wire.ts`: `decode` (lines 137–213), `encode` (216–306) and
their checks (308–367).

A JavaScript string is its UTF-16 code units. The fields of type `number` and
`bigint` are integers of `ℤ`: `encode` has to reject those outside their range,
and a `number` that is no integer is not a value of these types. A `DataView`
access outside the buffer is `Fault.outOfRange`, the `RangeError` it throws.
-/

namespace Http4.Wire.Ts

open Bytes
open Unicode (utf8 utf16 utf8Decode utf16Decode)

/-- A JavaScript string. -/
abbrev JsString := List UInt16

/-- A string literal. -/
def jsLit (s : String) : JsString := utf16 s.toList

/-! ## Packets -/

/-- `interface Req`. -/
structure Req where
  rpcId : ℤ
  initialGrant : ℤ
  assetId : JsString
  deriving DecidableEq

/-- `interface Data`. -/
structure Data where
  rpcId : ℤ
  totalSize : ℤ
  offset : ℤ
  payload : Bytes
  deriving DecidableEq

/-- `interface Grant`. -/
structure Grant where
  rpcId : ℤ
  maxOffset : ℤ
  priority : ℤ
  deriving DecidableEq

/-- `interface Resend`. -/
structure Resend where
  rpcId : ℤ
  start : ℤ
  stop : ℤ
  deriving DecidableEq

/-- `interface ErrorPacket`. -/
structure ErrorPacket where
  rpcId : ℤ
  code : ℤ
  deriving DecidableEq

/-- `interface Meta`. -/
structure Meta where
  rpcId : ℤ
  fields : List (JsString × JsString)
  deriving DecidableEq

/-- `interface Hello`. -/
structure Hello where
  rpcId : ℤ
  caps : ℤ
  deriving DecidableEq

/-- `interface DataSeq`. -/
structure DataSeq extends Data where
  seq : ℤ
  deriving DecidableEq

/-- `interface ResendSeq`. -/
structure ResendSeq where
  rpcId : ℤ
  start : ℤ
  stop : ℤ
  deriving DecidableEq

/-- `type Packet`. -/
inductive Packet
  | req (p : Req)
  | data (p : Data)
  | grant (p : Grant)
  | resend (p : Resend)
  | error (p : ErrorPacket)
  | metaData (p : Meta)
  | hello (p : Hello)
  | dataSeq (p : DataSeq)
  | resendSeq (p : ResendSeq)
  deriving DecidableEq

/-- `p.rpcId`. -/
def Packet.rpcId : Packet → ℤ
  | .req p => p.rpcId
  | .data p => p.rpcId
  | .grant p => p.rpcId
  | .resend p => p.rpcId
  | .error p => p.rpcId
  | .metaData p => p.rpcId
  | .hello p => p.rpcId
  | .dataSeq p => p.rpcId
  | .resendSeq p => p.rpcId

/-! ## Constants -/

/-- `PacketType` (lines 4–15). -/
def packetTypeCode : PacketType → UInt8
  | .req => 0x01
  | .data => 0x02
  | .grant => 0x03
  | .resend => 0x04
  | .error => 0x05
  | .metaData => 0x06
  | .hello => 0x07
  | .dataSeq => 0x08
  | .resendSeq => 0x09

/-- The `switch (type)` of `decode`. -/
def typeOf? (t : UInt8) : Option PacketType :=
  if t = 0x01 then some .req
  else if t = 0x02 then some .data
  else if t = 0x03 then some .grant
  else if t = 0x04 then some .resend
  else if t = 0x05 then some .error
  else if t = 0x06 then some .metaData
  else if t = 0x07 then some .hello
  else if t = 0x08 then some .dataSeq
  else if t = 0x09 then some .resendSeq
  else none

def headerLen : ℕ := 9
def dataHeaderLen : ℕ := headerLen + 8
def reqFixedLen : ℕ := headerLen + 6
def grantLen : ℕ := headerLen + 5
def resendLen : ℕ := headerLen + 8
def errorLen : ℕ := headerLen + 1
def metaFixedLen : ℕ := headerLen + 1
def helloLen : ℕ := headerLen + 4
def dataSeqHeaderLen : ℕ := dataHeaderLen + 4
def resendSeqLen : ℕ := headerLen + 8
def maxMetaValue : ℕ := 0xffff
/-- `META_NAMES`. -/
def metaNames : List JsString :=
  [jsLit "content-type", jsLit "etag", jsLit "last-modified", jsLit "cache-control"]

/-! ## The platform -/

/-- `b[i]!`. The source reads it only inside the array, where it is not
    `undefined`. -/
def byteAt (b : Bytes) (i : ℕ) : Except Fault UInt8 :=
  match b[i]? with
  | some c => .ok c
  | none => .error .outOfRange

/-- `v.getUint8(i)`, `v.getUint16(i)`, `v.getUint32(i)` and
    `v.getBigUint64(i)`: `k` bytes, big-endian. -/
def getUint (k : ℕ) (b : Bytes) (i : ℕ) : Except Fault ℕ :=
  if i + k ≤ b.length then .ok (beNat (sub b i (i + k))) else .error .outOfRange

/-- Writing bytes at position `i` of a buffer, as `setUint8` … `setBigUint64`
    and `Uint8Array.set` do. -/
def write (b : Bytes) (i : ℕ) (xs : Bytes) : Except Fault Bytes :=
  if i + xs.length ≤ b.length then .ok (b.take i ++ xs ++ b.drop (i + xs.length))
  else .error .outOfRange

/-- `v.setUint8(i, n)` … `v.setBigUint64(i, n)`: `n` modulo `256 ^ k`. -/
def setUint (k : ℕ) (b : Bytes) (i : ℕ) (n : ℤ) : Except Fault Bytes :=
  write b i (beBytes k (n % 256 ^ k).toNat)

/-- U+FEFF, the byte order mark. -/
def bom : Char := Char.ofNat 0xFEFF

/-- A leading byte order mark is not part of the decoder's output. -/
def stripBom : List Char → List Char
  | [] => []
  | c :: cs => if c = bom then cs else c :: cs

/-- `utf8Decoder.decode(b)`, where `utf8Decoder` is
    `new TextDecoder("utf-8", { fatal: true })` (line 133): `none` is the
    `TypeError`. The option `ignoreBOM` is not given, so it is false and the
    decoder drops a leading byte order mark. -/
def utf8DecoderDecode (b : Bytes) : Option JsString :=
  (utf8Decode b).map fun cs => utf16 (stripBom cs)

/-- `s.isWellFormed()` and `utf8Encoder.encode(s)`: `none` if `s` is not
    well-formed. -/
def utf8EncoderEncode (s : JsString) : Option Bytes := (utf16Decode s).map utf8

/-- `latin1` (lines 343–347). -/
def latin1 (b : Bytes) : JsString := b.map UInt8.toUInt16

/-! ## Checks -/

/-- A name as a message prints it. -/
def printed (name : JsString) : List ℕ := name.map UInt16.toNat

/-- `checkDataBounds` (lines 316–321). -/
def checkDataBounds (p : Data) : Except Fault Unit :=
  if p.offset + p.payload.length > p.totalSize then
    malformed (.pastTotalSize p.offset (p.offset + p.payload.length) p.totalSize)
  else .ok ()

/-- The character class `[\x20-\x7e]`. -/
def printable (c : UInt16) : Bool := 0x20 ≤ c.toNat && c.toNat ≤ 0x7e

/-- The character class `[\x21-\x7e]`. -/
def visible (c : UInt16) : Bool := 0x21 ≤ c.toNat && c.toNat ≤ 0x7e

/-- `/^[\x21-\x7e](?:[\x20-\x7e]*[\x21-\x7e])?$/.test(v)`. -/
def matchesMetaValue : JsString → Bool
  | [] => false
  | c :: w => visible c && (w.isEmpty || (w.dropLast.all printable && w.getLast?.any visible))

/-- `validMetaValue` (lines 338–340). -/
def validMetaValue (v : JsString) : Bool :=
  decide (v.length > 0) && decide (v.length ≤ maxMetaValue) && matchesMetaValue v

/-- The loop of `checkMeta`; `seen` is the set of names so far. -/
def checkMetaFields (seen : List JsString) : List (JsString × JsString) → Except Fault Unit
  | [] => .ok ()
  | (name, value) :: rest =>
    if ¬ metaNames.contains name then malformed (.metaName (printed name))
    else if seen.contains name then malformed (.metaRepeated (printed name))
    else if ¬ validMetaValue value then malformed (.metaValue (printed name))
    else checkMetaFields (seen ++ [name]) rest

/-- `checkMeta` (lines 324–335). -/
def checkMeta (fields : List (JsString × JsString)) : Except Fault Unit :=
  if fields.length > metaNames.length then malformed (.metaCount fields.length metaNames.length)
  else checkMetaFields [] fields

/-- `checkResendRange` (lines 353–355). -/
def checkResendRange (t : PacketType) (start stop : ℤ) : Except Fault Unit :=
  if start ≥ stop then malformed (.emptyRange t start stop) else .ok ()

/-- `checkU64`, `checkU32` and `checkU8` (lines 357–367). -/
def checkUint (bits : ℕ) (n : ℤ) : Except Fault Unit :=
  if n < 0 ∨ n > 2 ^ bits - 1 then malformed (.notUnsigned bits n) else .ok ()

/-! ## `decode` -/

/-- `case PacketType.REQ`. -/
def decodeReq (rpcId : ℤ) (b : Bytes) : Except Fault Packet :=
  if b.length < reqFixedLen then malformed (.short .req b.length reqFixedLen)
  else do
    let n ← getUint 2 b 13
    if n = 0 then malformed .emptyAssetId
    else if b.length ≠ reqFixedLen + n then malformed (.idLen b.length (reqFixedLen + n))
    else match utf8DecoderDecode (b.drop reqFixedLen) with
      | none => malformed .assetIdNotUnicode
      | some assetId => do
        let initialGrant ← getUint 4 b 9
        return .req { rpcId := rpcId, initialGrant := initialGrant, assetId := assetId }

/-- `case PacketType.DATA`. -/
def decodeData (rpcId : ℤ) (b : Bytes) : Except Fault Packet :=
  if b.length < dataHeaderLen then malformed (.short .data b.length dataHeaderLen)
  else do
    let totalSize ← getUint 4 b 9
    let offset ← getUint 4 b 13
    let p : Data := { rpcId := rpcId, totalSize := totalSize, offset := offset,
                      payload := b.drop dataHeaderLen }
    checkDataBounds p
    return .data p

/-- `case PacketType.GRANT`. -/
def decodeGrant (rpcId : ℤ) (b : Bytes) : Except Fault Packet :=
  if b.length ≠ grantLen then malformed (.length .grant b.length grantLen)
  else do
    let maxOffset ← getUint 4 b 9
    let priority ← getUint 1 b 13
    return .grant { rpcId := rpcId, maxOffset := maxOffset, priority := priority }

/-- `case PacketType.RESEND`. -/
def decodeResend (rpcId : ℤ) (b : Bytes) : Except Fault Packet :=
  if b.length ≠ resendLen then malformed (.length .resend b.length resendLen)
  else do
    let start ← getUint 4 b 9
    let stop ← getUint 4 b 13
    checkResendRange .resend start stop
    return .resend { rpcId := rpcId, start := start, stop := stop }

/-- `case PacketType.ERROR`. -/
def decodeError (rpcId : ℤ) (b : Bytes) : Except Fault Packet :=
  if b.length ≠ errorLen then malformed (.length .error b.length errorLen)
  else do
    let code ← getUint 1 b 9
    return .error { rpcId := rpcId, code := code }

/-- The loop over the fields of META, with `left` fields to go, on `i`, `at`
    and `p.fields`. -/
def decodeFields (b : Bytes) : (left i pos : ℕ) → List (JsString × JsString) →
    Except Fault (List (JsString × JsString) × ℕ)
  | 0, _, pos, fields => .ok (fields, pos)
  | left + 1, i, pos, fields =>
    if pos + 1 > b.length then malformed (.metaTruncated i)
    else do
      let n := (← byteAt b pos).toNat
      if pos + 1 + n + 2 > b.length then malformed (.metaFieldTruncated i)
      else do
        let name := latin1 (sub b (pos + 1) (pos + 1 + n))
        let m ← getUint 2 b (pos + 1 + n)
        let pos := pos + (3 + n)
        if pos + m > b.length then malformed (.metaValueTruncated (printed name))
        else
          decodeFields b left (i + 1) (pos + m) (fields ++ [(name, latin1 (sub b pos (pos + m)))])

/-- `case PacketType.META`. -/
def decodeMeta (rpcId : ℤ) (b : Bytes) : Except Fault Packet :=
  if b.length < metaFixedLen then malformed (.short .metaData b.length metaFixedLen)
  else do
    let count := (← byteAt b 9).toNat
    let (fields, pos) ← decodeFields b count 0 metaFixedLen []
    if pos ≠ b.length then malformed (.metaTrailing (b.length - pos))
    else do
      checkMeta fields
      return .metaData { rpcId := rpcId, fields := fields }

/-- `case PacketType.HELLO`. -/
def decodeHello (rpcId : ℤ) (b : Bytes) : Except Fault Packet :=
  if b.length ≠ helloLen then malformed (.length .hello b.length helloLen)
  else do
    let caps ← getUint 4 b 9
    return .hello { rpcId := rpcId, caps := caps }

/-- `case PacketType.DATA_SEQ`. -/
def decodeDataSeq (rpcId : ℤ) (b : Bytes) : Except Fault Packet :=
  if b.length < dataSeqHeaderLen then malformed (.short .dataSeq b.length dataSeqHeaderLen)
  else do
    let totalSize ← getUint 4 b 9
    let offset ← getUint 4 b 13
    let seq ← getUint 4 b 17
    let p : DataSeq := { rpcId := rpcId, totalSize := totalSize, offset := offset, seq := seq,
                         payload := b.drop dataSeqHeaderLen }
    checkDataBounds p.toData
    return .dataSeq p

/-- `case PacketType.RESEND_SEQ`. -/
def decodeResendSeq (rpcId : ℤ) (b : Bytes) : Except Fault Packet :=
  if b.length ≠ resendSeqLen then malformed (.length .resendSeq b.length resendSeqLen)
  else do
    let start ← getUint 4 b 9
    let stop ← getUint 4 b 13
    checkResendRange .resendSeq start stop
    return .resendSeq { rpcId := rpcId, start := start, stop := stop }

/-- The cases of `switch (type)`. -/
def decodeAs : PacketType → ℤ → Bytes → Except Fault Packet
  | .req => decodeReq
  | .data => decodeData
  | .grant => decodeGrant
  | .resend => decodeResend
  | .error => decodeError
  | .metaData => decodeMeta
  | .hello => decodeHello
  | .dataSeq => decodeDataSeq
  | .resendSeq => decodeResendSeq

/-- `decode` (lines 137–213). -/
def decode (b : Bytes) : Except Fault Packet :=
  if b.length < headerLen then malformed (.shortHeader b.length)
  else do
    let rpcId ← getUint 8 b 1
    let t ← byteAt b 0
    match typeOf? t with
    | some t => decodeAs t rpcId b
    | none => malformed (.unknownType t)

/-! ## `encode` -/

/-- `header` (lines 308–314). -/
def header (t : PacketType) (rpcId : ℤ) (len : ℕ) : Except Fault Bytes := do
  let b ← setUint 1 (List.replicate len 0) 0 (packetTypeCode t).toNat
  setUint 8 b 1 rpcId

/-- `writeAscii(b, at, s)` (lines 349–351): each code unit modulo 256. -/
def writeAscii (b : Bytes) (pos : ℕ) (s : JsString) : Except Fault Bytes :=
  write b pos (s.map UInt16.toUInt8)

/-- The loop of `case "META"` of `encode`, on the buffer and `at`. -/
def encodeFields : Bytes → ℕ → List (JsString × JsString) → Except Fault Bytes
  | b, _, [] => .ok b
  | b, pos, (name, value) :: rest => do
    let b ← setUint 1 b pos name.length
    let b ← writeAscii b (pos + 1) name
    let b ← setUint 2 b (pos + 1 + name.length) value.length
    let b ← writeAscii b (pos + 3 + name.length) value
    encodeFields b (pos + (3 + name.length + value.length)) rest

/-- `encode` (lines 216–306). -/
def encode (p : Packet) : Except Fault Bytes := do
  checkUint 64 p.rpcId
  match p with
  | .req p => do
    checkUint 32 p.initialGrant
    match utf8EncoderEncode p.assetId with
    | none => malformed .assetIdNotUnicode
    | some id =>
      if id.length = 0 ∨ id.length > 0xffff then malformed (.assetIdLength id.length)
      else do
        let b ← header .req p.rpcId (reqFixedLen + id.length)
        let b ← setUint 4 b 9 p.initialGrant
        let b ← setUint 2 b 13 id.length
        write b reqFixedLen id
  | .data p => do
    checkUint 32 p.totalSize
    checkUint 32 p.offset
    checkDataBounds p
    let b ← header .data p.rpcId (dataHeaderLen + p.payload.length)
    let b ← setUint 4 b 9 p.totalSize
    let b ← setUint 4 b 13 p.offset
    write b dataHeaderLen p.payload
  | .grant p => do
    checkUint 32 p.maxOffset
    checkUint 8 p.priority
    let b ← header .grant p.rpcId grantLen
    let b ← setUint 4 b 9 p.maxOffset
    setUint 1 b 13 p.priority
  | .resend p => do
    checkUint 32 p.start
    checkUint 32 p.stop
    checkResendRange .resend p.start p.stop
    let b ← header .resend p.rpcId resendLen
    let b ← setUint 4 b 9 p.start
    setUint 4 b 13 p.stop
  | .error p => do
    checkUint 8 p.code
    let b ← header .error p.rpcId errorLen
    setUint 1 b 9 p.code
  | .metaData p => do
    checkMeta p.fields
    let len := p.fields.foldl (fun n f => n + 3 + f.1.length + f.2.length) metaFixedLen
    let b ← header .metaData p.rpcId len
    let b ← setUint 1 b 9 p.fields.length
    encodeFields b metaFixedLen p.fields
  | .hello p => do
    checkUint 32 p.caps
    let b ← header .hello p.rpcId helloLen
    setUint 4 b 9 p.caps
  | .dataSeq p => do
    checkUint 32 p.totalSize
    checkUint 32 p.offset
    checkUint 32 p.seq
    checkDataBounds p.toData
    let b ← header .dataSeq p.rpcId (dataSeqHeaderLen + p.payload.length)
    let b ← setUint 4 b 9 p.totalSize
    let b ← setUint 4 b 13 p.offset
    let b ← setUint 4 b 17 p.seq
    write b dataSeqHeaderLen p.payload
  | .resendSeq p => do
    checkUint 32 p.start
    checkUint 32 p.stop
    checkResendRange .resendSeq p.start p.stop
    let b ← header .resendSeq p.rpcId resendSeqLen
    let b ← setUint 4 b 9 p.start
    setUint 4 b 13 p.stop

end Http4.Wire.Ts
