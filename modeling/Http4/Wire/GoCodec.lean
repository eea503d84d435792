import Http4.Wire.Packet

/-!
# The Go codec

Model of `server/internal/wire/wire.go`: `Decode` (lines 202–329),
`checkBounds` (331–337), `Meta.check` and `validMetaValue` (340–374), `Append`
and `Marshal` (378–446).

Every index and slice expression of the source is a checked read here: an
index out of range is `Fault.outOfRange`, as the Go program would panic.
-/

namespace Http4.Wire.Go

open Bytes
open Unicode (utf8Valid)

/-! ## Constants -/

/-- The `Type` constants (lines 16–27). -/
def typeCode : PacketType → UInt8
  | .req => 0x01
  | .data => 0x02
  | .grant => 0x03
  | .resend => 0x04
  | .error => 0x05
  | .metaData => 0x06
  | .hello => 0x07
  | .dataSeq => 0x08
  | .resendSeq => 0x09

/-- The `switch t` of `Decode`. -/
def typeOf? (t : UInt8) : Option PacketType :=
  if t = 0x01 then some .req
  else if t = 0x02 then some .data
  else if t = 0x03 then some .grant
  else if t = 0x04 then some .resend
  else if t = 0x05 then some .error
  else if t = 0x07 then some .hello
  else if t = 0x08 then some .dataSeq
  else if t = 0x09 then some .resendSeq
  else if t = 0x06 then some .metaData
  else none

def headerLen : ℕ := 9
def dataHeaderLen : ℕ := headerLen + 8
def reqFixedLen : ℕ := headerLen + 6
def grantLen : ℕ := headerLen + 5
def resendLen : ℕ := headerLen + 8
def errorLen : ℕ := headerLen + 1
def metaFixedLen : ℕ := headerLen + 1
def helloLen : ℕ := headerLen + 4
def dataSeqHeaderLen : ℕ := dataHeaderLen + 4
def resendSeqLen : ℕ := headerLen + 8
def maxMetaValue : ℕ := 0xffff

/-- `CapSessionSeq`. -/
def capSessionSeq : UInt32 := 1

/-- `MetaNames` (line 84). -/
def metaNames : List Bytes :=
  [lit "content-type", lit "etag", lit "last-modified", lit "cache-control"]

/-- `MaxPayload` (lines 88–90). -/
def maxPayload (maxDatagramSize : ℤ) : ℤ := max 0 (maxDatagramSize - dataHeaderLen)

/-- `MaxPayloadSeq` (lines 93–95). -/
def maxPayloadSeq (maxDatagramSize : ℤ) : ℤ := max 0 (maxDatagramSize - dataSeqHeaderLen)

/-! ## Checked reads -/

/-- `b[i]`. -/
def index (b : Bytes) (i : ℕ) : Except Fault UInt8 :=
  match b[i]? with
  | some c => .ok c
  | none => .error .outOfRange

/-- `b[i:j]`. -/
def slice (b : Bytes) (i j : ℕ) : Except Fault Bytes :=
  if i ≤ j ∧ j ≤ b.length then .ok (sub b i j) else .error .outOfRange

/-- `b[i:]`. -/
def sliceFrom (b : Bytes) (i : ℕ) : Except Fault Bytes :=
  if i ≤ b.length then .ok (b.drop i) else .error .outOfRange

/-- `binary.BigEndian.Uint16(b[i:i+2])`. -/
def uint16 (b : Bytes) (i : ℕ) : Except Fault UInt16 := do
  return UInt16.ofNat (beNat (← slice b i (i + 2)))

/-- `binary.BigEndian.Uint32(b[i:i+4])`. -/
def uint32 (b : Bytes) (i : ℕ) : Except Fault UInt32 := do
  return UInt32.ofNat (beNat (← slice b i (i + 4)))

/-- `binary.BigEndian.Uint64(b[i:i+8])`. -/
def uint64 (b : Bytes) (i : ℕ) : Except Fault UInt64 := do
  return UInt64.ofNat (beNat (← slice b i (i + 8)))

/-! ## Shared checks -/

/-- A name as a message prints it. -/
def printed (name : Bytes) : List ℕ := name.map UInt8.toNat

/-- `checkBounds` (lines 331–337): the sum is taken in 64 bits. -/
def checkBounds (p : Data) : Except Fault Unit :=
  if p.offset.toNat + p.payload.length > p.totalSize.toNat then
    malformed (.pastTotalSize p.offset.toNat (p.offset.toNat + p.payload.length) p.totalSize.toNat)
  else .ok ()

/-- `validMetaValue` (lines 364–374). -/
def validMetaValue (v : Bytes) : Bool :=
  if v.length = 0 ∨ v.length > maxMetaValue ∨ v.head? = some 0x20 ∨ v.getLast? = some 0x20 then
    false
  else v.all fun c => !(c < 0x20 || c > 0x7e)

/-- The `for i, f := range p.Fields` loop of `Meta.check`; `seen` is
    `p.Fields[:i]`. -/
def checkFields (seen : List Field) : List Field → Except Fault Unit
  | [] => .ok ()
  | f :: rest =>
    if ¬ metaNames.contains f.name then malformed (.metaName (printed f.name))
    else if seen.any (fun g => g.name = f.name) then malformed (.metaRepeated (printed f.name))
    else if ¬ validMetaValue f.value then malformed (.metaValue (printed f.name))
    else checkFields (seen ++ [f]) rest

/-- `Meta.check` (lines 340–358). -/
def check (fields : List Field) : Except Fault Unit :=
  if fields.length > metaNames.length then malformed (.metaCount fields.length metaNames.length)
  else checkFields [] fields

/-! ## `Decode` -/

/-- `case TypeReq` (lines 209–224). -/
def decodeReq (id : UInt64) (b : Bytes) : Except Fault Packet :=
  if b.length < reqFixedLen then malformed (.short .req b.length reqFixedLen)
  else do
    let n := (← uint16 b 13).toNat
    if n = 0 then malformed .emptyAssetId
    else if b.length ≠ reqFixedLen + n then malformed (.idLen b.length (reqFixedLen + n))
    else do
      let assetId ← sliceFrom b 15
      if ¬ utf8Valid assetId then malformed .assetIdNotUnicode
      else do
        let initialGrant ← uint32 b 9
        return .req { rpcId := id, initialGrant := initialGrant, assetId := assetId }

/-- `case TypeData` (lines 226–239). -/
def decodeData (id : UInt64) (b : Bytes) : Except Fault Packet :=
  if b.length < dataHeaderLen then malformed (.short .data b.length dataHeaderLen)
  else do
    let totalSize ← uint32 b 9
    let offset ← uint32 b 13
    let payload ← sliceFrom b 17
    let p : Data := { rpcId := id, totalSize := totalSize, offset := offset, payload := payload }
    checkBounds p
    return .data p

/-- `case TypeGrant` (lines 241–245). -/
def decodeGrant (id : UInt64) (b : Bytes) : Except Fault Packet :=
  if b.length ≠ grantLen then malformed (.length .grant b.length grantLen)
  else do
    let maxOffset ← uint32 b 9
    let priority ← index b 13
    return .grant { rpcId := id, maxOffset := maxOffset, priority := priority }

/-- `case TypeResend` (lines 247–255). -/
def decodeResend (id : UInt64) (b : Bytes) : Except Fault Packet :=
  if b.length ≠ resendLen then malformed (.length .resend b.length resendLen)
  else do
    let start ← uint32 b 9
    let stop ← uint32 b 13
    if start ≥ stop then malformed (.emptyRange .resend start.toNat stop.toNat)
    else return .resend { rpcId := id, start := start, stop := stop }

/-- `case TypeError` (lines 257–261). -/
def decodeError (id : UInt64) (b : Bytes) : Except Fault Packet :=
  if b.length ≠ errorLen then malformed (.length .error b.length errorLen)
  else do
    let code ← index b 9
    return .error { rpcId := id, code := code }

/-- `case TypeHello` (lines 263–267). -/
def decodeHello (id : UInt64) (b : Bytes) : Except Fault Packet :=
  if b.length ≠ helloLen then malformed (.length .hello b.length helloLen)
  else do
    let caps ← uint32 b 9
    return .hello { rpcId := id, caps := caps }

/-- `case TypeDataSeq` (lines 269–285). -/
def decodeDataSeq (id : UInt64) (b : Bytes) : Except Fault Packet :=
  if b.length < dataSeqHeaderLen then malformed (.short .dataSeq b.length dataSeqHeaderLen)
  else do
    let totalSize ← uint32 b 9
    let offset ← uint32 b 13
    let payload ← sliceFrom b 21
    let seq ← uint32 b 17
    let p : DataSeq :=
      { rpcId := id, totalSize := totalSize, offset := offset, payload := payload, seq := seq }
    checkBounds p.toData
    return .dataSeq p

/-- `case TypeResendSeq` (lines 287–295). -/
def decodeResendSeq (id : UInt64) (b : Bytes) : Except Fault Packet :=
  if b.length ≠ resendSeqLen then malformed (.length .resendSeq b.length resendSeqLen)
  else do
    let start ← uint32 b 9
    let stop ← uint32 b 13
    if start ≥ stop then malformed (.emptyRange .resendSeq start.toNat stop.toNat)
    else return .resendSeq { rpcId := id, start := start, stop := stop }

/-- The `for range int(b[9])` loop (lines 303–318), on `p.Fields` and `rest`. -/
def decodeFields : ℕ → List Field → Bytes → Except Fault (List Field × Bytes)
  | 0, fields, rest => .ok (fields, rest)
  | count + 1, fields, rest =>
    if rest.length < 1 then malformed (.metaTruncated fields.length)
    else do
      let n := (← index rest 0).toNat
      if rest.length < 1 + n + 2 then malformed (.metaFieldTruncated fields.length)
      else do
        let name ← slice rest 1 (1 + n)
        let m := (← uint16 rest (1 + n)).toNat
        let rest ← sliceFrom rest (3 + n)
        if rest.length < m then malformed (.metaValueTruncated (printed name))
        else do
          let value ← slice rest 0 m
          let rest ← sliceFrom rest m
          decodeFields count (fields ++ [{ name := name, value := value }]) rest

/-- `case TypeMeta` (lines 297–326). -/
def decodeMeta (id : UInt64) (b : Bytes) : Except Fault Packet :=
  if b.length < metaFixedLen then malformed (.short .metaData b.length metaFixedLen)
  else do
    let rest ← sliceFrom b metaFixedLen
    let count := (← index b 9).toNat
    let (fields, rest) ← decodeFields count [] rest
    if rest.length ≠ 0 then malformed (.metaTrailing rest.length)
    else do
      check fields
      return .metaData { rpcId := id, fields := fields }

/-- The cases of `switch t`. -/
def decodeAs : PacketType → UInt64 → Bytes → Except Fault Packet
  | .req => decodeReq
  | .data => decodeData
  | .grant => decodeGrant
  | .resend => decodeResend
  | .error => decodeError
  | .hello => decodeHello
  | .dataSeq => decodeDataSeq
  | .resendSeq => decodeResendSeq
  | .metaData => decodeMeta

/-- `Decode` (lines 202–329). -/
def decode (b : Bytes) : Except Fault Packet :=
  if b.length < headerLen then malformed (.shortHeader b.length)
  else do
    let t ← index b 0
    let id ← uint64 b 1
    match typeOf? t with
    | some t => decodeAs t id b
    | none => malformed (.unknownType t)

/-! ## `Append` -/

/-- `Type()` (lines 176–184). -/
def packetType : Packet → PacketType
  | .req _ => .req
  | .data _ => .data
  | .grant _ => .grant
  | .resend _ => .resend
  | .error _ => .error
  | .metaData _ => .metaData
  | .hello _ => .hello
  | .dataSeq _ => .dataSeq
  | .resendSeq _ => .resendSeq

/-- `binary.BigEndian.AppendUint16`. -/
def appendUint16 (dst : Bytes) (x : UInt16) : Bytes := dst ++ beBytes 2 x.toNat

/-- `binary.BigEndian.AppendUint32`. -/
def appendUint32 (dst : Bytes) (x : UInt32) : Bytes := dst ++ beBytes 4 x.toNat

/-- `binary.BigEndian.AppendUint64`. -/
def appendUint64 (dst : Bytes) (x : UInt64) : Bytes := dst ++ beBytes 8 x.toNat

/-- The body of `for _, f := range p.Fields` in `Append` (lines 418–423). -/
def appendField (dst : Bytes) (f : Field) : Bytes :=
  appendUint16 (dst ++ [UInt8.ofNat f.name.length] ++ f.name) (UInt16.ofNat f.value.length) ++
    f.value

/-- `Append` (lines 378–441). -/
def append (dst : Bytes) (p : Packet) : Except Fault Bytes :=
  let dst := appendUint64 (dst ++ [typeCode (packetType p)]) p.rpc
  match p with
  | .req p =>
    let n := p.assetId.length
    if n = 0 ∨ n > 0xffff then malformed (.assetIdLength n)
    else if ¬ utf8Valid p.assetId then malformed .assetIdNotUnicode
    else .ok (appendUint16 (appendUint32 dst p.initialGrant) (UInt16.ofNat n) ++ p.assetId)
  | .data p => do
    checkBounds p
    return appendUint32 (appendUint32 dst p.totalSize) p.offset ++ p.payload
  | .grant p => .ok (appendUint32 dst p.maxOffset ++ [p.priority])
  | .resend p =>
    if p.start ≥ p.stop then malformed (.emptyRange .resend p.start.toNat p.stop.toNat)
    else .ok (appendUint32 (appendUint32 dst p.start) p.stop)
  | .error p => .ok (dst ++ [p.code])
  | .metaData p => do
    check p.fields
    return p.fields.foldl appendField (dst ++ [UInt8.ofNat p.fields.length])
  | .hello p => .ok (appendUint32 dst p.caps)
  | .dataSeq p => do
    checkBounds p.toData
    return appendUint32 (appendUint32 (appendUint32 dst p.totalSize) p.offset) p.seq ++ p.payload
  | .resendSeq p =>
    if p.start ≥ p.stop then malformed (.emptyRange .resendSeq p.start.toNat p.stop.toNat)
    else .ok (appendUint32 (appendUint32 dst p.start) p.stop)

/-- `Marshal` (lines 444–446). -/
def marshal (p : Packet) : Except Fault Bytes := append [] p

end Http4.Wire.Go
