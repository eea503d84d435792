import Http4.Wire.GoCodec

/-!
# The sender session

Model of `server/internal/sender/sender.go`. A session runs two goroutines that
share its state under one lock: the receive loop handles one client packet at a
time, and the send loop picks a packet, checks it against the grant, hands it to
the connection and records that it was sent. Each of these is one step here, so
the two loops interleave between them in every order the lock allows.

`*rpc` values live in a `heap` and the map `rpcs` holds their positions: an RPC
that was evicted while the send loop still had a pointer to it stays in the heap.
`uint32` values are numbers below `2 ^ 32` and their arithmetic wraps; the
`uint64` counters count packets and do not.

What is left to chance: the order in which Go iterates over a map, what
`Assets.Get` returns, the clock, whether a datagram is accepted by the
connection or discarded by loss injection, and whether the pacer holds back bulk
data.
-/

namespace Http4.Sender

open Wire (Packet)

/-! ## `uint32` arithmetic -/

/-- `uint32(n)`. -/
def u32 (n : ℕ) : ℕ := n % 2 ^ 32

/-- `a + b`. -/
def u32Add (a b : ℕ) : ℕ := (a + b) % 2 ^ 32

/-- `a - b`. -/
def u32Sub (a b : ℕ) : ℕ := (a + (2 ^ 32 - b)) % 2 ^ 32

/-- `a * b`. -/
def u32Mul (a b : ℕ) : ℕ := a * b % 2 ^ 32

/-! ## Assets -/

/-- `Asset` (`assets.go`, lines 31–37); `lastModified` is the formatted
    `ModTime`, if that is not zero. -/
structure Asset where
  body : Bytes
  contentType : Bytes
  etag : Bytes
  lastModified : Option Bytes
  cacheControl : Bytes
  deriving DecidableEq

/-- What `Assets.Get` returns; `failed` is any error but `ErrNotFound`. -/
inductive GetResult
  | found (a : Asset)
  | notFound
  | failed
  deriving DecidableEq

/-- `MaxMetaLen`. -/
def maxMetaLen : ℕ := 512

/-- `err == nil && len(b) <= MaxMetaLen` (`assets.go`, line 80). -/
def metaFits (m : Wire.Meta) : Bool :=
  match Wire.Go.marshal (.metaData m) with
  | .ok b => b.length ≤ maxMetaLen
  | .error _ => false

/-- The loop of `Asset.Meta` (`assets.go`, lines 78–84) with `n` fields left. No fields make
    a packet of ten bytes, so the loop ends there at the latest. -/
def metaLoop (id : UInt64) (fields : List Wire.Field) : ℕ → Wire.Meta
  | 0 => { rpcId := id, fields := [] }
  | n + 1 =>
    let m : Wire.Meta := { rpcId := id, fields := fields.take (n + 1) }
    if metaFits m then m else metaLoop id fields n

/-- `Asset.Meta` (`assets.go`, lines 70–85). -/
def Asset.metaData (a : Asset) (id : UInt64) : Wire.Meta :=
  let fields : List Wire.Field :=
    [{ name := Wire.lit "content-type", value := a.contentType },
     { name := Wire.lit "etag", value := a.etag }] ++
    (match a.lastModified with
      | some t => [{ name := Wire.lit "last-modified", value := t }]
      | none => []) ++
    (if a.cacheControl ≠ [] then [{ name := Wire.lit "cache-control", value := a.cacheControl }]
      else [])
  metaLoop id fields fields.length

/-! ## State -/

/-- `span` (line 127). -/
structure Span where
  start : ℕ
  stop : ℕ
  deriving DecidableEq

/-- `rpc` (lines 129–148). -/
structure Rpc where
  id : UInt64
  asset : Bytes
  metaData : Wire.Meta
  size : ℕ
  granted : ℕ
  resends : List Span
  packet0Req : ℕ
  lastActive : ℤ
  next : ℕ
  metaSent : ℕ
  packet0Sent : ℕ
  tailDuped : Bool
  tailDup : Option Span
  deriving DecidableEq

/-- `seqEntry` (lines 175–182). -/
structure SeqEntry where
  seq : ℕ
  valid : Bool
  resent : Bool
  rpc : UInt64
  off : ℕ
  n : ℕ
  deriving DecidableEq

/-- `workKind` (lines 344–357), in the order of the constants. -/
inductive WorkKind
  | workControl | workMeta | workPacket0 | workResend | workNew | workTailDup
  deriving DecidableEq, Repr

/-- The constant's value. -/
def WorkKind.rank : WorkKind → ℕ
  | .workControl => 0
  | .workMeta => 1
  | .workPacket0 => 2
  | .workResend => 3
  | .workNew => 4
  | .workTailDup => 5

/-- `work` (lines 331–342); `r` is the position of the RPC in the heap, `none`
    for a control reply. -/
structure Work where
  pkt : Packet
  r : Option ℕ
  kind : WorkKind
  packet0 : ℕ
  seq : Bool
  bulk : Bool
  deriving DecidableEq

/-- The counters of `Metrics` that one session's steps touch. -/
structure Metrics where
  rpcs : ℕ := 0
  packetsIn : ℕ := 0
  malformedIn : ℕ := 0
  dataPackets : ℕ := 0
  dataBytes : ℕ := 0
  resentBytes : ℕ := 0
  errorsSent : ℕ := 0
  chunkShrinks : ℕ := 0
  rpcsEvicted : ℕ := 0
  ungrantedSent : ℕ := 0
  droppedData : ℕ := 0
  metaPackets : ℕ := 0
  droppedMeta : ℕ := 0
  hellosIn : ℕ := 0
  dataSeqPackets : ℕ := 0
  seqResends : ℕ := 0
  seqResendMisses : ℕ := 0
  seqResendRepeats : ℕ := 0
  tailDuplicates : ℕ := 0
  tailDuplicateBytes : ℕ := 0
  deriving DecidableEq

/-- Where the send loop stands. -/
inductive Phase
  /-- At the top of `sendLoop`. -/
  | idle
  /-- `pick` returned `w`. -/
  | picked (w : Work)
  /-- `send` is past its G2 check. -/
  | checked (w : Work)
  /-- The datagram was handed over, or discarded by loss injection; `seq` is the
      number it carries if it is a DATA_SEQ. -/
  | handed (w : Work) (seq : ℕ)
  /-- `send` returned false: the session is over. -/
  | ended
  /-- A Go panic: an index out of range or a nil pointer. -/
  | panicked
  deriving DecidableEq

/-- `Config` (lines 35–71), as far as the session reads it; `dropper` tells
    whether `NewDropper` is set. -/
structure Config where
  initialMaxDatagram : ℤ
  idleTimeout : ℤ
  dropper : Bool
  noSeq : Bool
  tailDuplicate : ℤ

/-- `session` (lines 150–172), and the place of its send loop. The ring is a
    function of the slot, of which only those below `seqRingSize` are used. -/
structure Session where
  heap : List Rpc
  rpcs : List (UInt64 × ℕ)
  pending : List Packet
  maxDatagram : ℤ
  seqOn : Bool
  nextSeq : ℕ
  ring : ℕ → SeqEntry
  phase : Phase
  metrics : Metrics

def defaultInitialMaxDatagram : ℤ := 1200

/-- In nanoseconds. -/
def defaultIdleTimeout : ℤ := 60 * 10 ^ 9

def h3DatagramPrefixMax : ℤ := 8
def seqRingSize : ℕ := 2 ^ 16
def maxResendSeqRange : ℕ := 1024
def maxUint32 : ℕ := 2 ^ 32 - 1
def quicSendQueue : ℕ := 32

/-- `CodeNotFound`, `CodeBadRequest` and `CodeUnknownRPC`. -/
def codeNotFound : UInt8 := 1
def codeBadRequest : UInt8 := 2
def codeUnknownRPC : UInt8 := 3

/-- The zero value of `seqEntry`. -/
def SeqEntry.zero : SeqEntry :=
  { seq := 0, valid := false, resent := false, rpc := 0, off := 0, n := 0 }

/-- The session `Serve` starts with (lines 92–110). -/
def Session.init (cfg : Config) : Session :=
  { heap := [], rpcs := [], pending := [],
    maxDatagram := if cfg.initialMaxDatagram = 0 then defaultInitialMaxDatagram
      else cfg.initialMaxDatagram,
    seqOn := false, nextSeq := 0, ring := fun _ => SeqEntry.zero, phase := .idle, metrics := {} }

/-! ## The receive loop -/

/-- `raiseGrant` (lines 321–323). -/
def Rpc.raiseGrant (r : Rpc) (g : ℕ) : Rpc := { r with granted := max r.granted (min g r.size) }

/-- `&rpc{…}` of `handle` (line 227). -/
def Rpc.new (id : UInt64) (a : Asset) : Rpc :=
  { id := id, asset := a.body, metaData := a.metaData id, size := u32 a.body.length, granted := 0,
    resends := [], packet0Req := 0, lastActive := 0, next := 0, metaSent := 0, packet0Sent := 0,
    tailDuped := false, tailDup := none }

/-- What a REQ does to its RPC (lines 233–235). -/
def Rpc.request (r : Rpc) (g : ℕ) (now : ℤ) : Rpc :=
  { ({ r with packet0Req := r.packet0Req + 1 }.raiseGrant g) with lastActive := now }

/-- What a GRANT does to its RPC (lines 243–244). -/
def Rpc.grant (r : Rpc) (g : ℕ) (now : ℤ) : Rpc := { r.raiseGrant g with lastActive := now }

/-- What a RESEND does to its RPC (lines 252–258). -/
def Rpc.resend (r : Rpc) (start stop : ℕ) (now : ℤ) : Rpc :=
  let stop := min stop (min r.granted r.next)
  { r with lastActive := now
           resends := if start < stop then r.resends ++ [{ start := start, stop := stop }]
                      else r.resends }

/-- What `resendSeq` does to the RPC of the number (lines 308–318). -/
def Rpc.resendSeq (r : Rpc) (off n : ℕ) (now : ℤ) : Rpc :=
  let stop := min (u32Add off n) (min r.granted r.next)
  { r with lastActive := now
           resends :=
             if off ≥ stop then r.resends
             else match r.resends.getLast? with
               | some last =>
                 if last.stop = off then
                   r.resends.dropLast ++ [{ start := last.start, stop := stop }]
                 else r.resends ++ [{ start := off, stop := stop }]
               | none => r.resends ++ [{ start := off, stop := stop }] }

namespace Session

/-- `s.rpcs[id]`. -/
def lookup (s : Session) (id : UInt64) : Option ℕ := s.rpcs.lookup id

/-- A change to the RPC at position `p`. -/
def update (s : Session) (p : ℕ) (f : Rpc → Rpc) : Session := { s with heap := s.heap.modify p f }

/-- `reply` (lines 326–328). -/
def reply (s : Session) (p : Packet) : Session := { s with pending := s.pending ++ [p] }

/-- A change to the counters. -/
def count (s : Session) (f : Metrics → Metrics) : Session := { s with metrics := f s.metrics }

/-- The ring entry of a number. -/
def entry (s : Session) (seq : ℕ) : SeqEntry := s.ring (seq % seqRingSize)

/-- Whether the ring holds a number. -/
def holds (s : Session) (seq : ℕ) : Bool := (s.entry seq).valid && (s.entry seq).seq == seq

/-- Writing a ring slot. -/
def setEntry (s : Session) (seq : ℕ) (e : SeqEntry) : Session :=
  { s with ring := Function.update s.ring (seq % seqRingSize) e }

/-- `resendSeq` (lines 292–319). -/
def resendSeq (s : Session) (seq : ℕ) (now : ℤ) : Session :=
  let e := s.entry seq
  if ¬ e.valid ∨ e.seq ≠ seq then
    s.count fun m => { m with seqResendMisses := m.seqResendMisses + 1 }
  else if e.resent then s.count fun m => { m with seqResendRepeats := m.seqResendRepeats + 1 }
  else
    let s := s.setEntry seq { e with resent := true }
    match s.lookup e.rpc with
    | none => s.count fun m => { m with seqResendMisses := m.seqResendMisses + 1 }
    | some p => s.update p fun r => r.resendSeq e.off e.n now

/-- The numbers one RESEND_SEQ names (lines 273–276). -/
def seqRange (start stop : UInt32) : List ℕ :=
  let stop := min stop.toNat (start.toNat + maxResendSeqRange)
  (List.range' start.toNat (stop - start.toNat)).map u32

/-- `handle` (lines 211–281); `got` is what `Assets.Get` returns if it is called. -/
def handle (cfg : Config) (s : Session) (now : ℤ) (got : GetResult) : Packet → Session
  | .req p =>
    match s.lookup p.rpcId with
    | some r => s.update r fun r => r.request p.initialGrant.toNat now
    | none =>
      match got with
      | .notFound => s.reply (.error { rpcId := p.rpcId, code := codeNotFound })
      | .failed => s.reply (.error { rpcId := p.rpcId, code := codeBadRequest })
      | .found a =>
        { s with heap := s.heap ++ [(Rpc.new p.rpcId a).request p.initialGrant.toNat now]
                 rpcs := s.rpcs ++ [(p.rpcId, s.heap.length)]
                 metrics := { s.metrics with rpcs := s.metrics.rpcs + 1 } }
  | .grant p =>
    match s.lookup p.rpcId with
    | none => s.reply (.error { rpcId := p.rpcId, code := codeUnknownRPC })
    | some r => s.update r fun r => r.grant p.maxOffset.toNat now
  | .resend p =>
    match s.lookup p.rpcId with
    | none => s.reply (.error { rpcId := p.rpcId, code := codeUnknownRPC })
    | some r => s.update r fun r => r.resend p.start.toNat p.stop.toNat now
  | .hello p =>
    let s := s.count fun m => { m with hellosIn := m.hellosIn + 1 }
    if ¬ cfg.noSeq ∧ p.caps &&& Wire.Go.capSessionSeq ≠ 0 ∧ ¬ s.seqOn then
      { s with seqOn := true, ring := fun _ => SeqEntry.zero }
    else s
  | .resendSeq p =>
    if ¬ s.seqOn then s.count fun m => { m with malformedIn := m.malformedIn + 1 }
    else
      let s := s.count fun m => { m with seqResends := m.seqResends + 1 }
      (seqRange p.start p.stop).foldl (fun s seq => s.resendSeq seq now) s
  | .data _ | .dataSeq _ | .error _ | .metaData _ =>
    s.count fun m => { m with malformedIn := m.malformedIn + 1 }

/-- One round of `receiveLoop` (lines 191–208). -/
def receive (cfg : Config) (s : Session) (now : ℤ) (got : GetResult) (b : Bytes) : Session :=
  let s := s.count fun m => { m with packetsIn := m.packetsIn + 1 }
  match Wire.Go.decode b with
  | .error _ => s.count fun m => { m with malformedIn := m.malformedIn + 1 }
  | .ok p => s.handle cfg now got p

end Session

/-! ## The send loop -/

/-- A Go panic in `pick`. -/
inductive Panic
  | panic
  deriving DecidableEq

/-- `due` (lines 513–527). -/
def Rpc.due (r : Rpc) : Option WorkKind :=
  if r.packet0Req > r.metaSent then some .workMeta
  else if r.packet0Req > r.packet0Sent then some .workPacket0
  else if r.resends.length > 0 then some .workResend
  else if r.next < r.granted then some .workNew
  else if r.tailDup.isSome then some .workTailDup
  else none

/-- `data` (lines 529–531); the slice of the asset is checked. -/
def Rpc.data (r : Rpc) (off n : ℕ) : Except Panic Packet :=
  if off ≤ u32Add off n ∧ u32Add off n ≤ r.asset.length then
    .ok (.data { rpcId := r.id, totalSize := UInt32.ofNat r.size, offset := UInt32.ofNat off,
                 payload := Bytes.sub r.asset off (u32Add off n) })
  else .error .panic

/-- `w.pkt.(*wire.Data)`. -/
def Work.data? (w : Work) : Option Wire.Data :=
  match w.pkt with
  | .data d => some d
  | _ => none

/-- `w.pkt.(*wire.Meta)`. -/
def Work.isMeta (w : Work) : Bool :=
  match w.pkt with
  | .metaData _ => true
  | _ => false

/-- The RPC after its work with a payload of `n` bytes was handed over (lines
    602–618). -/
def Rpc.sent (r : Rpc) (w : Work) (n : ℕ) : Except Panic Rpc :=
  match w.kind with
  | .workPacket0 =>
    .ok { r with packet0Sent := w.packet0, next := if r.next ≥ n then r.next else n }
  | .workResend =>
    match r.resends with
    | [] => .error .panic
    | sp :: rest =>
      let start := u32Add sp.start n
      .ok { r with resends := if start ≥ sp.stop then rest
                              else { start := start, stop := sp.stop } :: rest }
  | .workNew => .ok { r with next := u32Add r.next n }
  | .workTailDup => .ok { r with tailDup := none }
  | .workMeta | .workControl => .ok r

/-- What that adds to `ResentBytes`. -/
def Rpc.resentBytes (r : Rpc) (kind : WorkKind) (n : ℕ) : ℕ :=
  match kind with
  | .workPacket0 => if r.next ≥ n then n else 0
  | .workResend | .workTailDup => n
  | .workNew | .workMeta | .workControl => 0

/-- Queuing the tail duplicate (lines 627–632). -/
def Rpc.queueTail (cfg : Config) (r : Rpc) (w : Work) (d : Wire.Data) : Rpc :=
  if cfg.tailDuplicate > 0 ∧ ¬ r.tailDuped ∧ w.kind ≠ .workResend ∧ r.size > 0 ∧
      (r.size : ℤ) ≤ cfg.tailDuplicate ∧ r.next = r.size then
    { r with tailDuped := true
             tailDup := some { start := d.offset.toNat,
                               stop := u32Add d.offset.toNat (u32 d.payload.length) } }
  else r

namespace Session

/-- The RPC of a pointer. -/
def rpc (s : Session) (p : ℕ) : Except Panic Rpc :=
  match s.heap[p]? with
  | some r => .ok r
  | none => .error .panic

/-- `chunk` (lines 491–496), as an `int`. -/
def chunkInt (s : Session) (seq : Bool) : ℤ :=
  if seq then max 1 (Wire.Go.maxPayloadSeq s.maxDatagram)
  else max 1 (Wire.Go.maxPayload s.maxDatagram)

/-- `uint32(s.chunk(seq))`. -/
def chunk (s : Session) (seq : Bool) : ℕ := u32 (s.chunkInt seq).toNat

/-- The loop of `pick` over the RPCs (lines 451–461), on `best` and `bestKind`. -/
def pickLoop (s : Session) : Option (Rpc × ℕ × WorkKind) → List ℕ →
    Except Panic (Option (Rpc × ℕ × WorkKind))
  | best, [] => .ok best
  | best, p :: rest => do
    let r ← s.rpc p
    match r.due with
    | none => s.pickLoop best rest
    | some k =>
      match best with
      | none => s.pickLoop (some (r, p, k)) rest
      | some (br, _, bk) =>
        if k.rank < bk.rank ∨
            (k = bk ∧ u32Sub r.size r.next < u32Sub br.size br.next) then
          s.pickLoop (some (r, p, k)) rest
        else s.pickLoop best rest

/-- `s.seqOn && s.nextSeq <= math.MaxUint32`. -/
def useSeq (s : Session) : Bool := s.seqOn && decide (s.nextSeq ≤ maxUint32)

/-- The `switch bestKind` of `pick` (lines 467–486). -/
def workOf (s : Session) (r : Rpc) (p : ℕ) (kind : WorkKind) : Except Panic Work :=
  let seq := s.useSeq
  let chunk := s.chunk seq
  match kind with
  | .workMeta =>
    .ok { pkt := .metaData r.metaData, r := some p, kind := .workMeta, packet0 := r.packet0Req,
          seq := false, bulk := false }
  | .workPacket0 => do
    let n := min chunk r.granted
    return { pkt := ← r.data 0 n, r := some p, kind := .workPacket0, packet0 := r.packet0Req,
             seq := seq, bulk := false }
  | .workTailDup =>
    match r.tailDup with
    | none => .error .panic
    | some sp => do
      return { pkt := ← r.data sp.start (u32Sub sp.stop sp.start), r := some p,
               kind := .workTailDup, packet0 := 0, seq := seq, bulk := false }
  | .workResend =>
    match r.resends with
    | [] => .error .panic
    | sp :: _ => do
      let n := min chunk (u32Sub sp.stop sp.start)
      return { pkt := ← r.data sp.start n, r := some p, kind := .workResend, packet0 := 0,
               seq := seq, bulk := false }
  | .workNew | .workControl => do
    let n := min chunk (u32Sub r.granted r.next)
    return { pkt := ← r.data r.next n, r := some p, kind := .workNew, packet0 := 0, seq := seq,
             bulk := decide (u32Sub r.size r.next > u32Mul quicSendQueue chunk) }

/-- `pick` (lines 447–487), with the RPCs in the order Go visits them; `none` is
    "no work". -/
def pick (s : Session) (order : List ℕ) : Except Panic (Option Work) :=
  match s.pending with
  | pkt :: _ =>
    .ok (some { pkt := pkt, r := none, kind := .workControl, packet0 := 0, seq := false,
                bulk := false })
  | [] => do
    match ← s.pickLoop none order with
    | none => return none
    | some (r, p, kind) => return some (← s.workOf r p kind)

/-- The bytes of `d` past the grant, `over` in the source (lines 546–547). -/
def pastGrant (d : Wire.Data) (granted : ℕ) : ℕ :=
  let stop := u32Add d.offset.toNat (u32 d.payload.length)
  if stop > granted then u32Sub stop (max d.offset.toNat granted) else 0

/-- The G2 check of `send` (lines 538–550). -/
def check (s : Session) (w : Work) : Session :=
  match w.data?, w.r with
  | some d, some p =>
    match s.rpc p with
    | .ok r =>
      { s with phase := .checked w
               metrics := { s.metrics with
                 ungrantedSent := s.metrics.ungrantedSent + pastGrant d r.granted } }
    | .error _ => { s with phase := .panicked }
  | some _, none => { s with phase := .panicked }
  | none, _ => { s with phase := .checked w }

/-- `uint32(s.nextSeq)`. -/
def seqNumber (s : Session) : ℕ := u32 s.nextSeq

/-- The packet that leaves (lines 555–560). -/
def out (s : Session) (w : Work) : Packet :=
  match w.data? with
  | some d => if w.seq then .dataSeq { d with seq := UInt32.ofNat s.seqNumber } else w.pkt
  | none => w.pkt

/-- What becomes of a datagram: discarded by loss injection, accepted by the
    connection, or refused, as too large for the limit QUIC reports or for
    another reason. -/
inductive Outcome
  | dropped
  | sent
  | tooLarge (maxDatagramPayloadSize : ℤ)
  | failed
  deriving DecidableEq

/-- Whether `send` consults the dropper for this packet. -/
def mayDrop (cfg : Config) (w : Work) : Bool := cfg.dropper && (w.data?.isSome || w.isMeta)

/-- `send` from `Marshal` to the hand-over (lines 561–586). `none` is an outcome
    that cannot be. -/
def handOver (cfg : Config) (s : Session) (w : Work) (o : Outcome) : Option Session :=
  match Wire.Go.marshal (s.out w) with
  | .error _ => some { s with phase := .ended }
  | .ok _ =>
    match o with
    | .dropped =>
      if mayDrop cfg w then
        some { s with phase := .handed w s.seqNumber
                      metrics := if w.data?.isSome then
                          { s.metrics with droppedData := s.metrics.droppedData + 1 }
                        else { s.metrics with droppedMeta := s.metrics.droppedMeta + 1 } }
      else none
    | .sent => some { s with phase := .handed w s.seqNumber }
    | .tooLarge m =>
      if w.data?.isSome then
        some { s with phase := .idle
                      maxDatagram := m - h3DatagramPrefixMax
                      metrics := { s.metrics with chunkShrinks := s.metrics.chunkShrinks + 1 } }
      else some { s with phase := .ended }
    | .failed => some { s with phase := .ended }

/-- A Go panic ends everything. -/
def panic (s : Session) : Session := { s with phase := .panicked }

/-- The end of `send` (lines 588–642): recording that `w` was handed over, `seq`
    being the number it carried if it was a DATA_SEQ. -/
def record (cfg : Config) (s : Session) (w : Work) (seq : ℕ) : Session :=
  match w.kind, w.r, w.data? with
  | .workControl, _, _ =>
    match s.pending with
    | [] => s.panic
    | _ :: rest =>
      { s with phase := .idle
               pending := rest
               metrics := { s.metrics with errorsSent := s.metrics.errorsSent + 1 } }
  | .workMeta, some p, _ =>
    { s.update p fun r => { r with metaSent := w.packet0 } with
      phase := .idle
      metrics := { s.metrics with metaPackets := s.metrics.metaPackets + 1 } }
  | kind, some p, some d =>
    match s.rpc p with
    | .error _ => s.panic
    | .ok r =>
      let n := u32 d.payload.length
      match r.sent w n with
      | .error _ => s.panic
      | .ok sent =>
        let s := s.count fun m =>
          { m with resentBytes := m.resentBytes + r.resentBytes kind n
                   tailDuplicates := m.tailDuplicates + (if kind = .workTailDup then 1 else 0)
                   tailDuplicateBytes :=
                     m.tailDuplicateBytes + (if kind = .workTailDup then n else 0)
                   dataPackets := m.dataPackets + 1
                   dataBytes := m.dataBytes + d.payload.length }
        let s := { s with heap := s.heap.set p (sent.queueTail cfg w d), phase := .idle }
        if w.seq then
          { s.setEntry seq { seq := seq, valid := true, resent := false, rpc := r.id,
                             off := d.offset.toNat, n := n } with
            nextSeq := s.nextSeq + 1
            metrics := { s.metrics with dataSeqPackets := s.metrics.dataSeqPackets + 1 } }
        else s
  | _, _, _ => s.panic

/-- `evictIdle` (lines 686–696). -/
def evictIdle (cfg : Config) (s : Session) (now : ℤ) : Session :=
  let timeout := if cfg.idleTimeout = 0 then defaultIdleTimeout else cfg.idleTimeout
  let idle (e : UInt64 × ℕ) : Bool :=
    match s.heap[e.2]? with
    | some r => r.lastActive < now - timeout
    | none => false
  { s with rpcs := s.rpcs.filter fun e => !idle e
           metrics := { s.metrics with rpcsEvicted := s.metrics.rpcsEvicted + s.rpcs.countP idle } }

/-- The RPCs a loop over the map visits, in any order. -/
def live (s : Session) : List ℕ := s.rpcs.map Prod.snd

end Session

/-! ## Runs -/

/-- A datagram handed over to the connection; `lost` if loss injection discarded
    it there. -/
structure Handed where
  work : Work
  packet : Packet
  lost : Bool
  deriving DecidableEq

/-- A session with its client. The fields after `session` are history: no step
    of the session reads them. -/
structure Sys where
  session : Session
  /-- The datagrams the client has sent. -/
  offered : List Bytes
  /-- The client packets handled. -/
  handled : List Packet
  /-- What was handed over, in order. -/
  handed : List Handed
  /-- The work recorded as sent, in order. -/
  recorded : List Work
  /-- The numbers a RESEND_SEQ named while the ring held them. -/
  answered : List ℕ

/-- The steps of the client, the receive loop and the send loop. -/
inductive Act
  /-- The client sends a datagram. -/
  | offer (b : Bytes)
  /-- A datagram of the client arrives; the network may deliver it any number of
      times, late or never. -/
  | receive (b : Bytes) (now : ℤ) (got : GetResult)
  | pick (order : List ℕ)
  /-- The pacer holds back the bulk packet picked; it will be picked anew. -/
  | hold
  | check
  | handOver (o : Session.Outcome)
  | record
  | evictIdle (now : ℤ)

namespace Sys

/-- A new session. -/
def init (cfg : Config) : Sys :=
  { session := Session.init cfg, offered := [], handled := [], handed := [], recorded := [],
    answered := [] }

/-- The numbers of a packet that the ring holds. -/
def answers (s : Session) : Packet → List ℕ
  | .resendSeq p => if s.seqOn then (Session.seqRange p.start p.stop).filter s.holds else []
  | _ => []

/-- One step. -/
def step (cfg : Config) (s : Sys) : Act → Option Sys
  | .offer b => some { s with offered := s.offered ++ [b] }
  | .receive b now got =>
    if b ∈ s.offered then
      let session := s.session.receive cfg now got b
      match Wire.Go.decode b with
      | .error _ => some { s with session := session }
      | .ok p => some { s with session := session
                               handled := s.handled ++ [p]
                               answered := s.answered ++ answers s.session p }
    else none
  | .pick order =>
    match s.session.phase with
    | .idle =>
      if order.Perm s.session.live then
        match s.session.pick order with
        | .error _ => some { s with session := s.session.panic }
        | .ok none => some s
        | .ok (some w) => some { s with session := { s.session with phase := .picked w } }
      else none
    | _ => none
  | .hold =>
    match s.session.phase with
    | .picked w =>
      if w.bulk then some { s with session := { s.session with phase := .idle } } else none
    | _ => none
  | .check =>
    match s.session.phase with
    | .picked w => some { s with session := s.session.check w }
    | _ => none
  | .handOver o =>
    match s.session.phase with
    | .checked w =>
      match s.session.handOver cfg w o with
      | none => none
      | some t =>
        match t.phase with
        | .handed _ _ =>
          some { s with session := t
                        handed := s.handed ++
                          [{ work := w, packet := s.session.out w, lost := decide (o = .dropped) }] }
        | _ => some { s with session := t }
    | _ => none
  | .record =>
    match s.session.phase with
    | .handed w seq =>
      some { s with session := s.session.record cfg w seq, recorded := s.recorded ++ [w] }
    | _ => none
  | .evictIdle now => some { s with session := s.session.evictIdle cfg now }

end Sys

end Http4.Sender
