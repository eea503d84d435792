import Http4.Client.Budget
import Http4.Client.RepairTracker
import Http4.Client.SeqTracker
import Http4.Data.Routine
import Http4.Wire.TsCodec

/-!
# The client session

Model of `client/src/transport.ts`: the class `Http4Client` (lines 282–980) as a
machine whose events are what its page, its timer, its readers and the network do.

An object that the source passes by reference is an entry of `objects`, and `live`
says whether `this.transfers` still holds it. Times and settings are exact
rationals. What `performance.now()` adds to the clock at each call, the rpc_id that
`newRpcId` draws and whether a buffer can be allocated come with the event. The
counters of `stats` that no function reads, the queue limit of the platform and the
options only tests set are left out.
-/

namespace Http4.Client

open Wire.Ts (JsString)

/-! ## Packets -/

/-- A packet handed to `send`; its numbers are those of JavaScript. -/
inductive Outgoing
  | req (rpcId : ℤ) (initialGrant : ℚ) (assetId : JsString)
  | grant (rpcId : ℤ) (maxOffset : ℚ) (priority : ℕ)
  | resend (rpcId : ℤ) (range : Range ℚ)
  | hello (rpcId caps : ℤ)
  | resendSeq (rpcId : ℤ) (range : Range ℤ)
  deriving DecidableEq

/-- The integer a number is: `Number.isInteger`. -/
def asInteger (q : ℚ) : Option ℤ := if q.den = 1 then some q.num else none

/-- The packet of `wire.ts`, if its numbers are integers. -/
def Outgoing.packet : Outgoing → Option Wire.Ts.Packet
  | .req rpcId initialGrant assetId => do
    return .req { rpcId := rpcId, initialGrant := ← asInteger initialGrant, assetId := assetId }
  | .grant rpcId maxOffset priority => do
    return .grant { rpcId := rpcId, maxOffset := ← asInteger maxOffset, priority := priority }
  | .resend rpcId range => do
    return .resend { rpcId := rpcId, start := ← asInteger range.start, stop := ← asInteger range.stop }
  | .hello rpcId caps => some (.hello { rpcId := rpcId, caps := caps })
  | .resendSeq rpcId range =>
    some (.resendSeq { rpcId := rpcId, start := range.start, stop := range.stop })

/-- `encode`; `none` is its exception, which `checkU32` throws for a number that is
    no integer too. -/
def Outgoing.encode (p : Outgoing) : Option Bytes := do (Wire.Ts.encode (← p.packet)).toOption

/-! ## The platform's stream -/

/-- `[[state]]` of a `ReadableStream`. -/
inductive StreamPhase
  | readable | closed | errored
  deriving DecidableEq

/-- A `ReadableStream` with a `ByteLengthQueuingStrategy` and its controller. -/
structure ReadableStream where
  highWaterMark : ℚ
  /-- Chunks that no reader has taken. -/
  queue : List Bytes := []
  /-- Reads that wait for a chunk. -/
  reads : ℕ := 0
  phase : StreamPhase := .readable
  closeRequested : Bool := false
  started : Bool := false
  pulling : Bool := false
  pullAgain : Bool := false
  /-- The promise of the last `pull` will be rejected. -/
  pullFailed : Bool := false
  deriving DecidableEq

namespace ReadableStream

/-- `controller.desiredSize ?? 0`. -/
def desiredSize (s : ReadableStream) : ℚ :=
  match s.phase with
  | .readable => s.highWaterMark - ((s.queue.map List.length).sum : ℕ)
  | .closed | .errored => 0

/-- Whether `enqueue` and `close` are allowed; otherwise they throw. -/
def canEnqueue (s : ReadableStream) : Bool := s.phase = .readable && !s.closeRequested

/-- Whether the platform wants more from the source. -/
def shouldPull (s : ReadableStream) : Bool :=
  s.canEnqueue && s.started && (0 < s.reads || decide (0 < s.desiredSize))

/-- `enqueue` without the call of `pull`. -/
def enqueue (s : ReadableStream) (chunk : Bytes) : ReadableStream :=
  if 0 < s.reads then { s with reads := s.reads - 1 } else { s with queue := s.queue ++ [chunk] }

/-- `controller.close()`. -/
def close (s : ReadableStream) : ReadableStream :=
  if s.queue = [] then { s with closeRequested := true, phase := .closed, reads := 0 }
  else { s with closeRequested := true }

/-- `controller.error(e)`. -/
def error (s : ReadableStream) : ReadableStream :=
  if s.phase = .readable then { s with phase := .errored, queue := [], reads := 0 } else s

/-- `reader.read()` without the call of `pull`. -/
def read (s : ReadableStream) : ReadableStream :=
  match s.phase, s.queue with
  | .readable, [] => { s with reads := s.reads + 1 }
  | .readable, _ :: queue =>
    if s.closeRequested && queue.isEmpty then { s with queue := queue, phase := .closed, reads := 0 }
    else { s with queue := queue }
  | .closed, _ | .errored, _ => s

/-- `cancel()` without the call of the source's `cancel`. -/
def cancel (s : ReadableStream) : ReadableStream := { s with phase := .closed, queue := [], reads := 0 }

end ReadableStream

/-! ## State -/

/-- What can be thrown. -/
inductive Thrown
  /-- `MalformedPacketError`, by `encode`. -/
  | encode (p : Outgoing)
  /-- `RangeError`, by `new Uint8Array(size)`. -/
  | allocation (size : ℤ)
  /-- `TypeError`, by a stream's controller. -/
  | invalidState
  /-- `RangeError`, by a `DataView` in `decode`. -/
  | outOfRange
  /-- What `reader.read()` was rejected with. -/
  | readRejected
  deriving DecidableEq

/-- The errors a transfer or a call of `start` fails with. -/
inductive Failure
  /-- "client closed" -/
  | clientClosed
  /-- "session closed" -/
  | sessionClosed
  /-- "asset ID too long: REQ is … bytes, datagram limit …" -/
  | assetIdTooLong (size limit : ℕ)
  /-- "total_size changed from … to …" -/
  | totalSizeChanged (size totalSize : ℤ)
  /-- The `RangeError` of `Reassembly.add`. -/
  | range (e : RangeError)
  /-- "…: …", the asset ID and the name of the code. -/
  | server (assetId : JsString) (code : ℤ)
  /-- "…: no progress after … recovery attempts (…)" -/
  | noProgress (assetId : JsString) (attempts : ℚ) (got : Option (ℤ × ℕ))
  /-- What the read loop caught. -/
  | thrown (e : Thrown)
  deriving DecidableEq

/-- A call of `resolve` or `reject`. -/
inductive Settlement
  | response (body : Bytes) (headers : List (JsString × JsString))
  | stream (size : ℕ) (headers : List (JsString × JsString))
  | rejected (e : Failure)
  deriving DecidableEq

/-- `interface StreamState` (lines 196–202). -/
structure StreamState where
  body : ReadableStream
  emitted : ℕ := 0
  paused : Bool := false
  closed : Bool := false
  /-- Every chunk enqueued, oldest first. -/
  chunks : List Bytes := []
  deriving DecidableEq

/-- `probe` of `interface Transfer`. -/
structure Probe where
  start : ℚ
  sentAt : ℚ
  deriving DecidableEq

/-- The fields of `interface Transfer` that only timers and RTT samples read. -/
structure Progress where
  lastDetect : Option ℚ := none
  tailProbed : Bool := false
  replied : Bool := false
  reqSentAt : ℚ
  reqRetransmitted : Bool := false
  baseRto : ℚ
  ceiling : ℚ
  probe : Option Probe := none
  lastProgress : ℚ
  recoveries : ℕ := 0
  deriving DecidableEq

/-- `interface Transfer` (lines 204–233). -/
structure Transfer where
  assetId : JsString
  cls : PriorityClass
  initialGrant : ℚ
  asm : Option Reassembly := none
  repair : Option RepairTracker := none
  headers : Option (List (JsString × JsString)) := none
  stream : Option StreamState
  settled : Bool := false
  /-- The calls of `resolve` and `reject`, oldest first. -/
  settlements : List Settlement := []
  /-- `this.transfers` holds it. -/
  live : Bool := true
  progress : Progress
  deriving DecidableEq

/-- The interval whose length is an RTT sample. -/
structure RttSample where
  start : ℚ
  stop : ℚ
  deriving DecidableEq

/-- The fields of the class that measure the path, with the clock, two counters and
    two histories that no function reads. -/
structure Estimates where
  clock : ℚ := 0
  /-- What the next calls of `performance.now()` add to the clock. -/
  elapse : List ℚ≥0 := []
  lastSeqDetect : Option ℚ := none
  payloadSeen : ℕ := 0
  reorderSteps : ℚ := 1
  lastSpuriousAt : Option ℚ := none
  lastLossBackoffAt : Option ℚ := none
  srtt : Option ℚ := none
  rttvar : ℚ := 0
  initialRto : ℚ := 100
  lastBackoffAt : Option ℚ := none
  /-- `stats.seqNegotiated` and `stats.hellosSent`. -/
  seqNegotiated : Bool := false
  hellosSent : ℕ := 0
  /-- Every packet handed to `send` with the clock then, oldest first. -/
  stamped : List (Outgoing × ℚ) := []
  /-- Every RTT sample the budget controller got, oldest first. -/
  samples : List RttSample := []
  deriving DecidableEq

/-- `class Http4Client`. -/
structure Http4Client where
  opts : ClientOptions
  maxDatagramSize : ℕ
  objects : OrderedMap ℤ Transfer
  scheduler : SrptScheduler
  budget : BudgetController
  /-- The largest budget so far; no function reads it. -/
  peak : ℚ
  seq : SeqTracker
  est : Estimates
  ticker : Bool
  closed : Bool
  sessionClosed : Bool
  /-- The read loop has not ended. -/
  reading : Bool
  /-- Every packet handed to `send`, oldest first. -/
  handed : List Outgoing
  deriving DecidableEq

/-- Code of the class: it changes the client and may throw. -/
abbrev Js (α : Type) := Routine Thrown Http4Client α

/-! ## Constants and options -/

def minInitialGrant : ℚ := 4096
def maxInitialGrant : ℚ := 64 * 1024
def defaultRtoFloorMs : ℚ := 20
def maxInitialRtoMs : ℚ := 1000
def defaultMaxRecoveries : ℚ := 10
def maxRtoMs : ℚ := 2000
def defaultReorderPackets : ℚ := 3
def minReorderWindowMs : ℚ := 1
def maxReorderSteps : ℚ := 16
def detectIntervalMs : ℚ := 1
def minRepairDelayMs : ℚ := 2
def serverSendQueuePackets : ℚ := 32
def maxDrainMs : ℚ := 10000
def helloRepeats : ℕ := 3
def seqResendTries : ℕ := 3
def seqMaxRange : ℤ := 1024
def defaultStreamHighWaterMark : ℚ := 1024 * 1024
def streamChunk : ℕ := 64 * 1024

namespace ClientOptions

/-- `rtoFloor`. -/
def rtoFloor (opts : ClientOptions) : ℚ := opts.rtoFloorMs.getD defaultRtoFloorMs

/-- `maxRecoveries`. -/
def recoveryLimit (opts : ClientOptions) : ℚ := opts.maxRecoveries.getD defaultMaxRecoveries

/-- `earlyResend`. -/
def resendsEarly (opts : ClientOptions) : Bool := opts.earlyResend.getD true

/-- `reorderPackets`. -/
def reorderLimit (opts : ClientOptions) : ℚ := opts.reorderPackets.getD defaultReorderPackets

/-- `sessionSeq`. -/
def offersSeq (opts : ClientOptions) : Bool := opts.sessionSeq.getD true

/-- `streamHighWaterMark`. -/
def highWaterMark (opts : ClientOptions) : ℚ := opts.streamHighWaterMark.getD defaultStreamHighWaterMark

end ClientOptions

/-- `now - last`, which is infinite if `last` is, against a duration. -/
def elapsed (last : Option ℚ) (now d : ℚ) : Bool := last.all fun last => decide (d ≤ now - last)

/-- Whether the timer takes a transfer with this grant to be waiting, not stalled (line 687). -/
def Transfer.waiting (t : Transfer) (granted : ℚ) : Bool :=
  (t.headers.isSome && t.asm.any fun asm => decide (granted ≤ asm.received)) ||
    t.stream.any StreamState.paused

/-- What a transfer adds to `reserved`. -/
def Transfer.reserved (t : Transfer) : ℚ := if t.live && t.asm.isNone then t.initialGrant else 0

namespace Http4Client

/-- The fields the constructor sets (lines 313–339). -/
def new (opts : ClientOptions) (maxDatagramSize : ℕ) : Http4Client :=
  { opts := opts, maxDatagramSize := maxDatagramSize, objects := .empty, scheduler := opts.scheduler,
    budget := opts.controller, peak := opts.controller.budget, seq := .new, est := {}, ticker := false,
    closed := false, sessionClosed := false, reading := true, handed := [] }

variable (c : Http4Client)

/-! ## What the class computes -/

/-- `get isOpen()`. -/
def isOpen : Bool := !c.closed && !c.sessionClosed

/-- The keys of `this.transfers`, oldest first. -/
def transfers : List ℤ := (c.objects.entries.filter fun e => e.2.live).map Prod.fst

/-- `reserved` (lines 641–645). -/
def reserved : ℚ := c.objects.sum Transfer.reserved

/-- `nextInitialGrant` (lines 652–657). -/
def nextInitialGrant : ℚ :=
  match c.opts.initialGrant with
  | some grant => grant
  | none =>
    let want := min maxInitialGrant (max minInitialGrant (⌊c.budget.bdp⌋ : ℚ))
    let free := c.budget.budget - c.scheduler.outstanding - c.reserved
    max minInitialGrant (min want free)

/-- `rto` (lines 482–488). -/
def rto : ℚ :=
  match c.est.srtt with
  | none =>
    max c.opts.rtoFloor
      (match c.budget.minRtt with
        | some minRtt => min maxInitialRtoMs (3 * minRtt)
        | none => c.est.initialRto)
  | some srtt => min maxRtoMs (max c.opts.rtoFloor (srtt + 4 * c.est.rttvar))

/-- `reorderWindow` (lines 850–854). -/
def reorderWindow : ℚ :=
  let rtt := c.budget.minRtt.or c.est.srtt
  let quarter := max minReorderWindowMs (rtt.getD 0 / 4)
  min (quarter * c.est.reorderSteps) (max quarter (c.est.srtt.getD quarter))

/-- `repairDelay` (lines 863–869). -/
def repairDelay : ℚ :=
  let rtt := (c.est.srtt.or c.budget.minRtt).getD c.rto
  let rate := c.budget.maxRate
  let queued := serverSendQueuePackets * payloadSize c.est.payloadSeen
  let drain := if rate > 0 then queued / rate else c.rto
  min maxRtoMs (max minRepairDelayMs (3 / 2 * rtt + drain))

/-- `drainMs` (lines 876–879). -/
def drainMs : ℚ :=
  let rate := c.budget.maxRate
  if rate > 0 then min maxDrainMs (c.scheduler.outstanding / rate) else 0

/-- `repaired` (lines 834–838). -/
def repaired (h : SeqHint) : Bool :=
  match c.objects.get? h.rpcId with
  | none => true
  | some t =>
    if t.live then
      t.asm.any fun asm => (asm.missing (min h.stop asm.size)).all fun g => decide ((g.stop : ℤ) ≤ h.start)
    else true

/-! ## What the class sets -/

/-- A change to the object of a transfer. -/
def setTransfer (id : ℤ) (f : Transfer → Transfer) : Http4Client :=
  { c with objects := c.objects.modify id f }

/-- A change to the fields only timers and RTT samples read. -/
def setProgress (id : ℤ) (f : Progress → Progress) : Http4Client :=
  c.setTransfer id fun t => { t with progress := f t.progress }

/-- A change to a transfer's stream. -/
def setStream (id : ℤ) (f : StreamState → StreamState) : Http4Client :=
  c.setTransfer id fun t => { t with stream := t.stream.map f }

/-- A new state of the budget controller. -/
def setBudget (b : BudgetController) : Http4Client := { c with budget := b, peak := max c.peak b.budget }

/-- The result of `performance.now()`. -/
def now : ℚ := c.est.clock + (c.est.elapse.headD 0 : ℚ≥0)

/-- The clock after it. -/
def advance : Http4Client := { c with est := { c.est with clock := c.now, elapse := c.est.elapse.tail } }

/-- The histories with a packet handed over now. -/
def hand (p : Outgoing) : Http4Client :=
  { c with handed := c.handed ++ [p]
           est := { c.est with stamped := c.est.stamped ++ [(p, c.est.clock)] } }

/-- The history with a sample of this length up to now. -/
def noteSample (r : ℚ) : Http4Client :=
  { c with est := { c.est with samples := c.est.samples ++ [{ start := c.est.clock - r, stop := c.est.clock }] } }

/-- `sampleRtt` (lines 490–502). -/
def sampleRtt (r : ℚ) : Http4Client :=
  let c := ((c.noteSample r).setBudget (c.budget.onRttSample r c.now)).advance
  match c.est.srtt with
  | none => { c with est := { c.est with srtt := some r, rttvar := r / 2 } }
  | some srtt =>
    { c with est := { c.est with rttvar := 3 / 4 * c.est.rttvar + 1 / 4 * |srtt - r|
                                 srtt := some (7 / 8 * srtt + 1 / 8 * r) } }

/-- `noteSpurious` (lines 885–891). -/
def noteSpurious (now : ℚ) : Http4Client :=
  if elapsed c.est.lastSpuriousAt now (c.est.srtt.getD minReorderWindowMs) then
    { c with est := { c.est with lastSpuriousAt := some now
                                 reorderSteps := min maxReorderSteps (c.est.reorderSteps * 2) } }
  else c

/-- `lossBackoff` (lines 897–902). -/
def lossBackoff (now : ℚ) : Http4Client :=
  if elapsed c.est.lastLossBackoffAt now
      (max minReorderWindowMs ((c.est.srtt.or c.budget.minRtt).getD 0)) then
    { c with est := { c.est with lastLossBackoffAt := some now } }.setBudget (c.budget.onLoss now)
  else c

/-- The backoff of the initial RTO in `recover` (lines 733–736). -/
def backoffInitialRto (now : ℚ) : Http4Client :=
  if c.est.srtt.isNone && elapsed c.est.lastBackoffAt now c.est.initialRto then
    { c with est := { c.est with initialRto := min maxInitialRtoMs (c.est.initialRto * 2)
                                 lastBackoffAt := some now } }
  else c

end Http4Client

/-! ## Code that sends -/

open Http4Client

/-- `performance.now()`. -/
def performanceNow : Js ℚ := do
  let c ← get
  modify fun c => c.advance
  return c.now

/-- The object a reference points to. -/
def withTransfer (id : ℤ) (k : Transfer → Js Unit) : Js Unit := do
  let c ← get
  match c.objects.get? id with
  | some t => k t
  | none => pure ()

/-- `send` (lines 504–512). -/
def send (p : Outgoing) : Js Unit := do
  modify fun c => c.hand p
  match p.encode with
  | some _ => pure ()
  | none => throw (.encode p)

/-- `sendHello` (lines 465–469). -/
def sendHello : Js Unit := do
  let c ← get
  if ¬ c.opts.offersSeq ∨ c.est.seqNegotiated ∨ c.est.hellosSent > helloRepeats then pure ()
  else do
    modify fun c => { c with est := { c.est with hellosSent := c.est.hellosSent + 1 } }
    send (.hello 0 1)

/-- The session a `connect` opens: the constructor (lines 313–359). -/
def connect (opts : ClientOptions) (maxDatagramSize : ℕ) : Http4Client :=
  (Routine.exec sendHello (.new opts maxDatagramSize)).2

/-- `t.probe ??= { from: t.ceiling, at: performance.now() }` (line 630). -/
def startProbe (id : ℤ) (t : Transfer) : Js Unit :=
  match t.progress.probe with
  | some _ => pure ()
  | none => do
    let now ← performanceNow
    modify fun c => c.setProgress id fun p => { p with probe := some { start := p.ceiling, sentAt := now } }

/-- What a GRANT changes in its transfer (lines 627–632). -/
def noteGrant (g : GrantDecision) : Js Unit :=
  withTransfer g.rpcId fun t =>
    if t.live then do
      startProbe g.rpcId t
      modify fun c => c.setProgress g.rpcId fun p => { p with ceiling := g.maxOffset }
    else pure ()

/-- The body of the loop of `pumpGrants`. -/
def sendGrant (g : GrantDecision) : Js Unit := do
  noteGrant g
  send (.grant g.rpcId g.maxOffset g.priority)

/-- `pumpGrants` (lines 616–638). -/
def pumpGrants : Js Unit := do
  let c ← get
  let r := (c.scheduler.setBudget c.budget.budget).grants c.reserved
  modify fun c => { c with scheduler := r.2 }
  r.1.forM sendGrant
  modify fun c => if c.scheduler.limited then c.setBudget c.budget.noteLimited else c

/-- `pull` of `makeStream` (lines 444–450). -/
def pull (id : ℤ) : Js Unit :=
  withTransfer id fun t =>
    if t.stream.any StreamState.paused then do
      modify fun c => { c.setStream id fun st => { st with paused := false } with
        scheduler := c.scheduler.setPaused id false }
      pumpGrants
    else pure ()

/-- What the platform does after a stream has changed: it calls `pull` if it wants
    more and no earlier call is unsettled. A throw rejects the promise of the call. -/
def callPullIfNeeded (id : ℤ) : Js Unit :=
  withTransfer id fun t =>
    match t.stream with
    | none => pure ()
    | some st =>
      if st.body.shouldPull then
        if st.body.pulling then
          modify fun c => c.setStream id fun st => { st with body := { st.body with pullAgain := true } }
        else do
          modify fun c => c.setStream id fun st => { st with body := { st.body with pulling := true } }
          tryCatch (pull id) fun _ =>
            modify fun c => c.setStream id fun st => { st with body := { st.body with pullFailed := true } }
      else pure ()

/-- `controller.enqueue(chunk)`, after `st.emitted = to`. -/
def enqueue (id : ℤ) (upTo : ℕ) (chunk : Bytes) (st : StreamState) : Js Unit :=
  if st.body.canEnqueue then do
    modify fun c => c.setStream id fun st =>
      { st with emitted := upTo, chunks := st.chunks ++ [chunk], body := st.body.enqueue chunk }
    callPullIfNeeded id
  else do
    modify fun c => c.setStream id fun st => { st with emitted := upTo }
    throw .invalidState

/-- The end of `flushStream` (lines 935–940). -/
def pauseIfBehind (id : ℤ) : Js Unit :=
  withTransfer id fun t =>
    match t.stream with
    | none => pure ()
    | some st =>
      if st.body.desiredSize ≤ 0 ∧ ¬ st.paused then
        modify fun c => { c.setStream id fun st => { st with paused := true } with
          scheduler := c.scheduler.setPaused id true }
      else pure ()

/-- `flushStream` (lines 921–941). -/
def flushStream (id : ℤ) : Js Unit :=
  withTransfer id fun t =>
    match t.stream, t.asm with
    | some st, some asm =>
      if st.closed then pure ()
      else do
        let upTo := asm.contiguous
        (if 0 < upTo - st.emitted ∧ (st.emitted = 0 ∨ upTo - st.emitted ≥ streamChunk ∨ asm.complete) then
          enqueue id upTo (Bytes.sub asm.bytes st.emitted upTo) st
        else pure ())
        pauseIfBehind id
    | _, _ => pure ()

/-- `maybeStart` (lines 908–913). -/
def maybeStart (id : ℤ) : Js Unit :=
  withTransfer id fun t =>
    match t.stream, t.asm, t.headers with
    | some _, some asm, some headers =>
      if t.settled then pure ()
      else
        modify fun c => c.setTransfer id fun t =>
          { t with settled := true, settlements := t.settlements ++ [.stream asm.size headers] }
    | _, _, _ => pure ()

/-- `this.transfers.delete(t.rpcId)` and `this.scheduler.remove(t.rpcId)`. -/
def remove (id : ℤ) : Js Unit :=
  modify fun c => { c.setTransfer id fun t => { t with live := false } with
    scheduler := c.scheduler.remove id }

/-- `drop` (lines 944–948). -/
def drop (id : ℤ) : Js Unit := do
  remove id
  pumpGrants

/-- The end of a stream in `finish` (lines 953–965). -/
def endStream (id : ℤ) (err : Option Failure) : Js Unit :=
  withTransfer id fun t =>
    match t.stream with
    | none => pure ()
    | some st =>
      if st.closed then pure ()
      else
        match err with
        | some _ => modify fun c => c.setStream id fun st => { st with closed := true, body := st.body.error }
        | none =>
          if st.body.canEnqueue then
            modify fun c => c.setStream id fun st => { st with closed := true, body := st.body.close }
          else do
            modify fun c => c.setStream id fun st => { st with closed := true }
            throw .invalidState

/-- The settlement `finish` makes; `asm` and `headers` are there if there is no error. -/
def Transfer.settlement (t : Transfer) : Option Failure → Option Settlement
  | some e => some (.rejected e)
  | none =>
    match t.stream, t.asm, t.headers with
    | some _, some asm, some headers => some (.stream asm.size headers)
    | none, some asm, some headers => some (.response asm.bytes headers)
    | _, _, _ => none

/-- The end of `finish` but for its last line (lines 966–971). -/
def settle (id : ℤ) (err : Option Failure) : Js Unit :=
  withTransfer id fun t =>
    if t.settled then pure ()
    else
      modify fun c => c.setTransfer id fun t =>
        { t with settled := true, settlements := t.settlements ++ (t.settlement err).toList }

/-- `finish` (lines 950–973). -/
def finish (id : ℤ) (err : Option Failure) : Js Unit := do
  remove id
  (if err.isNone then flushStream id else pure ())
  endStream id err
  settle id err
  pumpGrants

/-- `failAll` (lines 975–979). -/
def failAll (err : Failure) : Js Unit := do
  let c ← get
  c.transfers.forM fun id => finish id (some err)
  modify fun c => { c with ticker := false }

/-! ## Loss recovery -/

/-- The loop that sends what the repair tracker returned. -/
def sendResends (id : ℤ) (r : List (Range ℚ) × RepairTracker) : Js Unit := do
  modify fun c => c.setTransfer id fun t => { t with repair := some r.2 }
  r.1.forM fun g => send (.resend id g)

/-- `detectLoss` (lines 775–803). -/
def detectLoss (id : ℤ) (now : ℚ) : Js Unit := do
  modify fun c => c.setProgress id fun p => { p with lastDetect := some now }
  let c ← get
  withTransfer id fun t =>
    match t.asm, t.repair with
    | some asm, some repair =>
      if ¬ c.opts.resendsEarly ∨ c.est.seqNegotiated then pure ()
      else
        let granted := (c.scheduler.granted id).getD asm.size
        let limit := lossLimit asm granted c.opts.reorderLimit c.est.payloadSeen
        if limit ≤ 0 then pure ()
        else sendResends id (repair.detect asm limit now c.reorderWindow c.repairDelay)
    | _, _ => pure ()

/-- `sendResendSeq` (lines 840–844), for each range. -/
def sendResendSeqs (rs : List (Range ℤ)) : Js Unit := rs.forM fun r => send (.resendSeq 0 r)

/-- `detectSeqLoss` (lines 812–831). -/
def detectSeqLoss (now : ℚ) : Js Unit := do
  modify fun c => { c with est := { c.est with lastSeqDetect := some now } }
  let c ← get
  if ¬ c.opts.resendsEarly then pure ()
  else do
    let window := c.reorderWindow
    let tail := window + (c.est.srtt.or c.budget.minRtt).getD c.rto
    let lost := c.seq.detect now c.opts.reorderLimit window tail seqMaxRange
    modify fun c => { c with seq := lost.2 }
    sendResendSeqs lost.1
    let c ← get
    let due := c.seq.repeats now (2 * c.repairDelay) seqResendTries c.repaired seqMaxRange
    modify fun c => { c with seq := due.2 }
    sendResendSeqs due.1

/-- The repeated REQ of `recover` (lines 740–747). -/
def resendReq (id : ℤ) : Js Unit :=
  withTransfer id fun t =>
    if t.asm.isNone ∨ t.headers.isNone then do
      modify fun c => c.setProgress id fun p => { p with reqRetransmitted := true }
      send (.req id t.initialGrant t.assetId)
    else pure ()

/-- The repeated GRANT and the RESENDs of `recover` (lines 748–767). -/
def resendGrant (id : ℤ) (granted now : ℚ) : Js Unit :=
  withTransfer id fun t =>
    match t.asm, t.repair with
    | some asm, some repair => do
      (if granted > t.initialGrant then send (.grant id granted 0) else pure ())
      let c ← get
      sendResends id (repair.claim asm (recoverGaps asm granted c.est.payloadSeen) now c.repairDelay)
    | _, _ => pure ()

/-- `recover` (lines 723–768). -/
def recover (id : ℤ) (granted now : ℚ) : Js Unit :=
  withTransfer id fun t => do
    let c ← get
    modify fun c => c.setProgress id fun p => { p with recoveries := p.recoveries + 1 }
    if t.progress.recoveries + 1 > c.opts.recoveryLimit then
      finish id (some (.noProgress t.assetId c.opts.recoveryLimit
        (t.asm.map fun asm => (asm.received, asm.size))))
    else do
      modify fun c => (c.lossBackoff now).backoffInitialRto now
      modify fun c => c.setProgress id fun p => { p with probe := none, lastProgress := now }
      resendReq id
      resendGrant id granted now

/-- The tail loss probe of `tick` (lines 692–708). -/
def tailProbe (id : ℤ) (granted now : ℚ) : Js Unit :=
  withTransfer id fun t => do
    let c ← get
    match t.asm, t.repair, c.est.srtt with
    | some asm, some repair, some srtt =>
      let pto := max minRepairDelayMs (2 * srtt) + c.drainMs
      if c.opts.resendsEarly ∧ ¬ t.progress.tailProbed ∧ asm.frontier < granted ∧
          pto ≤ now - t.progress.lastProgress then do
        modify fun c => c.setProgress id fun p => { p with tailProbed := true }
        sendResends id (repair.claim asm [tailRange asm granted c.est.payloadSeen] now c.repairDelay)
      else pure ()
    | _, _, _ => pure ()

/-- The stall timer of `tick` (lines 709–715). -/
def recoverIfStalled (id : ℤ) (granted now : ℚ) : Js Unit :=
  withTransfer id fun t => do
    let c ← get
    let base := if c.est.srtt.isNone then min t.progress.baseRto c.rto else c.rto
    let timeout := max (min maxRtoMs (base * 2 ^ t.progress.recoveries)) c.drainMs
    if timeout ≤ now - t.progress.lastProgress then recover id granted now else pure ()

/-- `granted` of `tick` (line 683). -/
def Http4Client.grantedOf (c : Http4Client) (id : ℤ) (t : Transfer) : ℚ :=
  if t.asm.isSome then (c.scheduler.granted id).getD 0 else 0

/-- The body of the loop of `tick`. -/
def tickTransfer (now : ℚ) (id : ℤ) : Js Unit := do
  withTransfer id fun t => if t.asm.isSome then detectLoss id now else pure ()
  withTransfer id fun t => do
    let c ← get
    let granted := c.grantedOf id t
    if t.waiting granted then
      modify fun c => c.setProgress id fun p => { p with lastProgress := now }
    else do
      tailProbe id granted now
      recoverIfStalled id granted now

/-- `tick` (lines 674–721). -/
def tick : Js Unit := do
  let now ← performanceNow
  let c ← get
  (if c.est.seqNegotiated then detectSeqLoss now else pure ())
  let c ← get
  c.transfers.forM (tickTransfer now)
  modify fun c => if c.transfers = [] then { c with ticker := false } else c

/-! ## Incoming packets -/

/-- The first lines of `handle` for DATA_SEQ (lines 539–551). -/
def noteSeq (p : Wire.Ts.DataSeq) : Js Unit := do
  let now ← performanceNow
  let c ← get
  let loc : SeqHint := { rpcId := p.rpcId, start := p.offset, stop := p.offset + p.payload.length }
  let r := c.seq.arrive p.seq now (some loc)
  modify fun c => { c with est := { c.est with seqNegotiated := true }, seq := r.2 }
  (if r.1 = .spurious then modify fun c => c.noteSpurious now else pure ())
  let c ← get
  if elapsed c.est.lastSeqDetect now detectIntervalMs then detectSeqLoss now else pure ()

/-- `t.replied` and the RTT sample (lines 554–557). -/
def noteReply (id : ℤ) (t : Transfer) : Js Unit :=
  if t.progress.replied then pure ()
  else do
    modify fun c => c.setProgress id fun p => { p with replied := true }
    if t.progress.reqRetransmitted then pure ()
    else modify fun c => c.advance.sampleRtt (c.now - t.progress.reqSentAt)

/-- `case "META"` (lines 559–568). -/
def handleMeta (id : ℤ) (p : Wire.Ts.Meta) : Js Unit :=
  withTransfer id fun t =>
    match t.headers with
    | some _ => pure ()
    | none => do
      let now ← performanceNow
      modify fun c => c.setTransfer id fun t =>
        { t with headers := some p.fields, progress := { t.progress with lastProgress := now, recoveries := 0 } }
      maybeStart id
      withTransfer id fun t => if t.asm.any Reassembly.complete then finish id none else pure ()

/-- The size of a transfer becomes known (lines 570–573). -/
def Http4Client.learnSize (c : Http4Client) (id : ℤ) (totalSize : ℤ) (t : Transfer) : Http4Client :=
  { c.setTransfer id fun t => { t with asm := some (.new totalSize.toNat), repair := some .new } with
    scheduler := c.scheduler.add id totalSize t.initialGrant 0 t.cls }

/-- What a payload that fits changes but for RTT samples (lines 583–587). -/
def Http4Client.store (c : Http4Client) (id : ℤ) (asm : Reassembly) (fresh : ℤ) (length : ℕ)
    (repair : Option RepairTracker) : Http4Client :=
  let c := c.setTransfer id fun t => { t with asm := some asm }
  let c := { c with est := { c.est with payloadSeen := max c.est.payloadSeen length } }
  let c :=
    if fresh < length ∧ repair.any fun r => r.requested ≠ 0 then (c.noteSpurious c.now).advance else c
  { c with scheduler := c.scheduler.onData id fresh }

/-- The RTT sample of a GRANT (lines 588–593). -/
def Http4Client.sampleProbe (c : Http4Client) (id : ℤ) (stop : ℤ) (t : Transfer) : Http4Client :=
  match t.progress.probe with
  | some probe =>
    if stop > probe.start then
      ((c.setBudget (c.budget.onRttSample (c.now - probe.sentAt) c.now)).advance.noteSample
        (c.now - probe.sentAt)).setProgress id fun p => { p with probe := none }
    else c
  | none => c

/-- What a payload with new bytes changes (lines 594–599). -/
def Http4Client.noteDelivered (c : Http4Client) (id : ℤ) (fresh : ℤ) : Http4Client :=
  if fresh > 0 then
    let c := (c.setBudget (c.budget.onDelivered fresh c.now)).advance
    (c.setProgress id fun p => { p with lastProgress := c.now, recoveries := 0, tailProbed := false }).advance
  else c

/-- The end of `case "DATA"` (lines 600–605). -/
def afterData (id : ℤ) : Js Unit := do
  maybeStart id
  flushStream id
  withTransfer id fun t =>
    if t.asm.any Reassembly.complete ∧ t.headers.isSome then finish id none
    else do
      let now ← performanceNow
      if elapsed t.progress.lastDetect now detectIntervalMs then detectLoss id now else pure ()

/-- `case "DATA"` once the size is known (lines 577–605). -/
def storeData (id : ℤ) (p : Wire.Ts.Data) : Js Unit :=
  withTransfer id fun t =>
    match t.asm with
    | none => pure ()
    | some asm =>
      match asm.add p.offset p.payload with
      | .error e => finish id (some (.range e))
      | .ok (fresh, asm) => do
        modify fun c => (((c.store id asm fresh p.payload.length t.repair).sampleProbe id
          (p.offset + p.payload.length) t).noteDelivered id fresh)
        afterData id

/-- `case "DATA"` (lines 569–606); `alloc` says whether `new Uint8Array` succeeds. -/
def handleData (alloc : Bool) (id : ℤ) (p : Wire.Ts.Data) : Js Unit :=
  withTransfer id fun t =>
    match t.asm with
    | none =>
      if alloc then do
        modify fun c => c.learnSize id p.totalSize t
        storeData id p
      else throw (.allocation p.totalSize)
    | some asm =>
      if p.totalSize ≠ asm.size then finish id (some (.totalSizeChanged asm.size p.totalSize))
      else storeData id p

/-- `handle` from line 552 on, where DATA_SEQ has become DATA. -/
def handlePacket (alloc : Bool) (p : Wire.Ts.Packet) : Js Unit :=
  withTransfer p.rpcId fun t =>
    if ¬ t.live then pure ()
    else
      match p with
      | .metaData p => do
        noteReply p.rpcId t
        handleMeta p.rpcId p
      | .data p => do
        noteReply p.rpcId t
        handleData alloc p.rpcId p
      | .error p => finish p.rpcId (some (.server t.assetId p.code))
      | _ => pure ()

/-- `handle` (lines 537–614). -/
def handle (alloc : Bool) (p : Wire.Ts.Packet) : Js Unit :=
  match p with
  | .dataSeq p => do
    noteSeq p
    handlePacket alloc (.data p.toData)
  | p => handlePacket alloc p

/-- The body of the loop of `readLoop` (lines 518–530) on one datagram. -/
def readDatagram (alloc : Bool) (b : Bytes) : Js Unit :=
  match Wire.Ts.decode b with
  | .ok p => do
    handle alloc p
    pumpGrants
  | .error (.malformed _) => pure ()
  | .error .outOfRange => throw .outOfRange

/-- What ends the loop of `readLoop` with a throw (lines 532–534). -/
def readLoopCatch (e : Thrown) : Js Unit := do
  modify fun c => { c with reading := false }
  failAll (.thrown e)

/-! ## Requests -/

/-- The object of a new transfer (lines 418–423). -/
def Http4Client.newTransfer (c : Http4Client) (assetId : JsString) (streaming : Bool) (cls : PriorityClass)
    (initialGrant : ℚ) : Transfer :=
  { assetId := assetId, cls := cls, initialGrant := initialGrant
    stream := if streaming then some { body := { highWaterMark := c.opts.highWaterMark } } else none
    progress := { reqSentAt := c.now, baseRto := c.rto, ceiling := initialGrant, lastProgress := c.now } }

/-- `start` (lines 408–430); `id` is what `newRpcId` draws. The result is the error
    its promise is rejected with, if it is at once. -/
def start (id : ℤ) (assetId : JsString) (streaming : Bool) (cls : PriorityClass) :
    Js (Option Failure) := do
  let c ← get
  if ¬ c.isOpen then return some (if c.closed then .clientClosed else .sessionClosed)
  else
    let req := Outgoing.req id c.nextInitialGrant assetId
    match req.encode with
    | none => throw (.encode req)
    | some b =>
      if b.length > c.maxDatagramSize then return some (.assetIdTooLong b.length c.maxDatagramSize)
      else do
        modify fun c =>
          { c.advance with
            objects := c.objects.set id (c.newTransfer assetId streaming cls c.nextInitialGrant)
            ticker := true }
        sendHello
        send req
        return none

/-! ## The machine -/

namespace Http4Client

/-- What happens to a client. -/
inductive Event
  /-- `request` or `requestStream`, with the rpc_id drawn. -/
  | request (id : ℤ) (assetId : JsString) (streaming : Bool) (cls : PriorityClass)
  /-- The read loop gets a datagram. -/
  | datagram (b : Bytes) (alloc : Bool)
  /-- `reader.read()` is done. -/
  | readDone
  /-- `reader.read()` is rejected. -/
  | readRejected
  /-- The timer fires. -/
  | tick
  /-- A stream's `start` promise is resolved. -/
  | streamStarted (id : ℤ)
  /-- A reader calls `read`. -/
  | read (id : ℤ)
  /-- The promise of a stream's `pull` is settled. -/
  | pullSettled (id : ℤ)
  /-- A reader cancels the stream. -/
  | cancel (id : ℤ)
  /-- `close()`. -/
  | close
  /-- `wt.closed` settles. -/
  | sessionEnded

/-- A change to the platform's side of a stream. -/
def setBody (c : Http4Client) (id : ℤ) (f : ReadableStream → ReadableStream) : Http4Client :=
  c.setStream id fun st => { st with body := f st.body }

/-- The stream of a transfer, if there is one that satisfies `P`. -/
def hasStream (c : Http4Client) (id : ℤ) (P : ReadableStream → Bool) : Bool :=
  (c.objects.get? id).any fun t => t.stream.any fun st => P st.body

/-- `reader.read()`. -/
def readStream (id : ℤ) : Js Unit := do
  let c ← get
  modify fun c => c.setBody id ReadableStream.read
  if c.hasStream id fun s => s.phase = .readable then callPullIfNeeded id else pure ()

/-- The promise of `pull` is settled: a rejection errors the stream, and a call that
    was put off is made. -/
def pullDone (id : ℤ) : Js Unit := do
  let c ← get
  if c.hasStream id ReadableStream.pullFailed then
    modify fun c => c.setBody id fun s => { s.error with pulling := false, pullFailed := false }
  else do
    modify fun c => c.setBody id fun s => { s with pulling := false, pullAgain := false }
    if c.hasStream id ReadableStream.pullAgain then callPullIfNeeded id else pure ()

/-- `cancel` of `makeStream` (lines 451–456); a throw rejects the promise of the call. -/
def cancelStream (id : ℤ) : Js Unit := do
  modify fun c => c.setStream id fun st => { st with body := st.body.cancel, closed := true }
  tryCatch (drop id) fun _ => pure ()

/-- The code that an event runs. -/
def code : Event → Js Unit
  | .request id assetId streaming cls => do
    let _ ← start id assetId streaming cls
  | .datagram b alloc => tryCatch (readDatagram alloc b) readLoopCatch
  | .readDone => modify fun c => { c with reading := false }
  | .readRejected => readLoopCatch .readRejected
  | .tick => Client.tick
  | .streamStarted id => do
    modify fun c => c.setBody id fun s => { s with started := true }
    callPullIfNeeded id
  | .read id => readStream id
  | .pullSettled id => pullDone id
  | .cancel id => cancelStream id
  | .close => modify fun c => { c with closed := true }
  | .sessionEnded => do
    modify fun c => { c with sessionClosed := true }
    failAll .sessionClosed

/-- When an event can happen. An rpc_id is 64 random bits, and no two requests of a
    session draw the same. -/
def Enabled (c : Http4Client) : Event → Prop
  | .request id _ _ _ => 0 ≤ id ∧ id < 2 ^ 64 ∧ c.objects.get? id = none
  | .datagram _ _ | .readDone | .readRejected => c.reading
  | .tick => c.ticker
  | .streamStarted id => c.hasStream id fun s => !s.started
  | .read id => c.hasStream id fun _ => true
  | .pullSettled id => c.hasStream id ReadableStream.pulling
  | .cancel id => c.hasStream id fun s => s.phase = .readable
  | .close => True
  | .sessionEnded => ¬ c.sessionClosed

instance (c : Http4Client) (e : Event) : Decidable (c.Enabled e) := by
  cases e <;> unfold Enabled <;> infer_instance

/-- An event with what its calls of `performance.now()` add to the clock. -/
structure Step where
  event : Event
  elapse : List ℚ≥0 := []

/-- One step. What the code throws outside the read loop ends up with the caller or
    the platform. -/
def step (c : Http4Client) (a : Step) : Option Http4Client :=
  if c.Enabled a.event then
    some (Routine.exec (code a.event) { c with est := { c.est with elapse := a.elapse } }).2
  else none

end Http4Client

end Http4.Client
