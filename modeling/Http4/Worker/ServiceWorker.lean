import Http4.Data.Machine
import Http4.Worker.Interception

/-!
# The Service Worker

Model of `client/src/sw.ts` as a machine whose events are what the browser and the
tabs do: FetchEvents, answers of `clients.get`, messages of the page bridges, timers
that fire, platform fetches that end. A call of `serve` is a sequence of pieces
between two `await`s; each piece is one step, and those of different calls interleave.

The promises `acked` and `ready` of a tab are fields that are set once. A timer is the
time from which on it may fire. A worker that Chrome stops and starts again is a new
one.
-/

namespace Http4.Worker

open Wire.Ts (JsString jsLit)

/-! ## State -/

/-- `ACK_TIMEOUT_MS`, `WATCHDOG_MS` and `REPORT_LIMIT`. -/
def ackTimeout : ℕ := 500
def watchdogMs : ℕ := 1000
def reportLimit : ℕ := 2000

/-- `TabState` (lines 48–67). -/
structure Tab where
  /-- What `acked` resolved to. -/
  acked : Option Bool
  /-- When the timer of `hello` fires. -/
  ackDue : ℚ
  /-- `info`, which `ready` resolved to. -/
  info : Option Ready
  gaveUp : Bool
  deriving DecidableEq

/-- What `serve` returns: the platform's response, or `new Response` of a reply. -/
inductive Response
  | network (r : NetworkResponse)
  | page (status : ℕ) (headers : List (JsString × JsString)) (body : Option Bytes) (stream : Bool)
  deriving DecidableEq

/-- Where a call of `serve` stands. -/
inductive Stage
  /-- At `await sw.clients.get(clientId)`. -/
  | lookup
  /-- At `await tab.acked`. -/
  | acked
  /-- At `await Promise.race(…)`, with the time `sleep` ends and what won the race. -/
  | ready (due : ℚ) (won : Option (Option Ready))
  /-- At `await forward(…)`, with the time the watchdog looks next, how many of its looks
      are unanswered, and the reply; `some none` is "tab closed". -/
  | forwarded (due : ℚ) (looks : ℕ) (result : Option (Option ServeReply))
  /-- At `await fetch(req)`. -/
  | network (transport : Transport) (reason : JsString)
  | answered (transport : Transport) (reason : Option JsString) (response : Response)
  /-- Rejected, before or after the request was recorded. -/
  | rejected (reply : Option ServeReply)
  deriving DecidableEq

/-- A call of `serve`. -/
structure Serve where
  clientId : JsString
  request : Request
  t0 : ℚ
  stage : Stage
  deriving DecidableEq

/-- The worker. The last three fields are history: no step reads them. -/
structure ServiceWorker where
  /-- `performance.now()`. -/
  now : ℚ
  tabs : OrderedMap JsString Tab
  log : List SwRequestReport
  /-- The calls of `serve`, oldest first. -/
  serves : List Serve
  /-- Entries whose tab `record` is looking up. -/
  mirrors : List SwRequestReport
  /-- The tabs that "hello" was posted to. -/
  hellos : List JsString
  /-- The entries recorded, with the call of `serve` each is for. -/
  records : List (Option ℕ × SwRequestReport)
  /-- The "log" messages posted, with the tab each went to. -/
  posted : List (JsString × SwRequestReport)
  deriving DecidableEq

/-- A worker that just started. -/
def ServiceWorker.init : ServiceWorker :=
  { now := 0, tabs := .empty, log := [], serves := [], mirrors := [], hellos := [], records := [], posted := [] }

/-! ## The pieces of `serve` -/

/-- The call goes on to stage `stage`. -/
def ServiceWorker.enter (s : ServiceWorker) (n : ℕ) (stage : Stage) : ServiceWorker :=
  { s with serves := s.serves.modify n fun call => { call with stage := stage } }

/-- `record` (lines 184–193). -/
def ServiceWorker.record (s : ServiceWorker) (n : Option ℕ) (r : SwRequestReport) : ServiceWorker :=
  let log := s.log ++ [r]
  { s with
    log := if log.length > reportLimit then log.tail else log
    mirrors := if r.clientId ≠ [] then s.mirrors ++ [r] else s.mirrors
    records := s.records ++ [(n, r)] }

/-- The entry of a call, as `record` builds it. -/
def Serve.report (call : Serve) (now : ℚ) (transport : Transport) (reason : Option JsString) (status : ℕ)
    (bytes : Option ℕ) : SwRequestReport :=
  { url := call.request.url, method := call.request.method, destination := call.request.destination,
    transport := transport, reason := reason, status := status, ms := now - call.t0, bytes := bytes,
    clientId := call.clientId }

/-- `hello` (lines 144–165). -/
def ServiceWorker.hello (s : ServiceWorker) (clientId : JsString) : ServiceWorker :=
  { s with
    tabs := s.tabs.set clientId { acked := none, ackDue := s.now + ackTimeout, info := none, gaveUp := false }
    hellos := s.hellos ++ [clientId] }

/-- `await forward(…)`, from line 131 on. -/
def forward (now : ℚ) : Stage := .forwarded (now + watchdogMs) 0 none

/-- Lines 123–131 of `serve`: the tab's session is up or known to be unavailable. -/
def Serve.choose (site : Site) (call : Serve) (now : ℚ) (info : Ready) : Stage :=
  if ¬ info.available then .network .fallback (info.reason.getD (jsLit "HTTP4 unavailable in tab"))
  else
    match info.assetPrefix with
    | none => forward now
    | some under =>
      match site.parseUrl call.request.url with
      | none => .rejected none
      | some url =>
        if under <+: url.pathname then forward now
        else .network .platform (jsLit "not an HTTP4 asset path")

/-- Lines 107–110 of `serve`: the tab is found. -/
def Serve.greet (site : Site) (call : Serve) (now : ℚ) (tab : Tab) : Stage :=
  match tab.info with
  | some info => call.choose site now info
  | none => .acked

/-- Lines 110–115 of `serve`: `acked` has resolved. -/
def Serve.wait (call : Serve) (now : ℚ) (tab : Tab) (acked : Bool) : Stage :=
  if ¬ acked then .network .fallback (jsLit "tab has no HTTP4 bridge")
  else if tab.gaveUp then .network .fallback (jsLit "tab's HTTP4 session still not ready")
  else .ready (now + readyTimeoutMs call.request.destination) (tab.info.map some)

/-- The reason of line 120. -/
def notReady (destination : JsString) : JsString :=
  jsLit "tab's HTTP4 session not ready after " ++ jsLit (toString (readyTimeoutMs destination)) ++ jsLit " ms"

/-- Line 138. -/
def replyBytes (body : Option Bytes) (stream : Bool) (length : Option ℕ) : Option ℕ :=
  if stream then length else some ((body.map List.length).getD 0)

/-- Lines 132–140 of `serve`: the reply is there, or the tab is gone. -/
def ServiceWorker.conclude (site : Site) (s : ServiceWorker) (n : ℕ) (call : Serve) : Option ServeReply → ServiceWorker
  | none => s.enter n (.network .fallback (jsLit "forwarding failed: tab closed"))
  | some (.fallback reason) => s.enter n (.network .fallback reason)
  | some (.platform reason) => s.enter n (.network .platform reason)
  | some (.http4 status headers body stream length) =>
    let s := s.record (some n) (call.report s.now .http4 none status (replyBytes body stream length))
    s.enter n <|
      if site.constructs (.http4 status headers body stream length) then
        .answered .http4 none (.page status headers (if stream then none else body) stream)
      else .rejected (some (.http4 status headers body stream length))

/-! ## The machine -/

/-- What happens to the worker; `n` is the position of a call of `serve`. -/
inductive Event
  | elapse (d : ℚ≥0)
  | fetch (clientId : JsString) (request : Request)
  /-- `clients.get` in `serve` resolves. -/
  | found (n : ℕ) (alive : Bool)
  /-- A tab answers "hello". -/
  | helloReply (clientId : JsString) (r : HelloReply)
  /-- The timer of `hello` fires. -/
  | ackTimeout (clientId : JsString)
  /-- The timer of `sleep` fires. -/
  | sleepOver (n : ℕ)
  /-- A tab replies to a forwarded request. -/
  | reply (n : ℕ) (r : ServeReply)
  /-- The watchdog's interval fires. -/
  | watchdog (n : ℕ)
  /-- `clients.get` in the watchdog resolves. -/
  | watchdogFound (n : ℕ) (alive : Bool)
  /-- The promise a call waits for has settled, and the call goes on. -/
  | resume (n : ℕ)
  /-- The platform fetch of a call ends; `none` is a network error. -/
  | network (n : ℕ) (r : Option NetworkResponse)
  /-- `clients.get` for an entry to mirror resolves. -/
  | mirror (i : ℕ) (found : Bool)
  deriving DecidableEq

/-- The FetchEvent listener (lines 75–87). -/
def ServiceWorker.fetch (site : Site) (s : ServiceWorker) (clientId : JsString) (request : Request) : ServiceWorker :=
  match leaveToNetwork site request clientId with
  | none => s
  | some (some skip) =>
    s.record none
      { url := request.url, method := request.method, destination := request.destination, transport := .platform,
        reason := some skip, status := 0, ms := 0, bytes := none, clientId := clientId }
  | some none =>
    { s with serves := s.serves ++ [{ clientId := clientId, request := request, t0 := s.now, stage := .lookup }] }

/-- `clients.get` in `serve` resolves (lines 106–110). -/
def ServiceWorker.found (site : Site) (s : ServiceWorker) (n : ℕ) (call : Serve) (alive : Bool) : ServiceWorker :=
  if alive then
    match s.tabs.get? call.clientId with
    | some tab => s.enter n (call.greet site s.now tab)
    | none => (s.hello call.clientId).enter n .acked
  else s.enter n (.network .fallback (jsLit "requesting tab not found"))

/-- `port1.onmessage` of `hello` (lines 153–160), while the port is open. The calls that
    race against the tab's `ready` have their winner. -/
def ServiceWorker.helloReply (s : ServiceWorker) (clientId : JsString) (tab : Tab) : HelloReply → ServiceWorker
  | .connecting => { s with tabs := s.tabs.set clientId { tab with acked := tab.acked.or (some true) } }
  | .ready info =>
    { s with
      tabs := s.tabs.set clientId { tab with acked := tab.acked.or (some true), info := some info }
      serves := s.serves.map fun call =>
        match call.stage with
        | .ready due none =>
          if call.clientId = clientId then { call with stage := .ready due (some (some info)) } else call
        | _ => call }

/-- A call goes on after the promise it waits for has settled. -/
def ServiceWorker.resume (site : Site) (s : ServiceWorker) (n : ℕ) (call : Serve) : Option ServiceWorker :=
  match call.stage with
  | .acked => do
    let tab ← s.tabs.get? call.clientId
    let acked ← tab.acked
    return s.enter n (call.wait s.now tab acked)
  | .ready _ (some (some info)) => some (s.enter n (call.choose site s.now info))
  | .ready _ (some none) =>
    some ({ s with tabs := s.tabs.modify call.clientId fun tab => { tab with gaveUp := true } }.enter n
      (.network .fallback (notReady call.request.destination)))
  | .forwarded _ _ (some result) => some (s.conclude site n call result)
  | _ => none

/-- The platform fetch ends (lines 99–104). -/
def ServiceWorker.network (s : ServiceWorker) (n : ℕ) (call : Serve) (transport : Transport) (reason : JsString) :
    Option NetworkResponse → ServiceWorker
  | none => s.enter n (.rejected none)
  | some r =>
    (s.record (some n) (call.report s.now transport (some reason) r.status r.contentLength)).enter n
      (.answered transport (some reason) (.network r))

/-- One step. -/
def ServiceWorker.step (site : Site) (s : ServiceWorker) : Event → Option ServiceWorker
  | .elapse d => some { s with now := s.now + d }
  | .fetch clientId request => some (s.fetch site clientId request)
  | .found n alive => do
    let call ← s.serves[n]?
    if call.stage = .lookup then return s.found site n call alive else none
  | .helloReply clientId r => do
    let tab ← s.tabs.get? clientId
    if tab.info = none then return s.helloReply clientId tab r else none
  | .ackTimeout clientId => do
    let tab ← s.tabs.get? clientId
    if tab.ackDue ≤ s.now then
      return { s with tabs := s.tabs.set clientId { tab with acked := tab.acked.or (some false) } }
    else none
  | .sleepOver n => do
    let call ← s.serves[n]?
    match call.stage with
    | .ready due none => if due ≤ s.now then return s.enter n (.ready due (some none)) else none
    | _ => none
  | .reply n r => do
    let call ← s.serves[n]?
    match call.stage with
    | .forwarded due looks none => return s.enter n (.forwarded due looks (some (some r)))
    | _ => none
  | .watchdog n => do
    let call ← s.serves[n]?
    match call.stage with
    | .forwarded due looks none =>
      if due ≤ s.now then return s.enter n (.forwarded (due + watchdogMs) (looks + 1) none) else none
    | _ => none
  | .watchdogFound n alive => do
    let call ← s.serves[n]?
    match call.stage with
    | .forwarded due (looks + 1) result =>
      return s.enter n (.forwarded due looks (if alive then result else result.or (some none)))
    | _ => none
  | .resume n => do
    let call ← s.serves[n]?
    s.resume site n call
  | .network n r => do
    let call ← s.serves[n]?
    match call.stage with
    | .network transport reason => return s.network n call transport reason r
    | _ => none
  | .mirror i found => do
    let r ← s.mirrors[i]?
    return { s with mirrors := s.mirrors.eraseIdx i
                    posted := if found then s.posted ++ [(r.clientId, r)] else s.posted }

end Http4.Worker
