import Http4.Client.Fetcher

/-!
# What the Service Worker intercepts

Model of `client/src/swproto.ts`: the messages between the worker and the page
bridge, the decision to leave a request alone, and how long a request waits for its
tab's session.

The URL parser and the constructor of `Response` are the browser's and enter as
parameters. A request's headers enter as whether `range` is among them, a response's
as the number its `content-length` holds.

Main results:

* `leaveToNetwork_eq_none_iff`: exactly which requests are forwarded.
-/

namespace Http4.Worker

open Wire.Ts (JsString jsLit)

/-! ## The browser -/

/-- What the worker reads of a `URL`. -/
structure Url where
  origin : JsString
  pathname : JsString
  deriving DecidableEq

/-- `Request`, as far as the worker reads it. -/
structure Request where
  url : JsString
  method : JsString
  mode : JsString
  destination : JsString
  /-- `headers.has("range")`. -/
  hasRange : Bool
  deriving DecidableEq

/-- `Response` of the platform fetch; `contentLength` is `Number` of that header. -/
structure NetworkResponse where
  status : ℕ
  contentLength : Option ℕ
  deriving DecidableEq

/-! ## Messages -/

/-- `Transport` (`fetcher.ts`, line 18). -/
inductive Transport
  | http4 | fallback | platform
  deriving DecidableEq

/-- `HelloReply` with state "ready" (lines 58–67). -/
structure Ready where
  available : Bool
  reason : Option JsString
  assetPrefix : Option JsString
  deriving DecidableEq

/-- `HelloReply` (lines 58–67). -/
inductive HelloReply
  | connecting
  | ready (info : Ready)
  deriving DecidableEq

/-- `ServeReply` (lines 73–83); `stream` says whether it is set. -/
inductive ServeReply
  | http4 (status : ℕ) (headers : List (JsString × JsString)) (body : Option Bytes) (stream : Bool)
      (length : Option ℕ)
  | fallback (reason : JsString)
  | platform (reason : JsString)
  deriving DecidableEq

/-- `SwRequestReport` (lines 86–98). -/
structure SwRequestReport where
  url : JsString
  method : JsString
  destination : JsString
  transport : Transport
  reason : Option JsString
  status : ℕ
  ms : ℚ
  bytes : Option ℕ
  clientId : JsString
  deriving DecidableEq

/-- What stays the same for a worker: `sw.location.origin` and the browser. -/
structure Site where
  origin : JsString
  /-- `new URL(url)`; `none` is its exception. -/
  parseUrl : JsString → Option Url
  /-- Whether `new Response` takes the reply's body, status and headers. -/
  constructs : ServeReply → Bool

/-! ## Interception -/

/-- `CLIENT_DIR`. -/
def clientDir : JsString := jsLit "/http4/"

/-- `BOOTSTRAP_PATHS`. -/
def bootstrapPaths : List JsString := [jsLit "/http4-sw.js", jsLit "/config.json"]

/-- `leaveToNetwork` (lines 128–137); the outer `none` is an exception. -/
def leaveToNetwork (site : Site) (r : Request) (clientId : JsString) : Option (Option JsString) :=
  if r.mode = jsLit "navigate" then some (some (jsLit "navigation"))
  else if r.method ≠ jsLit "GET" ∧ r.method ≠ jsLit "HEAD" then some (some (jsLit "method " ++ r.method))
  else (site.parseUrl r.url).map fun url =>
    if url.origin ≠ site.origin then some (jsLit "cross-origin")
    else if clientDir <+: url.pathname ∨ url.pathname ∈ bootstrapPaths then some (jsLit "HTTP4 bootstrap file")
    else if r.hasRange then some (jsLit "range request")
    else if clientId = [] then some (jsLit "no client")
    else none

/-- `READY_TIMEOUT_MS`, `READY_TIMEOUT_BLOCKING_MS` and `READY_TIMEOUT_BULK_MS`. -/
def readyTimeout : ℕ := 2000
def readyTimeoutBlocking : ℕ := 400
def readyTimeoutBulk : ℕ := 6000

/-- `readyTimeoutMs` (lines 164–178). -/
def readyTimeoutMs (destination : JsString) : ℕ :=
  if destination ∈ [jsLit "style", jsLit "script"] then readyTimeoutBlocking
  else if destination ∈ [jsLit "image", jsLit "video", jsLit "audio"] then readyTimeoutBulk
  else readyTimeout

/-- A request is forwarded exactly if it is a GET or HEAD of a page's subresource on the
    site, asks for no range and is for none of the client's own files. -/
theorem leaveToNetwork_eq_none_iff {site : Site} {r : Request} {clientId : JsString} :
    leaveToNetwork site r clientId = some none ↔
      r.mode ≠ jsLit "navigate" ∧ (r.method = jsLit "GET" ∨ r.method = jsLit "HEAD") ∧ r.hasRange = false ∧
        clientId ≠ [] ∧ ∃ url, site.parseUrl r.url = some url ∧ url.origin = site.origin ∧
          ¬ clientDir <+: url.pathname ∧ url.pathname ∉ bootstrapPaths := by
  unfold leaveToNetwork
  constructor
  · intro h
    by_cases hmode : r.mode = jsLit "navigate"
    · rw [if_pos hmode] at h
      cases h
    by_cases hmethod : r.method ≠ jsLit "GET" ∧ r.method ≠ jsLit "HEAD"
    · rw [if_neg hmode, if_pos hmethod] at h
      cases h
    rw [if_neg hmode, if_neg hmethod] at h
    obtain ⟨url, hurl, h⟩ := Option.map_eq_some_iff.mp h
    split_ifs at h with horigin hpath hrange hclient
    rw [not_or] at hpath
    refine ⟨hmode, ?_, by simpa using hrange, hclient, url, hurl, not_not.mp horigin, hpath.1, hpath.2⟩
    by_contra hnot
    exact hmethod (not_or.mp hnot)
  · rintro ⟨hmode, hmethod, hrange, hclient, url, hurl, horigin, hdir, hboot⟩
    have hmethod' : ¬ (r.method ≠ jsLit "GET" ∧ r.method ≠ jsLit "HEAD") := fun hnot =>
      hmethod.elim hnot.1 hnot.2
    rw [if_neg hmode, if_neg hmethod', hurl, Option.map_some, if_neg (not_not.mpr horigin),
      if_neg (not_or.mpr ⟨hdir, hboot⟩), if_neg (by rw [hrange]; simp), if_neg hclient]

end Http4.Worker
