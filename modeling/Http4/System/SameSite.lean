import Http4.Server.SitePages
import Http4.System.Verdicts
import Http4.Worker.PrefixMapper

/-!
# HTTP4 and HTTP serve the same

A page gets an asset from the session or, if that fails, from the HTTP listener of the same
server. Both go by the path of one URL: the client maps it to an asset ID, the server
routes it. What the fetcher makes of a transfer is what the listener answers.

Main results:

* `World.same_page`: the outcome of a call and the page agree, but for directories and
  shells that stand in for an asset that is not there.
* `routed_iff`: which paths that the worker forwards another handler answers.
-/

namespace Http4.System

open Client (Call Outcome Settlement Transfer metaHeaders)
open Percent (Ascii units)
open Sender (Asset GetResult)
open Server (HttpRequest Names Page Plain Shadowed Site)
open Wire.Ts (JsString SameText)
open Worker (Url leaveToNetwork prefixMapper)

/-- What the fetcher returns is what HTTP answers; after a fallback HTTP is asked. -/
inductive Agrees : Outcome → Page → Prop
  | asset (a : Asset) {headers : List (JsString × JsString)} {body : Option Bytes} {stream : Bool} {length : Option ℕ}
      (hheaders : headers ⊆ metaHeaders ((Server.writeAsset a).map Wire.Ts.ofField) a.body.length)
      (hbody : ∀ b, body = some b → b = a.body) (hlength : ∀ n, length = some n → n = a.body.length) :
      Agrees (.http4 200 headers body stream length) (.asset a)
  | notFound : Agrees (.http4 404 [] none false none) .notFound
  | fallback (e : Client.Failure) (page : Page) : Agrees (.fallback e) page

/-- What a call returns for what the site has. -/
inductive Made (head : Bool) : GetResult → Outcome → Prop
  | buffered (a : Asset) {headers : List (JsString × JsString)}
      (hheaders : headers ⊆ metaHeaders ((Server.writeAsset a).map Wire.Ts.ofField) a.body.length) :
      Made head (.found a) (.http4 200 headers (if head then none else some a.body) false none)
  | streamed (a : Asset) {headers : List (JsString × JsString)}
      (hheaders : headers ⊆ metaHeaders ((Server.writeAsset a).map Wire.Ts.ofField) a.body.length) :
      Made head (.found a) (.http4 200 headers none true (some a.body.length))
  | notFound : Made head .notFound (.http4 404 [] none false none)
  | fallback (e : Client.Failure) (got : GetResult) : Made head got (.fallback e)

/-- The transfer's asset ID is what the path names on the server. -/
theorem exists_names {validName newPassThrough : Bytes → Bool} {s : Site validName newPassThrough} {target : Bytes}
    {origin pre name : JsString} {url : Url} (hascii : Ascii target) (hpath : url.pathname = units target)
    (hpre : SameText s.assetPrefix pre) (hmap : prefixMapper origin pre url = some name) :
    ∃ id, Names s.assetPrefix target id ∧ SameText id name := by
  obtain ⟨-, p, id, rfl, hnames, htext⟩ := (Worker.prefixMapper_eq_some_iff hascii hpath).mp hmap
  have hp : SameText p (units p) := by
    refine Wire.Ts.sameText_latin1 fun c hc => hascii c ?_
    obtain ⟨rest, -, rfl, -⟩ := hnames
    exact List.mem_append_left _ hc
  obtain rfl := sameText_injective hpre hp
  exact ⟨id, hnames, htext⟩

/-- The transfer is for the URL of the path, and the request is for the path. -/
structure Fetched {validName newPassThrough : Bytes → Bool} (s : Site validName newPassThrough) (target : Bytes)
    (r : HttpRequest) (name : JsString) : Prop where
  ascii : Ascii target
  url : ∃ origin pre url, url.pathname = units target ∧ SameText s.assetPrefix pre ∧
    prefixMapper origin pre url = some name
  plain : Plain s.assetPrefix
  reads : r.Reads target
  method : r.method = Wire.lit "GET" ∨ r.method = Wire.lit "HEAD"

section Fetched

variable {validName newPassThrough : Bytes → Bool} {s : Site validName newPassThrough} {target : Bytes}
  {r : HttpRequest} {name : JsString}

theorem Fetched.names (h : Fetched s target r name) : ∃ id, Names s.assetPrefix target id ∧ SameText id name := by
  obtain ⟨origin, pre, url, hpath, hpre, hmap⟩ := h.url
  exact exists_names h.ascii hpath hpre hmap

end Fetched

namespace World

variable {cfg : Sender.Config} {opts : Client.ClientOptions} {maxDatagramSize : ℕ} {w : World}
  {validName newPassThrough : Bytes → Bool} {s : Site validName newPassThrough}

/-- What the sessions get of a site is fixed. -/
theorem fixed_pool (hsize : ∀ path a, s.pool path = .found a → a.body.length < 2 ^ 32) :
    Fixed (found fun path got => got = s.pool path) := by
  refine ⟨fun path a a' ha ha' => ?_, fun path a ha => hsize path a ha.symm⟩
  exact GetResult.found.inj (ha.trans ha'.symm)

section Page

variable (hsize : ∀ path a, s.pool path = .found a → a.body.length < 2 ^ 32) {acts : List WorldAct}
  (hgets : ∀ a ∈ acts, a.Gets fun path got => got = s.pool path)
  (hrun : Machine.run (step cfg) (init opts maxDatagramSize cfg) acts = some w) {id : ℤ} {t : Transfer}
  (ht : w.client.objects.get? id = some t) {assetId : Bytes} (htext : SameText assetId t.assetId)
include hsize hgets hrun ht htext

/-- What a call returns is made of what the site has. -/
theorem made {x : Settlement} (hx : x ∈ t.settlements) (call : Call) :
    Made call.head (s.pool assetId) (call.outcome x) := by
  have hfixed : Fixed (found fun path got => got = s.pool path) := fixed_pool hsize
  have hfaithful := (intact hfixed (fun a ha => (hgets a ha).serves) hrun).faithful id t ht
  have hpool {path : Bytes} {got : GetResult} (hpath : SameText path t.assetId) (hgot : got = s.pool path) :
      s.pool assetId = got := by
    rw [hgot, sameText_injective htext hpath]
  have hheaders {a : Asset} {n : ℤ} : metaHeaders (content a n).headers a.body.length ⊆
      metaHeaders ((Server.writeAsset a).map Wire.Ts.ofField) a.body.length := by
    unfold metaHeaders
    exact List.append_subset.mpr ⟨List.Subset.trans (List.map_subset _ (Server.metaData_subset a _))
      (List.subset_append_left _ _), List.subset_append_right _ _⟩
  cases x with
  | response body headers =>
    obtain ⟨y, ⟨path, a, hpath, ha, rfl⟩, hbody, hhead⟩ := hfaithful.settlements _ hx
    obtain rfl : body = a.body := hbody
    obtain rfl : headers = (content a id).headers := hhead
    rw [hpool hpath ha]
    exact .buffered a hheaders
  | stream size headers =>
    obtain ⟨y, ⟨path, a, hpath, ha, rfl⟩, hlength, hhead⟩ := hfaithful.settlements _ hx
    obtain rfl : size = a.body.length := hlength
    obtain rfl : headers = (content a id).headers := hhead
    rw [hpool hpath ha]
    exact .streamed a hheaders
  | rejected e =>
    have hblamed : Blamed _ w.client id t.assetId e := blamed_of_failed hfixed hgets hrun ht (Client.mem_failures_iff.mpr hx)
    cases hblamed with
    | sessionClosed | noProgress | thrown => exact .fallback _ _
    | failed | unknownRPC => exact .fallback _ _
    | notFound path hpath hget =>
      rw [hpool hpath hget]
      exact .notFound

/-- What a stream was given is of the asset that the site has. -/
theorem given {st : Client.StreamState} (hst : t.stream = some st)
    (hgiven : st.chunks.flatten ≠ [] ∨ st.body.closeRequested = true) :
    ∃ a, s.pool assetId = .found a ∧ st.chunks.flatten <+: a.body ∧
      (st.body.closeRequested = true → st.chunks.flatten = a.body) := by
  have hfaithful := (intact (fixed_pool hsize) (fun a ha => (hgets a ha).serves) hrun).faithful id t ht
  rcases hfaithful.stream st hst with ⟨hchunks, hopen, -⟩ | ⟨y, ⟨path, a, hpath, ha, rfl⟩, hgives⟩
  · rcases hgiven with hne | hclose
    · exact absurd (by rw [hchunks]; rfl) hne
    · rw [hopen] at hclose
      cases hclose
  · rw [sameText_injective htext hpath]
    exact ⟨a, ha.symm, hgives.isPrefix, hgives.whole⟩

end Page

/-- **HTTP4 and HTTP serve the same.** In every run in which the sessions get the assets of
    the site, of a transfer for a URL whose path no other handler has:

    * what its call returns agrees with the page; but where the pool has no such asset,
      HTTP may have an index or a shell to offer instead;
    * what its stream was given is of the asset that the page is. -/
theorem same_page (hsize : ∀ path a, s.pool path = .found a → a.body.length < 2 ^ 32) {acts : List WorldAct}
    (hgets : ∀ a ∈ acts, a.Gets fun path got => got = s.pool path)
    (hrun : Machine.run (step cfg) (init opts maxDatagramSize cfg) acts = some w) {id : ℤ} {t : Transfer}
    (ht : w.client.objects.get? id = some t) {target : Bytes} {r : HttpRequest} (hfetched : Fetched s target r t.assetId) :
    ∃ assetId, SameText assetId t.assetId ∧ (¬ Shadowed s.cfg s.assetPrefix assetId →
      (∀ x ∈ t.settlements, ∀ call : Call, Agrees (call.outcome x) (s.serveHTTP target r) ∨
        call.outcome x = .http4 404 [] none false none ∧ s.Elsewhere r assetId) ∧
      ∀ st, t.stream = some st → st.chunks.flatten ≠ [] ∨ st.body.closeRequested = true →
        ∃ a, s.serveHTTP target r = .asset a ∧ st.chunks.flatten <+: a.body ∧
          (st.body.closeRequested = true → st.chunks.flatten = a.body)) := by
  obtain ⟨assetId, hnames, htext⟩ := hfetched.names
  refine ⟨assetId, htext, fun hshadow => ?_⟩
  obtain ⟨hfound, -, hnone⟩ := s.serveHTTP_names hfetched.plain hnames hshadow hfetched.reads hfetched.method
  refine ⟨fun x hx call => ?_, fun st hst hgiven => ?_⟩
  · have hmade := made hsize hgets hrun ht htext hx call
    generalize hgot : s.pool assetId = got at hmade
    generalize call.outcome x = outcome at hmade
    cases hmade with
    | buffered a hheaders =>
      rw [hfound a hgot]
      refine .inl (.asset a hheaders (fun b hb => ?_) (by simp))
      split_ifs at hb
      exact (Option.some.inj hb).symm
    | streamed a hheaders =>
      rw [hfound a hgot]
      exact .inl (.asset a hheaders (by simp) fun n hn => (Option.some.inj hn).symm)
    | notFound =>
      by_cases helsewhere : s.Elsewhere r assetId
      · exact .inr ⟨rfl, helsewhere⟩
      · rw [(hnone hgot).mpr helsewhere]
        exact .inl .notFound
    | fallback e => exact .inl (.fallback e _)
  · obtain ⟨a, ha, hpart, hwhole⟩ := given hsize hgets hrun ht htext hst hgiven
    exact ⟨a, hfound a ha, hpart, hwhole⟩

/-- A site of one file, served at the root with the client's own files. -/
def smallSite : Site (fun _ => true) fun _ => true where
  cfg :=
    { siteDir := Wire.lit "site", mountAt := [], assetPrefix := [], passThrough := [], clientFS := true,
      noH3 := true, altSvc := false }
  assetPrefix := Wire.lit "/"
  spa := true
  httpMux :=
    [([ServeMux.literal (Wire.lit "config.json")], .config), ([ServeMux.literal (Wire.lit "metrics.json")], .metrics),
      ([ServeMux.literal (Wire.lit "http4"), ServeMux.subtree], .client []),
      ([ServeMux.literal (Wire.lit "http4-sw.js")], .client (Wire.lit "http4-sw.js")), ([ServeMux.subtree], .site)]
  assets := fun path => if path = Wire.lit "a b" then .found Sender.smallAsset else .notFound
  assetPrefix_eq := rfl
  started := ⟨_, rfl⟩
  handlers := rfl

/-- The client asks for the file, and the session sends META and packet 0. -/
def smallPage : List WorldAct :=
  [.client { event := .request 7 (Wire.Ts.jsLit "a b") false .normal },
   .deliver (Sender.datagram (.req { rpcId := 7, initialGrant := 4096, assetId := Wire.lit "a b" })) 0
    (.found Sender.smallAsset)] ++
    (Sender.serverSends [0] ++ Sender.serverSends [0]).map .server ++
    [.client { event := .datagram smallData true },
     .client { event := .datagram (Sender.datagram (.metaData (Sender.smallAsset.metaData 7))) true }]

theorem gets_smallPage : ∀ a ∈ smallPage, a.Gets fun path got => got = smallSite.pool path := by
  have hreq : ∀ q, Wire.Go.decode (Sender.datagram (.req { rpcId := 7, initialGrant := 4096, assetId := Wire.lit "a b" })) =
      .ok (.req q) → GetResult.found Sender.smallAsset = smallSite.pool q.assetId := by
    intro q hq
    have hdecode : Wire.Go.decode (Sender.datagram
        (.req { rpcId := 7, initialGrant := 4096, assetId := Wire.lit "a b" })) =
          .ok (.req { rpcId := 7, initialGrant := 4096, assetId := Wire.lit "a b" }) := by decide +kernel
    obtain rfl := Wire.Packet.req.inj (Except.ok.inj (hdecode.symm.trans hq))
    decide +kernel
  unfold smallPage
  simp only [List.cons_append, List.nil_append, Sender.serverSends, List.map_cons, List.map_nil, List.forall_mem_cons]
  exact ⟨trivial, hreq, trivial, trivial, trivial, trivial, trivial, trivial, trivial, trivial, trivial, trivial, by simp⟩

/-- The path of the file, with its escape. -/
def smallTarget : Bytes := Wire.lit "/a%20b"

/-- What a script fetches. -/
def smallRequest : HttpRequest where
  method := Wire.lit "GET"
  path := Wire.lit "/a b"
  rawPath := []
  rawQuery := []
  accept := Wire.lit "*/*"

theorem fetched_small : Fetched smallSite smallTarget smallRequest (Wire.Ts.jsLit "a b") where
  ascii := by
    unfold Ascii
    decide +kernel
  url := ⟨[], units (Wire.lit "/"), { origin := [], pathname := units smallTarget }, rfl,
    Wire.Ts.sameText_latin1 (by decide +kernel), by decide +kernel⟩
  plain := ⟨by decide +kernel, by decide +kernel, by decide +kernel⟩
  reads := ⟨by decide +kernel, .inl rfl⟩
  method := .inl rfl

/-- Then the call gets the file. -/
theorem exists_smallPage : ∃ w t,
    Machine.run (step Sender.smallConfig) (init {} 1200 Sender.smallConfig) smallPage = some w ∧
      w.client.objects.get? 7 = some t ∧ t.assetId = Wire.Ts.jsLit "a b" ∧
      Settlement.response Sender.smallAsset.body ((Sender.smallAsset.metaData 7).fields.map Wire.Ts.ofField) ∈
        t.settlements := by
  have hany : (Machine.run (step Sender.smallConfig) (init {} 1200 Sender.smallConfig) smallPage).any fun w =>
      (w.client.objects.get? 7).any fun t => t.assetId = Wire.Ts.jsLit "a b" ∧
        Settlement.response Sender.smallAsset.body ((Sender.smallAsset.metaData 7).fields.map Wire.Ts.ofField) ∈
          t.settlements := by
    decide +kernel
  obtain ⟨w, hrun, hw⟩ := (Option.any_eq_true _ _).mp hany
  obtain ⟨t, ht, hmem⟩ := (Option.any_eq_true _ _).mp hw
  exact ⟨w, t, hrun, ht, of_decide_eq_true hmem⟩

theorem size_smallSite {path : Bytes} {a : Asset} (ha : smallSite.pool path = .found a) : a.body.length < 2 ^ 32 := by
  have hpool : smallSite.pool path = if Server.hidden path then .notFound
      else if path = Wire.lit "a b" then .found Sender.smallAsset else .notFound := rfl
  rw [hpool] at ha
  split_ifs at ha
  obtain rfl := GetResult.found.inj ha
  decide

/-- A file whose name has a blank. -/
theorem same_page_small : ∃ w t body headers,
    Machine.run (step Sender.smallConfig) (init {} 1200 Sender.smallConfig) smallPage = some w ∧
      w.client.objects.get? 7 = some t ∧ Settlement.response body headers ∈ t.settlements ∧
      Agrees ({ head := false : Call }.outcome (.response body headers))
        (smallSite.serveHTTP smallTarget smallRequest) := by
  obtain ⟨w, t, hrun, ht, hname, hmem⟩ := exists_smallPage
  obtain ⟨assetId, htext, hagrees⟩ :=
    same_page (fun _ _ => size_smallSite) gets_smallPage hrun ht (hname ▸ fetched_small)
  have hshadow : ¬ Shadowed smallSite.cfg smallSite.assetPrefix assetId := by
    obtain rfl : assetId = Wire.lit "a b" := sameText_injective htext (hname ▸ ⟨_, rfl, rfl⟩)
    unfold Shadowed
    decide +kernel
  refine ⟨w, t, _, _, hrun, ht, hmem, ((hagrees hshadow).1 _ hmem _).resolve_right fun h => ?_⟩
  cases h.1

end World

/-! ## What the worker forwards -/

section Routed

variable {validName newPassThrough : Bytes → Bool} {s : Site validName newPassThrough} {worker : Worker.Site}
  {r : Worker.Request} {clientId : JsString} {url : Url} {target id : Bytes}

/-- **Which forwarded paths get another handler.** Of the paths without escapes that the
    worker forwards and the client maps, the routes of the server leave all to the handler
    of assets but two: the metrics, and the client's directory without its slash. -/
theorem routed_iff (hp : Plain s.assetPrefix) (hforward : leaveToNetwork worker r clientId = some none)
    (hurl : worker.parseUrl r.url = some url) (hpath : url.pathname = units target)
    (hnames : Names s.assetPrefix target id) (hescape : 0x25 ∉ target) :
    ServeMux.find s.httpMux target = .handler s.main ↔ ¬ (s.assetPrefix = Wire.lit "/" ∧
      (id = Wire.lit "metrics.json" ∨ s.cfg.clientFS = true ∧ id = Wire.lit "http4")) := by
  rw [← Worker.shadowed_iff_of_leaveToNetwork hforward hurl hpath hnames hescape]
  exact s.find_names_iff hp hnames

/-- A browser in which every URL has this path. -/
def workerAt (path : Bytes) : Worker.Site where
  origin := Wire.Ts.jsLit "https://localhost"
  parseUrl := fun _ => some { origin := Wire.Ts.jsLit "https://localhost", pathname := units path }
  constructs := fun _ => true

/-- A request of a script of the page. -/
def scriptRequest : Worker.Request where
  url := Wire.Ts.jsLit "https://localhost"
  method := Wire.Ts.jsLit "GET"
  mode := Wire.Ts.jsLit "cors"
  destination := []
  hasRange := false

/-- A path of one segment at the root. -/
theorem names_small {path id : Bytes} (hpath : path = 0x2F :: id) (hseg : id.splitOn 0x2F = [id])
    (hid : ServeMux.unescape id = some id ∧ id ≠ [] ∧ id ≠ Wire.lit "." ∧ id ≠ Wire.lit ".." ∧ 0x2F ∉ id) :
    Names World.smallSite.assetPrefix path id := by
  refine ⟨id, [id], hpath, by simp [List.intercalate], ?_⟩
  rw [hseg]
  exact .cons hid .nil

/-- The worker forwards the path of the metrics, which have a handler of their own, and
    that of an asset, which the handler of assets gets. -/
theorem routed_metrics :
    (leaveToNetwork (workerAt (Wire.lit "/metrics.json")) scriptRequest (Wire.Ts.jsLit "c") = some none ∧
      ServeMux.find World.smallSite.httpMux (Wire.lit "/metrics.json") ≠ .handler World.smallSite.main) ∧
    leaveToNetwork (workerAt (Wire.lit "/a")) scriptRequest (Wire.Ts.jsLit "c") = some none ∧
      ServeMux.find World.smallSite.httpMux (Wire.lit "/a") = .handler World.smallSite.main := by
  constructor
  · have hforward : leaveToNetwork (workerAt (Wire.lit "/metrics.json")) scriptRequest (Wire.Ts.jsLit "c") =
        some none := by decide +kernel
    have hnames : Names World.smallSite.assetPrefix (Wire.lit "/metrics.json") (Wire.lit "metrics.json") :=
      names_small rfl (by decide +kernel) (by decide +kernel)
    refine ⟨hforward, fun hfind => ?_⟩
    exact (routed_iff World.fetched_small.plain hforward rfl rfl hnames (by decide +kernel)).mp hfind ⟨rfl, .inl rfl⟩
  · have hforward : leaveToNetwork (workerAt (Wire.lit "/a")) scriptRequest (Wire.Ts.jsLit "c") = some none := by
      decide +kernel
    have hnames : Names World.smallSite.assetPrefix (Wire.lit "/a") (Wire.lit "a") :=
      names_small rfl (by decide +kernel) (by decide +kernel)
    refine ⟨hforward, (routed_iff World.fetched_small.plain hforward rfl rfl hnames (by decide +kernel)).mpr ?_⟩
    decide +kernel

end Routed

end Http4.System
