import Http4.Data.MuxTree
import Http4.Data.Percent
import Http4.Sender.Session
import Http4.Server.Routes

/-!
# A path over HTTP

What the HTTP listener answers to a path: the routes of `Start` with their handlers,
`handleSite`, `isNavigation`, `visibleAssets` and `hidden` of `server/internal/server/site.go`,
and `handleAsset` of `assets_http.go`. The handlers of other paths, and what
`http.ServeContent` makes of an asset, are left out.

Main results:

* `routes_patterns`: the patterns are those that `Start` registers.
* `Site.find_names`: which handler gets a path below the prefix.
* `Site.serveHTTP_names`: what is answered to a path that names an asset.
-/

namespace Http4.Server

open ServeMux
open Percent (unescape_cons_of_ne unescape_of_notMem)
open Sender (Asset GetResult)
open Wire (lit)

/-! ## Handlers -/

/-- What `Start` registers (lines 291–318). -/
inductive Handler
  | config
  | metrics
  /-- `handleClient(file)`. -/
  | client (file : Bytes)
  | site
  | passThrough
  /-- `handleAsset` behind `http.StripPrefix`. -/
  | asset
  /-- `http.FileServer`. -/
  | static
  deriving DecidableEq

/-- The calls of `Handle` on `httpMux`. -/
def Config.routes (cfg : Config) (p : Bytes) : List (Bytes × Handler) :=
  [(lit "/config.json", .config), (lit "/metrics.json", .metrics)] ++
    (if cfg.siteMode ∧ cfg.clientFS then
      [(clientPath, .client []), (serviceWorker, .client (lit "http4-sw.js"))] else []) ++
    (p, if cfg.siteMode then .site else .asset) ::
    (if cfg.siteMode then if cfg.passThrough = [] then [] else [(lit "/", .passThrough)]
      else [(lit "/", .static)])

/-- The patterns are those that `Start` registers. -/
theorem routes_patterns (cfg : Config) (p : Bytes) : (cfg.routes p).map Prod.fst = cfg.httpPatterns p := by
  unfold Config.routes Config.httpPatterns Config.fixedPatterns Config.catchAll
  by_cases hsite : cfg.siteMode = true
  · by_cases hclient : cfg.clientFS = true
    · by_cases hpass : cfg.passThrough = [] <;> simp [hsite, hclient, hpass]
    · by_cases hpass : cfg.passThrough = [] <;> simp [hsite, hclient, hpass]
  · simp [hsite]

/-! ## Assets -/

/-- `hidden` (lines 145–152). -/
def hidden (p : Bytes) : Bool :=
  (p.splitOn 0x2F).any fun seg => (lit ".").isPrefixOf seg && seg != lit ".well-known"

/-- `visibleAssets.Get` (lines 138–143). -/
def visibleAssets (assets : Bytes → GetResult) (id : Bytes) : GetResult :=
  if hidden id then .notFound else assets id

/-- The headers of `writeAsset` (lines 54–63), with `Last-Modified` of
    `http.ServeContent`; the names as a client reads them. -/
def writeAsset (a : Asset) : List Wire.Field :=
  [{ name := lit "content-type", value := a.contentType }, { name := lit "etag", value := a.etag }] ++
    (if a.cacheControl ≠ [] then [{ name := lit "cache-control", value := a.cacheControl }] else []) ++
    match a.lastModified with
    | some t => [{ name := lit "last-modified", value := t }]
    | none => []

/-- META has no header that HTTP does not have. -/
theorem metaData_subset (a : Asset) (id : UInt64) : (a.metaData id).fields ⊆ writeAsset a := by
  have hloop (fields : List Wire.Field) (n : ℕ) : (Sender.metaLoop id fields n).fields ⊆ fields := by
    induction n with
    | zero => exact List.nil_subset _
    | succ n ih =>
      rw [Sender.metaLoop]
      split_ifs
      · exact List.take_subset _ _
      · exact ih
  refine List.Subset.trans (hloop _ _) ?_
  unfold writeAsset
  intro f hf
  simp only [List.mem_append] at hf ⊢
  rcases hf with (hf | hf) | hf
  · exact .inl (.inl hf)
  · exact .inr hf
  · exact .inl (.inr hf)

/-! ## Requests -/

/-- What the handlers read of a request. -/
structure HttpRequest where
  method : Bytes
  /-- `r.URL.Path`. -/
  path : Bytes
  /-- `r.URL.RawPath`. -/
  rawPath : Bytes
  /-- `r.URL.RawQuery`. -/
  rawQuery : Bytes
  /-- The `Accept` header. -/
  accept : Bytes

/-- `net/http` has read the request from the path that was sent; `RawPath` is a hint
    that may be empty. -/
def HttpRequest.Reads (r : HttpRequest) (target : Bytes) : Prop :=
  unescape target = some r.path ∧ (r.rawPath = [] ∨ r.rawPath = target)

/-- `path.Ext`. -/
def pathExt (path : Bytes) : Bytes :=
  let last := path.reverse.takeWhile (· != 0x2F)
  if 0x2E ∈ last then 0x2E :: (last.takeWhile (· != 0x2E)).reverse else []

/-- `isNavigation` (lines 78–83). -/
def isNavigation (r : HttpRequest) : Bool :=
  decide (lit "text/html" <:+: r.accept) && pathExt r.path == []

/-- `strings.TrimPrefix`. -/
def trimPrefix (s pre : Bytes) : Bytes := if pre <+: s then s.drop pre.length else s

/-- What is answered. -/
inductive Page
  | methodNotAllowed
  /-- `writeAsset`. -/
  | asset (a : Asset)
  /-- `http.Redirect`. -/
  | redirect (target : Bytes)
  | notFound
  /-- "asset unavailable" -/
  | unavailable
  /-- A redirect of the mux. -/
  | cleaned
  /-- What another handler answers. -/
  | other (h : Handler)
  deriving DecidableEq

/-- `handleSite` (lines 28–70). -/
def handleSite (pool : Bytes → GetResult) (assetPrefix : Bytes) (spa : Bool) (r : HttpRequest) : Page :=
  if r.method ≠ lit "GET" ∧ r.method ≠ lit "HEAD" then .methodNotAllowed
  else
    let id := trimPrefix r.path assetPrefix
    let id := if id = [] ∨ [0x2F] <:+ id then id ++ lit "index.html" else id
    match pool id with
    | .found a => .asset a
    | .failed => .unavailable
    | .notFound =>
      let index := if [0x2F] <:+ r.path then .notFound else pool (id ++ lit "/index.html")
      match index with
      | .found _ => .redirect (r.path ++ lit "/" ++ if r.rawQuery ≠ [] then lit "?" ++ r.rawQuery else [])
      | .notFound | .failed =>
        if spa ∧ isNavigation r then
          match pool (lit "index.html") with
          | .found idx => .asset idx
          | .notFound | .failed => .notFound
        else .notFound

/-- `handleAsset` (lines 29–50). -/
def handleAsset (pool : Bytes → GetResult) (r : HttpRequest) : Page :=
  if r.method ≠ lit "GET" ∧ r.method ≠ lit "HEAD" then .methodNotAllowed
  else if r.path = [] ∨ [0x2F] <:+ r.path then .notFound
  else
    match pool r.path with
    | .found a => .asset a
    | .notFound => .notFound
    | .failed => .unavailable

/-- `http.StripPrefix`. -/
def stripPrefix (pre : Bytes) (r : HttpRequest) (handle : HttpRequest → Page) : Page :=
  let p := trimPrefix r.path pre
  let rp := trimPrefix r.rawPath pre
  if p.length < r.path.length ∧ (r.rawPath = [] ∨ rp.length < r.rawPath.length) then
    handle { r with path := p, rawPath := rp }
  else .notFound

/-! ## The listener -/

section

variable {validName newPassThrough : Bytes → Bool}

variable (validName newPassThrough) in
/-- A server that has started, as far as the HTTP listener shows it. -/
structure Site where
  cfg : Config
  assetPrefix : Bytes
  spa : Bool
  httpMux : List (Pattern × Handler)
  /-- `DirAssets.Get`. -/
  assets : Bytes → GetResult
  assetPrefix_eq : cfg.routePrefix = .ok assetPrefix
  started : ∃ wtMux, start validName newPassThrough cfg = .started (httpMux.map Prod.fst) wtMux
  handlers : httpMux.map Prod.snd = (cfg.routes assetPrefix).map Prod.snd

namespace Site

variable (s : Site validName newPassThrough)

/-- `s.pool` (lines 231–234), which the sessions get too. -/
def pool : Bytes → GetResult := if s.cfg.siteMode then visibleAssets s.assets else s.assets

/-- What the HTTP listener answers to a request for the path. -/
def serveHTTP (target : Bytes) (r : HttpRequest) : Page :=
  match find s.httpMux target with
  | .redirect => .cleaned
  | .notFound => .notFound
  | .handler .site => handleSite s.pool s.assetPrefix s.spa r
  | .handler .asset => stripPrefix s.assetPrefix r (handleAsset s.pool)
  | .handler h => .other h

end Site

/-! ## Paths below the prefix -/

/-- A prefix of literal segments that are as `path.Clean` leaves them. -/
structure Plain (p : Bytes) : Prop where
  escape : 0x25 ∉ p
  brace : 0x7B ∉ p
  segments : ∀ seg ∈ dirSegments p, seg ≠ [] ∧ seg ≠ lit "." ∧ seg ≠ lit ".."

/-- The path is the prefix and the ID, segment by segment; escapes spell no slash, and
    no segment is empty or made of dots. -/
def Names (p target id : Bytes) : Prop :=
  ∃ rest segs, target = p ++ rest ∧ id = List.intercalate [0x2F] segs ∧
    List.Forall₂ (fun raw seg => unescape raw = some seg ∧ seg ≠ [] ∧ seg ≠ lit "." ∧ seg ≠ lit ".." ∧ 0x2F ∉ seg)
      (rest.splitOn 0x2F) segs

/-- Another handler has the path of the asset, or the mux redirects it. -/
def Shadowed (cfg : Config) (p id : Bytes) : Prop :=
  p = lit "/" ∧ (id = lit "config.json" ∨ id = lit "metrics.json" ∨
    cfg.clientFS = true ∧ (id = lit "http4-sw.js" ∨ id = lit "http4" ∨ lit "http4/" <+: id))

section Paths

variable {b seg rest target id : Bytes} {p : Bytes} {segs : List Bytes}

theorem subset_of_mem_splitOn {sep c : UInt8} (hseg : seg ∈ b.splitOn sep) (hc : c ∈ seg) : c ∈ b := by
  induction b generalizing seg with
  | nil =>
    obtain rfl := List.mem_singleton.mp hseg
    cases hc
  | cons x b ih =>
    rw [List.splitOn_cons_eq_if_modifyHead] at hseg
    split_ifs at hseg
    · rcases List.mem_cons.mp hseg with rfl | hseg
      · cases hc
      · exact List.mem_cons_of_mem _ (ih hseg hc)
    · cases hsplit : b.splitOn sep with
      | nil => exact absurd hsplit (List.splitOn_ne_nil _ _)
      | cons first others =>
        rw [hsplit] at hseg ih
        rcases List.mem_cons.mp hseg with rfl | hseg
        · rcases List.mem_cons.mp hc with rfl | hc
          · exact List.mem_cons_self
          · exact List.mem_cons_of_mem _ (ih List.mem_cons_self hc)
        · exact List.mem_cons_of_mem _ (ih (List.mem_cons_of_mem _ hseg) hc)

theorem unescape_append {a out : Bytes} (h : unescape a = some out) (b : Bytes) :
    unescape (a ++ b) = (unescape b).map (out ++ ·) := by
  fun_induction unescape a generalizing out with
  | case1 =>
    obtain rfl := Option.some.inj h
    rw [List.nil_append]
    cases unescape b <;> rfl
  | case2 x y rest u v out' hrest hy hx ih =>
    obtain rfl := Option.some.inj h
    rw [List.cons_append, List.cons_append, List.cons_append, (Percent.Escape.mk (rest ++ b) hx hy).unescape, ih hrest,
      Option.map_map]
    rfl
  | case3 => cases h
  | case4 => cases h
  | case5 c rest _ hc ih =>
    obtain ⟨out', hrest, rfl⟩ := Option.map_eq_some_iff.mp h
    rw [List.cons_append, unescape_cons_of_ne hc, ih hrest, Option.map_map]
    rfl

/-- Segments that are unescaped one by one. -/
theorem unescape_intercalate {raws : List Bytes} (h : List.Forall₂ (fun raw seg => unescape raw = some seg) raws segs) :
    unescape (List.intercalate [0x2F] raws) = some (List.intercalate [0x2F] segs) := by
  induction h with
  | nil => rfl
  | @cons raw seg raws segs hseg hrest ih =>
    cases hrest with
    | nil =>
      show unescape (raw ++ []) = some (seg ++ [])
      rw [List.append_nil, List.append_nil]
      exact hseg
    | cons =>
      rw [List.intercalate_cons_cons, List.intercalate_cons_cons, List.append_assoc, unescape_append hseg,
        List.singleton_append, unescape_cons_of_ne (by decide), ih, List.append_assoc]
      rfl

theorem Names.unescape_eq (h : Names p target id) (hp : 0x25 ∉ p) : unescape target = some (p ++ id) := by
  obtain ⟨rest, segs, rfl, rfl, hsegs⟩ := h
  have hrest := unescape_intercalate (hsegs.imp fun _ _ h => h.1)
  rw [List.intercalate_splitOn] at hrest
  rw [unescape_append (unescape_of_notMem hp), hrest]
  rfl

/-- The segments of a directory and of what lies below it. -/
theorem splitOn_dir (hdir : IsDir p) (rest : Bytes) :
    ∃ path, p = 0x2F :: path ∧ (path ++ rest).splitOn 0x2F = dirSegments p ++ rest.splitOn 0x2F := by
  obtain ⟨path, rfl, hsplit, -⟩ := hdir.splitOn
  refine ⟨path, rfl, ?_⟩
  rcases List.eq_nil_or_concat path with rfl | ⟨body, c, rfl⟩
  · rfl
  · rw [List.concat_eq_append] at hsplit ⊢
    have hc : c = 0x2F := by
      obtain ⟨front, hfront⟩ := hdir.2
      rw [List.concat_eq_append, ← List.cons_append] at hfront
      exact (List.singleton_inj.mp (List.append_inj_right' hfront rfl)).symm
    subst hc
    rw [List.splitOn_append_cons_self] at hsplit
    have hbody := List.append_inj_left' hsplit rfl
    rw [List.append_assoc, List.singleton_append, List.splitOn_append_cons_self, hbody]

/-- How a plain prefix is read. -/
theorem Plain.parsePattern_eq {validName : Bytes → Bool} {q : Pattern} (h : Plain p) (hdir : IsDir p)
    (hq : parsePattern validName p = some q) : q = (dirSegments p).map literal ++ [subtree] := by
  obtain ⟨-, init, rfl, hinit, -⟩ := (parsePattern_dir hdir).mp hq
  have hmem : ∀ seg ∈ dirSegments p, 0x25 ∉ seg ∧ 0x7B ∉ seg := by
    intro seg hseg
    have hsplit : seg ∈ (p.drop 1).splitOn 0x2F := List.dropLast_subset _ hseg
    have hsub (c : UInt8) (hc : c ∈ seg) : c ∈ p := List.mem_of_mem_drop (subset_of_mem_splitOn hsplit hc)
    exact ⟨fun hc => h.escape (hsub _ hc), fun hc => h.brace (hsub _ hc)⟩
  have hmap (l : List Bytes) (hl : ∀ seg ∈ l, 0x25 ∉ seg ∧ 0x7B ∉ seg) :
      l.mapM (parseSegment validName false) = some (l.map literal) := by
    induction l with
    | nil => rfl
    | cons seg l ih =>
      obtain ⟨⟨hescape, hbrace⟩, hl⟩ := List.forall_mem_cons.mp hl
      have hseg : parseSegment validName false seg = some (literal seg) := by
        rw [parseSegment_false_iff]
        refine .inl ⟨hbrace, ?_⟩
        unfold pathUnescape
        rw [unescape_of_notMem hescape]
        rfl
      rw [List.mapM_cons, hseg, ih hl]
      rfl
  rw [hmap _ hmem] at hinit
  rw [Option.some.inj hinit]

/-- The segments of an ID and what spells them. -/
theorem of_segments {raws : List Bytes} (h : List.Forall₂
    (fun raw seg => unescape raw = some seg ∧ seg ≠ [] ∧ seg ≠ lit "." ∧ seg ≠ lit ".." ∧ 0x2F ∉ seg) raws segs) :
    raws.map pathUnescape = segs ∧ (∀ raw ∈ raws, raw ≠ [] ∧ raw ≠ lit "." ∧ raw ≠ lit "..") ∧
      ∀ seg ∈ segs, seg ≠ [] ∧ 0x2F ∉ seg := by
  induction h with
  | nil => exact ⟨rfl, by simp, by simp⟩
  | @cons raw seg raws segs hseg _ ih =>
    obtain ⟨hunescape, hne, hdot, hdots, hslash⟩ := hseg
    refine ⟨?_, List.forall_mem_cons.mpr ⟨⟨?_, ?_, ?_⟩, ih.2.1⟩, List.forall_mem_cons.mpr ⟨⟨hne, hslash⟩, ih.2.2⟩⟩
    · rw [List.map_cons, ih.1, pathUnescape, hunescape]
      rfl
    · rintro rfl
      exact hne (Option.some.inj hunescape).symm
    · rintro rfl
      exact hdot (Option.some.inj hunescape).symm
    · rintro rfl
      exact hdots (Option.some.inj hunescape).symm

/-- What a name says about the path and the ID. -/
theorem Names.spec (h : Names p target id) (hp : Plain p) (hdir : IsDir p) : ∃ path, target = 0x2F :: path ∧
    (∀ seg ∈ path.splitOn 0x2F, seg ≠ [] ∧ seg ≠ lit "." ∧ seg ≠ lit "..") ∧
      ServeMux.segments target = dirSegments p ++ id.splitOn 0x2F ∧ [] ∉ id.splitOn 0x2F := by
  obtain ⟨rest, segs, rfl, rfl, hsegs⟩ := h
  obtain ⟨path, rfl, hsplit⟩ := splitOn_dir hdir rest
  obtain ⟨hmap, hraws, hall⟩ := of_segments hsegs
  have hne : segs ≠ [] := by
    rintro rfl
    exact List.splitOn_ne_nil _ _ (List.map_eq_nil_iff.mp hmap)
  have hid : (List.intercalate [0x2F] segs).splitOn 0x2F = segs :=
    List.splitOn_intercalate 0x2F (fun seg hseg => (hall seg hseg).2) hne
  have hclean : ∀ seg ∈ (path ++ rest).splitOn 0x2F, seg ≠ [] ∧ seg ≠ lit "." ∧ seg ≠ lit ".." := by
    rw [hsplit]
    exact List.forall_mem_append.mpr ⟨hp.segments, hraws⟩
  have hdirs : (dirSegments (0x2F :: path)).map pathUnescape = dirSegments (0x2F :: path) := by
    refine (List.map_congr_left fun seg hseg => ?_).trans (List.map_id _)
    have hescape : 0x25 ∉ seg := by
      intro hc
      exact hp.escape (List.mem_cons_of_mem _ (subset_of_mem_splitOn (List.dropLast_subset _ hseg) hc))
    rw [pathUnescape, unescape_of_notMem hescape]
    rfl
  refine ⟨path ++ rest, rfl, hclean, ?_, ?_⟩
  · rw [List.cons_append, segments_cons fun hempty => (hclean [] hempty).1 rfl, hsplit, List.map_append, hdirs, hmap, hid]
  · rw [hid]
    exact fun hempty => (hall [] hempty).1 rfl

/-- An ID is not empty and does not end with a slash. -/
theorem of_splitOn (h : [] ∉ id.splitOn 0x2F) : id ≠ [] ∧ ¬ [0x2F] <:+ id := by
  constructor
  · rintro rfl
    exact h (List.mem_singleton_self _)
  · rintro ⟨front, rfl⟩
    rw [List.splitOn_append_cons_self] at h
    exact h (List.mem_append_right _ (List.mem_singleton_self _))

end Paths

/-! ## The handler -/

/-- Two lists of pairs with a known middle. -/
theorem exists_middle {α β : Type} {l : List (α × β)} {a b : List α} {a' b' : List β} {x : α} {y : β}
    (hfst : l.map Prod.fst = a ++ x :: b) (hsnd : l.map Prod.snd = a' ++ y :: b') (hlen : a.length = a'.length) :
    ∃ l₁ l₂, l = l₁ ++ (x, y) :: l₂ ∧ l₁.map Prod.fst = a ∧ l₂.map Prod.fst = b := by
  induction l generalizing a a' with
  | nil => cases a <;> cases hfst
  | cons e l ih =>
    cases a with
    | nil =>
      obtain rfl : a' = [] := List.length_eq_zero_iff.mp hlen.symm
      obtain ⟨rfl, rfl⟩ := List.cons.inj hfst
      obtain ⟨rfl, -⟩ := List.cons.inj hsnd
      exact ⟨[], l, rfl, rfl, rfl⟩
    | cons a₀ a =>
      cases a' with
      | nil => cases hlen
      | cons a₀' a' =>
        obtain ⟨rfl, hfst'⟩ := List.cons.inj hfst
        obtain ⟨-, hsnd'⟩ := List.cons.inj hsnd
        obtain ⟨l₁, l₂, rfl, h₁, h₂⟩ := ih hfst' hsnd' (Nat.succ.inj hlen)
        exact ⟨e :: l₁, l₂, rfl, by rw [List.map_cons, h₁], h₂⟩

theorem registerAll_eq_mapM {mux mux' : List Pattern} {patterns : List Bytes}
    (h : registerAll validName mux patterns = some mux') :
    ∃ ps, patterns.mapM (parsePattern validName) = some ps ∧ mux' = mux ++ ps := by
  induction patterns generalizing mux with
  | nil =>
    obtain rfl := Option.some.inj h
    exact ⟨[], rfl, (List.append_nil _).symm⟩
  | cons pattern rest ih =>
    unfold registerAll handle at h
    cases hp : parsePattern validName pattern with
    | none => rw [hp] at h; cases h
    | some q =>
      rw [hp] at h
      dsimp only at h
      by_cases hany : (mux.any fun r => conflictsWith q r) = true
      · rw [if_pos hany] at h
        cases h
      · rw [if_neg hany] at h
        obtain ⟨ps, hps, rfl⟩ := ih h
        refine ⟨q :: ps, ?_, by simp⟩
        rw [List.mapM_cons, hp, hps]
        rfl

namespace Site

variable (s : Site validName newPassThrough)

/-- The handler of the prefix. -/
def main : Handler := if s.cfg.siteMode then .site else .asset

/-- The routes of a server that has started. -/
theorem started_iff : PrefixFree validName s.cfg s.assetPrefix ∧
    ∃ ps, (s.cfg.httpPatterns s.assetPrefix).mapM (parsePattern validName) = some ps ∧ s.httpMux.map Prod.fst = ps := by
  obtain ⟨wtMux, hstart⟩ := s.started
  have hpass : s.cfg.siteMode = true → s.cfg.passThrough ≠ [] → newPassThrough s.cfg.passThrough = true := by
    intro hsite hpass
    by_contra hnot
    unfold start at hstart
    rw [s.assetPrefix_eq] at hstart
    dsimp only at hstart
    rw [if_pos ⟨hsite, hpass, hnot⟩] at hstart
    split at hstart <;> cases hstart
  refine ⟨((start_iff s.assetPrefix_eq hpass).2.mp (by rw [hstart]; simp)).1, ?_⟩
  unfold start at hstart
  rw [s.assetPrefix_eq] at hstart
  dsimp only at hstart
  split_ifs at hstart
  · split at hstart <;> cases hstart
  · split at hstart
    · rename_i httpMux wtMux' hhttp hwt
      obtain ⟨rfl, -⟩ := Outcome.started.inj hstart
      obtain ⟨ps, hps, heq⟩ := registerAll_eq_mapM hhttp
      exact ⟨ps, hps, heq⟩
    · cases hstart

/-- The entries of the mux. -/
theorem mem_httpMux (hp : Plain s.assetPrefix) :
    ((dirSegments s.assetPrefix).map literal ++ [subtree], s.main) ∈ s.httpMux ∧
      ∀ q h, (q, h) ∈ s.httpMux → q ∈ s.cfg.fixed ∨ q ∈ s.cfg.roots ∨
        q = (dirSegments s.assetPrefix).map literal ++ [subtree] ∧ h = s.main := by
  obtain ⟨hfree, ps, hps, hfst⟩ := s.started_iff
  obtain ⟨A, hA⟩ := parsePattern_dir_isSome (of_routePrefix s.assetPrefix_eq).1 |>.mpr hfree.pattern
  obtain rfl := hp.parsePattern_eq (of_routePrefix s.assetPrefix_eq).1 hA
  rw [mapM_httpPatterns validName s.cfg hA] at hps
  obtain rfl := Option.some.inj hps
  have hsnd : ∃ a' b', s.httpMux.map Prod.snd = a' ++ s.main :: b' ∧ s.cfg.fixed.length = a'.length := by
    rw [s.handlers]
    unfold Config.routes Config.fixed main
    rw [List.map_append, List.map_cons]
    refine ⟨_, _, rfl, ?_⟩
    split_ifs <;> rfl
  obtain ⟨a', b', hsnd, hlen⟩ := hsnd
  obtain ⟨l₁, l₂, heq, h₁, h₂⟩ := exists_middle hfst hsnd hlen
  rw [heq]
  refine ⟨by simp, fun q h hmem => ?_⟩
  rcases List.mem_append.mp hmem with hmem | hmem
  · refine .inl ?_
    rw [← h₁]
    exact List.mem_map_of_mem hmem
  rcases List.mem_cons.mp hmem with heq | hmem
  · obtain ⟨rfl, rfl⟩ := Prod.mk.inj heq
    exact .inr (.inr ⟨rfl, rfl⟩)
  · refine .inr (.inl ?_)
    rw [← h₂]
    exact List.mem_map_of_mem hmem

end Site

theorem matches_nil {segs : List Bytes} (h : Matches [] segs) : segs = [] := by
  cases segs with
  | nil => rfl
  | cons => exact h.elim

theorem matches_literal {c : Bytes} {q : Pattern} {segs : List Bytes} (h : Matches (literal c :: q) segs) :
    ∃ rest, segs = c :: rest ∧ Matches q rest := by
  cases segs with
  | nil => exact h.elim
  | cons seg rest =>
    rcases h with hmulti | ⟨-, hseg, hrest⟩
    · cases hmulti
    · obtain rfl : c = seg := hseg
      exact ⟨rest, rfl, hrest⟩

theorem of_splitOn_cons {id c : Bytes} {rest : List Bytes} (h : id.splitOn 0x2F = c :: rest) :
    rest = [] ∧ id = c ∨ c ++ [0x2F] <+: id := by
  have hid : List.intercalate [0x2F] (id.splitOn 0x2F) = id := List.intercalate_splitOn _
  rw [h] at hid
  cases rest with
  | nil =>
    refine .inl ⟨rfl, ?_⟩
    rw [← hid]
    exact List.append_nil c
  | cons r rest =>
    rw [List.intercalate_cons_cons] at hid
    exact .inr ⟨_, hid⟩

/-- A fixed pattern that is found at the root shadows the ID. -/
theorem shadowed_of_fixed {cfg : Config} {q : Pattern} {id : Bytes} (hq : q ∈ cfg.fixed)
    (hmatch : Matches q (id.splitOn 0x2F) ∨ Matches q (id.splitOn 0x2F ++ [[0x2F]])) :
    Shadowed cfg (lit "/") id := by
  refine ⟨rfl, ?_⟩
  have hleaf {c : Bytes} (h : Matches [literal c] (id.splitOn 0x2F) ∨ Matches [literal c] (id.splitOn 0x2F ++ [[0x2F]])) :
      id = c := by
    rcases h with h | h
    · obtain ⟨rest, hsplit, hrest⟩ := matches_literal h
      obtain rfl := matches_nil hrest
      rcases of_splitOn_cons hsplit with ⟨-, hid⟩ | hpre
      · exact hid
      · have hcount := length_splitOn 0x2F id
        rw [hsplit] at hcount
        obtain ⟨back, rfl⟩ := hpre
        simp only [List.length_singleton, List.count_append, List.count_singleton_self] at hcount
        omega
    · obtain ⟨rest, hsplit, hrest⟩ := matches_literal h
      obtain rfl := matches_nil hrest
      have hlen := congrArg List.length hsplit
      rw [List.length_append, length_splitOn] at hlen
      simp only [List.length_singleton] at hlen
      omega
  have hdir {c : Bytes} (h : Matches [literal c, subtree] (id.splitOn 0x2F) ∨
      Matches [literal c, subtree] (id.splitOn 0x2F ++ [[0x2F]])) : id = c ∨ c ++ [0x2F] <+: id := by
    obtain ⟨rest, hsplit⟩ : ∃ rest, id.splitOn 0x2F = c :: rest := by
      rcases h with h | h
      · obtain ⟨rest, hsplit, -⟩ := matches_literal h
        exact ⟨rest, hsplit⟩
      · obtain ⟨rest, hsplit, -⟩ := matches_literal h
        cases hid : id.splitOn 0x2F with
        | nil => exact absurd hid (List.splitOn_ne_nil _ _)
        | cons first others =>
          rw [hid] at hsplit
          exact ⟨others, by rw [(List.cons.inj hsplit).1]⟩
    exact (of_splitOn_cons hsplit).imp And.right fun h => h
  unfold Config.fixed at hq
  rcases List.mem_append.mp hq with hq | hq
  · rcases List.mem_cons.mp hq with rfl | hq
    · exact .inl (hleaf hmatch)
    · obtain rfl := List.mem_singleton.mp hq
      exact .inr (.inl (hleaf hmatch))
  · split_ifs at hq with hclient
    · rcases List.mem_cons.mp hq with rfl | hq
      · exact .inr (.inr ⟨hclient.2, .inr (hdir hmatch)⟩)
      · obtain rfl := List.mem_singleton.mp hq
        exact .inr (.inr ⟨hclient.2, .inl (hleaf hmatch)⟩)
    · cases hq

namespace Site

variable (s : Site validName newPassThrough) {target id : Bytes}

/-- Below the prefix the mux has no longer pattern that matches, unless the ID is
    shadowed. -/
theorem only_names (hp : Plain s.assetPrefix) (hshadow : ¬ Shadowed s.cfg s.assetPrefix id) {q : Pattern}
    {h : Handler} (hq : ((dirSegments s.assetPrefix).map literal ++ q, h) ∈ s.httpMux)
    (hmatch : Matches q (id.splitOn 0x2F) ∨ Matches q (id.splitOn 0x2F ++ [[0x2F]])) : q = [subtree] ∧ h = s.main := by
  obtain ⟨hfree, -⟩ := s.started_iff
  have hdir := (of_routePrefix s.assetPrefix_eq).1
  obtain ⟨-, -, -, hroot⟩ := hdir.splitOn
  obtain ⟨-, hall⟩ := s.mem_httpMux hp
  have hlit {c : Bytes} : literal c ≠ subtree := by
    intro heq
    exact Bool.noConfusion (congrArg Segment.wild heq)
  have hmore : id.splitOn 0x2F ≠ [] := List.splitOn_ne_nil _ _
  rcases hall _ _ hq with hfixed | hroots | ⟨heq, rfl⟩
  · exfalso
    cases hlits : dirSegments s.assetPrefix with
    | nil =>
      rw [hlits] at hfixed
      refine hshadow ?_
      rw [hroot.mp hlits]
      exact shadowed_of_fixed hfixed hmatch
    | cons d ds =>
      rw [hlits, List.map_cons, List.cons_append] at hfixed
      rcases mem_fixed.mp hfixed with ⟨c, heq, -⟩ | ⟨hsite, hclient, heq⟩
      · obtain ⟨-, hnil⟩ := List.cons.inj heq
        obtain ⟨-, rfl⟩ := List.append_eq_nil_iff.mp hnil
        rcases hmatch with hmatch | hmatch
        · exact hmore (matches_nil hmatch)
        · exact absurd (matches_nil hmatch) (by simp)
      · obtain ⟨hd, hrest⟩ := List.cons.inj heq
        cases ds with
        | cons d' ds => exact hlit (List.cons.inj hrest).1
        | nil =>
          refine hfree.client ⟨hsite, hclient, d, hlits, ?_⟩
          obtain rfl : d = lit "http4" := congrArg Segment.s hd
          exact ⟨by decide, by decide⟩
  · exfalso
    unfold Config.roots at hroots
    split_ifs at hroots with hnone
    · cases hroots
    have heq := List.mem_singleton.mp hroots
    cases hlits : dirSegments s.assetPrefix with
    | nil =>
      have hp := hroot.mp hlits
      have hsite := (of_routePrefix s.assetPrefix_eq).2 hp
      exact hfree.root ⟨hsite, hp, fun hpass => hnone ⟨hsite, hpass⟩⟩
    | cons d ds =>
      rw [hlits] at heq
      exact hlit (List.cons.inj heq).1
  · exact ⟨List.append_cancel_left heq, rfl⟩

/-- **A path below the prefix** gets the handler of the prefix, unless it is shadowed. -/
theorem find_names (hp : Plain s.assetPrefix) (hnames : Names s.assetPrefix target id)
    (hshadow : ¬ Shadowed s.cfg s.assetPrefix id) : find s.httpMux target = .handler s.main := by
  obtain ⟨path, rfl, hclean, hsegs, -⟩ := hnames.spec hp (of_routePrefix s.assetPrefix_eq).1
  exact find_dir (fun h => (hclean _ h).1 rfl) (fun h => (hclean _ h).2.1 rfl) (fun h => (hclean _ h).2.2 rfl) hsegs
    (List.splitOn_ne_nil _ _) (s.mem_httpMux hp).1 fun _ _ hq => s.only_names hp hshadow hq

theorem main_site (hsite : s.cfg.siteMode = true) : s.main = .site := by
  unfold main
  rw [hsite]
  rfl

/-- HTTP has another answer than "not found" for a path that names no asset. -/
def Elsewhere (r : HttpRequest) (id : Bytes) : Prop :=
  s.cfg.siteMode = true ∧ ((∃ a, s.pool (id ++ lit "/index.html") = .found a) ∨
    s.spa = true ∧ isNavigation r = true ∧ ∃ a, s.pool (lit "index.html") = .found a)

theorem trimPrefix_append (p id : Bytes) : trimPrefix (p ++ id) p = id := by
  unfold trimPrefix
  rw [if_pos ⟨id, rfl⟩, List.drop_left]

/-- `handleSite` of an ID that is not empty and has no slash at the end. -/
theorem handleSite_append {pool : Bytes → GetResult} {p : Bytes} {spa : Bool} {r : HttpRequest} (hpath : r.path = p ++ id)
    (hmethod : r.method = lit "GET" ∨ r.method = lit "HEAD") (hid : id ≠ [] ∧ ¬ [0x2F] <:+ id) :
    handleSite pool p spa r = match pool id with
      | .found a => .asset a
      | .failed => .unavailable
      | .notFound => match pool (id ++ lit "/index.html") with
        | .found _ => .redirect (r.path ++ lit "/" ++ if r.rawQuery ≠ [] then lit "?" ++ r.rawQuery else [])
        | .notFound | .failed =>
          if spa ∧ isNavigation r then
            match pool (lit "index.html") with
            | .found idx => .asset idx
            | .notFound | .failed => .notFound
          else .notFound := by
  have hslash : ¬ [0x2F] <:+ r.path := by
    rw [hpath]
    intro hsuffix
    obtain ⟨front, hfront⟩ := hsuffix
    rcases List.eq_nil_or_concat id with rfl | ⟨body, c, rfl⟩
    · exact hid.1 rfl
    · rw [List.concat_eq_append, ← List.append_assoc] at hfront
      obtain rfl : 0x2F = c := List.singleton_inj.mp (List.append_inj_right' hfront rfl)
      exact hid.2 ⟨body, List.concat_eq_append.symm⟩
  unfold handleSite
  dsimp only
  rw [if_neg fun h => hmethod.elim h.1 h.2, hpath, trimPrefix_append, if_neg (not_or.mpr hid), ← hpath, if_neg hslash]

/-- What a site answers to a path that names an asset is what `handleSite` makes of the ID. -/
theorem serveHTTP_site (hsite : s.cfg.siteMode = true) (hp : Plain s.assetPrefix) (hnames : Names s.assetPrefix target id)
    (hshadow : ¬ Shadowed s.cfg s.assetPrefix id) {r : HttpRequest} (hreads : r.Reads target)
    (hmethod : r.method = lit "GET" ∨ r.method = lit "HEAD") :
    s.serveHTTP target r = match s.pool id with
      | .found a => .asset a
      | .failed => .unavailable
      | .notFound => match s.pool (id ++ lit "/index.html") with
        | .found _ => .redirect (r.path ++ lit "/" ++ if r.rawQuery ≠ [] then lit "?" ++ r.rawQuery else [])
        | .notFound | .failed =>
          if s.spa ∧ isNavigation r then
            match s.pool (lit "index.html") with
            | .found idx => .asset idx
            | .notFound | .failed => .notFound
          else .notFound := by
  obtain ⟨-, -, -, -, hempty⟩ := hnames.spec hp (of_routePrefix s.assetPrefix_eq).1
  have hpath : r.path = s.assetPrefix ++ id :=
    Option.some.inj (hreads.1.symm.trans (hnames.unescape_eq hp.escape))
  unfold serveHTTP
  rw [s.find_names hp hnames hshadow, s.main_site hsite]
  exact handleSite_append hpath hmethod (of_splitOn hempty)

/-- **What is answered to a path that names an asset**: the asset; and where the pool has
    none, "not found" exactly if no index and no shell stand in for it. -/
theorem serveHTTP_names (hp : Plain s.assetPrefix) (hnames : Names s.assetPrefix target id)
    (hshadow : ¬ Shadowed s.cfg s.assetPrefix id) {r : HttpRequest} (hreads : r.Reads target)
    (hmethod : r.method = lit "GET" ∨ r.method = lit "HEAD") :
    (∀ a, s.pool id = .found a → s.serveHTTP target r = .asset a) ∧
      (s.pool id = .failed → s.serveHTTP target r = .unavailable) ∧
      (s.pool id = .notFound → (s.serveHTTP target r = .notFound ↔ ¬ s.Elsewhere r id)) := by
  cases hsite : s.cfg.siteMode with
  | true =>
    rw [s.serveHTTP_site hsite hp hnames hshadow hreads hmethod]
    unfold Elsewhere
    rw [hsite]
    refine ⟨fun a ha => by rw [ha], fun hfailed => by rw [hfailed], fun hnone => ?_⟩
    rw [hnone]
    dsimp only
    cases hindex : s.pool (id ++ lit "/index.html") with
    | found a =>
      constructor
      · intro h
        cases h
      · intro h
        exact absurd ⟨rfl, .inl ⟨a, rfl⟩⟩ h
    | notFound | failed =>
      dsimp only
      by_cases hnav : s.spa = true ∧ isNavigation r = true
      · rw [if_pos hnav]
        cases hshell : s.pool (lit "index.html") with
        | found a =>
          constructor
          · intro h
            cases h
          · intro h
            exact absurd ⟨rfl, .inr ⟨hnav.1, hnav.2, a, rfl⟩⟩ h
        | notFound | failed =>
          refine iff_of_true rfl ?_
          rintro ⟨-, ⟨a, ha⟩ | ⟨-, -, a, ha⟩⟩ <;> cases ha
      · rw [if_neg hnav]
        refine iff_of_true rfl ?_
        rintro ⟨-, ⟨a, ha⟩ | ⟨hspa, hnavigation, -⟩⟩
        · cases ha
        · exact hnav ⟨hspa, hnavigation⟩
  | false =>
    have hdir := (of_routePrefix s.assetPrefix_eq).1
    obtain ⟨-, -, -, -, hempty⟩ := hnames.spec hp hdir
    have hpath : r.path = s.assetPrefix ++ id :=
      Option.some.inj (hreads.1.symm.trans (hnames.unescape_eq hp.escape))
    unfold serveHTTP
    rw [s.find_names hp hnames hshadow]
    unfold main Elsewhere
    rw [hsite]
    show (∀ a, _ → stripPrefix s.assetPrefix r (handleAsset s.pool) = _) ∧
      (_ → stripPrefix s.assetPrefix r (handleAsset s.pool) = _) ∧
      (_ → (stripPrefix s.assetPrefix r (handleAsset s.pool) = _ ↔ _))
    have hpos : 0 < s.assetPrefix.length := by
      obtain ⟨rest, heq⟩ := hdir.1
      rw [← heq]
      simp
    have hraw : r.rawPath = [] ∨ (trimPrefix r.rawPath s.assetPrefix).length < r.rawPath.length := by
      refine hreads.2.imp (fun h => h) fun hraw => ?_
      obtain ⟨rest, -, rfl, -⟩ := hnames
      rw [hraw, trimPrefix_append, List.length_append]
      omega
    unfold stripPrefix handleAsset
    dsimp only
    rw [hpath, trimPrefix_append, if_pos ⟨by rw [List.length_append]; omega, hraw⟩,
      if_neg fun h => hmethod.elim h.1 h.2, if_neg (not_or.mpr (of_splitOn hempty))]
    refine ⟨fun a ha => by rw [ha], fun hfailed => by rw [hfailed], fun hnone => ?_⟩
    rw [hnone]
    refine iff_of_true rfl ?_
    rintro ⟨hfalse, -⟩
    cases hfalse

end Site

end

end Http4.Server
