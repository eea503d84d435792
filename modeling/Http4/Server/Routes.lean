import Http4.Data.ServeMux
import Http4.Wire.Packet

/-!
# Routes at start-up

The prefix checks and the route registration of `Start` in
`server/internal/server/server.go` (lines 202–221, 291–338), with `checkAssetPrefix`
of `assets_http.go`. Only the parts of `Config` that decide the routes are kept.

Main results:

* `fits_httpPatterns_iff`: the patterns of the HTTP mux fit if the prefix has no
  conflict with the fixed ones.
* `patternsDistinct_iff`: when the patterns are well-formed and none coincide.
* `start_iff`: that, and when `Start` does not panic.
-/

namespace Http4.Server

open ServeMux
open Wire (lit)

/-! ## The code -/

/-- The fields of `Config` (from line 43) that decide the routes. -/
structure Config where
  siteDir : Bytes
  mountAt : Bytes
  assetPrefix : Bytes
  passThrough : Bytes
  /-- `ClientFS != nil`. -/
  clientFS : Bool
  noH3 : Bool
  altSvc : Bool

def webTransportPath : Bytes := lit "/wt"
def echoPath : Bytes := lit "/echo"
def h3Path : Bytes := lit "/h3/"
def clientPath : Bytes := lit "/http4/"
def serviceWorker : Bytes := lit "/http4-sw.js"
def defaultAssetPrefix : Bytes := lit "/assets/"

/-- The errors of the prefix checks and of `newPassThrough`, with what they quote. -/
inductive StartError
  /-- asset prefix %q must start and end with / and not be the root -/
  | assetPrefix (p : Bytes)
  /-- -mount-at: asset prefix %q must start and end with / and not be the root -/
  | mountAt (p : Bytes)
  /-- -mount-at %q would cover %q, which the client needs -/
  | covers (p reserved : Bytes)
  | passThrough (origin : Bytes)

/-- `checkAssetPrefix` finds no error. -/
def checkAssetPrefix (p : Bytes) : Bool :=
  (lit "/").isPrefixOf p && (lit "/").isSuffixOf p && p != lit "/"

/-- `cmp.Or` of two strings. -/
def cmpOr (a b : Bytes) : Bytes := if a = [] then b else a

/-- `siteMode` (line 202). -/
def Config.siteMode (cfg : Config) : Bool := cfg.siteDir != []

/-- `assetPrefix` and its checks (lines 202–221). -/
def Config.routePrefix (cfg : Config) : Except StartError Bytes :=
  if cfg.siteMode then
    let p := cmpOr cfg.mountAt (lit "/")
    if p = lit "/" then .ok p
    else if ¬ checkAssetPrefix p then .error (.mountAt p)
    else
      match [clientPath, serviceWorker, lit "/config.json"].find? fun reserved => p.isPrefixOf reserved with
      | some reserved => .error (.covers p reserved)
      | none => .ok p
  else
    let p := cmpOr cfg.assetPrefix defaultAssetPrefix
    if checkAssetPrefix p then .ok p else .error (.assetPrefix p)

/-- The patterns that `httpMux` gets before the prefix (lines 292–298). -/
def Config.fixedPatterns (cfg : Config) : List Bytes :=
  [lit "/config.json", lit "/metrics.json"] ++
    if cfg.siteMode ∧ cfg.clientFS then [clientPath, serviceWorker] else []

/-- The patterns that it gets after it (lines 300–314, 317). -/
def Config.catchAll (cfg : Config) : List Bytes :=
  if cfg.siteMode ∧ cfg.passThrough = [] then [] else [lit "/"]

/-- All patterns of `httpMux`, for the mount `p`. -/
def Config.httpPatterns (cfg : Config) (p : Bytes) : List Bytes := cfg.fixedPatterns ++ p :: cfg.catchAll

/-- The patterns of `wtMux` (lines 320–337). -/
def Config.wtPatterns (cfg : Config) : List Bytes :=
  [webTransportPath, echoPath] ++ (if cfg.noH3 then [] else [h3Path]) ++ if cfg.altSvc then [lit "/"] else []

/-- What becomes of `Start`, as far as its routes decide it. -/
inductive Outcome
  | error (e : StartError)
  | panic
  | started (httpMux wtMux : List Pattern)

/-- The route part of `Start`; `newPassThrough` says whether an origin is accepted. -/
def start (validName newPassThrough : Bytes → Bool) (cfg : Config) : Outcome :=
  match cfg.routePrefix with
  | .error e => .error e
  | .ok p =>
    if cfg.siteMode ∧ cfg.passThrough ≠ [] ∧ ¬ newPassThrough cfg.passThrough then
      match registerAll validName [] (cfg.fixedPatterns ++ [p]) with
      | none => .panic
      | some _ => .error (.passThrough cfg.passThrough)
    else
      match registerAll validName [] (cfg.httpPatterns p), registerAll validName [] cfg.wtPatterns with
      | some httpMux, some wtMux => .started httpMux wtMux
      | _, _ => .panic

/-! ## The fixed patterns -/

section

variable (validName : Bytes → Bool)

/-- How the fixed patterns of `httpMux` are read. -/
def Config.fixed (cfg : Config) : List Pattern :=
  [[literal (lit "config.json")], [literal (lit "metrics.json")]] ++
    if cfg.siteMode ∧ cfg.clientFS then
      [[literal (lit "http4"), subtree], [literal (lit "http4-sw.js")]] else []

/-- How the patterns after the prefix are read. -/
def Config.roots (cfg : Config) : List Pattern :=
  if cfg.siteMode ∧ cfg.passThrough = [] then [] else [[subtree]]

theorem mapM_fixedPatterns (cfg : Config) :
    cfg.fixedPatterns.mapM (parsePattern validName) = some cfg.fixed := by
  unfold Config.fixedPatterns Config.fixed
  split_ifs <;> rfl

theorem mapM_catchAll (cfg : Config) : cfg.catchAll.mapM (parsePattern validName) = some cfg.roots := by
  unfold Config.catchAll Config.roots
  split_ifs <;> rfl

theorem mapM_httpPatterns (cfg : Config) {p : Bytes} {A : Pattern} (hA : parsePattern validName p = some A) :
    (cfg.httpPatterns p).mapM (parsePattern validName) = some (cfg.fixed ++ A :: cfg.roots) := by
  unfold Config.httpPatterns
  rw [List.mapM_append, mapM_fixedPatterns, List.mapM_cons, hA, mapM_catchAll]
  rfl

end

/-- All fixed patterns of `httpMux`, whatever the mode. -/
def allFixed : List Pattern :=
  [[literal (lit "config.json")], [literal (lit "metrics.json")], [literal (lit "http4"), subtree],
    [literal (lit "http4-sw.js")], [subtree]]

theorem fixed_sublist (cfg : Config) : (cfg.fixed ++ cfg.roots).Sublist allFixed := by
  unfold Config.fixed Config.roots allFixed
  split_ifs
  · exact .cons_cons _ (.cons_cons _ (.cons_cons _ (.cons_cons _ (.cons _ .slnil))))
  · exact .cons_cons _ (.cons_cons _ (.cons_cons _ (.cons_cons _ (.cons_cons _ .slnil))))
  · exact .cons_cons _ (.cons_cons _ (.cons _ (.cons _ (.cons _ .slnil))))
  · exact .cons_cons _ (.cons_cons _ (.cons _ (.cons _ (.cons_cons _ .slnil))))

section

variable {validName : Bytes → Bool} {cfg : Config} {p : Bytes} {A : Pattern}

/-- The patterns fit if the prefix has no conflict with the fixed ones. -/
theorem fits_httpPatterns_iff {R : Pattern → Pattern → Prop} (hfixed : allFixed.Pairwise fun p q => ¬ R q p)
    (hA : parsePattern validName p = some A) :
    Fits validName R (cfg.httpPatterns p) ↔ (∀ q ∈ cfg.fixed, ¬ R A q) ∧ ∀ q ∈ cfg.roots, ¬ R q A := by
  have hpair := hfixed.sublist (fixed_sublist cfg)
  rw [List.pairwise_append] at hpair
  obtain ⟨h1, h2, h3⟩ := hpair
  unfold Fits
  rw [mapM_httpPatterns validName cfg hA]
  constructor
  · rintro ⟨ps, hps, hfit⟩
    obtain rfl := Option.some.inj hps
    rw [List.pairwise_append, List.pairwise_cons] at hfit
    exact ⟨fun q hq => hfit.2.2 q hq A List.mem_cons_self, hfit.2.1.1⟩
  · rintro ⟨hbefore, hafter⟩
    refine ⟨_, rfl, ?_⟩
    rw [List.pairwise_append, List.pairwise_cons]
    refine ⟨h1, ⟨hafter, h2⟩, ?_⟩
    intro q hq r hr
    rcases List.mem_cons.mp hr with rfl | hr
    · exact hbefore q hq
    · exact h3 q hq r hr

/-- Nothing fits if the prefix cannot be read. -/
theorem not_fits_httpPatterns {R : Pattern → Pattern → Prop} (hA : parsePattern validName p = none) :
    ¬ Fits validName R (cfg.httpPatterns p) := by
  rintro ⟨ps, hps, -⟩
  unfold Config.httpPatterns at hps
  rw [List.mapM_append, mapM_fixedPatterns, List.mapM_cons, hA] at hps
  cases hps

/-- The patterns of `wtMux` always fit. -/
theorem fits_wtPatterns {R : Pattern → Pattern → Prop}
    (h : ([[literal (lit "wt")], [literal (lit "echo")], [literal (lit "h3"), subtree], [subtree]] :
      List Pattern).Pairwise fun p q => ¬ R q p) :
    Fits validName R cfg.wtPatterns := by
  unfold Fits Config.wtPatterns
  cases cfg.noH3 <;> cases cfg.altSvc
  · exact ⟨_, rfl, h.sublist (.cons_cons _ (.cons_cons _ (.cons_cons _ (.cons _ .slnil))))⟩
  · exact ⟨_, rfl, h⟩
  · exact ⟨_, rfl, h.sublist (.cons_cons _ (.cons_cons _ (.cons _ (.cons _ .slnil))))⟩
  · exact ⟨_, rfl, h.sublist (.cons_cons _ (.cons_cons _ (.cons _ (.cons_cons _ .slnil))))⟩

/-! ## The prefix -/

/-- A prefix that passes the checks starts and ends with a slash; only a site is
    mounted at the root. -/
theorem of_routePrefix (h : cfg.routePrefix = .ok p) : IsDir p ∧ (p = lit "/" → cfg.siteMode = true) := by
  have hdir : ∀ p, checkAssetPrefix p = true → IsDir p ∧ p ≠ lit "/" := by
    intro p hp
    unfold checkAssetPrefix at hp
    rw [Bool.and_eq_true, Bool.and_eq_true, List.isPrefixOf_iff_prefix, List.isSuffixOf_iff_suffix, bne_iff_ne] at hp
    exact ⟨hp.1, hp.2⟩
  unfold Config.routePrefix at h
  dsimp only at h
  split_ifs at h with hsite hroot hcheck hcheck
  · obtain rfl := Except.ok.inj h
    rw [hroot]
    exact ⟨⟨by decide, by decide⟩, fun _ => hsite⟩
  · split at h
    · cases h
    · obtain rfl := Except.ok.inj h
      exact ⟨(hdir _ hcheck).1, fun _ => hsite⟩
  · obtain rfl := Except.ok.inj h
    exact ⟨(hdir _ hcheck).1, fun hp => absurd hp (hdir _ hcheck).2⟩

/-- How a prefix other than the root is read. -/
theorem parsePattern_prefix (hdir : IsDir p) (hne : p ≠ lit "/") (hA : parsePattern validName p = some A) :
    ∃ seg rest s more, dirSegments p = seg :: rest ∧ A = s :: more ++ [subtree] ∧ s.multi = false ∧
      (∀ t ∈ more, t.multi = false) ∧ (more = [] ↔ rest = []) ∧ (s.wild = true ↔ 0x7B ∈ seg) ∧
      (0x7B ∉ seg → s.s = pathUnescape seg) := by
  obtain ⟨-, init, rfl, hinit, -⟩ := (parsePattern_dir hdir).mp hA
  obtain ⟨path, -, -, hroot⟩ := hdir.splitOn
  cases hsegs : dirSegments p with
  | nil => exact absurd (hroot.mp hsegs) hne
  | cons seg rest =>
    rw [hsegs, List.mapM_cons] at hinit
    cases hs : parseSegment validName false seg with
    | none => simp [hs] at hinit
    | some s =>
      cases hm : rest.mapM (parseSegment validName false) with
      | none => simp [hs, hm] at hinit
      | some more =>
        rw [hs, hm] at hinit
        obtain rfl : s :: more = init := Option.some.inj hinit
        obtain ⟨hmulti, hlen⟩ := of_mapM_parseSegment hm
        refine ⟨seg, rest, s, more, rfl, rfl, ?_, hmulti, ?_, ?_, ?_⟩
        · rcases parseSegment_false_iff.mp hs with ⟨-, rfl⟩ | ⟨name, -, -, rfl⟩ <;> rfl
        · rw [← List.length_eq_zero_iff, hlen, List.length_eq_zero_iff]
        · rcases parseSegment_false_iff.mp hs with ⟨hno, rfl⟩ | ⟨name, rfl, -, rfl⟩
          · simpa using hno
          · simpa using mem_braced name
        · intro hno
          rcases parseSegment_false_iff.mp hs with ⟨-, rfl⟩ | ⟨name, rfl, -, -⟩
          · rfl
          · exact absurd (mem_braced name) hno

/-! ## When the routes are sound -/

/-- The property of the patterns that Go asks for: each mux can read its patterns,
    and no two of them coincide. -/
def PatternsDistinct (validName : Bytes → Bool) (cfg : Config) (p : Bytes) : Prop :=
  Fits validName Coincide (cfg.httpPatterns p) ∧ Fits validName Coincide cfg.wtPatterns

/-- The prefix is a pattern; a site at the root has no pass-through; and no prefix
    spells the client's path with percent-escapes. -/
structure PrefixFree (validName : Bytes → Bool) (cfg : Config) (p : Bytes) : Prop where
  pattern : PatternDir validName p
  root : ¬ (cfg.siteMode = true ∧ p = lit "/" ∧ cfg.passThrough ≠ [])
  client : ¬ (cfg.siteMode = true ∧ cfg.clientFS = true ∧
    ∃ seg, dirSegments p = [seg] ∧ 0x7B ∉ seg ∧ pathUnescape seg = lit "http4")

/-- A prefix of several segments, the first a wildcard, beside the client's path:
    each of the two patterns matches requests that the other does not. -/
def Crossing (cfg : Config) (p : Bytes) : Prop :=
  cfg.siteMode = true ∧ cfg.clientFS = true ∧ ∃ seg rest, dirSegments p = seg :: rest ∧ rest ≠ [] ∧ 0x7B ∈ seg

theorem mem_fixed {q : Pattern} :
    q ∈ cfg.fixed ↔ (∃ c, q = [literal c] ∧ q ∈ cfg.fixed) ∨
      (cfg.siteMode = true ∧ cfg.clientFS = true ∧ q = [literal (lit "http4"), subtree]) := by
  unfold Config.fixed
  split_ifs with h
  · simp only [List.cons_append, List.nil_append, List.mem_cons, List.not_mem_nil, or_false, h, true_and]
    constructor
    · rintro (rfl | rfl | rfl | rfl)
      · exact .inl ⟨_, rfl, .inl rfl⟩
      · exact .inl ⟨_, rfl, .inr (.inl rfl)⟩
      · exact .inr rfl
      · exact .inl ⟨_, rfl, .inr (.inr (.inr rfl))⟩
    · rintro (⟨c, -, h⟩ | rfl)
      · exact h
      · exact .inr (.inr (.inl rfl))
  · have hno : ¬ (cfg.siteMode = true ∧ cfg.clientFS = true ∧ q = [literal (lit "http4"), subtree]) :=
      fun hc => h ⟨hc.1, hc.2.1⟩
    simp only [List.append_nil, List.mem_cons, List.not_mem_nil, or_false, hno]
    constructor
    · rintro (rfl | rfl)
      · exact ⟨_, rfl, .inl rfl⟩
      · exact ⟨_, rfl, .inr rfl⟩
    · rintro ⟨c, -, h⟩
      exact h

/-- For a prefix other than the root only the client's path is in question. -/
theorem fits_prefix_iff {R : Pattern → Pattern → Prop} (hfixed : allFixed.Pairwise fun p q => ¬ R q p)
    (hA : parsePattern validName p = some A) (hleaf : ∀ c, ¬ R A [literal c]) (hroot : ¬ R [subtree] A) :
    Fits validName R (cfg.httpPatterns p) ↔
      ¬ (cfg.siteMode = true ∧ cfg.clientFS = true ∧ R A [literal (lit "http4"), subtree]) := by
  rw [fits_httpPatterns_iff hfixed hA]
  constructor
  · rintro ⟨hbefore, -⟩ ⟨hsite, hclient, hR⟩
    exact hbefore _ (mem_fixed.mpr (.inr ⟨hsite, hclient, rfl⟩)) hR
  · intro hno
    constructor
    · intro q hq hR
      rcases mem_fixed.mp hq with ⟨c, rfl, -⟩ | ⟨hsite, hclient, rfl⟩
      · exact hleaf c hR
      · exact hno ⟨hsite, hclient, hR⟩
    · intro q hq
      unfold Config.roots at hq
      split_ifs at hq
      · cases hq
      · rw [List.mem_singleton.mp hq]
        exact hroot

/-- At the root only the pass-through is in question. -/
theorem fits_root_iff {R : Pattern → Pattern → Prop} (hfixed : allFixed.Pairwise fun p q => ¬ R q p)
    (hsite : cfg.siteMode = true) (hleaf : ∀ c, ¬ R [subtree] [literal c])
    (hclient : ¬ R [subtree] [literal (lit "http4"), subtree]) (hroot : R [subtree] [subtree]) :
    Fits validName R (cfg.httpPatterns (lit "/")) ↔ cfg.passThrough = [] := by
  have hA : parsePattern validName (lit "/") = some [subtree] := rfl
  rw [fits_httpPatterns_iff hfixed hA]
  unfold Config.roots
  rw [hsite]
  constructor
  · rintro ⟨-, hafter⟩
    by_contra hpass
    rw [if_neg (by simp [hpass])] at hafter
    exact hafter _ (List.mem_singleton_self _) hroot
  · intro hpass
    rw [if_pos ⟨rfl, hpass⟩]
    refine ⟨?_, by simp⟩
    intro q hq hR
    rcases mem_fixed.mp hq with ⟨c, rfl, -⟩ | ⟨-, -, rfl⟩
    · exact hleaf c hR
    · exact hclient hR

theorem allFixed_distinct : allFixed.Pairwise fun p q => ¬ Coincide q p := by
  unfold Coincide
  decide

theorem allFixed_unconflicting : allFixed.Pairwise fun p q => ¬ conflictsWith q p = true := by
  decide

/-- The patterns are well-formed and distinct exactly for a free prefix. -/
theorem patternsDistinct_iff (hp : cfg.routePrefix = .ok p) :
    PatternsDistinct validName cfg p ↔ PrefixFree validName cfg p := by
  obtain ⟨hdir, hroot⟩ := of_routePrefix hp
  have hwt : Fits validName Coincide cfg.wtPatterns := by
    apply fits_wtPatterns
    unfold Coincide
    decide
  have hdrop : PatternsDistinct validName cfg p ↔ Fits validName Coincide (cfg.httpPatterns p) :=
    and_iff_left hwt
  rw [hdrop]
  by_cases hne : p = lit "/"
  · subst hne
    have hsite := hroot rfl
    rw [fits_root_iff allFixed_distinct hsite (by simp [Coincide, literal, subtree, Segment.anonymous])
      (by simp [Coincide]) rfl]
    constructor
    · intro hpass
      refine ⟨(parsePattern_dir_isSome hdir).mp ⟨_, rfl⟩, fun h => h.2.2 hpass, ?_⟩
      rintro ⟨-, -, seg, hseg, -⟩
      cases hseg
    · intro h
      by_contra hpass
      exact h.root ⟨hsite, rfl, hpass⟩
  · cases hA : parsePattern validName p with
    | none =>
      apply iff_of_false (not_fits_httpPatterns hA)
      intro h
      obtain ⟨A, hA'⟩ := (parsePattern_dir_isSome hdir).mpr h.pattern
      rw [hA] at hA'
      cases hA'
    | some A =>
      obtain ⟨seg, rest, s, more, hsegs, rfl, hs, hmore, hnil, hwild, hlit⟩ := parsePattern_prefix hdir hne hA
      have hmulti : s.anonymous.multi = false := by
        unfold Segment.anonymous
        split_ifs <;> exact hs
      have hcoincide : Coincide (s :: more ++ [subtree]) [literal (lit "http4"), subtree] ↔
          rest = [] ∧ 0x7B ∉ seg ∧ pathUnescape seg = lit "http4" := by
        rw [← hnil]
        unfold Coincide
        cases more with
        | nil =>
          by_cases hb : (0x7B : UInt8) ∈ seg
          · simp [Segment.anonymous, literal, hwild.mpr hb, hb]
          · have hw : s.wild = false := by simpa [hb] using hwild
            rw [← hlit hb]
            simp [Segment.anonymous, literal, hw, hb, hs, Segment.ext_iff]
        | cons t more => simp
      rw [fits_prefix_iff allFixed_distinct hA (by simp [Coincide]) (by
        intro h
        simp [Coincide] at h), hcoincide]
      constructor
      · intro h
        refine ⟨(parsePattern_dir_isSome hdir).mp ⟨_, hA⟩, fun hr => hne hr.2.1, ?_⟩
        rintro ⟨hsite, hclient, seg', hseg', hb, hu⟩
        rw [hsegs, List.cons.injEq] at hseg'
        obtain ⟨rfl, hrest⟩ := hseg'
        exact h ⟨hsite, hclient, hrest, hb, hu⟩
      · rintro h ⟨hsite, hclient, rfl, hb, hu⟩
        exact h.client ⟨hsite, hclient, seg, hsegs, hb, hu⟩

/-- Registration goes through exactly for a free prefix that does not cross the
    client's path. -/
theorem fits_conflicts_iff (hp : cfg.routePrefix = .ok p) :
    Fits validName (fun p q => conflictsWith p q = true) (cfg.httpPatterns p) ↔
      PrefixFree validName cfg p ∧ ¬ Crossing cfg p := by
  obtain ⟨hdir, hroot⟩ := of_routePrefix hp
  by_cases hne : p = lit "/"
  · subst hne
    have hsite := hroot rfl
    have hleaf : ∀ c, ¬ conflictsWith [subtree] [literal c] = true := fun c h => Bool.false_ne_true h
    rw [fits_root_iff allFixed_unconflicting hsite hleaf (by decide) (by decide)]
    constructor
    · intro hpass
      refine ⟨⟨(parsePattern_dir_isSome hdir).mp ⟨_, rfl⟩, fun h => h.2.2 hpass, ?_⟩, ?_⟩
      · rintro ⟨-, -, seg, hseg, -⟩
        cases hseg
      · rintro ⟨-, -, seg, rest, hseg, -⟩
        cases hseg
    · rintro ⟨h, -⟩
      by_contra hpass
      exact h.root ⟨hsite, rfl, hpass⟩
  · cases hA : parsePattern validName p with
    | none =>
      apply iff_of_false (not_fits_httpPatterns hA)
      rintro ⟨h, -⟩
      obtain ⟨A, hA'⟩ := (parsePattern_dir_isSome hdir).mpr h.pattern
      rw [hA] at hA'
      cases hA'
    | some A =>
      obtain ⟨seg, rest, s, more, hsegs, rfl, hs, hmore, hnil, hwild, hlit⟩ := parsePattern_prefix hdir hne hA
      have hleaf : ∀ c, ¬ conflictsWith (s :: more ++ [subtree]) [literal c] = true := by
        intro c
        unfold conflictsWith
        rw [comparePaths_dir_leaf]
        decide
      have hunder : ¬ conflictsWith [subtree] (s :: more ++ [subtree]) = true := by
        unfold conflictsWith
        rw [comparePaths_root_dir hs]
        decide
      have hclient : conflictsWith (s :: more ++ [subtree]) [literal (lit "http4"), subtree] = true ↔
          (rest = [] ∧ 0x7B ∉ seg ∧ pathUnescape seg = lit "http4") ∨ (rest ≠ [] ∧ 0x7B ∈ seg) := by
        unfold conflictsWith
        rw [comparePaths_dir_dir hs hmore (by decide), ← hwild, ne_eq, ← hnil]
        by_cases hb : s.wild = true
        · by_cases hm : more = [] <;> simp [hb, hm]
        · rw [← hlit (hwild.not.mp hb)]
          by_cases hm : more = [] <;> by_cases hd : s.s = lit "http4" <;> simp [hb, hm, hd]
      rw [fits_prefix_iff allFixed_unconflicting hA hleaf hunder, hclient]
      constructor
      · intro h
        refine ⟨⟨(parsePattern_dir_isSome hdir).mp ⟨_, hA⟩, fun hr => hne hr.2.1, ?_⟩, ?_⟩
        · rintro ⟨hsite, hcl, seg', hseg', hb, hu⟩
          rw [hsegs, List.cons.injEq] at hseg'
          obtain ⟨rfl, hrest⟩ := hseg'
          exact h ⟨hsite, hcl, .inl ⟨hrest, hb, hu⟩⟩
        · rintro ⟨hsite, hcl, seg', rest', hseg', hrest, hb⟩
          rw [hsegs, List.cons.injEq] at hseg'
          obtain ⟨rfl, rfl⟩ := hseg'
          exact h ⟨hsite, hcl, .inr ⟨hrest, hb⟩⟩
      · rintro ⟨h, hcross⟩ ⟨hsite, hcl, ⟨rfl, hb, hu⟩ | ⟨hrest, hb⟩⟩
        · exact h.client ⟨hsite, hcl, seg, hsegs, hb, hu⟩
        · exact hcross ⟨hsite, hcl, seg, rest, hsegs, hrest, hb⟩

/-- The routes of a configuration that passes the checks: the patterns are
    well-formed and distinct exactly for a free prefix, and `Start` does not panic
    exactly if that prefix does not cross the client's path either. -/
theorem start_iff {newPassThrough : Bytes → Bool} (hp : cfg.routePrefix = .ok p)
    (hpass : cfg.siteMode = true → cfg.passThrough ≠ [] → newPassThrough cfg.passThrough = true) :
    (PatternsDistinct validName cfg p ↔ PrefixFree validName cfg p) ∧
      (start validName newPassThrough cfg ≠ .panic ↔ PrefixFree validName cfg p ∧ ¬ Crossing cfg p) := by
  refine ⟨patternsDistinct_iff hp, ?_⟩
  have hwt : (registerAll validName [] cfg.wtPatterns).isSome := by
    rw [registerAll_nil_iff]
    apply fits_wtPatterns
    decide
  have hbad : ¬ (cfg.siteMode = true ∧ cfg.passThrough ≠ [] ∧ ¬ newPassThrough cfg.passThrough = true) :=
    fun h => h.2.2 (hpass h.1 h.2.1)
  rw [← fits_conflicts_iff hp, ← registerAll_nil_iff]
  unfold start
  rw [hp]
  dsimp only
  rw [if_neg hbad]
  obtain ⟨wtMux, hwtMux⟩ := Option.isSome_iff_exists.mp hwt
  rw [hwtMux]
  cases registerAll validName [] (cfg.httpPatterns p) with
  | none => simp
  | some httpMux => simp

end

/-! ## Two configurations -/

/-- `http4d serve -pass-through http://localhost:3000 site`: `-mount-at` is left at
    its default. -/
def passThroughAtRoot : Config where
  siteDir := lit "site"
  mountAt := lit "/"
  assetPrefix := []
  passThrough := lit "http://localhost:3000"
  clientFS := true
  noH3 := true
  altSvc := false

/-- The checks pass, the root is registered twice, and `Start` panics. -/
theorem start_passThroughAtRoot :
    passThroughAtRoot.routePrefix = .ok (lit "/") ∧
      ¬ PatternsDistinct (fun _ => true) passThroughAtRoot (lit "/") ∧
      start (fun _ => true) (fun _ => true) passThroughAtRoot = .panic := by
  have hp : passThroughAtRoot.routePrefix = .ok (lit "/") := rfl
  refine ⟨hp, ?_, rfl⟩
  intro h
  rw [patternsDistinct_iff hp] at h
  exact h.root ⟨rfl, rfl, by decide⟩

/-- The same with `-mount-at /_next/static/`. -/
def passThroughBesideMount : Config := { passThroughAtRoot with mountAt := lit "/_next/static/" }

/-- The server starts, and no two of its patterns clash. -/
theorem start_passThroughBesideMount :
    start (fun _ => true) (fun _ => true) passThroughBesideMount ≠ .panic ∧
      PrefixFree (fun _ => true) passThroughBesideMount (lit "/_next/static/") ∧
      PatternsDistinct (fun _ => true) passThroughBesideMount (lit "/_next/static/") := by
  obtain ⟨hdistinct, hpanic⟩ :=
    @start_iff (fun _ => true) passThroughBesideMount (lit "/_next/static/") (fun _ => true) rfl fun _ _ => rfl
  have hstarts : start (fun _ => true) (fun _ => true) passThroughBesideMount ≠ .panic := by
    intro h
    cases h
  obtain ⟨hfree, -⟩ := hpanic.mp hstarts
  exact ⟨hstarts, hfree, hdistinct.mpr hfree⟩

end Http4.Server
