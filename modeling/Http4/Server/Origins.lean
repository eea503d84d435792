import Http4.Data.GoStd
import Http4.Wire.Packet

/-!
# Admission of origins

`allowedOrigin` of `server/internal/server/server.go` (lines 527–585). Origins are
normalised when the server starts and again for each request; `net/url` and `net`
are parameters.

Main results:

* `normaliseOrigin_eq_iff`: a configured origin and a header have one normal form
  exactly if the origin is the header's own and is spelt as the browser spells it.
* `allowedOrigin_iff`: what is admitted; `sameOrigin_of_allowedOrigin`: never a
  foreign origin.
* `allowedOrigin_exact_iff`: when admission is exactly same-origin.
-/

/-- The fields of `Server` (lines 165–177) that admission reads. -/
structure Http4.Server where
  origins : List Bytes
  httpScheme : Bytes
  httpPort : ℕ

namespace Http4.Server

open GoStd
open Wire (lit)

/-! ## The code -/

/-- What the code reads of a `url.URL`; `user` is `User != nil`. -/
structure Url where
  scheme : Bytes
  hostname : Bytes
  port : Bytes
  path : Bytes
  rawQuery : Bytes
  user : Bool
deriving DecidableEq

/-- `net.JoinHostPort`: a host with colons is put into brackets. -/
def joinHostPort (host port : Bytes) : Bytes :=
  if 0x3A ∈ host then 0x5B :: host ++ 0x5D :: 0x3A :: port else host ++ 0x3A :: port

/-- The port that `normaliseOrigin` drops (line 582). -/
def Url.DefaultPort (u : Url) : Prop :=
  (u.scheme = lit "https" ∧ u.port = lit "443") ∨ (u.scheme = lit "http" ∧ u.port = lit "80")

instance (u : Url) : Decidable u.DefaultPort := inferInstanceAs (Decidable (_ ∨ _))

section

-- `url.Parse`, and whether `net.ParseIP` reads a loopback address.
variable (parse : Bytes → Option Url) (loopback : Bytes → Bool)

/-- `normaliseOrigin` (lines 575–585). -/
def normaliseOrigin (origin : Bytes) : Bytes :=
  match parse origin with
  | none => origin
  | some u =>
    let host := if u.port ≠ [] ∧ ¬ u.DefaultPort then joinHostPort u.hostname u.port else u.hostname
    u.scheme ++ lit "://" ++ host

/-- The checks of `normaliseOrigins` on one origin (lines 563–565). -/
def wellFormed (origin : Bytes) : Bool :=
  match parse origin with
  | none => false
  | some u =>
    (u.scheme == lit "http" || u.scheme == lit "https") && u.hostname != [] && u.path == [] &&
      u.rawQuery == [] && !u.user

/-- `normaliseOrigins` (lines 561–572); the error names the origin that is refused. -/
def normaliseOrigins : List Bytes → Except Bytes (List Bytes)
  | [] => .ok []
  | o :: rest =>
    if wellFormed parse o then
      match normaliseOrigins rest with
      | .error bad => .error bad
      | .ok out => .ok (normaliseOrigin parse o :: out)
    else .error o

/-- `isLoopbackOrigin` (lines 537–547). -/
def isLoopbackOrigin (origin scheme : Bytes) (httpPort : ℕ) : Bool :=
  match parse origin with
  | none => false
  | some u =>
    if u.scheme ≠ scheme ∨ u.port ≠ itoa httpPort then false
    else if u.hostname = lit "localhost" then true
    else loopback u.hostname

/-- `allowedOrigin` (lines 527–533), on the `Origin` header. -/
def allowedOrigin (s : Server) (origin : Bytes) : Bool :=
  isLoopbackOrigin parse loopback origin s.httpScheme s.httpPort ||
    (origin != [] && s.origins.contains (normaliseOrigin parse origin))

end

/-! ## Origins -/

/-- The port that a scheme implies. -/
def defaultPort (scheme : Bytes) : Option ℕ :=
  if scheme = lit "https" then some 443 else if scheme = lit "http" then some 80 else none

/-- Host names have no colon and IPv6 literals at least two; brackets are cut off. -/
def HostForm (host : Bytes) : Prop := host.count 0x3A ≠ 1 ∧ host.head? ≠ some 0x5B

/-- An origin as a browser has it: in lower case, without its scheme's default port. -/
structure Origin where
  scheme : Bytes
  host : Bytes
  port : Option ℕ
  scheme_form : 0x3A ∉ scheme
  host_form : HostForm host
  host_lower : host.map asciiLower = host
  port_elided : ∀ p, port = some p → defaultPort scheme ≠ some p

/-- The text of a port. -/
def portText : Option ℕ → Bytes
  | none => []
  | some p => itoa p

/-- A host, with its port if it has one. -/
def hostText (host port : Bytes) : Bytes :=
  if port ≠ [] then joinHostPort host port else if 0x3A ∈ host then 0x5B :: host ++ [0x5D] else host

/-- The `Origin` header of a page; `none` is an opaque origin. -/
def header : Option Origin → Bytes
  | none => lit "null"
  | some o => o.scheme ++ lit "://" ++ hostText o.host (portText o.port)

/-- What `net/url` documents of a header. -/
def parts : Option Origin → Url
  | none => ⟨[], [], [], lit "null", [], false⟩
  | some o => ⟨o.scheme, o.host, portText o.port, [], [], false⟩

/-- A URL's port is empty or a number. -/
structure Url.Documented (u : Url) : Prop where
  host : HostForm u.hostname
  port : u.port = [] ∨ ∃ p, digits u.port = some p

/-- `net/url` does as documented on the configured origins and the header. -/
structure Documented (parse : Bytes → Option Url) (configured : List Bytes) (o : Option Origin) : Prop where
  header : parse (header o) = some (parts o)
  configured : ∀ c ∈ configured, ∀ u, parse c = some u → u.Documented

/-- The port that an origin stands for. -/
def Origin.effectivePort (o : Origin) : Option ℕ := o.port.orElse fun _ => defaultPort o.scheme

/-- The port that a URL stands for. -/
def Url.effectivePort (u : Url) : Option ℕ := if u.port = [] then defaultPort u.scheme else digits u.port

/-- A URL of the same scheme, host and port as an origin. -/
structure Url.Matches (u : Url) (o : Origin) : Prop where
  scheme : u.scheme = o.scheme
  host : equalFold u.hostname o.host = true
  port : u.effectivePort = o.effectivePort

/-- The page is this server's own, on loopback. -/
structure OwnLoopback (loopback : Bytes → Bool) (s : Server) (o : Origin) : Prop where
  scheme : o.scheme = s.httpScheme
  port : o.effectivePort = some s.httpPort
  host : o.host = lit "localhost" ∨ loopback o.host = true

/-- The origins to be admitted: configured ones, and the server's own on loopback. -/
def SameOrigin (parse : Bytes → Option Url) (loopback : Bytes → Bool) (configured : List Bytes) (s : Server) :
    Option Origin → Prop
  | none => False
  | some o => (∃ c ∈ configured, ∃ u, parse c = some u ∧ u.Matches o) ∨ s.OwnLoopback loopback o

/-! ## Normal forms -/

/-- The port that a normalised origin keeps. -/
def Url.keptPort (u : Url) : Bytes := if u.DefaultPort then [] else u.port

/-- An origin spelt as a browser spells it: in lower case, and the port, if it is
    written out, without leading zeros. -/
structure Url.Canonical (u : Url) : Prop where
  host : u.hostname.map asciiLower = u.hostname
  port : u.port = [] ∨ ∃ p, u.port = itoa p

theorem itoa_ne_nil (p : ℕ) : itoa p ≠ [] := (of_digits (digits_itoa p)).1

theorem portText_inj {p q : Option ℕ} : portText p = portText q ↔ p = q := by
  cases p with
  | none =>
    cases q with
    | none => exact iff_of_true rfl rfl
    | some q => exact iff_of_false (itoa_ne_nil q).symm (by simp)
  | some p =>
    cases q with
    | none => exact iff_of_false (itoa_ne_nil p) (by simp)
    | some q =>
      rw [Option.some.injEq]
      exact itoa_inj

theorem lit_443 : lit "443" = itoa 443 := by decide

theorem lit_80 : lit "80" = itoa 80 := by decide

theorem Url.defaultPort_iff (u : Url) :
    u.DefaultPort ↔ ∃ p, defaultPort u.scheme = some p ∧ u.port = itoa p := by
  unfold Url.DefaultPort defaultPort
  rw [lit_443, lit_80]
  have hne : lit "https" ≠ lit "http" := by decide
  constructor
  · rintro (⟨hs, hp⟩ | ⟨hs, hp⟩)
    · exact ⟨443, by rw [if_pos hs], hp⟩
    · refine ⟨80, ?_, hp⟩
      rw [hs, if_neg hne.symm, if_pos rfl]
  · rintro ⟨p, hs, hp⟩
    split_ifs at hs with h1 h2
    · obtain rfl := Option.some.inj hs
      exact .inl ⟨h1, hp⟩
    · obtain rfl := Option.some.inj hs
      exact .inr ⟨h2, hp⟩

/-- The ports of two normal forms agree exactly if the origins stand for one port
    and the configured one is written without leading zeros. -/
theorem Url.keptPort_eq_iff {u : Url} {o : Origin} (hu : u.Documented) (hs : u.scheme = o.scheme) :
    u.keptPort = portText o.port ↔
      u.effectivePort = o.effectivePort ∧ (u.port = [] ∨ ∃ p, u.port = itoa p) := by
  unfold Url.keptPort Url.effectivePort Origin.effectivePort
  rw [hs]
  by_cases hnil : u.port = []
  · have hdef : ¬ u.DefaultPort := by
      rw [Url.defaultPort_iff]
      rintro ⟨p, -, hp⟩
      exact itoa_ne_nil p (hp.symm.trans hnil)
    rw [if_neg hdef, if_pos hnil, hnil]
    cases hport : o.port with
    | none => simp [portText]
    | some p =>
      have hne := o.port_elided p hport
      simpa [portText, hne] using (itoa_ne_nil p).symm
  · rw [if_neg hnil]
    obtain ⟨m, hm⟩ := hu.port.resolve_left hnil
    have hcanon : (u.port = [] ∨ ∃ p, u.port = itoa p) ↔ u.port = itoa m := by
      constructor
      · rintro (h | ⟨p, hp⟩)
        · exact absurd h hnil
        · rw [hp, digits_itoa] at hm
          rw [hp, Option.some.inj hm]
      · exact fun h => .inr ⟨m, h⟩
    rw [hcanon, hm]
    by_cases hdef : u.DefaultPort
    · rw [if_pos hdef]
      obtain ⟨p, hp, hport⟩ := (Url.defaultPort_iff u).mp hdef
      rw [hport, digits_itoa] at hm
      obtain rfl := Option.some.inj hm
      rw [hs] at hp
      cases ho : o.port with
      | none => simp [portText, hp, hport]
      | some q =>
        have hne := o.port_elided q ho
        rw [hp] at hne
        simpa [portText, hport, itoa_ne_nil, eq_comm] using hne
    · rw [if_neg hdef]
      rw [Url.defaultPort_iff, hs] at hdef
      push Not at hdef
      cases ho : o.port with
      | none =>
        have hne : ¬ (some m = defaultPort o.scheme ∧ u.port = itoa m) := by
          rintro ⟨h1, h2⟩
          exact hdef m h1.symm h2
        simpa [portText, hnil] using hne
      | some q =>
        constructor
        · intro h
          have hq : m = q := by
            rw [show u.port = itoa q from h, digits_itoa] at hm
            exact (Option.some.inj hm).symm
          subst hq
          exact ⟨rfl, h⟩
        · rintro ⟨h1, h2⟩
          rw [h2]
          exact congrArg itoa (Option.some.inj h1)

/-! ## Hosts with ports -/

/-- A host and the port it keeps, as `normaliseOrigin` writes them. -/
def joined (host port : Bytes) : Bytes := if port ≠ [] then joinHostPort host port else host

/-- The three shapes of a normalised host: alone, a name with a port, an IPv6
    literal with a port. Colons and the bracket in front tell them apart. -/
theorem joined_cases {host port : Bytes} (hform : HostForm host) (hport : 0x3A ∉ port) :
    (port = [] ∧ joined host port = host ∧ HostForm (joined host port)) ∨
    (0x3A ∉ host ∧ joined host port = host ++ 0x3A :: port ∧ (joined host port).count 0x3A = 1 ∧
      (joined host port).head? ≠ some 0x5B) ∨
    (joined host port = 0x5B :: host ++ 0x5D :: 0x3A :: port ∧ (joined host port).head? = some 0x5B) := by
  unfold joined
  by_cases hnil : port = []
  · rw [if_neg (not_not.mpr hnil)]
    exact .inl ⟨hnil, rfl, hform⟩
  · rw [if_pos hnil]
    unfold joinHostPort
    by_cases hcolon : (0x3A : UInt8) ∈ host
    · rw [if_pos hcolon]
      exact .inr (.inr ⟨rfl, rfl⟩)
    · rw [if_neg hcolon]
      refine .inr (.inl ⟨hcolon, rfl, ?_, ?_⟩)
      · rw [List.count_append, List.count_cons_self, List.count_eq_zero.mpr hcolon, List.count_eq_zero.mpr hport]
      · cases host with
        | nil => simp
        | cons c rest => exact hform.2

theorem joined_inj {host host' port port' : Bytes} (hform : HostForm host) (hform' : HostForm host')
    (hport : 0x3A ∉ port) (hport' : 0x3A ∉ port') :
    joined host port = joined host' port' ↔ host = host' ∧ port = port' := by
  constructor
  · intro h
    rcases joined_cases hform hport with ⟨h1, h2, h3⟩ | ⟨h1, h2, h3, h4⟩ | ⟨h2, h3⟩ <;>
      rcases joined_cases hform' hport' with ⟨k1, k2, k3⟩ | ⟨k1, k2, k3, k4⟩ | ⟨k2, k3⟩
    · exact ⟨by rw [← h2, h, k2], by rw [h1, k1]⟩
    · exact absurd (h ▸ k3) h3.1
    · exact absurd (h ▸ k3) h3.2
    · exact absurd (h ▸ h3) k3.1
    · rw [h2, k2] at h
      exact (append_sep_inj h1 k1 _ _).mp h
    · exact absurd (h ▸ k3) h4
    · exact absurd (h ▸ h3) k3.2
    · exact absurd (h ▸ h3) k4
    · have hlast : ∀ x y : Bytes, (0x5B : UInt8) :: x ++ 0x5D :: 0x3A :: y = (0x5B :: x ++ [0x5D]) ++ 0x3A :: y := by
        intro x y
        simp
      rw [h2, k2, hlast, hlast, append_sep_inj_right hport hport'] at h
      obtain ⟨hb, hp⟩ := h
      exact ⟨List.append_cancel_right (List.cons.inj hb).2, hp⟩
  · rintro ⟨rfl, rfl⟩
    rfl

/-! ## Normal forms agree exactly for the same origin -/

theorem normaliseOrigin_of_parse {parse : Bytes → Option Url} {text : Bytes} {u : Url} (h : parse text = some u) :
    normaliseOrigin parse text = u.scheme ++ lit "://" ++ joined u.hostname u.keptPort := by
  unfold normaliseOrigin
  rw [h]
  unfold joined Url.keptPort
  by_cases hdef : u.DefaultPort
  · simp [hdef]
  · simp [hdef]

theorem normalForm_inj {scheme scheme' rest rest' : Bytes} (h : 0x3A ∉ scheme) (h' : 0x3A ∉ scheme') :
    scheme ++ lit "://" ++ rest = scheme' ++ lit "://" ++ rest' ↔ scheme = scheme' ∧ rest = rest' := by
  have hsep : ∀ x y : Bytes, x ++ lit "://" ++ y = x ++ 0x3A :: (0x2F :: 0x2F :: y) := by
    intro x y
    simp [show lit "://" = [0x3A, 0x2F, 0x2F] by decide]
  rw [hsep, hsep, append_sep_inj h h', List.cons.injEq, List.cons.injEq]
  simp

theorem notMem_portText (p : Option ℕ) : (0x3A : UInt8) ∉ portText p := by
  cases p with
  | none => exact List.not_mem_nil
  | some p => exact notMem_of_digits (digits_itoa p)

theorem Url.Documented.notMem_keptPort {u : Url} (hu : u.Documented) : (0x3A : UInt8) ∉ u.keptPort := by
  unfold Url.keptPort
  split_ifs with hdef
  · exact List.not_mem_nil
  · rcases hu.port with h | ⟨p, hp⟩
    · rw [h]
      exact List.not_mem_nil
    · exact notMem_of_digits hp

/-- A browser writes no default port, so the header keeps the port it has. -/
theorem keptPort_parts (o : Origin) : (parts (some o)).keptPort = portText o.port := by
  apply if_neg
  intro hdef
  obtain ⟨p, hs, hp⟩ := (Url.defaultPort_iff _).mp hdef
  have hport : o.port = some p := portText_inj.mp hp
  exact o.port_elided p hport hs

section

variable {parse : Bytes → Option Url} {loopback : Bytes → Bool} {configured : List Bytes} {s : Server}

/-- Only a configured origin of the same scheme, host and port, in the browser's
    spelling, has the header's normal form. -/
theorem normaliseOrigin_eq_iff {c : Bytes} {u : Url} {o : Origin} (hparse : parse c = some u)
    (hscheme : 0x3A ∉ u.scheme) (hu : u.Documented) (hheader : parse (header (some o)) = some (parts (some o))) :
    normaliseOrigin parse c = normaliseOrigin parse (header (some o)) ↔ u.Canonical ∧ u.Matches o := by
  rw [normaliseOrigin_of_parse hparse, normaliseOrigin_of_parse hheader, keptPort_parts]
  show u.scheme ++ lit "://" ++ joined u.hostname u.keptPort =
    o.scheme ++ lit "://" ++ joined o.host (portText o.port) ↔ _
  rw [normalForm_inj hscheme o.scheme_form,
    joined_inj hu.host o.host_form hu.notMem_keptPort (notMem_portText o.port)]
  constructor
  · rintro ⟨hs, hh, hp⟩
    obtain ⟨heff, hspelt⟩ := (Url.keptPort_eq_iff hu hs).mp hp
    refine ⟨⟨?_, hspelt⟩, hs, ?_, heff⟩
    · rw [hh, o.host_lower]
    · rw [hh]
      exact beq_self_eq_true _
  · rintro ⟨hcanon, hmatch⟩
    refine ⟨hmatch.scheme, ?_, (Url.keptPort_eq_iff hu hmatch.scheme).mpr ⟨hmatch.port, hcanon.port⟩⟩
    have hfold : u.hostname.map asciiLower = o.host.map asciiLower := beq_iff_eq.mp hmatch.host
    rw [hcanon.host, o.host_lower] at hfold
    exact hfold

/-! ## What is admitted -/

/-- What start-up makes of the configured origins. -/
theorem of_normaliseOrigins {origins : List Bytes} (h : normaliseOrigins parse configured = .ok origins) :
    origins = configured.map (normaliseOrigin parse) ∧ ∀ c ∈ configured, wellFormed parse c = true := by
  induction configured generalizing origins with
  | nil =>
    obtain rfl := Except.ok.inj h
    exact ⟨rfl, by simp⟩
  | cons c rest ih =>
    unfold normaliseOrigins at h
    split_ifs at h with hc
    cases hrest : normaliseOrigins parse rest with
    | error bad => simp [hrest] at h
    | ok out =>
      rw [hrest] at h
      obtain rfl := Except.ok.inj h
      obtain ⟨rfl, hall⟩ := ih hrest
      refine ⟨rfl, ?_⟩
      intro x hx
      rcases List.mem_cons.mp hx with rfl | hx
      · exact hc
      · exact hall x hx

theorem of_wellFormed {c : Bytes} (h : wellFormed parse c = true) :
    ∃ u, parse c = some u ∧ (u.scheme = lit "http" ∨ u.scheme = lit "https") := by
  unfold wellFormed at h
  cases hc : parse c with
  | none => simp [hc] at h
  | some u =>
    simp only [hc, Bool.and_eq_true, Bool.or_eq_true, beq_iff_eq] at h
    exact ⟨u, rfl, h.1.1.1.1⟩

/-- A configured origin is the header's own, in the browser's spelling. -/
def Listed (parse : Bytes → Option Url) (configured : List Bytes) (o : Origin) : Prop :=
  ∃ c ∈ configured, ∃ u, parse c = some u ∧ u.Canonical ∧ u.Matches o

theorem contains_iff {o : Origin} (hdoc : Documented parse configured (some o))
    (hok : normaliseOrigins parse configured = .ok s.origins) :
    s.origins.contains (normaliseOrigin parse (header (some o))) = true ↔ Listed parse configured o := by
  obtain ⟨horigins, hwell⟩ := of_normaliseOrigins hok
  rw [horigins, List.contains_iff_mem, List.mem_map]
  constructor
  · rintro ⟨c, hc, heq⟩
    obtain ⟨u, hu, hscheme⟩ := of_wellFormed (hwell c hc)
    have hcolon : (0x3A : UInt8) ∉ u.scheme := by
      rcases hscheme with h | h <;> (rw [h]; decide)
    exact ⟨c, hc, u, hu,
      (normaliseOrigin_eq_iff hu hcolon (hdoc.configured c hc u hu) hdoc.header).mp heq⟩
  · rintro ⟨c, hc, u, hu, h⟩
    have hcolon : (0x3A : UInt8) ∉ u.scheme := by
      rw [h.2.scheme]
      exact o.scheme_form
    exact ⟨c, hc, (normaliseOrigin_eq_iff hu hcolon (hdoc.configured c hc u hu) hdoc.header).mpr h⟩

/-- The own page is recognised by a port that is written out. -/
theorem isLoopbackOrigin_iff {o : Origin} (hheader : parse (header (some o)) = some (parts (some o))) :
    isLoopbackOrigin parse loopback (header (some o)) s.httpScheme s.httpPort = true ↔
      OwnLoopback loopback s o ∧ defaultPort s.httpScheme ≠ some s.httpPort := by
  have hwritten : portText o.port = itoa s.httpPort ↔ o.port = some s.httpPort := @portText_inj o.port (some s.httpPort)
  have hcode : isLoopbackOrigin parse loopback (header (some o)) s.httpScheme s.httpPort = true ↔
      o.scheme = s.httpScheme ∧ o.port = some s.httpPort ∧ (o.host = lit "localhost" ∨ loopback o.host = true) := by
    unfold isLoopbackOrigin
    rw [hheader, ← hwritten]
    show (if o.scheme ≠ s.httpScheme ∨ portText o.port ≠ itoa s.httpPort then false
      else if o.host = lit "localhost" then true else loopback o.host) = true ↔ _
    split_ifs with h1 h2 <;> tauto
  rw [hcode]
  constructor
  · rintro ⟨hs, hp, hh⟩
    have heff : o.effectivePort = some s.httpPort := by
      unfold Origin.effectivePort
      rw [hp]
      rfl
    exact ⟨⟨hs, heff, hh⟩, hs ▸ o.port_elided s.httpPort hp⟩
  · rintro ⟨⟨hs, hp, hh⟩, hne⟩
    refine ⟨hs, ?_, hh⟩
    unfold Origin.effectivePort at hp
    cases hport : o.port with
    | none =>
      rw [hport, hs] at hp
      exact absurd hp hne
    | some p =>
      rw [hport] at hp
      exact hp

theorem header_ne_nil (o : Origin) : header (some o) ≠ [] := by
  unfold header
  have hne : lit "://" ≠ [] := by decide
  simp [hne]

/-- What `allowedOrigin` admits. -/
theorem allowedOrigin_iff {o : Origin} (hdoc : Documented parse configured (some o))
    (hok : normaliseOrigins parse configured = .ok s.origins) :
    s.allowedOrigin parse loopback (header (some o)) = true ↔
      (OwnLoopback loopback s o ∧ defaultPort s.httpScheme ≠ some s.httpPort) ∨ Listed parse configured o := by
  unfold allowedOrigin
  rw [Bool.or_eq_true, isLoopbackOrigin_iff hdoc.header, Bool.and_eq_true, contains_iff hdoc hok]
  simp [header_ne_nil]

/-- Opaque origins are refused. -/
theorem allowedOrigin_parsedNone (hdoc : Documented parse configured none)
    (hown : s.httpScheme = lit "http" ∨ s.httpScheme = lit "https")
    (hok : normaliseOrigins parse configured = .ok s.origins) :
    s.allowedOrigin parse loopback (header none) = false := by
  obtain ⟨horigins, hwell⟩ := of_normaliseOrigins hok
  have hheader : parse (header none) = some (parts none) := hdoc.header
  have hne : ∀ scheme : Bytes, scheme = lit "http" ∨ scheme = lit "https" → ([] : Bytes) ≠ scheme := by
    rintro scheme (rfl | rfl) <;> decide
  unfold allowedOrigin
  rw [Bool.or_eq_false_iff, Bool.and_eq_false_iff]
  constructor
  · unfold isLoopbackOrigin
    rw [hheader]
    exact if_pos (.inl (hne _ hown))
  · apply Or.inr
    rw [Bool.eq_false_iff]
    intro hmem
    rw [List.contains_iff_mem, horigins, List.mem_map] at hmem
    obtain ⟨c, hc, heq⟩ := hmem
    obtain ⟨u, hu, hscheme⟩ := of_wellFormed (hwell c hc)
    rw [normaliseOrigin_of_parse hu, normaliseOrigin_of_parse hheader] at heq
    have hcolon : (0x3A : UInt8) ∉ u.scheme := by
      rcases hscheme with h | h <;> (rw [h]; decide)
    exact hne _ hscheme ((normalForm_inj hcolon List.not_mem_nil).mp heq).1.symm

theorem sameOrigin_of_listed {o : Origin} (h : Listed parse configured o) :
    SameOrigin parse loopback configured s (some o) := by
  obtain ⟨c, hc, u, hu, -, hmatch⟩ := h
  exact .inl ⟨c, hc, u, hu, hmatch⟩

/-- No foreign origin is admitted. -/
theorem sameOrigin_of_allowedOrigin {o : Option Origin} (hdoc : Documented parse configured o)
    (hown : s.httpScheme = lit "http" ∨ s.httpScheme = lit "https")
    (hok : normaliseOrigins parse configured = .ok s.origins)
    (h : s.allowedOrigin parse loopback (header o) = true) : SameOrigin parse loopback configured s o := by
  cases o with
  | none => simp [allowedOrigin_parsedNone hdoc hown hok] at h
  | some o =>
    rcases (allowedOrigin_iff hdoc hok).mp h with ⟨hloop, -⟩ | hlisted
    · exact .inr hloop
    · exact sameOrigin_of_listed hlisted

/-- Neither is the page the server's own on its scheme's default port, which the
    header leaves out, nor is a configured origin that matches it spelt otherwise
    than by the browser; or something else admits the page. -/
def Spelt (parse : Bytes → Option Url) (loopback : Bytes → Bool) (configured : List Bytes) (s : Server) :
    Option Origin → Prop
  | none => True
  | some o =>
    (OwnLoopback loopback s o → defaultPort s.httpScheme = some s.httpPort → Listed parse configured o) ∧
    ∀ c ∈ configured, ∀ u, parse c = some u → u.Matches o → ¬ u.Canonical →
      (OwnLoopback loopback s o ∧ defaultPort s.httpScheme ≠ some s.httpPort) ∨ Listed parse configured o

/-- Admission is same-origin exactly for headers that `Spelt` describes. -/
theorem allowedOrigin_exact_iff {o : Option Origin} (hdoc : Documented parse configured o)
    (hown : s.httpScheme = lit "http" ∨ s.httpScheme = lit "https")
    (hok : normaliseOrigins parse configured = .ok s.origins) :
    (s.allowedOrigin parse loopback (header o) = true ↔ SameOrigin parse loopback configured s o) ↔
      Spelt parse loopback configured s o := by
  have hsound := @sameOrigin_of_allowedOrigin parse loopback configured s o hdoc hown hok
  cases o with
  | none => exact iff_of_true ⟨hsound, False.elim⟩ trivial
  | some o =>
    have hallowed := @allowedOrigin_iff parse loopback configured s o hdoc hok
    constructor
    · intro hexact
      constructor
      · intro hloop hdefault
        rcases hallowed.mp (hexact.mpr (.inr hloop)) with ⟨-, hne⟩ | hlisted
        · exact absurd hdefault hne
        · exact hlisted
      · intro c hc u hu hmatch _
        exact hallowed.mp (hexact.mpr (.inl ⟨c, hc, u, hu, hmatch⟩))
    · rintro ⟨hpage, hspelt⟩
      refine ⟨hsound, ?_⟩
      rintro (⟨c, hc, u, hu, hmatch⟩ | hloop)
      · by_cases hcanon : u.Canonical
        · exact hallowed.mpr (.inr ⟨c, hc, u, hu, hcanon, hmatch⟩)
        · exact hallowed.mpr (hspelt c hc u hu hmatch hcanon)
      · by_cases hdefault : defaultPort s.httpScheme = some s.httpPort
        · exact hallowed.mpr (.inr (hpage hloop hdefault))
        · exact hallowed.mpr (.inl ⟨hloop, hdefault⟩)

end

/-! ## Two pages -/

/-- `https://localhost`, the page of a server on port 443. -/
def localhostPage : Origin where
  scheme := lit "https"
  host := lit "localhost"
  port := none
  scheme_form := by decide
  host_form := by
    unfold HostForm
    decide
  host_lower := by decide
  port_elided := by
    intro p hp
    cases hp

/-- A server on port 443 that has no other origins. -/
def server443 : Server := ⟨[], lit "https", 443⟩

/-- What `net/url` makes of the headers of these two pages. -/
def parsePages (text : Bytes) : Option Url :=
  if text = lit "https://localhost" then some ⟨lit "https", lit "localhost", [], [], [], false⟩
  else if text = lit "https://demo.example:8443" then
    some ⟨lit "https", lit "demo.example", lit "8443", [], [], false⟩
  else none

/-- The server on port 443 refuses the page that it serves itself. -/
theorem own_page_refused :
    Documented parsePages [] (some localhostPage) ∧
      normaliseOrigins parsePages [] = .ok server443.origins ∧
      ¬ (server443.allowedOrigin parsePages (fun _ => false) (header (some localhostPage)) = true ↔
        SameOrigin parsePages (fun _ => false) [] server443 (some localhostPage)) := by
  refine ⟨⟨by decide, by simp⟩, rfl, ?_⟩
  intro h
  have hloop : OwnLoopback (fun _ => false) server443 localhostPage := ⟨rfl, rfl, .inl rfl⟩
  have hallowed := h.mpr (.inr hloop)
  revert hallowed
  decide

/-- `https://demo.example:8443`. -/
def demoPage : Origin where
  scheme := lit "https"
  host := lit "demo.example"
  port := some 8443
  scheme_form := by decide
  host_form := by
    unfold HostForm
    decide
  host_lower := by decide
  port_elided := by
    intro p hp
    obtain rfl := Option.some.inj hp
    decide

/-- A configured page is admitted, as it is to be. -/
theorem allowedOrigin_demo :
    let s : Server := ⟨[lit "https://demo.example:8443"], lit "http", 8080⟩
    Spelt parsePages (fun _ => false) [lit "https://demo.example:8443"] s (some demoPage) ∧
      s.allowedOrigin parsePages (fun _ => false) (header (some demoPage)) = true ∧
      SameOrigin parsePages (fun _ => false) [lit "https://demo.example:8443"] s (some demoPage) := by
  intro s
  have hport : lit "8443" = itoa 8443 := by decide
  have hdigits : digits (lit "8443") = some 8443 := (congrArg digits hport).trans (digits_itoa 8443)
  have hdoc : Documented parsePages [lit "https://demo.example:8443"] (some demoPage) := by
    refine ⟨by decide, ?_⟩
    intro c hc u hu
    obtain rfl := List.mem_singleton.mp hc
    obtain rfl : (⟨lit "https", lit "demo.example", lit "8443", [], [], false⟩ : Url) = u :=
      Option.some.inj hu
    refine ⟨?_, .inr ⟨8443, hdigits⟩⟩
    unfold HostForm
    decide
  have hlisted : Listed parsePages [lit "https://demo.example:8443"] demoPage := by
    refine ⟨_, List.mem_singleton_self _, ⟨lit "https", lit "demo.example", lit "8443", [], [], false⟩, rfl,
      ⟨by decide, .inr ⟨8443, hport⟩⟩, ?_⟩
    exact ⟨by decide, by decide, (if_neg (by decide)).trans hdigits⟩
  have hspelt : Spelt parsePages (fun _ => false) [lit "https://demo.example:8443"] s (some demoPage) :=
    ⟨fun _ _ => hlisted, fun _ _ _ _ _ _ => .inr hlisted⟩
  have hallowed : s.allowedOrigin parsePages (fun _ => false) (header (some demoPage)) = true := by decide
  exact ⟨hspelt, hallowed, ((allowedOrigin_exact_iff hdoc (.inl rfl) rfl).mpr hspelt).mp hallowed⟩

end Http4.Server
