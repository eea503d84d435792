import Http4.Server.Cacheable

/-!
# Lifetimes

`seconds` of `server/internal/server/cacheable.go` multiplies a `delta-seconds`
argument by `time.Second` in 64 bits.

Main results:

* `seconds_eq`: the lifetime is that product, which wraps.
* `CacheControl.Below.decision`: a longer lifetime is as good as a shorter one.
* `lifetimes_iff`: lifetimes are exact and a greater number is never worse, for
  numbers up to `N`, exactly if `N` seconds fit a `time.Duration`.
-/

namespace Http4.Server

open GoStd
open Wire (lit)

/-! ## Numbers of seconds -/

/-- The number that `seconds` parses (lines 182–188). -/
def parsedSeconds (arg : Bytes) : Option ℤ :=
  let arg := trimByte 0x22 (trimSpace arg)
  if arg = [] then none else (parseInt64 arg).bind fun n => if n < 0 then none else some n

theorem seconds_eq (arg : Bytes) : seconds arg = (parsedSeconds arg).map fun n => int64 (n * second) := by
  unfold seconds parsedSeconds
  dsimp only
  split_ifs
  · rfl
  · cases parseInt64 (trimByte 0x22 (trimSpace arg)) with
    | none => rfl
    | some n =>
      dsimp only [Option.bind_some]
      split_ifs <;> rfl

theorem parsedSeconds_nonneg {arg : Bytes} {n : ℤ} (h : parsedSeconds arg = some n) : 0 ≤ n := by
  unfold parsedSeconds at h
  dsimp only at h
  split_ifs at h
  obtain ⟨m, -, hm⟩ := Option.bind_eq_some_iff.mp h
  split_ifs at hm with hneg
  obtain rfl := Option.some.inj hm
  omega

/-- The greatest number of seconds that a `time.Duration` can hold. -/
def maxSeconds : ℕ := 9223372036

theorem int64_seconds {n : ℤ} (hpos : 0 ≤ n) (hle : n ≤ maxSeconds) : int64 (n * second) = n * second := by
  unfold int64 second maxSeconds at *
  omega

/-- The lifetime of an argument is its seconds, or, if these do not fit, no shorter
    than that of any smaller number; for numbers up to `N`. -/
def LifetimesUpTo (N : ℕ) : Prop :=
  ∀ arg n, parsedSeconds arg = some n → n ≤ N → ∃ t, seconds arg = some t ∧
    (t = n * second ∨ 2 ^ 63 ≤ n * second ∧
      ∀ arg' m t', parsedSeconds arg' = some m → m < n → seconds arg' = some t' → t' ≤ t)

/-! ## A greater number in a header -/

/-- The parts of all values, as `parseCacheControl` takes them. -/
def partsOf (values : List Bytes) : List Bytes := values.flatMap fun v => v.splitOn comma

/-- The argument of a part. -/
def directiveArg (part : Bytes) : Bytes := (cut equals (trimSpace part)).2

/-- One `max-age` or `s-maxage` directive has `n` seconds in the one header and `m` in
    the other, and the values are the same otherwise. -/
def Replaces (values values' : List Bytes) (n m : ℤ) : Prop :=
  ∃ before part part' after, partsOf values = before ++ part :: after ∧ partsOf values' = before ++ part' :: after ∧
    directiveName part' = directiveName part ∧ directiveName part ∈ [lit "max-age", lit "s-maxage"] ∧
    parsedSeconds (directiveArg part) = some n ∧ parsedSeconds (directiveArg part') = some m

/-- Of two responses alike but for such a directive, the one with the greater number
    is accepted if the other is, for no shorter a time; for numbers up to `N`. -/
def CacheableUpTo (N : ℕ) : Prop :=
  ∀ n m : ℤ, n < m → m ≤ N → ∀ req (resp resp' : Response), resp'.statusCode = resp.statusCode →
    (∀ key, key ≠ "Cache-Control" → resp'.header key = resp.header key) →
    Replaces (resp.header "Cache-Control") (resp'.header "Cache-Control") n m →
    (cacheable req resp).ok = true →
      (cacheable req resp').ok = true ∧ (cacheable req resp).maxAge ≤ (cacheable req resp').maxAge

/-- The same but for lifetimes, which are no shorter. -/
structure CacheControl.Below (c c' : CacheControl) : Prop where
  isPublic : c'.isPublic = c.isPublic
  isPrivate : c'.isPrivate = c.isPrivate
  noStore : c'.noStore = c.noStore
  noCache : c'.noCache = c.noCache
  hasMax : c'.hasMax = c.hasMax
  hasSMax : c'.hasSMax = c.hasSMax
  maxAge : c.maxAge ≤ c'.maxAge
  sMaxAge : c.sMaxAge ≤ c'.sMaxAge

namespace CacheControl

variable {c c' : CacheControl}

theorem Below.refl (c : CacheControl) : c.Below c := ⟨rfl, rfl, rfl, rfl, rfl, rfl, le_rfl, le_rfl⟩

/-- Any part is read alike on both sides. -/
theorem Below.directive (h : c.Below c') (part : Bytes) : (c.directive part).Below (c'.directive part) := by
  unfold CacheControl.directive
  dsimp only
  split_ifs
  · exact { h with isPublic := rfl }
  · exact { h with isPrivate := rfl }
  · exact { h with noStore := rfl }
  · exact { h with noCache := rfl }
  · cases seconds (cut equals (trimSpace part)).2 with
    | none => exact h
    | some d => exact { h with hasMax := rfl, maxAge := le_rfl }
  · cases seconds (cut equals (trimSpace part)).2 with
    | none => exact h
    | some d => exact { h with hasSMax := rfl, sMaxAge := le_rfl }
  · exact h

theorem Below.foldl (parts : List Bytes) (h : c.Below c') :
    (parts.foldl CacheControl.directive c).Below (parts.foldl CacheControl.directive c') := by
  induction parts generalizing c c' with
  | nil => exact h
  | cons part parts ih => exact ih (h.directive part)

/-- A part with a longer lifetime. -/
theorem below_directive (c : CacheControl) {part part' : Bytes} {d d' : ℤ}
    (hname : directiveName part' = directiveName part)
    (hage : directiveName part ∈ [lit "max-age", lit "s-maxage"])
    (hd : seconds (directiveArg part) = some d) (hd' : seconds (directiveArg part') = some d') (hle : d ≤ d') :
    (c.directive part).Below (c.directive part') := by
  unfold directiveArg at hd hd'
  unfold CacheControl.directive
  dsimp only
  rw [hname, hd, hd']
  rcases List.mem_pair.mp hage with heq | heq
  · rw [heq]
    exact { Below.refl c with hasMax := rfl, maxAge := hle }
  · rw [heq]
    exact { Below.refl c with hasSMax := rfl, sMaxAge := hle }

theorem Below.sharedMaxAge (h : c.Below c') :
    c'.sharedMaxAge.2 = c.sharedMaxAge.2 ∧ c.sharedMaxAge.1 ≤ c'.sharedMaxAge.1 := by
  unfold CacheControl.sharedMaxAge
  rw [h.hasSMax]
  split_ifs
  · exact ⟨rfl, h.sMaxAge⟩
  · exact ⟨h.hasMax, h.maxAge⟩

/-- How long an accepted response is held. -/
theorem decision_maxAge (hok : c.decision.ok = true) :
    c.decision.maxAge = if c.sharedMaxAge.2 then c.sharedMaxAge.1 else defaultPublicTTL := by
  obtain ⟨hstore, hpriv, hcache, hage⟩ := c.decision_ok_iff.mp hok
  rcases hshared : c.sharedMaxAge with ⟨age, hasAge⟩
  rw [hshared] at hage
  rcases hage with ⟨rfl, hpos⟩ | ⟨rfl, hpub⟩
  · simp [CacheControl.decision, hshared, hstore, hpriv, hcache, not_le.mpr hpos]
  · simp [CacheControl.decision, hshared, hstore, hpriv, hcache, hpub]

/-- A longer lifetime is as good as a shorter one. -/
theorem Below.decision (h : c.Below c') (hok : c.decision.ok = true) :
    c'.decision.ok = true ∧ c.decision.maxAge ≤ c'.decision.maxAge := by
  obtain ⟨hhas, hle⟩ := h.sharedMaxAge
  obtain ⟨hstore, hpriv, hcache, hage⟩ := c.decision_ok_iff.mp hok
  have hok' : c'.decision.ok = true := by
    rw [c'.decision_ok_iff, h.noStore, h.isPrivate, h.noCache, hhas, h.isPublic]
    refine ⟨hstore, hpriv, hcache, hage.imp_left fun hpos => ?_⟩
    exact ⟨hpos.1, hpos.2.trans_le hle⟩
  refine ⟨hok', ?_⟩
  rw [decision_maxAge hok, decision_maxAge hok', hhas]
  split_ifs
  · exact hle
  · exact le_rfl

end CacheControl

/-! ## Both in bounds -/

theorem parseCacheControl_below {values values' : List Bytes} {n m : ℤ} (h : Replaces values values' n m)
    (hlt : n < m) (hle : m ≤ maxSeconds) : (parseCacheControl values).Below (parseCacheControl values') := by
  obtain ⟨before, part, part', after, hvalues, hvalues', hname, hage, hn, hm⟩ := h
  have hpos := parsedSeconds_nonneg hn
  have hd : seconds (directiveArg part) = some (n * second) := by
    rw [seconds_eq, hn, Option.map_some, int64_seconds hpos (by omega)]
  have hd' : seconds (directiveArg part') = some (m * second) := by
    rw [seconds_eq, hm, Option.map_some, int64_seconds (by omega) hle]
  have hsecond : (0 : ℤ) ≤ second := by decide
  unfold parseCacheControl
  show ((partsOf values).foldl CacheControl.directive {}).Below ((partsOf values').foldl CacheControl.directive {})
  rw [hvalues, hvalues', List.foldl_append, List.foldl_append, List.foldl_cons, List.foldl_cons]
  apply CacheControl.Below.foldl
  exact CacheControl.below_directive _ hname hage hd hd' (mul_le_mul_of_nonneg_right hlt.le hsecond)

theorem lifetimesUpTo_of_le {N : ℕ} (h : N ≤ maxSeconds) : LifetimesUpTo N := by
  intro arg n hn hle
  have hpos := parsedSeconds_nonneg hn
  refine ⟨n * second, ?_, .inl rfl⟩
  rw [seconds_eq, hn, Option.map_some, int64_seconds hpos (by omega)]

theorem cacheableUpTo_of_le {N : ℕ} (h : N ≤ maxSeconds) : CacheableUpTo N := by
  intro n m hlt hle req resp resp' hstatus hheader hreplaces hok
  have hbelow := parseCacheControl_below hreplaces hlt (by omega)
  obtain hno | ⟨hauth, hcookie, hmethod, hcode, hset, hvary, heq⟩ := cacheable_cases req resp
  · rw [hok] at hno
    cases hno
  rw [heq] at hok ⊢
  obtain ⟨hok', hage⟩ := hbelow.decision hok
  have hstorable : Storable req resp' := by
    have hcc := (CacheControl.decision_ok_iff _).mp hok'
    unfold Storable Header.vals
    rw [hstatus, hheader "Set-Cookie" (by decide), hheader "Vary" (by decide)]
    exact ⟨hmethod, hcode, hset, hvary, hcc⟩
  have haccepted := (cacheable_ok_iff req resp').mpr ⟨hauth, hcookie, hstorable⟩
  refine ⟨haccepted, ?_⟩
  obtain hno | ⟨-, -, -, -, -, -, heq'⟩ := cacheable_cases req resp'
  · rw [haccepted] at hno
    cases hno
  · rw [heq']
    exact hage

/-- The first number whose seconds do not fit gets a negative lifetime. -/
theorem seconds_overflow : parsedSeconds (lit "9223372037") = some (maxSeconds + 1) ∧
    seconds (lit "9223372037") = some (-9223372036709551616) := by
  decide +kernel

/-- **Lifetimes are exact and monotone**, and a greater number is never worse for
    `cacheable`, for all numbers up to `N`, if and only if `N` seconds fit. -/
theorem lifetimes_iff (N : ℕ) : LifetimesUpTo N ∧ CacheableUpTo N ↔ N ≤ 9223372036 := by
  constructor
  · rintro ⟨hlifetimes, -⟩
    by_contra hlt
    obtain ⟨hparsed, hseconds⟩ := seconds_overflow
    obtain ⟨t, ht, hexact | ⟨-, hlonger⟩⟩ := hlifetimes _ _ hparsed (by unfold maxSeconds; omega)
    · obtain rfl := Option.some.inj (hseconds.symm.trans ht)
      exact absurd hexact (by decide)
    · obtain rfl := Option.some.inj (hseconds.symm.trans ht)
      -- zero seconds would be longer
      have hzero := hlonger (lit "0") 0 0 (by decide +kernel) (by decide) (by decide +kernel)
      exact absurd hzero (by decide)
  · intro hle
    exact ⟨lifetimesUpTo_of_le hle, cacheableUpTo_of_le hle⟩

/-- A response that says `max-age` and nothing else. -/
def maxAgeResponse (age : String) : Response :=
  { statusCode := 200, header := fun key => if key = "Cache-Control" then [lit "max-age=" ++ lit age] else [] }

/-- A response may be held for 9223372036 seconds, and for one second more not at all. -/
theorem longer_refused :
    (cacheable { method := lit "GET", header := fun _ => [] } (maxAgeResponse "9223372036")).ok = true ∧
    (cacheable { method := lit "GET", header := fun _ => [] } (maxAgeResponse "9223372037")).ok = false := by
  decide +kernel

end Http4.Server
