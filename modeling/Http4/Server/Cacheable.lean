import Http4.Data.GoStd
import Http4.Wire.Packet

/-!
# Which responses may be shared

Model of `server/internal/server/cacheable.go`. A header is the map from canonical
keys to the values under each, in order.

Main results:

* `cacheable_ok_iff`: what `cacheable` accepts.
* `safe_iff`: nothing personalised is reported cacheable, except where the first
  value of `Authorization` and of `Cookie` is empty and a later one is not.
-/

namespace Http4.Server

open GoStd
open Wire (lit)

/-! ## The decision -/

/-- `http.Header`. -/
abbrev Header := String → List Bytes

/-- `Header.Get`. -/
def Header.get (h : Header) (key : String) : Bytes := (h key).headD []

/-- `Header.Values`. -/
def Header.vals (h : Header) (key : String) : List Bytes := h key

/-- `http.Request`, as far as `cacheable` reads it. -/
structure Request where
  method : Bytes
  header : Header

/-- `http.Response`, as far as `cacheable` reads it. -/
structure Response where
  statusCode : ℤ
  header : Header

/-- `cacheDecision` (lines 34–40); `maxAge` is a `time.Duration`. -/
structure CacheDecision where
  ok : Bool
  reason : Bytes
  maxAge : ℤ
  deriving DecidableEq

/-- `cacheControl` (lines 129–138). -/
structure CacheControl where
  isPublic : Bool := false
  isPrivate : Bool := false
  noStore : Bool := false
  noCache : Bool := false
  maxAge : ℤ := 0
  hasMax : Bool := false
  sMaxAge : ℤ := 0
  hasSMax : Bool := false
  deriving DecidableEq

/-- `,` and `=`. -/
def comma : UInt8 := 0x2C
def equals : UInt8 := 0x3D

/-- `time.Second`. -/
def second : ℤ := 10 ^ 9

/-- `defaultPublicTTL`. -/
def defaultPublicTTL : ℤ := 5 * 60 * second

/-- `varyAcceptable` (lines 113–126), on the parts of all values in order. -/
def varyParts : List Bytes → Bytes × Bool
  | [] => ([], true)
  | field :: rest =>
    let field := trimSpace field
    if field = [] then varyParts rest
    else if ¬ equalFold field (lit "Accept-Encoding") then (field, false)
    else varyParts rest

/-- `varyAcceptable`. -/
def varyAcceptable (values : List Bytes) : Bytes × Bool :=
  varyParts (values.flatMap fun v => v.splitOn comma)

/-- `sharedMaxAge` (lines 141–146). -/
def CacheControl.sharedMaxAge (c : CacheControl) : ℤ × Bool :=
  if c.hasSMax then (c.sMaxAge, true) else (c.maxAge, c.hasMax)

/-- `seconds` (lines 181–191). -/
def seconds (arg : Bytes) : Option ℤ :=
  let arg := trimByte 0x22 (trimSpace arg)
  if arg = [] then none
  else
    match parseInt64 arg with
    | none => none
    | some n => if n < 0 then none else some (int64 (n * second))

/-- The name of a directive, as `parseCacheControl` compares it. -/
def directiveName (part : Bytes) : Bytes := toLower (trimSpace (cut equals (trimSpace part)).1)

/-- The inner loop of `parseCacheControl` (lines 151–172). -/
def CacheControl.directive (c : CacheControl) (part : Bytes) : CacheControl :=
  let name := directiveName part
  let arg := (cut equals (trimSpace part)).2
  if name = lit "public" then { c with isPublic := true }
  else if name = lit "private" then { c with isPrivate := true }
  else if name = lit "no-store" then { c with noStore := true }
  else if name = lit "no-cache" then { c with noCache := true }
  else if name = lit "max-age" then
    match seconds arg with
    | some d => { c with maxAge := d, hasMax := true }
    | none => c
  else if name = lit "s-maxage" then
    match seconds arg with
    | some d => { c with sMaxAge := d, hasSMax := true }
    | none => c
  else c

/-- `parseCacheControl` (lines 148–175). -/
def parseCacheControl (values : List Bytes) : CacheControl :=
  (values.flatMap fun v => v.splitOn comma).foldl CacheControl.directive {}

/-- `cacheDecision{reason: reason}`. -/
def no (reason : Bytes) : CacheDecision := { ok := false, reason := reason, maxAge := 0 }

/-- The part of `cacheable` that reads the parsed `Cache-Control` (lines 73–101). -/
def CacheControl.decision (cc : CacheControl) : CacheDecision :=
  if cc.noStore then no (lit "Cache-Control: no-store")
  else if cc.isPrivate then no (lit "Cache-Control: private")
  else if cc.noCache then no (lit "Cache-Control: no-cache")
  else
    let (age, hasAge) := cc.sharedMaxAge
    if hasAge && decide (age ≤ 0) then no (lit "Cache-Control: max-age=0")
    else if hasAge then { ok := true, reason := lit "max-age", maxAge := age }
    else if cc.isPublic then
      { ok := true, reason := lit "public, no max-age", maxAge := defaultPublicTTL }
    else no (lit "no cacheability stated")

/-- `cacheable` (lines 44–102). -/
def cacheable (req : Request) (resp : Response) : CacheDecision :=
  if req.method ≠ lit "GET" then no (lit "not a GET")
  else if req.header.get "Authorization" ≠ [] then no (lit "request carried Authorization")
  else if req.header.get "Cookie" ≠ [] then no (lit "request carried Cookie")
  else if resp.statusCode ≠ 200 then no (lit "status " ++ lit (toString resp.statusCode))
  else if (resp.header.vals "Set-Cookie").length > 0 then no (lit "response set a cookie")
  else
    match varyAcceptable (resp.header.vals "Vary") with
    | (v, false) => no (lit "Vary: " ++ v)
    | (_, true) => (parseCacheControl (resp.header.vals "Cache-Control")).decision

/-! ## What `cacheable` accepts -/

/-- What `cacheable` asks besides the two request headers. -/
def Storable (req : Request) (resp : Response) : Prop :=
  req.method = lit "GET" ∧ resp.statusCode = 200 ∧ resp.header.vals "Set-Cookie" = [] ∧
    (varyAcceptable (resp.header.vals "Vary")).2 = true ∧
    let cc := parseCacheControl (resp.header.vals "Cache-Control")
    cc.noStore = false ∧ cc.isPrivate = false ∧ cc.noCache = false ∧
      (cc.sharedMaxAge.2 = true ∧ 0 < cc.sharedMaxAge.1 ∨ cc.sharedMaxAge.2 = false ∧ cc.isPublic = true)

theorem CacheControl.decision_ok_iff (cc : CacheControl) :
    cc.decision.ok = true ↔ cc.noStore = false ∧ cc.isPrivate = false ∧ cc.noCache = false ∧
      (cc.sharedMaxAge.2 = true ∧ 0 < cc.sharedMaxAge.1 ∨ cc.sharedMaxAge.2 = false ∧ cc.isPublic = true) := by
  rcases hshared : cc.sharedMaxAge with ⟨age, hasAge⟩
  by_cases hpos : age ≤ 0 <;> cases hasAge <;> cases hstore : cc.noStore <;>
    cases hpriv : cc.isPrivate <;> cases hnc : cc.noCache <;> cases hpub : cc.isPublic <;>
    simp [decision, no, hshared, hstore, hpriv, hnc, hpub, hpos, not_le.mp]

theorem CacheControl.decision_maxAge_pos {cc : CacheControl} (h : cc.decision.ok = true) :
    0 < cc.decision.maxAge := by
  obtain ⟨hstore, hpriv, hnc, hage⟩ := cc.decision_ok_iff.mp h
  rcases hshared : cc.sharedMaxAge with ⟨age, hasAge⟩
  rw [hshared] at hage
  rcases hage with ⟨rfl, hpos⟩ | ⟨rfl, hpub⟩
  · simpa [decision, hshared, hstore, hpriv, hnc, not_le.mpr hpos] using hpos
  · simp [decision, hshared, hstore, hpriv, hnc, hpub, defaultPublicTTL, second]

/-- `cacheable` says no, or its answer is the one read from `Cache-Control`. -/
theorem cacheable_cases (req : Request) (resp : Response) :
    (cacheable req resp).ok = false ∨
      (req.header.get "Authorization" = [] ∧ req.header.get "Cookie" = [] ∧ req.method = lit "GET" ∧
        resp.statusCode = 200 ∧ resp.header.vals "Set-Cookie" = [] ∧
        (varyAcceptable (resp.header.vals "Vary")).2 = true ∧
        cacheable req resp = (parseCacheControl (resp.header.vals "Cache-Control")).decision) := by
  rw [cacheable]
  split_ifs with hmethod hauth hcookie hstatus hset
  iterate 5 exact .inl rfl
  rw [not_not] at hmethod hauth hcookie hstatus
  rw [gt_iff_lt, not_lt, Nat.le_zero, List.length_eq_zero_iff] at hset
  split
  · exact .inl rfl
  · rename_i heq
    exact .inr ⟨hauth, hcookie, hmethod, hstatus, hset, by rw [heq], rfl⟩

/-- The two request headers as `cacheable` reads them, and the rest. -/
theorem cacheable_ok_iff (req : Request) (resp : Response) :
    (cacheable req resp).ok = true ↔ req.header.get "Authorization" = [] ∧
      req.header.get "Cookie" = [] ∧ Storable req resp := by
  constructor
  · intro h
    obtain hno | ⟨hauth, hcookie, hmethod, hstatus, hset, hvary, heq⟩ := cacheable_cases req resp
    · rw [h] at hno
      cases hno
    · rw [heq] at h
      exact ⟨hauth, hcookie, hmethod, hstatus, hset, hvary, (CacheControl.decision_ok_iff _).mp h⟩
  · rintro ⟨hauth, hcookie, hmethod, hstatus, hset, hvary, hrest⟩
    rw [cacheable, if_neg (not_not.mpr hmethod), if_neg (not_not.mpr hauth), if_neg (not_not.mpr hcookie),
      if_neg (not_not.mpr hstatus), if_neg (by rw [hset]; exact lt_irrefl 0)]
    rcases hfields : varyAcceptable (resp.header.vals "Vary") with ⟨field, honoured⟩
    rw [hfields] at hvary
    obtain rfl : honoured = true := hvary
    exact (CacheControl.decision_ok_iff _).mpr hrest

/-- An accepted response is given a lifetime. -/
theorem maxAge_pos {req : Request} {resp : Response} (h : (cacheable req resp).ok = true) :
    0 < (cacheable req resp).maxAge := by
  obtain hno | ⟨-, -, -, -, -, -, heq⟩ := cacheable_cases req resp
  · rw [h] at hno
    cases hno
  · rw [heq] at h ⊢
    exact CacheControl.decision_maxAge_pos h

/-! ## Directives and fields -/

/-- The value has a directive of this name, in any letter case: it starts at the
    front or after a comma, blanks may stand around it, and the value, the
    directive or its argument follows. -/
def HasDirective (name v : Bytes) : Prop :=
  ∃ before lead word trail after, v = before ++ (lead ++ word ++ trail) ++ after ∧
    (before = [] ∨ ∃ front, before = front ++ [comma]) ∧ (∀ b ∈ lead, Blank b) ∧
    word.map asciiLower = name ∧ (∀ b ∈ trail, Blank b) ∧
    (after = [] ∨ ∃ back, after = comma :: back ∨ after = equals :: back)

/-- The value names a field: a text of visible bytes without a comma, which stands
    between commas or the ends of the value, with blanks around it. -/
def NamesField (field v : Bytes) : Prop :=
  ∃ before lead trail after, v = before ++ (lead ++ field ++ trail) ++ after ∧
    (before = [] ∨ ∃ front, before = front ++ [comma]) ∧ (∀ b ∈ lead, Blank b) ∧
    field ≠ [] ∧ (∀ c ∈ field, Visible c ∧ c ≠ comma) ∧ (∀ b ∈ trail, Blank b) ∧
    (after = [] ∨ ∃ back, after = comma :: back)

theorem comma_notMem_blanks {bs : Bytes} (h : ∀ b ∈ bs, Blank b) : comma ∉ bs := by
  intro hmem
  rcases h comma hmem with heq | heq <;> exact absurd heq (by decide)

theorem equals_notMem_blanks {bs : Bytes} (h : ∀ b ∈ bs, Blank b) : equals ∉ bs := by
  intro hmem
  rcases h equals hmem with heq | heq <;> exact absurd heq (by decide)

/-- A field that is named is, trimmed, one of the parts. -/
theorem exists_part_of_namesField {field v : Bytes} (h : NamesField field v) :
    ∃ part ∈ v.splitOn comma, trimSpace part = field := by
  obtain ⟨before, lead, trail, after, rfl, hbefore, hlead, hne, hfield, htrail, hafter⟩ := h
  refine ⟨lead ++ field ++ trail, mem_splitOn_of_between hbefore ?_ hafter,
    trimSpace_word trail hlead htrail hne fun c hc => (hfield c hc).1⟩
  simp only [List.mem_append, not_or]
  exact ⟨⟨comma_notMem_blanks hlead, fun hmem => (hfield comma hmem).2 rfl⟩, comma_notMem_blanks htrail⟩

/-- A directive name: lower case letters and hyphens. -/
def IsName (name : Bytes) : Prop :=
  name ≠ [] ∧ ∀ c ∈ name, c = 0x2D ∨ (0x61 ≤ c.toNat ∧ c.toNat ≤ 0x7A)

instance (name : Bytes) : Decidable (IsName name) := inferInstanceAs (Decidable (_ ∧ _))

/-- The bytes of a name in any letter case. -/
theorem visible_of_asciiLower {c : UInt8}
    (h : asciiLower c = 0x2D ∨ (0x61 ≤ (asciiLower c).toNat ∧ (asciiLower c).toNat ≤ 0x7A)) :
    Visible c ∧ c ≠ comma ∧ c ≠ equals := by
  revert h c
  decide +kernel

/-- A directive that is there is the directive of one of the parts. -/
theorem exists_part_of_hasDirective {name v : Bytes} (hname : IsName name) (h : HasDirective name v) :
    ∃ part ∈ v.splitOn comma, directiveName part = name := by
  obtain ⟨before, lead, word, trail, after, rfl, hbefore, hlead, hfold, htrail, hafter⟩ := h
  have hword : ∀ c ∈ word, Visible c ∧ c ≠ comma ∧ c ≠ equals := by
    intro c hc
    exact visible_of_asciiLower (hname.2 _ (hfold ▸ List.mem_map_of_mem hc))
  have hne : word ≠ [] := by
    rintro rfl
    exact hname.1 hfold.symm
  have hcomma : comma ∉ lead ++ word ++ trail := by
    simp only [List.mem_append, not_or]
    exact ⟨⟨comma_notMem_blanks hlead, fun hmem => (hword comma hmem).2.1 rfl⟩, comma_notMem_blanks htrail⟩
  have hequals : equals ∉ word ++ trail := by
    rw [List.mem_append, not_or]
    exact ⟨fun hmem => (hword equals hmem).2.2 rfl, equals_notMem_blanks htrail⟩
  have hlower : toLower word = name := by
    rw [toLower_eq_map fun c hc => by have := (hword c hc).1.2; omega, hfold]
  have hvisible : ∀ c ∈ word, Visible c := fun c hc => (hword c hc).1
  have hself : trimSpace word = word := by
    simpa using @trimSpace_word [] [] word (by simp) (by simp) hne hvisible
  have htrim : trimSpace (word ++ trail) = word := by
    simpa using @trimSpace_word [] trail word (by simp) htrail hne hvisible
  -- without an argument the part ends here
  have hplain (hafter : after = [] ∨ ∃ back, after = comma :: back) :
      ∃ part ∈ (before ++ (lead ++ word ++ trail) ++ after).splitOn comma, directiveName part = name := by
    refine ⟨_, mem_splitOn_of_between hbefore hcomma hafter, ?_⟩
    have hcut : cut equals word = (word, []) :=
      cut_of_notMem fun hmem => hequals (List.mem_append_left _ hmem)
    rw [directiveName, trimSpace_word trail hlead htrail hne hvisible, hcut, hself, hlower]
  rcases hafter with hnil | ⟨back, hback | rfl⟩
  · exact hplain (.inl hnil)
  · exact hplain (.inr ⟨back, hback⟩)
  · -- the part goes on to the next comma
    have hsplit : before ++ (lead ++ word ++ trail) ++ equals :: back =
        before ++ (lead ++ word ++ trail ++ equals :: back.takeWhile (· != comma)) ++
          back.dropWhile (· != comma) := by
      conv_lhs => rw [← List.takeWhile_append_dropWhile (p := (· != comma)) (l := back)]
      simp only [List.append_assoc, List.cons_append]
    obtain ⟨rest, hrest⟩ := exists_trimSpace_append hlead hne hvisible trail (c := equals) (by decide)
      (back.takeWhile (· != comma))
    rw [hsplit]
    refine ⟨_, mem_splitOn_of_between hbefore ?_ ?_, ?_⟩
    · simp only [List.mem_append, List.mem_cons, not_or] at hcomma ⊢
      refine ⟨hcomma, by decide, fun hmem => ?_⟩
      simpa using List.mem_takeWhile_imp hmem
    · exact eq_nil_or_cons_dropWhile comma back
    · rw [directiveName, hrest, cut_append hequals, htrim, hlower]

/-! ## What the parsers see -/

/-- A flag that one directive sets is set if that directive is among the parts. -/
theorem foldl_directive_flag {flag : CacheControl → Bool} {name : Bytes}
    (hstep : ∀ c part, flag (c.directive part) = (flag c || decide (directiveName part = name)))
    (parts : List Bytes) (c : CacheControl) :
    flag (parts.foldl CacheControl.directive c) = (flag c || decide (∃ part ∈ parts, directiveName part = name)) := by
  induction parts generalizing c with
  | nil => simp
  | cons part parts ih => simp [ih, hstep, Bool.or_assoc]

/-- One directive sets at most the flag of its own name. -/
theorem directive_flags (c : CacheControl) (part : Bytes) :
    (c.directive part).isPrivate = (c.isPrivate || decide (directiveName part = lit "private")) ∧
    (c.directive part).noStore = (c.noStore || decide (directiveName part = lit "no-store")) ∧
    (c.directive part).noCache = (c.noCache || decide (directiveName part = lit "no-cache")) := by
  have hnames : [lit "public", lit "private", lit "no-store", lit "no-cache", lit "max-age",
      lit "s-maxage"].Nodup := by decide +kernel
  simp only [List.nodup_cons, List.mem_cons, not_or] at hnames
  rw [CacheControl.directive]
  generalize directiveName part = name
  split_ifs with hpublic hprivate hstore hcache hmax hsmax
  · simp [hpublic, hnames]
  · simp [hprivate, hnames]
  · simp [hstore, hnames, Ne.symm hnames.2.1.1]
  · simp [hcache, Ne.symm hnames.2.1.2.1, Ne.symm hnames.2.2.1.1]
  · cases seconds (cut equals (trimSpace part)).2 <;> simp [hprivate, hstore, hcache]
  · cases seconds (cut equals (trimSpace part)).2 <;> simp [hprivate, hstore, hcache]
  · simp [hprivate, hstore, hcache]

/-- A flag that is not set: no value has the directive that sets it. -/
theorem not_hasDirective {flag : CacheControl → Bool} {name : Bytes} (hname : IsName name)
    (hstep : ∀ c part, flag (c.directive part) = (flag c || decide (directiveName part = name)))
    {values : List Bytes} (hflag : flag (parseCacheControl values) = false) {v : Bytes} (hv : v ∈ values) :
    ¬ HasDirective name v := by
  intro hdir
  obtain ⟨part, hpart, heq⟩ := exists_part_of_hasDirective hname hdir
  rw [parseCacheControl, foldl_directive_flag hstep, Bool.or_eq_false_iff, decide_eq_false_iff_not] at hflag
  exact hflag.2 ⟨part, List.mem_flatMap.mpr ⟨v, hv, hpart⟩, heq⟩

/-- Parts that are honoured are empty or `Accept-Encoding`. -/
theorem equalFold_of_varyParts {parts : List Bytes} (h : (varyParts parts).2 = true) {part : Bytes}
    (hpart : part ∈ parts) (hne : trimSpace part ≠ []) :
    equalFold (trimSpace part) (lit "Accept-Encoding") = true := by
  induction parts with
  | nil => cases hpart
  | cons first rest ih =>
    rw [varyParts] at h
    split_ifs at h with hnil hfold
    · rcases List.mem_cons.mp hpart with rfl | hmem
      · exact absurd hnil hne
      · exact ih h hmem
    · rcases List.mem_cons.mp hpart with rfl | hmem
      · exact hfold
      · exact ih h hmem

/-! ## Nothing personalised -/

/-- What an accepted response has to be. -/
def Safe (req : Request) (resp : Response) : Prop :=
  (cacheable req resp).ok = true →
    req.method = lit "GET" ∧
    (∀ v ∈ req.header.vals "Authorization", v = []) ∧ (∀ v ∈ req.header.vals "Cookie", v = []) ∧
    resp.statusCode = 200 ∧ resp.header.vals "Set-Cookie" = [] ∧
    (∀ v ∈ resp.header.vals "Vary", ∀ field, NamesField field v →
      equalFold field (lit "Accept-Encoding") = true) ∧
    (∀ v ∈ resp.header.vals "Cache-Control",
      ∀ name ∈ [lit "private", lit "no-store", lit "no-cache"], ¬ HasDirective name v) ∧
    0 < (cacheable req resp).maxAge

/-- The request carries credentials behind an empty first value, which is the only
    one that `Header.Get` reads. -/
def Hides (req : Request) : Prop :=
  req.header.get "Authorization" = [] ∧ req.header.get "Cookie" = [] ∧
    ∃ v ∈ req.header.vals "Authorization" ++ req.header.vals "Cookie", v ≠ []

/-- What holds of the response whatever the request carries. -/
theorem Storable.headers {req : Request} {resp : Response} (h : Storable req resp) :
    (∀ v ∈ resp.header.vals "Vary", ∀ field, NamesField field v →
      equalFold field (lit "Accept-Encoding") = true) ∧
    ∀ v ∈ resp.header.vals "Cache-Control",
      ∀ name ∈ [lit "private", lit "no-store", lit "no-cache"], ¬ HasDirective name v := by
  obtain ⟨-, -, -, hvary, hstore, hpriv, hnc, -⟩ := h
  constructor
  · intro v hv field hfield
    obtain ⟨part, hpart, rfl⟩ := exists_part_of_namesField hfield
    obtain ⟨-, -, -, -, -, -, -, hne, -⟩ := hfield
    exact equalFold_of_varyParts hvary (List.mem_flatMap.mpr ⟨v, hv, hpart⟩) hne
  · intro v hv name hname
    simp only [List.mem_cons, List.not_mem_nil, or_false] at hname
    rcases hname with rfl | rfl | rfl
    · exact not_hasDirective (by decide +kernel) (fun c part => (directive_flags c part).1) hpriv hv
    · exact not_hasDirective (by decide +kernel) (fun c part => (directive_flags c part).2.1) hstore hv
    · exact not_hasDirective (by decide +kernel) (fun c part => (directive_flags c part).2.2) hnc hv

/-- **A response is reported cacheable only if nothing about it is personalised,
    unless the request hides its credentials behind an empty value.** -/
theorem safe_iff (req : Request) (resp : Response) : Safe req resp ↔ ¬ (Storable req resp ∧ Hides req) := by
  constructor
  · rintro hsafe ⟨hstorable, hauth, hcookie, v, hv, hne⟩
    obtain ⟨-, hnoAuth, hnoCookie, -⟩ := hsafe ((cacheable_ok_iff req resp).mpr ⟨hauth, hcookie, hstorable⟩)
    rcases List.mem_append.mp hv with hmem | hmem
    · exact hne (hnoAuth v hmem)
    · exact hne (hnoCookie v hmem)
  · intro hnot hok
    obtain ⟨hauth, hcookie, hstorable⟩ := (cacheable_ok_iff req resp).mp hok
    have hnone : ∀ v ∈ req.header.vals "Authorization" ++ req.header.vals "Cookie", v = [] := by
      intro v hv
      by_contra hne
      exact hnot ⟨hstorable, hauth, hcookie, v, hv, hne⟩
    obtain ⟨hvary, hcontrol⟩ := hstorable.headers
    exact ⟨hstorable.1, fun v hv => hnone v (List.mem_append_left _ hv),
      fun v hv => hnone v (List.mem_append_right _ hv), hstorable.2.1, hstorable.2.2.1, hvary, hcontrol,
      maxAge_pos hok⟩

/-- A request with an empty `Authorization` value before a bearer token. -/
def hiddenToken : Request where
  method := lit "GET"
  header key := if key = "Authorization" then [[], lit "Bearer x"] else []

/-- A response that is public for a minute. -/
def publicMinute : Response where
  statusCode := 200
  header key := if key = "Cache-Control" then [lit "public, max-age=60"] else []

/-- The response to the hidden token is shared. -/
theorem hidden_token_shared : ¬ Safe hiddenToken publicMinute := by
  intro hsafe
  obtain ⟨-, hauth, -⟩ := hsafe (by decide +kernel)
  exact absurd (hauth (lit "Bearer x") (by decide)) (by decide)

end Http4.Server
