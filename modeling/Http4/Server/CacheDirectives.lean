import Http4.Server.Cacheable

/-!
# `Cache-Control` and its grammar

`parseCacheControl` of `server/internal/server/cacheable.go` splits a value at its
commas and each part at its first equals sign. The grammar of the header is another
matter: a directive's argument may be a quoted string, and a comma in it separates
nothing.

Main results:

* `parseCacheControl_text`: the parser makes, directive by directive, the settings
  it finds in the pieces of the directive's text.
* `reads_top_level_iff`: these are the settings that the directives state exactly if
  each of them is `Plain`.
-/

namespace Http4.Server

open GoStd
open Wire (lit)

/-! ## The grammar -/

/-- The bytes of a token. -/
def TChar (b : UInt8) : Prop :=
  b ∈ lit "!#$%&'*+-.^_|~" ∨ b = 0x60 ∨ (0x30 ≤ b.toNat ∧ b.toNat ≤ 0x39) ∨
    (0x41 ≤ b.toNat ∧ b.toNat ≤ 0x5A) ∨ (0x61 ≤ b.toNat ∧ b.toNat ≤ 0x7A)

instance (b : UInt8) : Decidable (TChar b) := inferInstanceAs (Decidable (_ ∨ _))

/-- The bytes that stand for themselves in a quoted string: not the quote and not
    the backslash. -/
def QdText (b : UInt8) : Prop := b ≠ 0x22 ∧ b ≠ 0x5C ∧ (b = 0x09 ∨ (0x20 ≤ b.toNat ∧ b ≠ 0x7F))

instance (b : UInt8) : Decidable (QdText b) := inferInstanceAs (Decidable (_ ∧ _))

/-- The bytes that may follow a backslash in a quoted string. -/
def Escapable (b : UInt8) : Prop := b = 0x09 ∨ (0x20 ≤ b.toNat ∧ b ≠ 0x7F)

instance (b : UInt8) : Decidable (Escapable b) := inferInstanceAs (Decidable (_ ∨ _))

/-- A token. -/
structure Token where
  bytes : Bytes
  nonempty : bytes ≠ []
  tchar : ∀ b ∈ bytes, TChar b

/-- A piece of a quoted string. -/
inductive QuotedByte
  | text (b : {b : UInt8 // QdText b})
  | pair (b : {b : UInt8 // Escapable b})

/-- An argument as it is written. -/
inductive Argument
  | token (t : Token)
  | quoted (q : List QuotedByte)

/-- A directive as it is written. -/
structure Directive where
  name : Token
  argument : Option Argument

/-- A member of a list, which may be empty, with the blanks around it. -/
structure Member where
  lead : {bs : Bytes // ∀ b ∈ bs, Blank b}
  directive : Option Directive
  trail : {bs : Bytes // ∀ b ∈ bs, Blank b}

/-- A value of `Cache-Control`: members with commas between them. -/
abbrev FieldValue := List Member

/-! ### Texts and meanings -/

/-- The byte as it stands between the quotes. -/
def QuotedByte.written : QuotedByte → Bytes
  | .text b => [b.1]
  | .pair b => [0x5C, b.1]

/-- The byte that is meant. -/
def QuotedByte.value : QuotedByte → UInt8
  | .text b => b.1
  | .pair b => b.1

/-- The text of an argument, with its quotes. -/
def Argument.written : Argument → Bytes
  | .token t => t.bytes
  | .quoted q => 0x22 :: q.flatMap QuotedByte.written ++ [0x22]

/-- What an argument says. -/
def Argument.value : Argument → Bytes
  | .token t => t.bytes
  | .quoted q => q.map QuotedByte.value

namespace Directive

/-- The text after the equals sign, if there is one. -/
def raw (d : Directive) : Bytes := (d.argument.map Argument.written).getD []

/-- The directive as it is written. -/
def text (d : Directive) : Bytes :=
  match d.argument with
  | none => d.name.bytes
  | some a => d.name.bytes ++ equals :: a.written

/-- The name in lower case; names are compared so. -/
def lower (d : Directive) : Bytes := d.name.bytes.map asciiLower

end Directive

/-- The member as it is written, with its blanks. -/
def Member.text (m : Member) : Bytes := m.lead.1 ++ (m.directive.map Directive.text).getD [] ++ m.trail.1

/-- The value as it is written. -/
def FieldValue.text (v : FieldValue) : Bytes := [comma].intercalate (v.map Member.text)

/-- The directives of all values, in order. -/
def directives (vs : List FieldValue) : List Directive := vs.flatMap fun v => v.filterMap Member.directive

/-- What a directive can set. -/
inductive Setting
  | isPublic
  | isPrivate
  | noStore
  | noCache
  | maxAge (d : ℤ)
  | sMaxAge (d : ℤ)
  deriving DecidableEq

/-- `delta-seconds`, digits only, as a `time.Duration`. -/
def deltaSeconds (value : Bytes) : Option ℤ :=
  (digits value).bind fun n => if n < 2 ^ 63 then some (int64 (n * second)) else none

/-- The setting for a name and what is known of the argument. -/
def Setting.ofName (name : Bytes) (age : Option ℤ) : Option Setting :=
  if name = lit "public" then some .isPublic
  else if name = lit "private" then some .isPrivate
  else if name = lit "no-store" then some .noStore
  else if name = lit "no-cache" then some .noCache
  else if name = lit "max-age" then age.map .maxAge
  else if name = lit "s-maxage" then age.map .sMaxAge
  else none

/-- The setting that a directive states. -/
def Directive.setting (d : Directive) : Option Setting :=
  Setting.ofName d.lower ((d.argument.map Argument.value).bind deltaSeconds)

/-- A positive signal. -/
def Setting.Positive : Setting → Prop
  | .isPublic | .maxAge _ | .sMaxAge _ => True
  | .isPrivate | .noStore | .noCache => False

/-! ## What the parser reads -/

/-- A setting is made. -/
def CacheControl.set (c : CacheControl) : Setting → CacheControl
  | .isPublic => { c with isPublic := true }
  | .isPrivate => { c with isPrivate := true }
  | .noStore => { c with noStore := true }
  | .noCache => { c with noCache := true }
  | .maxAge d => { c with maxAge := d, hasMax := true }
  | .sMaxAge d => { c with sMaxAge := d, hasSMax := true }

/-- The setting that `parseCacheControl` reads in a trimmed part. -/
def readPart (part : Bytes) : Option Setting :=
  Setting.ofName (toLower (trimSpace (cut equals part).1)) (seconds (cut equals part).2)

/-- The settings that `parseCacheControl` reads in a text. -/
def settings (text : Bytes) : List Setting := ((text.splitOn comma).map trimSpace).filterMap readPart

theorem directive_eq (c : CacheControl) (part : Bytes) :
    c.directive part = (readPart (trimSpace part)).elim c c.set := by
  unfold CacheControl.directive readPart directiveName Setting.ofName
  dsimp only
  generalize toLower (trimSpace (cut equals (trimSpace part)).1) = name
  cases seconds (cut equals (trimSpace part)).2 <;> split_ifs <;> rfl

theorem foldl_directive (parts : List Bytes) (c : CacheControl) :
    parts.foldl CacheControl.directive c =
      ((parts.map trimSpace).filterMap readPart).foldl CacheControl.set c := by
  induction parts generalizing c with
  | nil => rfl
  | cons part parts ih =>
    rw [List.foldl_cons, ih, directive_eq, List.map_cons, List.filterMap_cons]
    cases readPart (trimSpace part) with
    | none => rfl
    | some x => rfl

theorem parseCacheControl_eq (values : List Bytes) :
    parseCacheControl values = (values.flatMap settings).foldl CacheControl.set {} := by
  rw [parseCacheControl, foldl_directive, List.map_flatMap, List.filterMap_flatMap]
  rfl

/-! ## Directive by directive -/

theorem settings_nil : settings [] = [] := by decide +kernel

theorem not_blank_comma : ¬ Blank comma := by
  rintro (h | h) <;> exact absurd h (by decide)

theorem settings_member (m : Member) : settings m.text = (m.directive.map Directive.text).elim [] settings := by
  have hblanks (t : Bytes) : settings (m.lead.1 ++ t ++ m.trail.1) = settings t := by
    unfold settings
    rw [map_trimSpace_splitOn not_blank_comma m.lead.2 m.trail.2]
  rw [Member.text, hblanks]
  cases m.directive with
  | none => exact settings_nil
  | some d => rfl

theorem settings_fieldValue (v : FieldValue) : settings v.text = v.flatMap fun m => settings m.text := by
  unfold FieldValue.text
  induction v with
  | nil => exact settings_nil
  | cons m v ih =>
    cases v with
    | nil => simp [List.intercalate]
    | cons m' v =>
      rw [List.flatMap_cons, ← ih, List.map_cons, List.map_cons, List.intercalate_cons_cons, ← List.map_cons]
      unfold settings
      rw [List.append_assoc, List.singleton_append, List.splitOn_append_cons_self, List.map_append,
        List.filterMap_append]

/-- The parser makes the settings it reads in the directives, one after another. -/
theorem parseCacheControl_text (vs : List FieldValue) :
    parseCacheControl (vs.map FieldValue.text) =
      ((directives vs).flatMap fun d => settings d.text).foldl CacheControl.set {} := by
  have hvalue (v : FieldValue) :
      settings v.text = (v.filterMap Member.directive).flatMap fun d => settings d.text := by
    rw [settings_fieldValue]
    induction v with
    | nil => rfl
    | cons m v ih =>
      rw [List.flatMap_cons, ih, settings_member, List.filterMap_cons]
      cases m.directive with
      | none => rfl
      | some d => rfl
  rw [parseCacheControl_eq, List.flatMap_map, directives, List.flatMap_assoc]
  congr 1
  exact List.flatMap_congr fun v _ => hvalue v

/-! ### One directive -/

theorem TChar.spec {b : UInt8} (h : TChar b) : Visible b ∧ b ≠ comma ∧ b ≠ equals := by
  revert h b
  decide +kernel

namespace Token

variable (t : Token)

theorem visible : ∀ b ∈ t.bytes, Visible b := fun b hb => (t.tchar b hb).spec.1

theorem comma_notMem : comma ∉ t.bytes := fun hmem => (t.tchar comma hmem).spec.2.1 rfl

theorem equals_notMem : equals ∉ t.bytes := fun hmem => (t.tchar equals hmem).spec.2.2 rfl

theorem trimSpace_eq : trimSpace t.bytes = t.bytes := by
  have h := @trimSpace_word [] [] _ (by simp) (by simp) t.nonempty t.visible
  rwa [List.nil_append, List.append_nil] at h

theorem toLower_eq : toLower t.bytes = t.bytes.map asciiLower := by
  apply toLower_eq_map
  intro c hc
  have := (t.visible c hc).2
  omega

end Token

namespace Directive

/-- The argument's text up to its first comma. -/
def front (d : Directive) : Bytes := d.raw.takeWhile (· != comma)

/-- The pieces of the argument's text behind its commas. -/
def inner (d : Directive) : List Bytes := (d.raw.splitOn comma).tail

/-- What the argument says, as a lifetime. -/
def age (d : Directive) : Option ℤ := (d.argument.map Argument.value).bind deltaSeconds

theorem front_cases (d : Directive) : d.front = [] ∨ ∃ c x, d.front = c :: x ∧ Visible c := by
  unfold front raw
  cases d.argument with
  | none => exact .inl rfl
  | some a =>
    cases a with
    | quoted q => exact .inr ⟨0x22, _, rfl, by decide⟩
    | token t =>
      obtain ⟨c, x, hbytes⟩ := List.exists_cons_of_ne_nil t.nonempty
      have hc := t.tchar c (hbytes ▸ List.mem_cons_self)
      refine .inr ⟨c, x.takeWhile (· != comma), ?_, hc.spec.1⟩
      show t.bytes.takeWhile _ = _
      rw [hbytes, List.takeWhile_cons_of_pos (by simpa using hc.spec.2.1)]

/-- Trimming the argument again changes nothing. -/
theorem seconds_trimRight_front (d : Directive) : seconds (trimRight d.front) = seconds d.front := by
  rcases d.front_cases with hnil | ⟨c, x, hcons, hc⟩
  · rw [hnil]
    rfl
  · have hright : trimRight (c :: x) = c :: trimRight x := trimRight_append [] hc x
    unfold seconds
    rw [hcons, hright, trimSpace_cons hc, trimSpace_cons hc, trimRight_trimRight]

/-- The first piece is read as the name with the argument up to its first comma. -/
theorem readPart_first (d : Directive) :
    readPart (trimSpace d.name.bytes) = Setting.ofName d.lower (seconds []) ∧
      readPart (trimSpace (d.name.bytes ++ equals :: d.front)) = Setting.ofName d.lower (seconds d.front) := by
  constructor
  · rw [d.name.trimSpace_eq, readPart, cut_of_notMem d.name.equals_notMem, d.name.trimSpace_eq, d.name.toLower_eq]
    rfl
  · obtain ⟨c, x, hbytes⟩ := List.exists_cons_of_ne_nil d.name.nonempty
    have hc : Visible c := d.name.visible c (hbytes ▸ List.mem_cons_self)
    have htrim : trimSpace (d.name.bytes ++ equals :: d.front) = d.name.bytes ++ equals :: trimRight d.front := by
      rw [hbytes, List.cons_append, trimSpace_cons hc, trimRight_append x (by decide), List.cons_append]
    rw [htrim, readPart, cut_append d.name.equals_notMem, d.name.trimSpace_eq, d.name.toLower_eq,
      d.seconds_trimRight_front]
    rfl

/-- What the parser reads in a directive: its first piece, and every other piece as
    if it were a directive. -/
theorem settings_text (d : Directive) : settings d.text =
    (Setting.ofName d.lower (seconds d.front)).toList ++ (d.inner.map trimSpace).filterMap readPart := by
  obtain ⟨hplain, hfront⟩ := d.readPart_first
  have hcons (part : Bytes) (x : Option Setting) (hx : readPart part = x) (parts : List Bytes) :
      (part :: parts).filterMap readPart = x.toList ++ parts.filterMap readPart := by
    rw [List.filterMap_cons, hx]
    cases x <;> rfl
  unfold settings text
  cases hargument : d.argument with
  | none =>
    have hraw : d.raw = [] := by rw [raw, hargument]; rfl
    have hfront : d.front = [] := by rw [front, hraw, List.takeWhile_nil]
    have hinner : d.inner = [] := by rw [inner, hraw]; rfl
    dsimp only
    rw [List.splitOn_eq_singleton d.name.comma_notMem, hfront, hinner]
    exact hcons _ _ hplain []
  | some a =>
    have hraw : d.raw = a.written := by rw [raw, hargument]; rfl
    have hnot : comma ∉ d.name.bytes ++ [equals] := by
      rw [List.mem_append, not_or]
      exact ⟨d.name.comma_notMem, by decide⟩
    dsimp only
    rw [← hraw, List.append_cons, splitOn_append_of_notMem hnot, List.map_cons, ← List.append_cons]
    exact hcons _ _ hfront _

/-- Behind a comma there is no number. -/
theorem age_eq_none (d : Directive) (h : d.inner ≠ []) : d.age = none := by
  have hcomma : comma ∈ d.raw := by
    by_contra hnot
    rw [inner, List.splitOn_eq_singleton hnot] at h
    exact h rfl
  unfold raw at hcomma
  unfold age
  cases hargument : d.argument with
  | none => rfl
  | some a =>
    rw [hargument] at hcomma
    cases a with
    | token t => exact absurd hcomma t.comma_notMem
    | quoted q =>
      have hvalue : comma ∈ q.map QuotedByte.value := by
        simp only [Option.map_some, Option.getD_some, Argument.written, List.cons_append, List.mem_cons,
          List.mem_append, List.mem_flatMap, List.not_mem_nil, or_false] at hcomma
        rcases hcomma with h | ⟨b, hb, h⟩ | h
        · exact absurd h (by decide)
        · refine List.mem_map.mpr ⟨b, hb, ?_⟩
          cases b with
          | text b => exact (List.mem_singleton.mp h).symm
          | pair b =>
            rcases List.mem_cons.mp h with h | h
            · exact absurd h (by decide)
            · exact (List.mem_singleton.mp h).symm
        · exact absurd h (by decide)
      have hdigits : digits (q.map QuotedByte.value) = none := by
        unfold digits
        apply if_neg
        rintro ⟨-, hall⟩
        exact absurd (hall comma hvalue) (by decide)
      show (digits (q.map QuotedByte.value)).bind _ = none
      rw [hdigits]
      rfl

/-- The directive sets a lifetime. -/
def IsAge (d : Directive) : Prop := d.lower = lit "max-age" ∨ d.lower = lit "s-maxage"

/-- No piece behind a comma in the quoted argument reads as a directive, and a
    lifetime is read, up to the first comma, as the argument states it. -/
def Plain (d : Directive) : Prop :=
  (∀ piece ∈ d.inner, readPart (trimSpace piece) = none) ∧ (d.IsAge → seconds d.front = d.age)

/-- A name matters for the two lifetimes alone. -/
theorem ofName_eq_iff (d : Directive) {x y : Option ℤ} :
    Setting.ofName d.lower x = Setting.ofName d.lower y ↔ (d.IsAge → x = y) := by
  unfold IsAge
  generalize d.lower = name
  by_cases hmax : name = lit "max-age"
  · have hage (z : Option ℤ) : Setting.ofName name z = z.map .maxAge := by
      rw [hmax]
      rfl
    rw [hage, hage, (Option.map_injective fun _ _ => Setting.maxAge.inj).eq_iff]
    exact ⟨fun h _ => h, fun h => h (.inl hmax)⟩
  by_cases hsmax : name = lit "s-maxage"
  · have hage (z : Option ℤ) : Setting.ofName name z = z.map .sMaxAge := by
      rw [hsmax]
      rfl
    rw [hage, hage, (Option.map_injective fun _ _ => Setting.sMaxAge.inj).eq_iff]
    exact ⟨fun h _ => h, fun h => h (.inr hsmax)⟩
  · have hsame : Setting.ofName name x = Setting.ofName name y := by
      unfold Setting.ofName
      rw [if_neg hmax, if_neg hsmax, if_neg hmax, if_neg hsmax]
    refine ⟨fun _ hage => ?_, fun _ => hsame⟩
    exact absurd hage (not_or.mpr ⟨hmax, hsmax⟩)

/-- A lifetime that is not stated sets nothing. -/
theorem ofName_none (d : Directive) (h : d.IsAge) : Setting.ofName d.lower none = none := by
  rcases h with h | h <;> (rw [h]; rfl)

/-- The settings read in a directive are the one it states exactly if it is plain. -/
theorem settings_text_iff (d : Directive) : settings d.text = d.setting.toList ↔ d.Plain := by
  have hsetting : d.setting = Setting.ofName d.lower d.age := rfl
  have hinner : (d.inner.map trimSpace).filterMap readPart = [] ↔
      ∀ piece ∈ d.inner, readPart (trimSpace piece) = none := by
    rw [List.filterMap_eq_nil_iff, List.forall_mem_map]
  rw [d.settings_text, hsetting, Plain, ← d.ofName_eq_iff, ← hinner]
  constructor
  · intro h
    by_cases hnil : d.inner = []
    · rw [hnil, List.map_nil, List.filterMap_nil] at h ⊢
      rw [List.append_nil] at h
      refine ⟨rfl, Option.ext fun x => ?_⟩
      rw [← Option.mem_toList, ← Option.mem_toList, h]
    · -- no lifetime is stated here, so the first piece does all that is done
      rw [d.age_eq_none hnil] at h ⊢
      by_cases hage : d.IsAge
      · rw [d.ofName_none hage] at h ⊢
        obtain ⟨hfirst, hrest⟩ := List.append_eq_nil_iff.mp h
        exact ⟨hrest, Option.toList_eq_nil_iff.mp hfirst⟩
      · have hsame := (d.ofName_eq_iff (x := seconds d.front) (y := none)).mpr fun h => absurd h hage
        rw [hsame] at h ⊢
        exact ⟨List.append_right_eq_self.mp h, rfl⟩
  · rintro ⟨hrest, hfirst⟩
    rw [hrest, hfirst, List.append_nil]

end Directive

/-! ## All directives -/

/-- `parseCacheControl` reads the values as their grammar says: it sets what the
    directives state, makes in the text of each exactly the setting that this one
    states, and no response is accepted without a positive signal. -/
structure ReadsTopLevel (vs : List FieldValue) : Prop where
  sets : parseCacheControl (vs.map FieldValue.text) =
    ((directives vs).filterMap Directive.setting).foldl CacheControl.set {}
  own : ∀ d ∈ directives vs, settings d.text = d.setting.toList
  stated : ∀ req resp, resp.header.vals "Cache-Control" = vs.map FieldValue.text →
    (cacheable req resp).ok = true → ∃ d ∈ directives vs, ∃ x, d.setting = some x ∧ x.Positive

/-- A signal that is there was made. -/
theorem exists_positive {xs : List Setting}
    (h : let c := xs.foldl CacheControl.set {}; c.isPublic = true ∨ c.hasMax = true ∨ c.hasSMax = true) :
    ∃ x ∈ xs, x.Positive := by
  induction xs using List.reverseRecOn with
  | nil => simp at h
  | append_singleton xs x ih =>
    by_cases hx : x.Positive
    · exact ⟨x, List.mem_append_right xs List.mem_cons_self, hx⟩
    · rw [List.foldl_append, List.foldl_cons, List.foldl_nil] at h
      obtain ⟨y, hy, hpos⟩ := ih (by cases x <;> first | exact absurd trivial hx | exact h)
      exact ⟨y, List.mem_append_left _ hy, hpos⟩

/-- **`Cache-Control` is read as its grammar** exactly if every directive is plain. -/
theorem reads_top_level_iff (vs : List FieldValue) : ReadsTopLevel vs ↔ ∀ d ∈ directives vs, d.Plain := by
  constructor
  · intro h d hd
    exact d.settings_text_iff.mp (h.own d hd)
  · intro hplain
    have hown : ∀ d ∈ directives vs, settings d.text = d.setting.toList :=
      fun d hd => d.settings_text_iff.mpr (hplain d hd)
    have hsets : parseCacheControl (vs.map FieldValue.text) =
        ((directives vs).filterMap Directive.setting).foldl CacheControl.set {} := by
      rw [parseCacheControl_text, List.flatMap_congr hown, List.filterMap_eq_flatMap_toList]
    refine ⟨hsets, hown, fun req resp hheader hok => ?_⟩
    obtain ⟨-, -, -, -, -, -, -, hpositive⟩ := ((cacheable_ok_iff req resp).mp hok).2.2
    rw [hheader, hsets] at hpositive
    generalize hcc : ((directives vs).filterMap Directive.setting).foldl CacheControl.set {} = cc at hpositive
    have hany : cc.isPublic = true ∨ cc.hasMax = true ∨ cc.hasSMax = true := by
      rcases hpositive with ⟨hage, -⟩ | ⟨-, hpublic⟩
      · unfold CacheControl.sharedMaxAge at hage
        split_ifs at hage with hs
        · exact .inr (.inr hs)
        · exact .inr (.inl hage)
      · exact .inl hpublic
    rw [← hcc] at hany
    obtain ⟨x, hx, hpos⟩ := exists_positive hany
    obtain ⟨d, hd, hsetting⟩ := List.mem_filterMap.mp hx
    exact ⟨d, hd, x, hsetting, hpos⟩

/-- A text as a quoted string without escapes. -/
def quote (bs : Bytes) : List QuotedByte :=
  bs.filterMap fun b => if h : QdText b then some (.text ⟨b, h⟩) else none

/-- `ext="a, max-age=60"`, which says nothing about sharing. -/
def quotedAge : FieldValue :=
  [{ lead := ⟨[], by simp⟩, trail := ⟨[], by simp⟩
     directive := some { name := ⟨lit "ext", by decide +kernel, by decide +kernel⟩
                         argument := some (.quoted (quote (lit "a, max-age=60"))) } }]

/-- `GET /` without header fields. -/
def quotedAgeRequest : Request := { method := lit "GET", header := fun _ => [] }

/-- A response whose `Cache-Control` is that value. -/
def quotedAgeResponse : Response :=
  { statusCode := 200, header := fun key => if key = "Cache-Control" then [quotedAge.text] else [] }

/-- It is shared for a minute. -/
theorem quoted_age_shared :
    (cacheable quotedAgeRequest quotedAgeResponse).ok = true ∧ ¬ ReadsTopLevel [quotedAge] := by
  have hok : (cacheable quotedAgeRequest quotedAgeResponse).ok = true := by decide +kernel
  refine ⟨hok, fun h => ?_⟩
  have hnone : ∀ d ∈ directives [quotedAge], d.setting = none := by
    intro d hd
    obtain rfl := List.mem_singleton.mp hd
    decide +kernel
  obtain ⟨d, hd, x, hsetting, -⟩ := h.stated _ _ rfl hok
  rw [hnone d hd] at hsetting
  cases hsetting

end Http4.Server
