import Http4.Server.Site
import Http4.Worker.Interception

/-!
# What a URL asks for

`prefixMapper` of `client/src/fetcher.ts` (lines 69–94): the asset ID of a URL. A URL
enters as its origin and its pathname, which the URL parser makes ASCII.

Main results:

* `prefixMapper_eq_some_iff`: an asset ID is what the path of the URL names on the server.
* `shadowed_iff_of_leaveToNetwork`: which forwarded paths another handler answers.
-/

namespace Http4.Worker

open Percent (Ascii decodeURIComponent decodeURIComponent_eq_some_iff units)
open Server (Names)
open ServeMux (unescape)
open Unicode (utf8 utf16)
open Wire (lit)
open Wire.Ts (JsString SameText jsLit)

/-- One segment of the path (lines 82–90). -/
def mapSegment (raw : JsString) : Option JsString :=
  match decodeURIComponent raw with
  | none => none
  | some seg => if seg = [] ∨ seg = jsLit "." ∨ seg = jsLit ".." ∨ 0x2F ∈ seg then none else some seg

/-- `prefixMapper` (lines 75–94); `origin` is that of `baseUrl`. -/
def prefixMapper (origin pre : JsString) (url : Url) : Option JsString :=
  if url.origin ≠ origin ∨ ¬ pre <+: url.pathname then none
  else
    let rest := url.pathname.drop pre.length
    if rest = [] then none
    else ((rest.splitOn 0x2F).mapM mapSegment).map (List.intercalate [0x2F])

/-! ## Texts split at slashes -/

section Split

/-- A text without separators in front joins the first part. -/
theorem splitOn_append {α : Type} [BEq α] [LawfulBEq α] {sep : α} {a : List α} (ha : sep ∉ a) (b : List α) :
    (a ++ b).splitOn sep = (b.splitOn sep).modifyHead (a ++ ·) := by
  induction a with
  | nil =>
    show b.splitOn sep = _
    cases b.splitOn sep <;> rfl
  | cons x a ih =>
    rw [List.mem_cons, not_or] at ha
    rw [List.cons_append, List.splitOn_cons_eq_if_modifyHead, if_neg (by simpa using Ne.symm ha.1), ih ha.2]
    cases b.splitOn sep <;> rfl

theorem splitOn_units (b : Bytes) : (units b).splitOn 0x2F = (b.splitOn 0x2F).map units := by
  induction b with
  | nil => rfl
  | cons c b ih =>
    have hc : (c.toUInt16 == 0x2F) = (c == 0x2F) := by
      rw [Bool.eq_iff_iff, beq_iff_eq, beq_iff_eq]
      constructor
      · intro h
        rw [← UInt8.toUInt8_toUInt16 c, h]
        rfl
      · rintro rfl
        rfl
    show (c.toUInt16 :: units b).splitOn 0x2F = _
    rw [List.splitOn_cons_eq_if_modifyHead, List.splitOn_cons_eq_if_modifyHead, hc, ih]
    split_ifs
    · rfl
    · cases b.splitOn 0x2F <;> rfl

theorem slash_mem_utf8EncodeChar {c : Char} : 0x2F ∈ String.utf8EncodeChar c ↔ c = '/' := by
  constructor
  · intro h
    obtain ⟨x, xs, hx, -, hxs⟩ := Percent.exists_following c
    rw [hx] at h
    rcases List.mem_cons.mp h with rfl | h
    · have hutf8 : Unicode.utf8 [c] = 0x2F :: xs := by
        rw [Unicode.utf8_cons, hx]
        exact List.append_nil _
      obtain ⟨ds, hds, -⟩ := Percent.exists_of_cons_byte (by decide) hutf8
      exact (List.cons.inj hds).1
    · exact absurd (hxs _ h) (by decide)
  · rintro rfl
    decide

theorem slash_mem_utf8 {cs : List Char} : 0x2F ∈ utf8 cs ↔ '/' ∈ cs := by
  unfold utf8
  rw [List.mem_flatMap]
  simp only [slash_mem_utf8EncodeChar]
  exact ⟨fun ⟨c, hc, heq⟩ => heq ▸ hc, fun h => ⟨_, h, rfl⟩⟩

theorem slash_mem_utf16 {cs : List Char} : 0x2F ∈ utf16 cs ↔ '/' ∈ cs := by
  have hchar {c : Char} : 0x2F ∈ Unicode.utf16EncodeChar c ↔ c = '/' := by
    constructor
    · intro h
      have hmax : c.val.toNat < 0x110000 := c.valid.elim (fun h => lt_trans h (by decide)) (·.2)
      unfold Unicode.utf16EncodeChar at h
      dsimp only at h
      split_ifs at h with hlt
      · have heq := congrArg UInt16.toNat (List.mem_singleton.mp h)
        rw [UInt16.toNat_ofNat', Nat.mod_eq_of_lt hlt] at heq
        rw [← Unicode.charOfNat_val c, ← heq]
        rfl
      · simp only [List.mem_cons, List.not_mem_nil, or_false] at h
        rcases h with h | h
        all_goals
          have heq := congrArg UInt16.toNat h
          rw [UInt16.toNat_ofNat'] at heq
          change 0x2F = _ at heq
          omega
    · rintro rfl
      decide
  unfold utf16
  rw [List.mem_flatMap]
  simp only [hchar]
  exact ⟨fun ⟨c, hc, heq⟩ => heq ▸ hc, fun h => ⟨_, h, rfl⟩⟩

theorem splitOn_utf8 (cs : List Char) : (utf8 cs).splitOn 0x2F = (cs.splitOn '/').map utf8 := by
  induction cs with
  | nil => rfl
  | cons c cs ih =>
    rw [Unicode.utf8_cons, List.splitOn_cons_eq_if_modifyHead]
    by_cases hc : c = '/'
    · subst hc
      show (0x2F :: utf8 cs).splitOn 0x2F = _
      rw [List.splitOn_cons_eq_if_modifyHead, if_pos (by decide), if_pos (by decide), ih]
      rfl
    · rw [splitOn_append (fun h => hc (slash_mem_utf8EncodeChar.mp h)), if_neg (by simpa using hc), ih]
      cases cs.splitOn '/' <;> rfl

/-- Joining before encoding is joining after it. -/
theorem intercalate_flatMap {α β : Type} (g : α → List β) (sep : List α) (l : List (List α)) :
    (List.intercalate sep l).flatMap g = List.intercalate (sep.flatMap g) (l.map fun x => x.flatMap g) := by
  induction l with
  | nil => rfl
  | cons x l ih =>
    cases l with
    | nil =>
      show (x ++ []).flatMap g = x.flatMap g ++ []
      rw [List.append_nil, List.append_nil]
    | cons y l =>
      rw [List.intercalate_cons_cons, List.flatMap_append, List.flatMap_append, ih]
      exact List.intercalate_cons_cons.symm

theorem intercalate_utf8 (css : List (List Char)) :
    List.intercalate [0x2F] (css.map utf8) = utf8 (List.intercalate ['/'] css) :=
  (intercalate_flatMap String.utf8EncodeChar ['/'] css).symm

theorem intercalate_utf16 (css : List (List Char)) :
    List.intercalate [0x2F] (css.map utf16) = utf16 (List.intercalate ['/'] css) :=
  (intercalate_flatMap Unicode.utf16EncodeChar ['/'] css).symm

end Split

/-! ## The asset ID -/

section Map

variable {raw : Bytes} {u : JsString}

/-- A segment of a name. -/
def Segment (raw seg : Bytes) : Prop :=
  unescape raw = some seg ∧ seg ≠ [] ∧ seg ≠ lit "." ∧ seg ≠ lit ".." ∧ 0x2F ∉ seg

theorem mapSegment_eq_some_iff (h : Ascii raw) :
    mapSegment (units raw) = some u ↔ ∃ cs, Segment raw (utf8 cs) ∧ u = utf16 cs := by
  have htext {cs : List Char} {t : String} : utf16 cs = jsLit t ↔ utf8 cs = utf8 t.toList := by
    constructor
    · intro heq
      rw [Unicode.utf16_injective heq]
    · intro heq
      rw [Unicode.utf8_injective heq]
      rfl
  have hnil {cs : List Char} : utf16 cs = [] ↔ utf8 cs = [] := by
    constructor
    · intro heq
      rw [Unicode.utf16_injective (show utf16 cs = utf16 [] from heq)]
      rfl
    · intro heq
      rw [Unicode.utf8_eq_nil_iff.mp heq]
      rfl
  unfold mapSegment
  constructor
  · intro hmap
    cases hdecode : decodeURIComponent (units raw) with
    | none => rw [hdecode] at hmap; cases hmap
    | some seg =>
      rw [hdecode] at hmap
      dsimp only at hmap
      split_ifs at hmap with hbad
      obtain rfl := Option.some.inj hmap
      obtain ⟨cs, hunescape, rfl⟩ := (decodeURIComponent_eq_some_iff h).mp hdecode
      rw [not_or, not_or, not_or, hnil, htext, htext, slash_mem_utf16, ← slash_mem_utf8] at hbad
      exact ⟨cs, ⟨hunescape, hbad⟩, rfl⟩
  · rintro ⟨cs, ⟨hunescape, hgood⟩, rfl⟩
    rw [(decodeURIComponent_eq_some_iff h).mpr ⟨cs, hunescape, rfl⟩]
    dsimp only
    rw [if_neg]
    rw [not_or, not_or, not_or, hnil, htext, htext, slash_mem_utf16, ← slash_mem_utf8]
    exact hgood

theorem mapM_mapSegment_iff {raws : List Bytes} {us : List JsString} (h : ∀ raw ∈ raws, Ascii raw) :
    (raws.map units).mapM mapSegment = some us ↔
      ∃ css : List (List Char), List.Forall₂ Segment raws (css.map utf8) ∧ us = css.map utf16 := by
  induction raws generalizing us with
  | nil =>
    constructor
    · intro hmap
      exact ⟨[], .nil, (Option.some.inj hmap).symm⟩
    · rintro ⟨css, hcss, rfl⟩
      rw [List.map_eq_nil_iff.mp (List.forall₂_nil_left_iff.mp hcss)]
      rfl
  | cons raw raws ih =>
    obtain ⟨hraw, hraws⟩ := List.forall_mem_cons.mp h
    rw [List.map_cons, List.mapM_cons]
    constructor
    · intro hmap
      cases hfirst : mapSegment (units raw) with
      | none => rw [hfirst] at hmap; cases hmap
      | some v =>
        cases hrest : (raws.map units).mapM mapSegment with
        | none => rw [hfirst, hrest] at hmap; cases hmap
        | some vs =>
          rw [hfirst, hrest] at hmap
          obtain rfl := Option.some.inj hmap
          obtain ⟨cs, hcs, rfl⟩ := (mapSegment_eq_some_iff hraw).mp hfirst
          obtain ⟨css, hcss, rfl⟩ := (ih hraws).mp hrest
          exact ⟨cs :: css, .cons hcs hcss, rfl⟩
    · rintro ⟨css, hcss, rfl⟩
      cases css with
      | nil => cases hcss
      | cons cs css =>
        obtain ⟨hcs, hcss⟩ := List.forall₂_cons.mp hcss
        rw [(mapSegment_eq_some_iff hraw).mpr ⟨cs, hcs, rfl⟩, (ih hraws).mpr ⟨css, hcss, rfl⟩]
        rfl

/-- **What the client asks for** by the URL of a path is what the path names on the
    server, for a prefix that both have. -/
theorem prefixMapper_eq_some_iff {target : Bytes} {origin pre : JsString} {url : Url} (h : Ascii target)
    (hpath : url.pathname = units target) : prefixMapper origin pre url = some u ↔
      url.origin = origin ∧ ∃ p id, pre = units p ∧ Names p target id ∧ SameText id u := by
  unfold prefixMapper
  constructor
  · intro hmap
    split_ifs at hmap with hbad
    rw [not_or, not_not, not_not] at hbad
    obtain ⟨horigin, hpre⟩ := hbad
    refine ⟨horigin, ?_⟩
    rw [hpath] at hpre
    obtain ⟨rest', hrest'⟩ := hpre
    obtain ⟨p, rest, rfl, rfl, rfl⟩ := List.map_eq_append_iff.mp hrest'.symm
    have hdrop : url.pathname.drop (p.map UInt8.toUInt16).length = units rest := by
      rw [hpath]
      unfold units
      rw [List.map_append, List.drop_left]
    dsimp only at hmap
    rw [hdrop] at hmap
    split_ifs at hmap
    obtain ⟨us, hus, rfl⟩ := Option.map_eq_some_iff.mp hmap
    rw [splitOn_units, mapM_mapSegment_iff] at hus
    · obtain ⟨css, hcss, rfl⟩ := hus
      refine ⟨p, _, rfl, ⟨rest, css.map utf8, rfl, rfl, hcss⟩, List.intercalate ['/'] css, ?_, ?_⟩
      · exact intercalate_utf8 css
      · exact intercalate_utf16 css
    · intro raw hraw c hc
      exact h c (List.mem_append_right _ (Server.subset_of_mem_splitOn hraw hc))
  · rintro ⟨horigin, p, id, rfl, ⟨rest, segs, rfl, rfl, hsegs⟩, cs, hcs, rfl⟩
    have hrest : rest ≠ [] := by
      rintro rfl
      cases hsegs with
      | cons hseg => exact hseg.2.1 (Option.some.inj hseg.1).symm
    rw [if_neg (not_or.mpr ⟨not_not.mpr horigin, not_not.mpr (by
      rw [hpath]
      exact ⟨units rest, List.map_append.symm⟩)⟩)]
    dsimp only
    rw [hpath, show (units (p ++ rest)).drop (units p).length = units rest by
      unfold units; rw [List.map_append, List.drop_left], if_neg (show units rest ≠ [] from fun hnil => hrest (List.map_eq_nil_iff.mp hnil))]
    have hall := (Server.of_segments hsegs).2.2
    have hne : segs ≠ [] := by
      rintro rfl
      exact List.splitOn_ne_nil _ _ (List.forall₂_nil_right_iff.mp hsegs)
    have hsplit := congrArg (List.splitOn 0x2F) hcs
    rw [List.splitOn_intercalate 0x2F (fun seg hseg => (hall seg hseg).2) hne, splitOn_utf8] at hsplit
    subst hsplit
    rw [splitOn_units, (mapM_mapSegment_iff fun raw hraw c hc => h c (List.mem_append_right _
      (Server.subset_of_mem_splitOn hraw hc))).mpr ⟨_, hsegs, rfl⟩]
    show some _ = some _
    rw [intercalate_utf16, List.intercalate_splitOn]

end Map

/-! ## Paths of other handlers -/

/-- **Forwarded paths that another handler answers.** Where a path has no escapes, the
    worker forwards only two that HTTP does not answer with an asset: the metrics, and
    the directory of the client without its slash. -/
theorem shadowed_iff_of_leaveToNetwork {site : Site} {r : Request} {clientId : JsString} {url : Url} {cfg : Server.Config}
    {p target id : Bytes} (hforward : leaveToNetwork site r clientId = some none)
    (hurl : site.parseUrl r.url = some url) (hpath : url.pathname = units target) (hnames : Names p target id)
    (hescape : 0x25 ∉ target) :
    Server.Shadowed cfg p id ↔ p = lit "/" ∧ (id = lit "metrics.json" ∨ cfg.clientFS = true ∧ id = lit "http4") := by
  obtain ⟨-, -, -, -, url', hurl', -, hdir, hboot⟩ := leaveToNetwork_eq_none_iff.mp hforward
  obtain rfl := Option.some.inj (hurl.symm.trans hurl')
  have htarget (hp : p = lit "/") : url.pathname = units (lit "/" ++ id) := by
    have heq := hnames.unescape_eq (by rw [hp]; decide)
    rw [Percent.unescape_of_notMem hescape] at heq
    rw [hpath, Option.some.inj heq, hp]
  unfold Server.Shadowed
  refine and_congr_right fun hp => ?_
  rw [htarget hp] at hdir hboot
  constructor
  · rintro (rfl | rfl | ⟨hclient, rfl | rfl | ⟨rest, rfl⟩⟩)
    · exact absurd (show units (lit "/" ++ lit "config.json") ∈ bootstrapPaths by decide) hboot
    · exact .inl rfl
    · exact absurd (show units (lit "/" ++ lit "http4-sw.js") ∈ bootstrapPaths by decide) hboot
    · exact .inr ⟨hclient, rfl⟩
    · refine absurd ⟨units rest, ?_⟩ hdir
      unfold units
      rw [← List.append_assoc, List.map_append]
      rfl
  · rintro (rfl | ⟨hclient, rfl⟩)
    · exact .inr (.inl rfl)
    · exact .inr (.inr ⟨hclient, .inr (.inl rfl)⟩)

end Http4.Worker
