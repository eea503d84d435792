import Http4.Data.ServeMux
import Http4.Data.Unicode

/-!
# Percent-decoding

A path is percent-decoded in two ways: JavaScript's `decodeURIComponent` goes over UTF-16
code units and wants UTF-8 behind the escapes, Go's `url.PathUnescape` goes over bytes
and takes any.

* `decodeURIComponent`: "Decode" of ECMAScript, with nothing preserved.

Main results:

* `decodeURIComponent_eq_some_iff`: on ASCII text it returns what the bytes of Go spell,
  and fails where they spell nothing.
-/

namespace Percent

open Unicode ServeMux

/-! ## The definition -/

/-- A hexadecimal digit. -/
def hexUnit (u : UInt16) : Option UInt8 := if u.toNat < 0x80 then hexValue u.toUInt8 else none

/-- An escape at the start, its octet and what follows. -/
def escape : List UInt16 → Option (UInt8 × List UInt16)
  | u :: a :: b :: rest =>
    if u = 0x25 then
      match hexUnit a, hexUnit b with
      | some x, some y => some (x * 16 + y, rest)
      | _, _ => none
    else none
  | _ => none

/-- `n` escapes in a row. -/
def escapes : ℕ → List UInt16 → Option (Bytes × List UInt16)
  | 0, u => some ([], u)
  | n + 1, u =>
    match escape u with
    | none => none
    | some (x, u) => (escapes n u).map fun r => (x :: r.1, r.2)

/-- How many octets follow the first one of a character. -/
def following (b : UInt8) : Option ℕ :=
  if b.toNat < 0x80 then some 0
  else if b.toNat < 0xC0 then none
  else if b.toNat < 0xE0 then some 1
  else if b.toNat < 0xF0 then some 2
  else if b.toNat < 0xF8 then some 3
  else none

/-- An escaped character at the start, and what follows. -/
def escapedChar (u : List UInt16) : Option (List Char × List UInt16) :=
  match escape u with
  | none => none
  | some (x, u) =>
    match following x with
    | none => none
    | some n =>
      match escapes n u with
      | none => none
      | some (xs, u) => (utf8Decode (x :: xs)).map fun cs => (cs, u)

/-- The loop of "Decode"; each round takes a code unit at least. -/
def decodeLoop : ℕ → List UInt16 → Option (List UInt16)
  | _, [] => some []
  | 0, _ :: _ => none
  | fuel + 1, c :: rest =>
    if c = 0x25 then
      match escapedChar (c :: rest) with
      | none => none
      | some (cs, rest) => (decodeLoop fuel rest).map (utf16 cs ++ ·)
    else (decodeLoop fuel rest).map (c :: ·)

/-- `decodeURIComponent`; `none` is a `URIError`. -/
def decodeURIComponent (u : List UInt16) : Option (List UInt16) := decodeLoop u.length u

/-! ## Go's escapes -/

/-- The code units of ASCII text. -/
def units (b : Bytes) : List UInt16 := b.map UInt8.toUInt16

/-- ASCII text. -/
def Ascii (b : Bytes) : Prop := ∀ c ∈ b, c.toNat < 0x80

/-- An escape at the start of a text, its byte and what follows. -/
inductive Escape : Bytes → UInt8 → Bytes → Prop
  | mk {a b x y : UInt8} (rest : Bytes) (ha : hexValue a = some x) (hb : hexValue b = some y) :
      Escape (0x25 :: a :: b :: rest) (x * 16 + y) rest

section

variable {b rest out : Bytes} {c x : UInt8} {u : List UInt16}

theorem Ascii.of_cons (h : Ascii (c :: b)) : c.toNat < 0x80 ∧ Ascii b := List.forall_mem_cons.mp h

theorem Ascii.of_suffix (h : Ascii b) (hsuffix : rest <:+ b) : Ascii rest := fun c hc => h c (hsuffix.subset hc)

theorem unescape_cons_of_ne (h : c ≠ 0x25) : unescape (c :: b) = (unescape b).map (c :: ·) := by
  rw [unescape]
  · rw [if_neg h]
  · intro _ _ _ hc
    exact absurd hc h

/-- Text without escapes stays as it is. -/
theorem unescape_of_notMem (h : 0x25 ∉ b) : unescape b = some b := by
  induction b with
  | nil => rfl
  | cons c b ih =>
    rw [List.mem_cons, not_or] at h
    rw [unescape_cons_of_ne (Ne.symm h.1), ih h.2]
    rfl

theorem Escape.suffix (h : Escape b x rest) : rest <:+ b ∧ rest.length < b.length := by
  cases h with
  | mk rest ha hb =>
    refine ⟨⟨[0x25, _, _], rfl⟩, ?_⟩
    simp only [List.length_cons]
    omega

theorem Escape.unescape (h : Escape b x rest) : unescape b = (unescape rest).map (x :: ·) := by
  cases h with
  | mk rest ha hb =>
    rw [ServeMux.unescape, ha, hb]
    cases ServeMux.unescape rest <;> rfl

/-- What starts with a percent sign and can be unescaped starts with an escape. -/
theorem exists_escape (h : unescape (0x25 :: b) = some out) :
    ∃ x rest out', Escape (0x25 :: b) x rest ∧ unescape rest = some out' ∧ out = x :: out' := by
  match b with
  | [] | [_] => cases h
  | a :: d :: rest =>
    rw [ServeMux.unescape] at h
    cases ha : hexValue a with
    | none => rw [ha] at h; cases h
    | some x =>
      cases hd : hexValue d with
      | none => rw [ha, hd] at h; cases h
      | some y =>
        cases hrest : ServeMux.unescape rest with
        | none => rw [ha, hd, hrest] at h; cases h
        | some out' =>
          rw [ha, hd, hrest] at h
          exact ⟨_, rest, out', .mk rest ha hd, hrest, (Option.some.inj h).symm⟩

/-! ## Escapes in both languages -/

theorem hexUnit_toUInt16 (h : c.toNat < 0x80) : hexUnit c.toUInt16 = hexValue c := by
  unfold hexUnit
  rw [UInt8.toNat_toUInt16, if_pos h, UInt8.toUInt8_toUInt16]

theorem toUInt16_eq_percent_iff : c.toUInt16 = 0x25 ↔ c = 0x25 := by
  constructor
  · intro h
    rw [← UInt8.toUInt8_toUInt16 c, h]
    rfl
  · rintro rfl
    rfl

theorem escape_units_iff (h : Ascii b) :
    escape (units b) = some (x, u) ↔ ∃ rest, Escape b x rest ∧ u = units rest := by
  match b with
  | [] | [_] | [_, _] =>
    constructor
    · intro hescape
      cases hescape
    · rintro ⟨rest, hescape, -⟩
      cases hescape
  | c :: a :: d :: rest =>
    obtain ⟨-, h⟩ := h.of_cons
    obtain ⟨ha, h⟩ := h.of_cons
    obtain ⟨hd, -⟩ := h.of_cons
    show (if c.toUInt16 = 0x25 then
      match hexUnit a.toUInt16, hexUnit d.toUInt16 with
      | some x, some y => some (x * 16 + y, units rest)
      | _, _ => none
      else none) = some (x, u) ↔ _
    rw [hexUnit_toUInt16 ha, hexUnit_toUInt16 hd]
    constructor
    · intro hescape
      split_ifs at hescape with hc
      obtain rfl := toUInt16_eq_percent_iff.mp hc
      cases hxa : hexValue a with
      | none => rw [hxa] at hescape; cases hescape
      | some y =>
        cases hxd : hexValue d with
        | none => rw [hxa, hxd] at hescape; cases hescape
        | some z =>
          rw [hxa, hxd] at hescape
          obtain ⟨rfl, rfl⟩ := Prod.mk.inj (Option.some.inj hescape)
          exact ⟨rest, .mk rest hxa hxd, rfl⟩
    · rintro ⟨rest', hescape, rfl⟩
      cases hescape with
      | mk rest hxa hxd =>
        rw [if_pos (show UInt8.toUInt16 0x25 = 0x25 from rfl), hxa, hxd]

/-- What escapes in a row spell. -/
theorem of_escapes {n : ℕ} {xs : Bytes} (h : Ascii b) (hescapes : escapes n (units b) = some (xs, u)) :
    ∃ rest, u = units rest ∧ rest <:+ b ∧ unescape b = (unescape rest).map (xs ++ ·) := by
  induction n generalizing b xs with
  | zero =>
    obtain ⟨rfl, rfl⟩ := Prod.mk.inj (Option.some.inj hescapes)
    exact ⟨b, rfl, List.suffix_rfl, by cases unescape b <;> rfl⟩
  | succ n ih =>
    rw [escapes] at hescapes
    cases hescape : escape (units b) with
    | none => rw [hescape] at hescapes; cases hescapes
    | some r =>
      rw [hescape] at hescapes
      obtain ⟨rest, hfirst, hu⟩ := (escape_units_iff h).mp (show escape (units b) = some (r.1, r.2) from hescape)
      obtain ⟨⟨ys, v⟩, hys, heq⟩ := Option.map_eq_some_iff.mp hescapes
      obtain ⟨rfl, rfl⟩ := Prod.mk.inj heq
      rw [hu] at hys
      obtain ⟨rest', hv, hsuffix, hrest⟩ := ih (h.of_suffix hfirst.suffix.1) hys
      refine ⟨rest', hv, hsuffix.trans hfirst.suffix.1, ?_⟩
      rw [hfirst.unescape, hrest, Option.map_map]
      rfl

/-- Bytes that are not ASCII come from escapes. -/
theorem escapes_of_unescape {xs : Bytes} (h : Ascii b) (hxs : ∀ x ∈ xs, 0x80 ≤ x.toNat)
    (hb : unescape b = some (xs ++ out)) :
    ∃ rest, escapes xs.length (units b) = some (xs, units rest) ∧ rest <:+ b ∧ unescape rest = some out := by
  induction xs generalizing b with
  | nil => exact ⟨b, rfl, List.suffix_rfl, hb⟩
  | cons x xs ih =>
    obtain ⟨hx, hxs⟩ := List.forall_mem_cons.mp hxs
    cases b with
    | nil => cases hb
    | cons c b =>
      by_cases hc : c = 0x25
      · subst hc
        obtain ⟨y, rest, out', hescape, hrest, heq⟩ := exists_escape hb
        obtain ⟨rfl, rfl⟩ := List.cons.inj heq
        obtain ⟨rest', hescapes, hsuffix, hout⟩ := ih (h.of_suffix hescape.suffix.1) hxs hrest
        refine ⟨rest', ?_, hsuffix.trans hescape.suffix.1, hout⟩
        rw [List.length_cons, escapes, (escape_units_iff h).mpr ⟨rest, hescape, rfl⟩]
        dsimp only
        rw [hescapes]
        rfl
      · rw [unescape_cons_of_ne hc] at hb
        obtain ⟨out', -, heq⟩ := Option.map_eq_some_iff.mp hb
        obtain ⟨rfl, -⟩ := List.cons.inj heq
        have hlt := h.of_cons.1
        omega

end

/-! ## Characters -/

theorem utf8_append (cs ds : List Char) : utf8 (cs ++ ds) = utf8 cs ++ utf8 ds := List.flatMap_append

theorem utf16_append (cs ds : List Char) : utf16 (cs ++ ds) = utf16 cs ++ utf16 ds := List.flatMap_append

/-- The first byte of a character says how many follow. -/
theorem exists_following (c : Char) : ∃ x xs, String.utf8EncodeChar c = x :: xs ∧ following x = some xs.length ∧
    ∀ y ∈ xs, 0x80 ≤ y.toNat := by
  have hmax : c.val.toNat < 0x110000 := c.valid.elim (fun h => lt_trans h (by decide)) (·.2)
  unfold String.utf8EncodeChar
  set v := c.val.toNat with hv
  dsimp only
  have htail {n : ℕ} (hn : 0x80 ≤ n % 256) : 0x80 ≤ (UInt8.ofNat n).toNat := by
    rw [UInt8.toNat_ofNat']
    exact hn
  have hlead {n k : ℕ} (hn : (if n % 256 < 0x80 then some 0 else if n % 256 < 0xC0 then none
      else if n % 256 < 0xE0 then some 1 else if n % 256 < 0xF0 then some 2
      else if n % 256 < 0xF8 then some 3 else none) = some k) : following (UInt8.ofNat n) = some k := by
    unfold following
    rw [UInt8.toNat_ofNat']
    exact hn
  split_ifs
  · refine ⟨_, _, rfl, hlead ?_, by simp⟩
    rw [if_pos (by omega)]
    rfl
  · refine ⟨_, _, rfl, hlead ?_, List.forall_mem_singleton.mpr (htail (by omega))⟩
    rw [if_neg (by omega), if_neg (by omega), if_pos (by omega)]
    rfl
  · refine ⟨_, _, rfl, hlead ?_, List.forall_mem_cons.mpr ⟨htail (by omega),
      List.forall_mem_singleton.mpr (htail (by omega))⟩⟩
    rw [if_neg (by omega), if_neg (by omega), if_neg (by omega), if_pos (by omega)]
    rfl
  · refine ⟨_, _, rfl, hlead ?_, List.forall_mem_cons.mpr ⟨htail (by omega),
      List.forall_mem_cons.mpr ⟨htail (by omega), List.forall_mem_singleton.mpr (htail (by omega))⟩⟩⟩
    rw [if_neg (by omega), if_neg (by omega), if_neg (by omega), if_neg (by omega), if_pos (by omega)]
    rfl

/-- An ASCII byte is a character of one code unit. -/
theorem utf16_cons_byte {c : UInt8} (h : c.toNat < 0x80) (cs : List Char) :
    utf16 (Char.ofNat c.toNat :: cs) = c.toUInt16 :: utf16 cs := by
  have hval : (Char.ofNat c.toNat).val.toNat = c.toNat := toNat_charOfNat (.inl (by omega))
  rw [utf16_cons, utf16EncodeChar, hval, if_pos (by omega)]
  show UInt16.ofNat c.toNat :: utf16 cs = _
  congr 1
  rw [← UInt16.toNat_inj, UInt16.toNat_ofNat', UInt8.toNat_toUInt16]
  omega

theorem utf8_cons_byte {c : UInt8} (h : c.toNat < 0x80) (cs : List Char) :
    utf8 (Char.ofNat c.toNat :: cs) = c :: utf8 cs := by
  rw [utf8_cons, utf8EncodeChar_one (by omega)]
  rfl

/-- A string that starts with an ASCII byte. -/
theorem exists_of_cons_byte {c : UInt8} (h : c.toNat < 0x80) {cs : List Char} {b : Bytes} (hcs : utf8 cs = c :: b) :
    ∃ ds, cs = Char.ofNat c.toNat :: ds ∧ b = utf8 ds := by
  have hdecode : utf8Decode (c :: b) = some cs := utf8Decode_eq_some_iff.mpr hcs.symm
  rw [utf8Decode_one (by omega)] at hdecode
  obtain ⟨ds, hds, rfl⟩ := Option.map_eq_some_iff.mp hdecode
  exact ⟨ds, rfl, utf8Decode_eq_some_iff.mp hds⟩

/-! ## The two decodings -/

/-- An escaped character is what its bytes spell. -/
theorem of_escapedChar {b : Bytes} {cs : List Char} {u : List UInt16} (h : Ascii b)
    (hchar : escapedChar (units b) = some (cs, u)) :
    ∃ rest, u = units rest ∧ rest <:+ b ∧ rest.length < b.length ∧ unescape b = (unescape rest).map (utf8 cs ++ ·) := by
  unfold escapedChar at hchar
  cases hescape : escape (units b) with
  | none => rw [hescape] at hchar; cases hchar
  | some r =>
    rw [hescape] at hchar
    dsimp only at hchar
    obtain ⟨rest, hfirst, hu⟩ := (escape_units_iff h).mp (show escape (units b) = some (r.1, r.2) from hescape)
    cases hn : following r.1 with
    | none => rw [hn] at hchar; cases hchar
    | some n =>
      rw [hn] at hchar
      dsimp only at hchar
      cases hxs : escapes n r.2 with
      | none => rw [hxs] at hchar; cases hchar
      | some s =>
        rw [hxs] at hchar
        obtain ⟨cs', hdecode, heq⟩ := Option.map_eq_some_iff.mp hchar
        obtain ⟨rfl, rfl⟩ := Prod.mk.inj heq
        rw [hu] at hxs
        obtain ⟨rest', hv, hsuffix, hrest⟩ := of_escapes (h.of_suffix hfirst.suffix.1)
          (show escapes n (units rest) = some (s.1, s.2) from hxs)
        refine ⟨rest', hv, hsuffix.trans hfirst.suffix.1, hsuffix.length_le.trans_lt hfirst.suffix.2, ?_⟩
        rw [hfirst.unescape, hrest, Option.map_map, ← utf8Decode_eq_some_iff.mp hdecode]
        rfl

/-- Bytes behind a percent sign that spell a character. -/
theorem escapedChar_of_unescape {b : Bytes} {c : Char} {cs : List Char} (h : Ascii (0x25 :: b))
    (hb : unescape (0x25 :: b) = some (utf8 (c :: cs))) : ∃ rest, escapedChar (units (0x25 :: b)) = some ([c], units rest) ∧
      rest <:+ 0x25 :: b ∧ rest.length < (0x25 :: b).length ∧ unescape rest = some (utf8 cs) := by
  obtain ⟨x, xs, hc, hfollowing, hxs⟩ := exists_following c
  obtain ⟨y, rest, out, hescape, hrest, heq⟩ := exists_escape hb
  rw [utf8_cons, hc, List.cons_append] at heq
  obtain ⟨rfl, rfl⟩ := List.cons.inj heq
  obtain ⟨rest', hescapes, hsuffix, hout⟩ := escapes_of_unescape (h.of_suffix hescape.suffix.1) hxs hrest
  refine ⟨rest', ?_, hsuffix.trans hescape.suffix.1, hsuffix.length_le.trans_lt hescape.suffix.2, hout⟩
  have hdecode : utf8Decode (x :: xs) = some [c] := by
    rw [utf8Decode_eq_some_iff, utf8_cons, hc]
    exact (List.append_nil _).symm
  unfold escapedChar
  rw [(escape_units_iff h).mpr ⟨rest, hescape, rfl⟩]
  dsimp only
  rw [hfollowing]
  dsimp only
  rw [hescapes]
  dsimp only
  rw [hdecode]
  rfl

theorem decodeLoop_eq_some_iff {fuel : ℕ} {b : Bytes} {u : List UInt16} (h : Ascii b) (hfuel : b.length ≤ fuel) :
    decodeLoop fuel (units b) = some u ↔ ∃ cs, unescape b = some (utf8 cs) ∧ u = utf16 cs := by
  induction fuel generalizing b u with
  | zero =>
    obtain rfl := List.length_eq_zero_iff.mp (Nat.le_zero.mp hfuel)
    constructor
    · intro hu
      exact ⟨[], rfl, (Option.some.inj hu).symm⟩
    · rintro ⟨cs, hcs, rfl⟩
      rw [utf8_eq_nil_iff.mp (Option.some.inj hcs).symm]
      rfl
  | succ fuel ih =>
    cases b with
    | nil =>
      constructor
      · intro hu
        exact ⟨[], rfl, (Option.some.inj hu).symm⟩
      · rintro ⟨cs, hcs, rfl⟩
        rw [utf8_eq_nil_iff.mp (Option.some.inj hcs).symm]
        rfl
    | cons c b =>
      obtain ⟨hc, hb⟩ := h.of_cons
      rw [List.length_cons] at hfuel
      show (if c.toUInt16 = 0x25 then
        match escapedChar (units (c :: b)) with
        | none => none
        | some (cs, rest) => (decodeLoop fuel rest).map (utf16 cs ++ ·)
        else (decodeLoop fuel (units b)).map (c.toUInt16 :: ·)) = some u ↔ _
      by_cases hpercent : c = 0x25
      · subst hpercent
        rw [if_pos (show UInt8.toUInt16 0x25 = 0x25 from rfl)]
        constructor
        · intro hu
          cases hchar : escapedChar (units (0x25 :: b)) with
          | none => rw [hchar] at hu; cases hu
          | some r =>
            rw [hchar] at hu
            obtain ⟨rest, hr, hsuffix, hlt, hunescape⟩ := of_escapedChar h
              (show escapedChar (units (0x25 :: b)) = some (r.1, r.2) from hchar)
            dsimp only at hu
            rw [hr] at hu
            obtain ⟨v, hv, rfl⟩ := Option.map_eq_some_iff.mp hu
            rw [List.length_cons] at hlt
            obtain ⟨ds, hds, rfl⟩ := (ih (h.of_suffix hsuffix) (by omega)).mp hv
            refine ⟨r.1 ++ ds, ?_, (utf16_append _ _).symm⟩
            rw [hunescape, hds, utf8_append]
            rfl
        · rintro ⟨cs, hcs, rfl⟩
          cases cs with
          | nil =>
            obtain ⟨x, rest, out, -, -, heq⟩ := exists_escape hcs
            cases heq
          | cons c' cs =>
            obtain ⟨rest, hchar, hsuffix, hlt, hrest⟩ := escapedChar_of_unescape h hcs
            rw [List.length_cons] at hlt
            rw [hchar]
            dsimp only
            rw [(ih (h.of_suffix hsuffix) (by omega)).mpr ⟨cs, hrest, rfl⟩]
            show some (utf16 [c'] ++ utf16 cs) = some (utf16 (c' :: cs))
            rw [← utf16_append]
            rfl
      · rw [if_neg fun hu => hpercent (toUInt16_eq_percent_iff.mp hu), unescape_cons_of_ne hpercent]
        constructor
        · intro hu
          obtain ⟨v, hv, rfl⟩ := Option.map_eq_some_iff.mp hu
          obtain ⟨ds, hds, rfl⟩ := (ih hb (by omega)).mp hv
          refine ⟨Char.ofNat c.toNat :: ds, ?_, (utf16_cons_byte hc ds).symm⟩
          rw [hds, utf8_cons_byte hc]
          rfl
        · rintro ⟨cs, hcs, rfl⟩
          obtain ⟨out, hout, heq⟩ := Option.map_eq_some_iff.mp hcs
          obtain ⟨ds, rfl, rfl⟩ := exists_of_cons_byte hc heq.symm
          rw [(ih hb (by omega)).mpr ⟨ds, hout, rfl⟩, utf16_cons_byte hc]
          rfl

/-- **`decodeURIComponent` and Go agree** on ASCII text: it returns the string that the
    unescaped bytes spell, and fails where they cannot be unescaped or spell nothing. -/
theorem decodeURIComponent_eq_some_iff {b : Bytes} {u : List UInt16} (h : Ascii b) :
    decodeURIComponent (units b) = some u ↔ ∃ cs, unescape b = some (utf8 cs) ∧ u = utf16 cs := by
  unfold decodeURIComponent
  rw [show (units b).length = b.length from List.length_map _]
  exact decodeLoop_eq_some_iff h le_rfl

end Percent
