import Http4.Data.Bytes

/-!
# UTF-8 and UTF-16

A Unicode string is a `List Char`, since `Char` is exactly a Unicode scalar
value. `utf8` and `utf16` encode one; `String.utf8EncodeChar` is the library's
encoding of a single scalar value.

* `utf8Valid`: the grammar of RFC 3629 §4 as a recogniser.
* `utf8Decode`: the UTF-8 decoder of the WHATWG Encoding Standard, run over a
  whole byte string in fatal mode, before any byte order mark is removed.
* `utf16Decode`: the scalar values of a sequence of UTF-16 code units; `none`
  if a surrogate stands alone.

Main results:

* `utf8Decode_eq_some_iff`: the decoder returns `cs` exactly on `utf8 cs`.
* `utf8Valid_iff`: the grammar derives exactly the strings `utf8 cs`.
* `utf16Decode_eq_some_iff`: `utf16Decode` is the partial inverse of `utf16`.
-/

namespace Unicode

/-- The UTF-8 encoding of a Unicode string. -/
def utf8 (cs : List Char) : Bytes := cs.flatMap String.utf8EncodeChar

@[simp] theorem utf8_nil : utf8 [] = [] := rfl

@[simp] theorem utf8_cons (c : Char) (cs : List Char) :
    utf8 (c :: cs) = String.utf8EncodeChar c ++ utf8 cs := rfl

/-! ## RFC 3629 -/

/-- `UTF8-tail = %x80-BF`. -/
def utf8Tail (b : UInt8) : Bool := 0x80 ≤ b.toNat && b.toNat ≤ 0xBF

/-- `UTF8-2 = %xC2-DF UTF8-tail`. -/
def utf8Two (a b : UInt8) : Bool := 0xC2 ≤ a.toNat && a.toNat ≤ 0xDF && utf8Tail b

/-- The first two octets of `UTF8-3`; a `UTF8-tail` follows. -/
def utf8Three (a b : UInt8) : Bool :=
  (a.toNat == 0xE0 && (0xA0 ≤ b.toNat && b.toNat ≤ 0xBF)) ||
  (0xE1 ≤ a.toNat && a.toNat ≤ 0xEC && utf8Tail b) ||
  (a.toNat == 0xED && (0x80 ≤ b.toNat && b.toNat ≤ 0x9F)) ||
  (0xEE ≤ a.toNat && a.toNat ≤ 0xEF && utf8Tail b)

/-- The first two octets of `UTF8-4`; two `UTF8-tail`s follow. -/
def utf8Four (a b : UInt8) : Bool :=
  (a.toNat == 0xF0 && (0x90 ≤ b.toNat && b.toNat ≤ 0xBF)) ||
  (0xF1 ≤ a.toNat && a.toNat ≤ 0xF3 && utf8Tail b) ||
  (a.toNat == 0xF4 && (0x80 ≤ b.toNat && b.toNat ≤ 0x8F))

/-- `UTF8-octets = *( UTF8-char )`. -/
def utf8Valid : Bytes → Bool
  | [] => true
  | a :: rest =>
    if a.toNat ≤ 0x7F then utf8Valid rest
    else match rest with
      | [] => false
      | b :: rest =>
        if utf8Two a b then utf8Valid rest
        else match rest with
          | [] => false
          | c :: rest =>
            if utf8Three a b && utf8Tail c then utf8Valid rest
            else match rest with
              | [] => false
              | d :: rest => utf8Four a b && utf8Tail c && utf8Tail d && utf8Valid rest

/-! ## The WHATWG UTF-8 decoder -/

/-- "UTF-8 code point", "bytes seen", "bytes needed", "lower boundary" and
    "upper boundary" of the decoder. -/
structure Utf8State where
  codePoint : ℕ := 0
  bytesSeen : ℕ := 0
  bytesNeeded : ℕ := 0
  lower : ℕ := 0x80
  upper : ℕ := 0xBF

/-- The handler on one byte: `none` is an error; otherwise the next state and
    the code point returned, if any. -/
def utf8Handler (st : Utf8State) (byte : ℕ) : Option (Utf8State × Option ℕ) :=
  if st.bytesNeeded = 0 then
    if byte ≤ 0x7F then some (st, some byte)
    else if 0xC2 ≤ byte ∧ byte ≤ 0xDF then
      some ({ st with bytesNeeded := 1, codePoint := byte % 0x20 }, none)
    else if 0xE0 ≤ byte ∧ byte ≤ 0xEF then
      some ({ st with
        lower := if byte = 0xE0 then 0xA0 else st.lower
        upper := if byte = 0xED then 0x9F else st.upper
        bytesNeeded := 2, codePoint := byte % 0x10 }, none)
    else if 0xF0 ≤ byte ∧ byte ≤ 0xF4 then
      some ({ st with
        lower := if byte = 0xF0 then 0x90 else st.lower
        upper := if byte = 0xF4 then 0x8F else st.upper
        bytesNeeded := 3, codePoint := byte % 0x08 }, none)
    else none
  else if byte < st.lower ∨ st.upper < byte then none
  else
    let codePoint := st.codePoint * 0x40 + byte % 0x40
    if st.bytesSeen + 1 = st.bytesNeeded then some ({}, some codePoint)
    else some ({ codePoint := codePoint, bytesSeen := st.bytesSeen + 1,
                 bytesNeeded := st.bytesNeeded }, none)

/-- The decoder over the rest of the input. The end of the input inside a
    sequence is an error. -/
def utf8Run : Utf8State → Bytes → Option (List Char)
  | st, [] => if st.bytesNeeded = 0 then some [] else none
  | st, b :: rest =>
    match utf8Handler st b.toNat with
    | none => none
    | some (st', none) => utf8Run st' rest
    | some (st', some cp) => (utf8Run st' rest).map (Char.ofNat cp :: ·)

/-- Decode a whole byte string, rejecting anything ill-formed. -/
def utf8Decode (b : Bytes) : Option (List Char) := utf8Run {} b

/-! ### Single steps of the decoder -/

theorem utf8Decode_one {a : UInt8} (ha : a.toNat ≤ 0x7F) (rest : Bytes) :
    utf8Decode (a :: rest) = (utf8Decode rest).map (Char.ofNat a.toNat :: ·) := by
  simp [utf8Decode, utf8Run, utf8Handler, ha]

theorem utf8Decode_lead_two {a : UInt8} (h1 : 0xC2 ≤ a.toNat) (h2 : a.toNat ≤ 0xDF)
    (rest : Bytes) :
    utf8Decode (a :: rest) = utf8Run { codePoint := a.toNat % 0x20, bytesNeeded := 1 } rest := by
  have h0 : ¬ a.toNat ≤ 0x7F := by omega
  simp [utf8Decode, utf8Run, utf8Handler, h0, h1, h2]

theorem utf8Decode_lead_three {a : UInt8} (h1 : 0xE0 ≤ a.toNat) (h2 : a.toNat ≤ 0xEF)
    (rest : Bytes) :
    utf8Decode (a :: rest) = utf8Run
      { codePoint := a.toNat % 0x10, bytesNeeded := 2
        lower := if a.toNat = 0xE0 then 0xA0 else 0x80
        upper := if a.toNat = 0xED then 0x9F else 0xBF } rest := by
  have h0 : ¬ a.toNat ≤ 0x7F := by omega
  have h3 : ¬ a.toNat ≤ 0xDF := by omega
  simp [utf8Decode, utf8Run, utf8Handler, h0, h1, h2, h3]

theorem utf8Decode_lead_four {a : UInt8} (h1 : 0xF0 ≤ a.toNat) (h2 : a.toNat ≤ 0xF4)
    (rest : Bytes) :
    utf8Decode (a :: rest) = utf8Run
      { codePoint := a.toNat % 0x08, bytesNeeded := 3
        lower := if a.toNat = 0xF0 then 0x90 else 0x80
        upper := if a.toNat = 0xF4 then 0x8F else 0xBF } rest := by
  have h0 : ¬ a.toNat ≤ 0x7F := by omega
  have h3 : ¬ a.toNat ≤ 0xDF := by omega
  have h4 : ¬ a.toNat ≤ 0xEF := by omega
  simp [utf8Decode, utf8Run, utf8Handler, h0, h1, h2, h3, h4]

theorem utf8Decode_lead_bad {a : UInt8} (h0 : 0x7F < a.toNat)
    (h : a.toNat < 0xC2 ∨ 0xF4 < a.toNat) (rest : Bytes) : utf8Decode (a :: rest) = none := by
  have h1 : ¬ a.toNat ≤ 0x7F := by omega
  have h2 : ¬ (0xC2 ≤ a.toNat ∧ a.toNat ≤ 0xDF) := by omega
  have h3 : ¬ (0xE0 ≤ a.toNat ∧ a.toNat ≤ 0xEF) := by omega
  have h4 : ¬ (0xF0 ≤ a.toNat ∧ a.toNat ≤ 0xF4) := by omega
  simp [utf8Decode, utf8Run, utf8Handler, h1, h2, h3, h4]

section Continuation

variable {st : Utf8State} (hn : st.bytesNeeded ≠ 0)
include hn

theorem utf8Run_nil : utf8Run st [] = none := by simp [utf8Run, hn]

theorem utf8Run_out {b : UInt8} (hb : b.toNat < st.lower ∨ st.upper < b.toNat) (rest : Bytes) :
    utf8Run st (b :: rest) = none := by
  simp [utf8Run, utf8Handler, hn, hb]

theorem utf8Run_more {b : UInt8} (h1 : st.lower ≤ b.toNat) (h2 : b.toNat ≤ st.upper)
    (hs : st.bytesSeen + 1 ≠ st.bytesNeeded) (rest : Bytes) :
    utf8Run st (b :: rest) =
      utf8Run { codePoint := st.codePoint * 0x40 + b.toNat % 0x40,
                bytesSeen := st.bytesSeen + 1, bytesNeeded := st.bytesNeeded } rest := by
  have hb : ¬ (b.toNat < st.lower ∨ st.upper < b.toNat) := by omega
  simp [utf8Run, utf8Handler, hn, hb, hs]

theorem utf8Run_last {b : UInt8} (h1 : st.lower ≤ b.toNat) (h2 : b.toNat ≤ st.upper)
    (hs : st.bytesSeen + 1 = st.bytesNeeded) (rest : Bytes) :
    utf8Run st (b :: rest) =
      (utf8Decode rest).map (Char.ofNat (st.codePoint * 0x40 + b.toNat % 0x40) :: ·) := by
  have hb : ¬ (b.toNat < st.lower ∨ st.upper < b.toNat) := by omega
  simp [utf8Run, utf8Handler, utf8Decode, hn, hb, hs]

end Continuation

/-! ### One sequence at a time -/

theorem utf8Tail_iff {b : UInt8} : utf8Tail b = true ↔ 0x80 ≤ b.toNat ∧ b.toNat ≤ 0xBF := by
  simp [utf8Tail]

theorem utf8Two_iff {a b : UInt8} :
    utf8Two a b = true ↔ 0xC2 ≤ a.toNat ∧ a.toNat ≤ 0xDF ∧ 0x80 ≤ b.toNat ∧ b.toNat ≤ 0xBF := by
  simp [utf8Two, utf8Tail, and_assoc]

/-- The first two octets of `UTF8-3`, with the decoder's boundaries. -/
theorem utf8Three_iff {a b : UInt8} :
    utf8Three a b = true ↔ 0xE0 ≤ a.toNat ∧ a.toNat ≤ 0xEF ∧
      (if a.toNat = 0xE0 then 0xA0 else 0x80) ≤ b.toNat ∧
      b.toNat ≤ (if a.toNat = 0xED then 0x9F else 0xBF) := by
  simp only [utf8Three, utf8Tail, Bool.or_eq_true, Bool.and_eq_true, decide_eq_true_eq, beq_iff_eq]
  split_ifs <;> omega

/-- The first two octets of `UTF8-4`, with the decoder's boundaries. -/
theorem utf8Four_iff {a b : UInt8} :
    utf8Four a b = true ↔ 0xF0 ≤ a.toNat ∧ a.toNat ≤ 0xF4 ∧
      (if a.toNat = 0xF0 then 0x90 else 0x80) ≤ b.toNat ∧
      b.toNat ≤ (if a.toNat = 0xF4 then 0x8F else 0xBF) := by
  simp only [utf8Four, utf8Tail, Bool.or_eq_true, Bool.and_eq_true, decide_eq_true_eq, beq_iff_eq]
  split_ifs <;> omega

theorem utf8Decode_two {a b : UInt8} (h : utf8Two a b = true) (rest : Bytes) :
    utf8Decode (a :: b :: rest) =
      (utf8Decode rest).map (Char.ofNat (a.toNat % 0x20 * 0x40 + b.toNat % 0x40) :: ·) := by
  obtain ⟨ha, ha', hb, hb'⟩ := utf8Two_iff.mp h
  rw [utf8Decode_lead_two ha ha', utf8Run_last (by simp) hb hb' rfl]

theorem utf8Decode_three {a b c : UInt8} (h : utf8Three a b = true) (hc : utf8Tail c = true)
    (rest : Bytes) :
    utf8Decode (a :: b :: c :: rest) = (utf8Decode rest).map
      (Char.ofNat ((a.toNat % 0x10 * 0x40 + b.toNat % 0x40) * 0x40 + c.toNat % 0x40) :: ·) := by
  obtain ⟨ha, ha', hb, hb'⟩ := utf8Three_iff.mp h
  obtain ⟨hc, hc'⟩ := utf8Tail_iff.mp hc
  rw [utf8Decode_lead_three ha ha', utf8Run_more (by simp) hb hb' (by simp),
    utf8Run_last (by simp) hc hc' rfl]

theorem utf8Decode_four {a b c d : UInt8} (h : utf8Four a b = true) (hc : utf8Tail c = true)
    (hd : utf8Tail d = true) (rest : Bytes) :
    utf8Decode (a :: b :: c :: d :: rest) = (utf8Decode rest).map
      (Char.ofNat (((a.toNat % 0x08 * 0x40 + b.toNat % 0x40) * 0x40 + c.toNat % 0x40) * 0x40 +
        d.toNat % 0x40) :: ·) := by
  obtain ⟨ha, ha', hb, hb'⟩ := utf8Four_iff.mp h
  obtain ⟨hc, hc'⟩ := utf8Tail_iff.mp hc
  obtain ⟨hd, hd'⟩ := utf8Tail_iff.mp hd
  rw [utf8Decode_lead_four ha ha', utf8Run_more (by simp) hb hb' (by simp),
    utf8Run_more (by simp) hc hc' (by simp), utf8Run_last (by simp) hd hd' rfl]

/-- The lead byte of a well-formed sequence of two, three or four bytes. -/
theorem lead_cases {a : UInt8} (_ : ¬ a.toNat ≤ 0x7F) :
    (a.toNat < 0xC2 ∨ 0xF4 < a.toNat) ∨ (0xC2 ≤ a.toNat ∧ a.toNat ≤ 0xDF) ∨
      (0xE0 ≤ a.toNat ∧ a.toNat ≤ 0xEF) ∨ (0xF0 ≤ a.toNat ∧ a.toNat ≤ 0xF4) := by
  omega

theorem utf8Decode_short_one {a : UInt8} (h : ¬ a.toNat ≤ 0x7F) : utf8Decode [a] = none := by
  rcases lead_cases h with hbad | ⟨ha, ha'⟩ | ⟨ha, ha'⟩ | ⟨ha, ha'⟩
  · exact utf8Decode_lead_bad (by omega) hbad _
  · rw [utf8Decode_lead_two ha ha', utf8Run_nil (by simp)]
  · rw [utf8Decode_lead_three ha ha', utf8Run_nil (by simp)]
  · rw [utf8Decode_lead_four ha ha', utf8Run_nil (by simp)]

/-- After two bytes that are not a `UTF8-2`, the decoder has failed or wants
    the third byte of a `UTF8-3` or `UTF8-4`. -/
theorem utf8Decode_not_two {a b : UInt8} (h : ¬ a.toNat ≤ 0x7F) (h2 : ¬ utf8Two a b = true)
    (h3 : ¬ utf8Three a b = true) (h4 : ¬ utf8Four a b = true) (rest : Bytes) :
    utf8Decode (a :: b :: rest) = none := by
  rw [utf8Two_iff] at h2
  rw [utf8Three_iff] at h3
  rw [utf8Four_iff] at h4
  rcases lead_cases h with hbad | ⟨ha, ha'⟩ | ⟨ha, ha'⟩ | ⟨ha, ha'⟩
  · exact utf8Decode_lead_bad (by omega) hbad _
  · rw [utf8Decode_lead_two ha ha', utf8Run_out (by simp)]
    simp only
    omega
  · rw [utf8Decode_lead_three ha ha', utf8Run_out (by simp)]
    by_contra hin
    exact h3 ⟨ha, ha', by simp only at hin; omega, by simp only at hin; omega⟩
  · rw [utf8Decode_lead_four ha ha', utf8Run_out (by simp)]
    by_contra hin
    exact h4 ⟨ha, ha', by simp only at hin; omega, by simp only at hin; omega⟩

theorem utf8Decode_three_short {a b : UInt8} (h : utf8Three a b = true) :
    utf8Decode [a, b] = none := by
  obtain ⟨ha, ha', hb, hb'⟩ := utf8Three_iff.mp h
  rw [utf8Decode_lead_three ha ha', utf8Run_more (by simp) hb hb' (by simp), utf8Run_nil (by simp)]

theorem utf8Decode_three_bad {a b c : UInt8} (h : utf8Three a b = true) (hc : ¬ utf8Tail c = true)
    (rest : Bytes) : utf8Decode (a :: b :: c :: rest) = none := by
  obtain ⟨ha, ha', hb, hb'⟩ := utf8Three_iff.mp h
  rw [utf8Tail_iff] at hc
  rw [utf8Decode_lead_three ha ha', utf8Run_more (by simp) hb hb' (by simp),
    utf8Run_out (by simp) (by simp only; omega)]

theorem utf8Decode_four_short {a b : UInt8} (h : utf8Four a b = true) :
    utf8Decode [a, b] = none := by
  obtain ⟨ha, ha', hb, hb'⟩ := utf8Four_iff.mp h
  rw [utf8Decode_lead_four ha ha', utf8Run_more (by simp) hb hb' (by simp), utf8Run_nil (by simp)]

theorem utf8Decode_four_bad {a b c : UInt8} (h : utf8Four a b = true) (hc : ¬ utf8Tail c = true)
    (rest : Bytes) : utf8Decode (a :: b :: c :: rest) = none := by
  obtain ⟨ha, ha', hb, hb'⟩ := utf8Four_iff.mp h
  rw [utf8Tail_iff] at hc
  rw [utf8Decode_lead_four ha ha', utf8Run_more (by simp) hb hb' (by simp),
    utf8Run_out (by simp) (by simp only; omega)]

theorem utf8Decode_four_tail {a b c : UInt8} (h : utf8Four a b = true) (hc : utf8Tail c = true) :
    utf8Decode [a, b, c] = none ∧
      ∀ d rest, ¬ utf8Tail d = true → utf8Decode (a :: b :: c :: d :: rest) = none := by
  obtain ⟨ha, ha', hb, hb'⟩ := utf8Four_iff.mp h
  obtain ⟨hc, hc'⟩ := utf8Tail_iff.mp hc
  constructor
  · rw [utf8Decode_lead_four ha ha', utf8Run_more (by simp) hb hb' (by simp),
      utf8Run_more (by simp) hc hc' (by simp), utf8Run_nil (by simp)]
  · intro d rest hd
    rw [utf8Tail_iff] at hd
    rw [utf8Decode_lead_four ha ha', utf8Run_more (by simp) hb hb' (by simp),
      utf8Run_more (by simp) hc hc' (by simp), utf8Run_out (by simp) (by simp only; omega)]

/-! ### Encoding what was decoded -/

theorem toNat_charOfNat {v : ℕ} (h : v.isValidChar) : (Char.ofNat v).val.toNat = v := by
  rw [Char.ofNat, dif_pos h]
  rfl

section Encode

open String (utf8EncodeChar)

theorem utf8EncodeChar_one {a : UInt8} (ha : a.toNat ≤ 0x7F) :
    utf8EncodeChar (Char.ofNat a.toNat) = [a] := by
  have hv : a.toNat.isValidChar := by left; omega
  unfold utf8EncodeChar
  rw [toNat_charOfNat hv]
  simp [ha]

theorem utf8EncodeChar_two {a b : UInt8} (h : utf8Two a b = true) :
    utf8EncodeChar (Char.ofNat (a.toNat % 0x20 * 0x40 + b.toNat % 0x40)) = [a, b] := by
  obtain ⟨ha, ha', hb, hb'⟩ := utf8Two_iff.mp h
  set v := a.toNat % 0x20 * 0x40 + b.toNat % 0x40 with hv
  have hvalid : v.isValidChar := by left; omega
  unfold utf8EncodeChar
  rw [toNat_charOfNat hvalid]
  dsimp only
  rw [if_neg (by omega), if_pos (by omega)]
  simp only [List.cons.injEq, ← UInt8.toNat_inj, UInt8.toNat_ofNat', and_true]
  omega

theorem utf8EncodeChar_three {a b c : UInt8} (h : utf8Three a b = true) (hc : utf8Tail c = true) :
    utf8EncodeChar (Char.ofNat
      ((a.toNat % 0x10 * 0x40 + b.toNat % 0x40) * 0x40 + c.toNat % 0x40)) = [a, b, c] := by
  obtain ⟨ha, ha', hb, hb'⟩ := utf8Three_iff.mp h
  obtain ⟨hc, hc'⟩ := utf8Tail_iff.mp hc
  set v := (a.toNat % 0x10 * 0x40 + b.toNat % 0x40) * 0x40 + c.toNat % 0x40 with hv
  have hbound : 0x80 ≤ b.toNat ∧ b.toNat ≤ 0xBF := by split_ifs at hb hb' <;> omega
  have hvalid : v.isValidChar := by
    -- the boundaries after E0 and ED keep overlong forms and surrogates out
    unfold Nat.isValidChar
    split_ifs at hb hb' <;> omega
  have hbig : 0x7ff < v := by split_ifs at hb <;> omega
  unfold utf8EncodeChar
  rw [toNat_charOfNat hvalid]
  dsimp only
  rw [if_neg (by omega), if_neg (by omega), if_pos (by omega)]
  simp only [List.cons.injEq, ← UInt8.toNat_inj, UInt8.toNat_ofNat', and_true]
  omega

theorem utf8EncodeChar_four {a b c d : UInt8} (h : utf8Four a b = true) (hc : utf8Tail c = true)
    (hd : utf8Tail d = true) :
    utf8EncodeChar (Char.ofNat
      (((a.toNat % 0x08 * 0x40 + b.toNat % 0x40) * 0x40 + c.toNat % 0x40) * 0x40 +
        d.toNat % 0x40)) = [a, b, c, d] := by
  obtain ⟨ha, ha', hb, hb'⟩ := utf8Four_iff.mp h
  obtain ⟨hc, hc'⟩ := utf8Tail_iff.mp hc
  obtain ⟨hd, hd'⟩ := utf8Tail_iff.mp hd
  set v := ((a.toNat % 0x08 * 0x40 + b.toNat % 0x40) * 0x40 + c.toNat % 0x40) * 0x40 +
    d.toNat % 0x40 with hv
  have hbound : 0x80 ≤ b.toNat ∧ b.toNat ≤ 0xBF := by split_ifs at hb hb' <;> omega
  have hvalid : v.isValidChar := by
    -- the boundaries after F0 and F4 keep the value in U+10000..U+10FFFF
    unfold Nat.isValidChar
    split_ifs at hb hb' <;> omega
  have hbig : 0xffff < v := by split_ifs at hb <;> omega
  unfold utf8EncodeChar
  rw [toNat_charOfNat hvalid]
  dsimp only
  rw [if_neg (by omega), if_neg (by omega), if_neg (by omega)]
  simp only [List.cons.injEq, ← UInt8.toNat_inj, UInt8.toNat_ofNat', and_true]
  omega

end Encode

/-! ### The grammar, the decoder and the encoding agree -/

/-- The decoder accepts what the grammar derives, and the result encodes back
    to the input. -/
theorem utf8Decode_of_valid (b : Bytes) (h : utf8Valid b = true) :
    ∃ cs, utf8Decode b = some cs ∧ utf8 cs = b := by
  fun_induction utf8Valid b with
  | case1 => exact ⟨[], rfl, rfl⟩
  | case2 a rest ha ih =>
    obtain ⟨cs, hcs, rfl⟩ := ih h
    exact ⟨_, by rw [utf8Decode_one ha, hcs, Option.map_some], by simp [utf8EncodeChar_one ha]⟩
  | case3 => cases h
  | case4 a _ b rest hab ih =>
    obtain ⟨cs, hcs, rfl⟩ := ih h
    exact ⟨_, by rw [utf8Decode_two hab, hcs, Option.map_some], by simp [utf8EncodeChar_two hab]⟩
  | case5 => cases h
  | case6 a _ b _ c rest habc ih =>
    obtain ⟨hab, hc⟩ := Bool.and_eq_true _ _ ▸ habc
    obtain ⟨cs, hcs, rfl⟩ := ih h
    exact ⟨_, by rw [utf8Decode_three hab hc, hcs, Option.map_some],
      by simp [utf8EncodeChar_three hab hc]⟩
  | case7 => cases h
  | case8 a _ b _ c _ d rest ih =>
    simp only [Bool.and_eq_true] at h
    obtain ⟨⟨⟨hab, hc⟩, hd⟩, hrest⟩ := h
    obtain ⟨cs, hcs, rfl⟩ := ih hrest
    exact ⟨_, by rw [utf8Decode_four hab hc hd, hcs, Option.map_some],
      by simp [utf8EncodeChar_four hab hc hd]⟩

/-- The decoder rejects what the grammar does not derive. -/
theorem utf8Decode_of_not_valid (b : Bytes) (h : ¬ utf8Valid b = true) : utf8Decode b = none := by
  fun_induction utf8Valid b with
  | case1 => exact absurd rfl h
  | case2 a rest ha ih => rw [utf8Decode_one ha, ih h, Option.map_none]
  | case3 a ha => exact utf8Decode_short_one ha
  | case4 a _ b rest hab ih => rw [utf8Decode_two hab, ih h, Option.map_none]
  | case5 a ha b hab =>
    by_cases h3 : utf8Three a b = true
    · exact utf8Decode_three_short h3
    by_cases h4 : utf8Four a b = true
    · exact utf8Decode_four_short h4
    exact utf8Decode_not_two ha hab h3 h4 _
  | case6 a _ b _ c rest habc ih =>
    obtain ⟨hab, hc⟩ := Bool.and_eq_true _ _ ▸ habc
    rw [utf8Decode_three hab hc, ih h, Option.map_none]
  | case7 a ha b hab c habc =>
    rw [Bool.and_eq_true, not_and] at habc
    by_cases h3 : utf8Three a b = true
    · exact utf8Decode_three_bad h3 (habc h3) _
    by_cases h4 : utf8Four a b = true
    · by_cases hc : utf8Tail c = true
      · exact (utf8Decode_four_tail h4 hc).1
      · exact utf8Decode_four_bad h4 hc _
    exact utf8Decode_not_two ha hab h3 h4 _
  | case8 a ha b hab c habc d rest ih =>
    rw [Bool.and_eq_true, not_and] at habc
    simp only [Bool.and_eq_true, not_and] at h
    by_cases h3 : utf8Three a b = true
    · exact utf8Decode_three_bad h3 (habc h3) _
    by_cases h4 : utf8Four a b = true
    · by_cases hc : utf8Tail c = true
      · by_cases hd : utf8Tail d = true
        · rw [utf8Decode_four h4 hc hd, ih (h ⟨⟨h4, hc⟩, hd⟩), Option.map_none]
        · exact (utf8Decode_four_tail h4 hc).2 d rest hd
      · exact utf8Decode_four_bad h4 hc _
    exact utf8Decode_not_two ha hab h3 h4 _

theorem utf8Valid_eq_isSome (b : Bytes) : utf8Valid b = (utf8Decode b).isSome := by
  by_cases h : utf8Valid b = true
  · obtain ⟨cs, hcs, -⟩ := utf8Decode_of_valid b h
    rw [h, hcs, Option.isSome_some]
  · rw [utf8Decode_of_not_valid b h, Option.isSome_none]
    exact Bool.not_eq_true _ ▸ h

/-- What the decoder returns encodes back to its input. -/
theorem utf8_of_utf8Decode {b : Bytes} {cs : List Char} (h : utf8Decode b = some cs) :
    utf8 cs = b := by
  have hvalid : utf8Valid b = true := by rw [utf8Valid_eq_isSome, h, Option.isSome_some]
  obtain ⟨cs', hcs', hb⟩ := utf8Decode_of_valid b hvalid
  rw [h] at hcs'
  rwa [Option.some.inj hcs']

theorem charOfNat_val (c : Char) : Char.ofNat c.val.toNat = c := Char.ofNat_toNat c

/-- The decoder reads one encoded scalar value at a time. -/
theorem utf8Decode_utf8EncodeChar (c : Char) (rest : Bytes) :
    utf8Decode (String.utf8EncodeChar c ++ rest) = (utf8Decode rest).map (c :: ·) := by
  have hvalid : c.val.toNat < 0xd800 ∨ (0xdfff < c.val.toNat ∧ c.val.toNat < 0x110000) := c.valid
  have hc := charOfNat_val c
  unfold String.utf8EncodeChar
  set v := c.val.toNat with hv
  dsimp only
  split_ifs with h1 h2 h3
  · have ha : (UInt8.ofNat v).toNat = v := by rw [UInt8.toNat_ofNat']; omega
    rw [List.singleton_append, utf8Decode_one (by omega), ha, hc]
  · have ha : (UInt8.ofNat (v / 64 % 0x20 + 0xc0)).toNat = v / 64 % 0x20 + 0xc0 := by
      rw [UInt8.toNat_ofNat']; omega
    have hb : (UInt8.ofNat (v % 0x40 + 0x80)).toNat = v % 0x40 + 0x80 := by
      rw [UInt8.toNat_ofNat']; omega
    rw [List.cons_append, List.singleton_append,
      utf8Decode_two (utf8Two_iff.mpr (by rw [ha, hb]; omega)), ha, hb,
      show (v / 64 % 0x20 + 0xc0) % 0x20 * 0x40 + (v % 0x40 + 0x80) % 0x40 = v by omega, hc]
  · have ha : (UInt8.ofNat (v / 4096 % 0x10 + 0xe0)).toNat = v / 4096 % 0x10 + 0xe0 := by
      rw [UInt8.toNat_ofNat']; omega
    have hb : (UInt8.ofNat (v / 64 % 0x40 + 0x80)).toNat = v / 64 % 0x40 + 0x80 := by
      rw [UInt8.toNat_ofNat']; omega
    have hd : (UInt8.ofNat (v % 0x40 + 0x80)).toNat = v % 0x40 + 0x80 := by
      rw [UInt8.toNat_ofNat']; omega
    rw [List.cons_append, List.cons_append, List.singleton_append,
      utf8Decode_three (utf8Three_iff.mpr (by rw [ha, hb]; split_ifs <;> omega))
        (utf8Tail_iff.mpr (by rw [hd]; omega)), ha, hb, hd,
      show ((v / 4096 % 0x10 + 0xe0) % 0x10 * 0x40 + (v / 64 % 0x40 + 0x80) % 0x40) * 0x40 +
        (v % 0x40 + 0x80) % 0x40 = v by omega, hc]
  · have ha : (UInt8.ofNat (v / 262144 % 0x08 + 0xf0)).toNat = v / 262144 % 0x08 + 0xf0 := by
      rw [UInt8.toNat_ofNat']; omega
    have hb : (UInt8.ofNat (v / 4096 % 0x40 + 0x80)).toNat = v / 4096 % 0x40 + 0x80 := by
      rw [UInt8.toNat_ofNat']; omega
    have hd : (UInt8.ofNat (v / 64 % 0x40 + 0x80)).toNat = v / 64 % 0x40 + 0x80 := by
      rw [UInt8.toNat_ofNat']; omega
    have he : (UInt8.ofNat (v % 0x40 + 0x80)).toNat = v % 0x40 + 0x80 := by
      rw [UInt8.toNat_ofNat']; omega
    rw [List.cons_append, List.cons_append, List.cons_append, List.singleton_append,
      utf8Decode_four (utf8Four_iff.mpr (by rw [ha, hb]; split_ifs <;> omega))
        (utf8Tail_iff.mpr (by rw [hd]; omega)) (utf8Tail_iff.mpr (by rw [he]; omega)),
      ha, hb, hd, he,
      show (((v / 262144 % 0x08 + 0xf0) % 0x08 * 0x40 + (v / 4096 % 0x40 + 0x80) % 0x40) * 0x40 +
        (v / 64 % 0x40 + 0x80) % 0x40) * 0x40 + (v % 0x40 + 0x80) % 0x40 = v by omega, hc]

theorem utf8Decode_utf8 (cs : List Char) : utf8Decode (utf8 cs) = some cs := by
  induction cs with
  | nil => rfl
  | cons c cs ih => rw [utf8_cons, utf8Decode_utf8EncodeChar, ih, Option.map_some]

/-- The decoder is the inverse of the encoding. -/
theorem utf8Decode_eq_some_iff {b : Bytes} {cs : List Char} :
    utf8Decode b = some cs ↔ b = utf8 cs :=
  ⟨fun h => (utf8_of_utf8Decode h).symm, fun h => h ▸ utf8Decode_utf8 cs⟩

/-- The grammar derives exactly the encodings. -/
theorem utf8Valid_iff {b : Bytes} : utf8Valid b = true ↔ ∃ cs, b = utf8 cs := by
  rw [utf8Valid_eq_isSome, Option.isSome_iff_exists]
  simp only [utf8Decode_eq_some_iff]

theorem utf8_injective : Function.Injective utf8 := fun cs cs' h =>
  Option.some.inj ((utf8Decode_utf8 cs).symm.trans (h ▸ utf8Decode_utf8 cs'))

theorem utf8_eq_nil_iff {cs : List Char} : utf8 cs = [] ↔ cs = [] :=
  ⟨fun h => utf8_injective (h.trans utf8_nil.symm), fun h => h ▸ utf8_nil⟩

/-! ## UTF-16 -/

/-- The UTF-16 code units of one scalar value. -/
def utf16EncodeChar (c : Char) : List UInt16 :=
  let v := c.val.toNat
  if v < 0x10000 then [UInt16.ofNat v]
  else [UInt16.ofNat (0xD800 + (v - 0x10000) / 0x400), UInt16.ofNat (0xDC00 + (v - 0x10000) % 0x400)]

/-- The UTF-16 code units of a Unicode string. -/
def utf16 (cs : List Char) : List UInt16 := cs.flatMap utf16EncodeChar

/-- A leading surrogate. -/
def isLead (u : UInt16) : Bool := 0xD800 ≤ u.toNat && u.toNat ≤ 0xDBFF

/-- A trailing surrogate. -/
def isTrail (u : UInt16) : Bool := 0xDC00 ≤ u.toNat && u.toNat ≤ 0xDFFF

/-- The scalar values of a sequence of code units, or `none` if a surrogate
    stands alone. -/
def utf16Decode : List UInt16 → Option (List Char)
  | [] => some []
  | u :: rest =>
    if isLead u then
      match rest with
      | [] => none
      | v :: rest =>
        if isTrail v then
          (utf16Decode rest).map
            (Char.ofNat (0x10000 + (u.toNat - 0xD800) * 0x400 + (v.toNat - 0xDC00)) :: ·)
        else none
    else if isTrail u then none
    else (utf16Decode rest).map (Char.ofNat u.toNat :: ·)

@[simp] theorem utf16_cons (c : Char) (cs : List Char) :
    utf16 (c :: cs) = utf16EncodeChar c ++ utf16 cs := rfl

theorem utf16Decode_utf16EncodeChar (c : Char) (rest : List UInt16) :
    utf16Decode (utf16EncodeChar c ++ rest) = (utf16Decode rest).map (c :: ·) := by
  have hvalid : c.val.toNat < 0xd800 ∨ (0xdfff < c.val.toNat ∧ c.val.toNat < 0x110000) := c.valid
  have hc := charOfNat_val c
  unfold utf16EncodeChar
  set v := c.val.toNat with hv
  dsimp only
  split_ifs with h
  · have hu : (UInt16.ofNat v).toNat = v := by rw [UInt16.toNat_ofNat']; omega
    have hlead : ¬ isLead (UInt16.ofNat v) = true := by
      simp only [isLead, hu, Bool.and_eq_true, decide_eq_true_eq]; omega
    have htrail : ¬ isTrail (UInt16.ofNat v) = true := by
      simp only [isTrail, hu, Bool.and_eq_true, decide_eq_true_eq]; omega
    rw [List.singleton_append, utf16Decode.eq_def]
    simp only [hlead, htrail, hu, hc, Bool.false_eq_true, if_false]
  · set u := UInt16.ofNat (0xD800 + (v - 0x10000) / 0x400) with hu_def
    set w := UInt16.ofNat (0xDC00 + (v - 0x10000) % 0x400) with hw_def
    have hu : u.toNat = 0xD800 + (v - 0x10000) / 0x400 := by
      rw [hu_def, UInt16.toNat_ofNat']; omega
    have hw : w.toNat = 0xDC00 + (v - 0x10000) % 0x400 := by
      rw [hw_def, UInt16.toNat_ofNat']; omega
    have hlead : isLead u = true := by
      simp only [isLead, hu, Bool.and_eq_true, decide_eq_true_eq]; omega
    have htrail : isTrail w = true := by
      simp only [isTrail, hw, Bool.and_eq_true, decide_eq_true_eq]; omega
    rw [List.cons_append, List.singleton_append, utf16Decode, if_pos hlead]
    rw [if_pos htrail, hu, hw, show 0x10000 + (0xD800 + (v - 0x10000) / 0x400 - 0xD800) * 0x400 +
      (0xDC00 + (v - 0x10000) % 0x400 - 0xDC00) = v by omega, hc]

theorem utf16Decode_utf16 (cs : List Char) : utf16Decode (utf16 cs) = some cs := by
  induction cs with
  | nil => rfl
  | cons c cs ih => rw [utf16_cons, utf16Decode_utf16EncodeChar, ih, Option.map_some]

theorem utf16_of_utf16Decode {u : List UInt16} {cs : List Char} (h : utf16Decode u = some cs) :
    utf16 cs = u := by
  fun_induction utf16Decode u generalizing cs with
  | case1 => cases h; rfl
  | case2 => cases h
  | case3 u hu v rest hv ih =>
    obtain ⟨cs', hcs', rfl⟩ := Option.map_eq_some_iff.mp h
    simp only [isLead, isTrail, Bool.and_eq_true, decide_eq_true_eq] at hu hv
    set x := 0x10000 + (u.toNat - 0xD800) * 0x400 + (v.toNat - 0xDC00) with hx
    have hvalid : x.isValidChar := by right; omega
    rw [utf16_cons, ih hcs', utf16EncodeChar, toNat_charOfNat hvalid, if_neg (by omega)]
    simp only [List.cons_append, List.nil_append, List.cons.injEq, ← UInt16.toNat_inj,
      UInt16.toNat_ofNat', and_true]
    omega
  | case4 => cases h
  | case5 => cases h
  | case6 u rest hu hu' ih =>
    obtain ⟨cs', hcs', rfl⟩ := Option.map_eq_some_iff.mp h
    simp only [isLead, isTrail, Bool.and_eq_true, decide_eq_true_eq] at hu hu'
    have hlt := u.toNat_lt
    have hvalid : u.toNat.isValidChar := by unfold Nat.isValidChar; omega
    rw [utf16_cons, ih hcs', utf16EncodeChar, toNat_charOfNat hvalid, if_pos (by omega)]
    simp

/-- `utf16Decode` is the partial inverse of `utf16`. -/
theorem utf16Decode_eq_some_iff {u : List UInt16} {cs : List Char} :
    utf16Decode u = some cs ↔ u = utf16 cs :=
  ⟨fun h => (utf16_of_utf16Decode h).symm, fun h => h ▸ utf16Decode_utf16 cs⟩

theorem utf16_injective : Function.Injective utf16 := fun cs cs' h =>
  Option.some.inj ((utf16Decode_utf16 cs).symm.trans (h ▸ utf16Decode_utf16 cs'))

/-! ## ASCII

The two encodings of a string of ASCII characters are the same numbers, and
either encoding shows whether the string is one. -/

/-- A string of ASCII characters. -/
def IsAscii (cs : List Char) : Prop := ∀ c ∈ cs, c.val.toNat < 0x80

theorem isAscii_cons {c : Char} {cs : List Char} :
    IsAscii (c :: cs) ↔ c.val.toNat < 0x80 ∧ IsAscii cs := List.forall_mem_cons

/-- The first byte of a character tells whether it is ASCII. -/
theorem exists_utf8EncodeChar (c : Char) :
    ∃ x tail, String.utf8EncodeChar c = x :: tail ∧ (x.toNat < 0x80 → c.val.toNat < 0x80) := by
  unfold String.utf8EncodeChar
  set v := c.val.toNat with hv
  dsimp only
  split_ifs
  · exact ⟨_, _, rfl, fun _ => by omega⟩
  all_goals exact ⟨_, _, rfl, fun h => by rw [UInt8.toNat_ofNat'] at h; omega⟩

theorem exists_utf16EncodeChar (c : Char) :
    ∃ u tail, utf16EncodeChar c = u :: tail ∧ (u.toNat < 0x80 → c.val.toNat < 0x80) := by
  have hmax : c.val.toNat < 0x110000 := c.valid.elim (fun h => lt_trans h (by decide)) (·.2)
  unfold utf16EncodeChar
  set v := c.val.toNat with hv
  dsimp only
  split_ifs
  all_goals exact ⟨_, _, rfl, fun h => by rw [UInt16.toNat_ofNat'] at h; omega⟩

theorem isAscii_of_utf8 {cs : List Char} (h : ∀ x ∈ utf8 cs, x.toNat < 0x80) : IsAscii cs := by
  intro c hc
  obtain ⟨x, tail, hx, hlt⟩ := exists_utf8EncodeChar c
  exact hlt (h x (List.mem_flatMap.mpr ⟨c, hc, by rw [hx]; exact List.mem_cons_self⟩))

theorem isAscii_of_utf16 {cs : List Char} (h : ∀ u ∈ utf16 cs, u.toNat < 0x80) : IsAscii cs := by
  intro c hc
  obtain ⟨u, tail, hu, hlt⟩ := exists_utf16EncodeChar c
  exact hlt (h u (List.mem_flatMap.mpr ⟨c, hc, by rw [hu]; exact List.mem_cons_self⟩))

/-- Each ASCII character is one byte and one code unit, of the same value. -/
theorem utf16_eq_map_utf8 {cs : List Char} (h : IsAscii cs) : utf16 cs = (utf8 cs).map UInt8.toUInt16 := by
  induction cs with
  | nil => rfl
  | cons c cs ih =>
    obtain ⟨hc, hcs⟩ := isAscii_cons.mp h
    have h8 : String.utf8EncodeChar c = [UInt8.ofNat c.val.toNat] := by
      unfold String.utf8EncodeChar
      exact if_pos (by omega)
    have h16 : utf16EncodeChar c = [UInt16.ofNat c.val.toNat] := if_pos (by omega)
    rw [utf8_cons, utf16_cons, List.map_append, ← ih hcs, h8, h16, List.map_singleton]
    congr 2
    rw [← UInt16.toNat_inj, UInt8.toNat_toUInt16, UInt16.toNat_ofNat', UInt8.toNat_ofNat']
    omega

theorem exists_utf8_of_ascii {b : Bytes} (h : ∀ x ∈ b, x.toNat < 0x80) : ∃ cs, b = utf8 cs := by
  induction b with
  | nil => exact ⟨[], rfl⟩
  | cons x b ih =>
    obtain ⟨hx, hb⟩ := List.forall_mem_cons.mp h
    obtain ⟨cs, rfl⟩ := ih hb
    exact ⟨Char.ofNat x.toNat :: cs, by rw [utf8_cons, utf8EncodeChar_one (by omega)]; rfl⟩

end Unicode
