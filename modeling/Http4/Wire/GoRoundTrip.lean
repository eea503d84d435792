import Http4.Wire.GoCodec

/-!
# The Go codec is canonical

`layout p` is the encoding `docs/wire-format.md` draws for `p`: type byte,
`rpc_id`, then the fields of its table. Both directions of the codec are
compared with it.

* `marshal_eq_ok_iff`: `Marshal` succeeds exactly on the well-formed packets,
  and returns their layout.
* `decode_eq_ok_iff`: `Decode` succeeds exactly on the layouts of well-formed
  packets, and returns the packet.
* `decode_ne_outOfRange`: `Decode` never indexes out of range.
-/

namespace Http4.Wire

/-- A `do` block succeeds iff its first action does and the rest does on the
    value returned. -/
theorem bind_eq_ok_iff {ε α β : Type} {x : Except ε α} {f : α → Except ε β} {r : β} :
    (x >>= f) = .ok r ↔ ∃ a, x = .ok a ∧ f a = .ok r := by
  cases x <;> simp [bind, Except.bind]

theorem pure_eq_ok_iff {ε α : Type} {a b : α} :
    (pure a : Except ε α) = .ok b ↔ a = b := by
  simp [pure, Except.pure]

@[simp] theorem malformed_ne_ok {α : Type} {m : Malformed} {a : α} :
    (malformed m : Except Fault α) ≠ .ok a := by
  simp [malformed]

@[simp] theorem malformed_ne_outOfRange {α : Type} {m : Malformed} :
    (malformed m : Except Fault α) ≠ .error .outOfRange := by
  simp [malformed]

/-! ## Layouts -/

namespace Field

/-- `name_len`, `name`, `value_len`, `value`. -/
def layout (f : Field) : Bytes :=
  UInt8.ofNat f.name.length :: (f.name ++ (Bytes.beBytes 2 f.value.length ++ f.value))

end Field

namespace Packet

open Bytes (beBytes)

/-- What follows the common header. -/
def body : Packet → Bytes
  | .req p => beBytes 4 p.initialGrant.toNat ++ (beBytes 2 p.assetId.length ++ p.assetId)
  | .data p => beBytes 4 p.totalSize.toNat ++ (beBytes 4 p.offset.toNat ++ p.payload)
  | .grant p => beBytes 4 p.maxOffset.toNat ++ [p.priority]
  | .resend p => beBytes 4 p.start.toNat ++ beBytes 4 p.stop.toNat
  | .error p => [p.code]
  | .metaData p => UInt8.ofNat p.fields.length :: p.fields.flatMap Field.layout
  | .hello p => beBytes 4 p.caps.toNat
  | .dataSeq p =>
    beBytes 4 p.totalSize.toNat ++ (beBytes 4 p.offset.toNat ++ (beBytes 4 p.seq.toNat ++ p.payload))
  | .resendSeq p => beBytes 4 p.start.toNat ++ beBytes 4 p.stop.toNat

/-- The common header: `type` and `rpc_id`. -/
def header (p : Packet) : Bytes := Go.typeCode (Go.packetType p) :: beBytes 8 p.rpc.toNat

/-- The encoding of a packet, as the document draws it. -/
def layout (p : Packet) : Bytes := p.header ++ p.body

@[simp] theorem length_header (p : Packet) : p.header.length = 9 := by simp [header]

theorem drop_layout (p : Packet) : p.layout.drop 9 = p.body := by
  rw [layout, List.drop_left' (length_header p)]

end Packet

namespace Go

open Bytes
open Unicode (utf8Valid utf8Valid_iff)

/-! ## Reads -/

theorem index_eq_ok_iff {b : Bytes} {i : ℕ} {c : UInt8} : index b i = .ok c ↔ b[i]? = some c := by
  unfold index
  split <;> simp_all

theorem slice_eq_ok_iff {b s : Bytes} {i j : ℕ} :
    slice b i j = .ok s ↔ (i ≤ j ∧ j ≤ b.length) ∧ sub b i j = s := by
  unfold slice
  split_ifs with h <;> simp [h]

theorem sliceFrom_eq_ok_iff {b s : Bytes} {i : ℕ} :
    sliceFrom b i = .ok s ↔ i ≤ b.length ∧ b.drop i = s := by
  unfold sliceFrom
  split_ifs with h <;> simp [h]

theorem uint16_eq_ok_iff {b : Bytes} {i : ℕ} {x : UInt16} :
    uint16 b i = .ok x ↔ i + 2 ≤ b.length ∧ sub b i (i + 2) = beBytes 2 x.toNat := by
  unfold uint16
  simp only [bind_eq_ok_iff, slice_eq_ok_iff, pure_eq_ok_iff]
  constructor
  · rintro ⟨s, ⟨⟨-, hlen⟩, rfl⟩, rfl⟩
    have hs : (sub b i (i + 2)).length = 2 := by rw [length_sub hlen]; omega
    have hlt : beNat (sub b i (i + 2)) < 2 ^ 16 := by
      simpa [hs] using beNat_lt (sub b i (i + 2))
    rw [UInt16.toNat_ofNat', Nat.mod_eq_of_lt hlt, beBytes_beNat hs]
    exact ⟨hlen, rfl⟩
  · rintro ⟨hlen, hx⟩
    refine ⟨_, ⟨⟨by omega, hlen⟩, rfl⟩, ?_⟩
    rw [hx, beNat_beBytes (by simpa using x.toNat_lt), UInt16.ofNat_toNat]

theorem uint32_eq_ok_iff {b : Bytes} {i : ℕ} {x : UInt32} :
    uint32 b i = .ok x ↔ i + 4 ≤ b.length ∧ sub b i (i + 4) = beBytes 4 x.toNat := by
  unfold uint32
  simp only [bind_eq_ok_iff, slice_eq_ok_iff, pure_eq_ok_iff]
  constructor
  · rintro ⟨s, ⟨⟨-, hlen⟩, rfl⟩, rfl⟩
    have hs : (sub b i (i + 4)).length = 4 := by rw [length_sub hlen]; omega
    have hlt : beNat (sub b i (i + 4)) < 2 ^ 32 := by
      simpa [hs] using beNat_lt (sub b i (i + 4))
    rw [UInt32.toNat_ofNat', Nat.mod_eq_of_lt hlt, beBytes_beNat hs]
    exact ⟨hlen, rfl⟩
  · rintro ⟨hlen, hx⟩
    refine ⟨_, ⟨⟨by omega, hlen⟩, rfl⟩, ?_⟩
    rw [hx, beNat_beBytes (by simpa using x.toNat_lt), UInt32.ofNat_toNat]

theorem uint64_eq_ok_iff {b : Bytes} {i : ℕ} {x : UInt64} :
    uint64 b i = .ok x ↔ i + 8 ≤ b.length ∧ sub b i (i + 8) = beBytes 8 x.toNat := by
  unfold uint64
  simp only [bind_eq_ok_iff, slice_eq_ok_iff, pure_eq_ok_iff]
  constructor
  · rintro ⟨s, ⟨⟨-, hlen⟩, rfl⟩, rfl⟩
    have hs : (sub b i (i + 8)).length = 8 := by rw [length_sub hlen]; omega
    have hlt : beNat (sub b i (i + 8)) < 2 ^ 64 := by
      simpa [hs] using beNat_lt (sub b i (i + 8))
    rw [UInt64.toNat_ofNat', Nat.mod_eq_of_lt hlt, beBytes_beNat hs]
    exact ⟨hlen, rfl⟩
  · rintro ⟨hlen, hx⟩
    refine ⟨_, ⟨⟨by omega, hlen⟩, rfl⟩, ?_⟩
    rw [hx, beNat_beBytes (by simpa using x.toNat_lt), UInt64.ofNat_toNat]

/-! Reads inside the string are in range. -/

theorem bind_ne_outOfRange {α β : Type} {x : Except Fault α} {f : α → Except Fault β}
    (hx : x ≠ .error .outOfRange) (hf : ∀ a, x = .ok a → f a ≠ .error .outOfRange) :
    (x >>= f) ≠ .error .outOfRange := by
  cases x with
  | error e => exact fun h => hx (by simpa [bind, Except.bind] using h)
  | ok a => exact hf a rfl

theorem pure_ne_outOfRange {α : Type} {a : α} : (pure a : Except Fault α) ≠ .error .outOfRange := by
  simp [pure, Except.pure]

theorem index_ne_outOfRange {b : Bytes} {i : ℕ} (h : i < b.length) :
    index b i ≠ .error .outOfRange := by
  simp [index, List.getElem?_eq_getElem h]

theorem slice_ne_outOfRange {b : Bytes} {i j : ℕ} (hij : i ≤ j) (h : j ≤ b.length) :
    slice b i j ≠ .error .outOfRange := by
  simp [slice, hij, h]

theorem sliceFrom_ne_outOfRange {b : Bytes} {i : ℕ} (h : i ≤ b.length) :
    sliceFrom b i ≠ .error .outOfRange := by
  simp [sliceFrom, h]

theorem uint16_ne_outOfRange {b : Bytes} {i : ℕ} (h : i + 2 ≤ b.length) :
    uint16 b i ≠ .error .outOfRange :=
  bind_ne_outOfRange (slice_ne_outOfRange (by omega) h) fun _ _ => pure_ne_outOfRange

theorem uint32_ne_outOfRange {b : Bytes} {i : ℕ} (h : i + 4 ≤ b.length) :
    uint32 b i ≠ .error .outOfRange :=
  bind_ne_outOfRange (slice_ne_outOfRange (by omega) h) fun _ _ => pure_ne_outOfRange

theorem uint64_ne_outOfRange {b : Bytes} {i : ℕ} (h : i + 8 ≤ b.length) :
    uint64 b i ≠ .error .outOfRange :=
  bind_ne_outOfRange (slice_ne_outOfRange (by omega) h) fun _ _ => pure_ne_outOfRange

/-! ## The checks are the documented rules -/

theorem checkBounds_eq_ok_iff {p : Data} {u : Unit} : checkBounds p = .ok u ↔ p.InBounds := by
  unfold checkBounds Data.InBounds
  split_ifs with h <;> simp <;> omega

theorem validMetaValue_iff {v : Bytes} : validMetaValue v = true ↔ MetaValue v := by
  unfold validMetaValue
  split_ifs with h
  · simp only [false_iff]
    rintro ⟨h1, h2, -, h4, h5⟩
    rcases h with h | h | h | h
    · omega
    · exact absurd h2 (by simpa [maxMetaValue] using h)
    · exact h4 h
    · exact h5 h
  · simp only [not_or, gt_iff_lt, not_lt] at h
    obtain ⟨h1, h2, h4, h5⟩ := h
    rw [List.all_eq_true]
    constructor
    · intro hall
      refine ⟨by omega, by simpa [maxMetaValue] using h2, fun c hc => ?_, h4, h5⟩
      have := hall c hc
      simp only [Bool.not_eq_true', Bool.or_eq_false_iff, decide_eq_false_iff_not,
        UInt8.lt_iff_toNat_lt, not_lt, gt_iff_lt] at this
      exact this
    · intro hv c hc
      have := hv.printable c hc
      simp only [Bool.not_eq_true', Bool.or_eq_false_iff, decide_eq_false_iff_not,
        UInt8.lt_iff_toNat_lt, not_lt, gt_iff_lt]
      exact this

theorem checkFields_eq_ok_iff {seen fields : List Field} :
    checkFields seen fields = .ok () ↔
      (∀ f ∈ fields, f.name ∈ docNames) ∧ (fields.map Field.name).Nodup ∧
      (∀ f ∈ fields, ∀ g ∈ seen, g.name ≠ f.name) ∧ ∀ f ∈ fields, MetaValue f.value := by
  induction fields generalizing seen with
  | nil => simp [checkFields]
  | cons f rest ih =>
    have hnames : metaNames.contains f.name = true ↔ f.name ∈ docNames := by
      rw [List.contains_iff_mem]; rfl
    have hseen : seen.any (fun g => g.name = f.name) = true ↔ ∃ g ∈ seen, g.name = f.name := by
      simp
    rw [checkFields]
    by_cases h1 : metaNames.contains f.name = true
    swap
    · rw [if_pos h1]
      simp only [malformed_ne_ok, false_iff]
      exact fun h => h1 (hnames.mpr (h.1 f (by simp)))
    rw [if_neg (not_not.mpr h1)]
    by_cases h2 : seen.any (fun g => g.name = f.name) = true
    · rw [if_pos h2]
      simp only [malformed_ne_ok, false_iff]
      obtain ⟨g, hg, hgf⟩ := hseen.mp h2
      exact fun h => h.2.2.1 f (by simp) g hg hgf
    rw [if_neg h2]
    by_cases h3 : validMetaValue f.value = true
    swap
    · rw [if_pos h3]
      simp only [malformed_ne_ok, false_iff]
      exact fun h => h3 (validMetaValue_iff.mpr (h.2.2.2 f (by simp)))
    rw [if_neg (not_not.mpr h3), ih]
    simp only [List.mem_cons, forall_eq_or_imp, List.map_cons, List.nodup_cons, List.mem_map,
      List.mem_append, List.not_mem_nil, or_false, not_exists, not_and]
    constructor
    · rintro ⟨hn, hd, hs, hv⟩
      exact ⟨⟨hnames.mp h1, hn⟩, ⟨fun g hg hgf => hs g hg f (.inr rfl) hgf.symm, hd⟩,
        ⟨fun g hg hgf => h2 (hseen.mpr ⟨g, hg, hgf⟩), fun g hg k hk => hs g hg k (.inl hk)⟩,
        validMetaValue_iff.mp h3, hv⟩
    · rintro ⟨⟨-, hn⟩, ⟨hf, hd⟩, ⟨-, hs⟩, -, hv⟩
      refine ⟨hn, hd, fun g hg k hk => ?_, hv⟩
      rcases hk with hk | rfl
      · exact hs g hg k hk
      · exact fun h => hf g hg h.symm

theorem check_eq_ok_iff {fields : List Field} {u : Unit} :
    check fields = .ok u ↔ MetaFields fields := by
  unfold check
  split_ifs with h
  · simp only [malformed_ne_ok, false_iff]
    exact fun hm => absurd hm.count (by simpa [metaNames] using h)
  · rw [checkFields_eq_ok_iff]
    constructor
    · rintro ⟨hn, hd, -, hv⟩
      exact ⟨by simpa [metaNames] using h, hn, hd, hv⟩
    · rintro ⟨-, hn, hd, hv⟩
      exact ⟨hn, hd, by simp, hv⟩

/-! ## `Decode`, one packet type at a time -/

theorem exists_header {b : Bytes} (hb : 9 ≤ b.length) : ∃ h, h.length = 9 ∧ b = h ++ b.drop 9 :=
  ⟨b.take 9, by simpa using hb, (List.take_append_drop 9 b).symm⟩

/-- What all nine cases of `Decode` have in common: they return `p` iff `p` is a
    well-formed packet of their type and id, and its body is what follows the
    header of `b`. -/
def Carries (t : PacketType) (id : UInt64) (b : Bytes) (p : Packet) : Prop :=
  p.WellFormed ∧ packetType p = t ∧ p.rpc = id ∧ b.drop 9 = p.body

theorem decodeGrant_eq_ok_iff {id : UInt64} {b : Bytes} {p : Packet} (hb : 9 ≤ b.length) :
    decodeGrant id b = .ok p ↔ Carries .grant id b p := by
  unfold decodeGrant
  obtain ⟨h, hh, hbh⟩ := exists_header hb
  constructor
  · split_ifs with hlen
    · simp
    · simp only [bind_eq_ok_iff, uint32_eq_ok_iff, index_eq_ok_iff, pure_eq_ok_iff]
      rintro ⟨x, ⟨-, hx⟩, c, hc, rfl⟩
      refine ⟨trivial, rfl, rfl, ?_⟩
      have hlast : b.drop 13 = [c] := by
        rw [List.drop_eq_getElem_cons (by rw [not_not.mp hlen]; decide),
          List.drop_of_length_le (by rw [not_not.mp hlen]; decide)]
        rw [List.getElem?_eq_getElem (by rw [not_not.mp hlen]; decide)] at hc
        rw [Option.some.inj hc]
      rw [Packet.body, ← hx, ← hlast, sub_append_drop (by omega)]
  · rintro ⟨-, hty, rfl, hbody⟩
    cases p <;> simp only [packetType, reduceCtorEq] at hty
    case grant q =>
    rw [hbody, Packet.body] at hbh
    subst hbh
    rw [if_neg (by simp [hh, grantLen, headerLen])]
    simp only [bind_eq_ok_iff, uint32_eq_ok_iff, index_eq_ok_iff, pure_eq_ok_iff]
    refine ⟨q.maxOffset, ⟨by simp [hh], ?_⟩, q.priority, ?_, rfl⟩
    · simp [sub, hh]
    · simp [hh]

theorem decodeData_eq_ok_iff {id : UInt64} {b : Bytes} {p : Packet} (hb : 9 ≤ b.length) :
    decodeData id b = .ok p ↔ Carries .data id b p := by
  unfold decodeData
  obtain ⟨h, hh, hbh⟩ := exists_header hb
  constructor
  · split_ifs with hlen
    · simp
    · simp only [bind_eq_ok_iff, uint32_eq_ok_iff, sliceFrom_eq_ok_iff, pure_eq_ok_iff]
      rintro ⟨ts, ⟨-, hts⟩, off, ⟨-, hoff⟩, pay, ⟨-, rfl⟩, ⟨⟩, hbounds, rfl⟩
      refine ⟨checkBounds_eq_ok_iff.mp hbounds, rfl, rfl, ?_⟩
      rw [Packet.body, ← hts, ← hoff, sub_append_drop (by omega), sub_append_drop (by omega)]
  · rintro ⟨hwf, hty, rfl, hbody⟩
    cases p <;> simp only [packetType, reduceCtorEq] at hty
    case data q =>
    rw [hbody, Packet.body] at hbh
    subst hbh
    rw [if_neg (by simp [hh, dataHeaderLen, headerLen]; omega)]
    simp only [bind_eq_ok_iff, uint32_eq_ok_iff, sliceFrom_eq_ok_iff, pure_eq_ok_iff]
    refine ⟨q.totalSize, ⟨by simp [hh]; omega, ?_⟩, q.offset, ⟨by simp [hh]; omega, ?_⟩, q.payload,
      ⟨by simp [hh]; omega, ?_⟩, (), checkBounds_eq_ok_iff.mpr hwf, rfl⟩
    all_goals simp [sub, List.drop_append, hh, List.drop_of_length_le]

theorem decodeReq_eq_ok_iff {id : UInt64} {b : Bytes} {p : Packet} (hb : 9 ≤ b.length) :
    decodeReq id b = .ok p ↔ Carries .req id b p := by
  unfold decodeReq
  obtain ⟨h, hh, hbh⟩ := exists_header hb
  constructor
  · split_ifs with hlen
    · simp
    · simp only [bind_eq_ok_iff, uint16_eq_ok_iff]
      rintro ⟨n, ⟨-, hn⟩, hrest⟩
      split_ifs at hrest with hzero hidlen
      · simp at hrest
      · simp at hrest
      simp only [bind_eq_ok_iff, sliceFrom_eq_ok_iff] at hrest
      obtain ⟨assetId, ⟨-, rfl⟩, hrest⟩ := hrest
      have hid : (b.drop 15).length = n.toNat := by
        rw [List.length_drop, not_not.mp hidlen]
        simp [reqFixedLen, headerLen]
      by_cases hutf : utf8Valid (b.drop 15) = true
      swap
      · rw [if_pos hutf] at hrest
        simp at hrest
      rw [if_neg (not_not.mpr hutf)] at hrest
      simp only [bind_eq_ok_iff, uint32_eq_ok_iff, pure_eq_ok_iff] at hrest
      obtain ⟨grant, ⟨-, hgrant⟩, rfl⟩ := hrest
      refine ⟨⟨?_, ?_, utf8Valid_iff.mp hutf⟩, rfl, rfl, ?_⟩
      · simp only [hid]; omega
      · simp only [hid]; exact Nat.lt_succ_iff.mp n.toNat_lt
      · rw [Packet.body, hid, ← hn, ← hgrant, sub_append_drop (by omega), sub_append_drop (by omega)]
  · rintro ⟨hwf, hty, rfl, hbody⟩
    cases p <;> simp only [packetType, reduceCtorEq] at hty
    case req q =>
    obtain ⟨hpos, hmax, hutf⟩ := hwf
    rw [hbody, Packet.body] at hbh
    have hn : (UInt16.ofNat q.assetId.length).toNat = q.assetId.length := by
      rw [UInt16.toNat_ofNat']; omega
    have hlen : b.length = reqFixedLen + q.assetId.length := by
      rw [hbh]; simp [hh, reqFixedLen, headerLen]; omega
    have hid : b.drop 15 = q.assetId := by
      rw [hbh]; simp [List.drop_append, hh, List.drop_of_length_le]
    have hcount : uint16 b 13 = .ok (UInt16.ofNat q.assetId.length) := by
      refine uint16_eq_ok_iff.mpr ⟨by rw [hlen]; simp [reqFixedLen, headerLen], ?_⟩
      rw [hbh, hn]
      simp [sub, List.drop_append, hh, List.drop_of_length_le]
    have hgrant : uint32 b 9 = .ok q.initialGrant := by
      refine uint32_eq_ok_iff.mpr ⟨by rw [hlen]; simp [reqFixedLen, headerLen]; omega, ?_⟩
      rw [hbh]
      simp [sub, hh]
    have hslice : sliceFrom b 15 = .ok q.assetId :=
      sliceFrom_eq_ok_iff.mpr ⟨by rw [hlen]; simp [reqFixedLen, headerLen], hid⟩
    rw [if_neg (by rw [hlen]; omega)]
    refine bind_eq_ok_iff.mpr ⟨_, hcount, ?_⟩
    rw [hn, if_neg (by omega), if_neg (not_not.mpr hlen)]
    refine bind_eq_ok_iff.mpr ⟨_, hslice, ?_⟩
    rw [if_neg (not_not.mpr (utf8Valid_iff.mpr hutf))]
    exact bind_eq_ok_iff.mpr ⟨_, hgrant, rfl⟩

theorem decodeResend_eq_ok_iff {id : UInt64} {b : Bytes} {p : Packet} (hb : 9 ≤ b.length) :
    decodeResend id b = .ok p ↔ Carries .resend id b p := by
  unfold decodeResend
  obtain ⟨h, hh, hbh⟩ := exists_header hb
  constructor
  · split_ifs with hlen
    · simp
    · simp only [bind_eq_ok_iff, uint32_eq_ok_iff]
      rintro ⟨start, ⟨-, hstart⟩, stop, ⟨-, hstop⟩, hrest⟩
      split_ifs at hrest with hempty
      · simp at hrest
      rw [pure_eq_ok_iff] at hrest
      subst hrest
      refine ⟨UInt32.not_le.mp hempty, rfl, rfl, ?_⟩
      have hend : b.length = 17 := not_not.mp hlen
      rw [Packet.body, ← hstart, ← hstop, sub_append_sub (by omega) (by omega),
        sub_eq_drop (by omega)]
  · rintro ⟨hwf, hty, rfl, hbody⟩
    cases p <;> simp only [packetType, reduceCtorEq] at hty
    case resend q =>
    rw [hbody, Packet.body] at hbh
    subst hbh
    rw [if_neg (by simp [hh, resendLen, headerLen])]
    simp only [bind_eq_ok_iff, uint32_eq_ok_iff]
    refine ⟨q.start, ⟨by simp [hh], ?_⟩, q.stop, ⟨by simp [hh], ?_⟩, ?_⟩
    · simp [sub, hh]
    · simp [sub, List.drop_append, hh, List.drop_of_length_le, List.take_of_length_le]
    · rw [if_neg (UInt32.not_le.mpr hwf)]; rfl

theorem decodeResendSeq_eq_ok_iff {id : UInt64} {b : Bytes} {p : Packet} (hb : 9 ≤ b.length) :
    decodeResendSeq id b = .ok p ↔ Carries .resendSeq id b p := by
  unfold decodeResendSeq
  obtain ⟨h, hh, hbh⟩ := exists_header hb
  constructor
  · split_ifs with hlen
    · simp
    · simp only [bind_eq_ok_iff, uint32_eq_ok_iff]
      rintro ⟨start, ⟨-, hstart⟩, stop, ⟨-, hstop⟩, hrest⟩
      split_ifs at hrest with hempty
      · simp at hrest
      rw [pure_eq_ok_iff] at hrest
      subst hrest
      refine ⟨UInt32.not_le.mp hempty, rfl, rfl, ?_⟩
      have hend : b.length = 17 := not_not.mp hlen
      rw [Packet.body, ← hstart, ← hstop, sub_append_sub (by omega) (by omega),
        sub_eq_drop (by omega)]
  · rintro ⟨hwf, hty, rfl, hbody⟩
    cases p <;> simp only [packetType, reduceCtorEq] at hty
    case resendSeq q =>
    rw [hbody, Packet.body] at hbh
    subst hbh
    rw [if_neg (by simp [hh, resendSeqLen, headerLen])]
    simp only [bind_eq_ok_iff, uint32_eq_ok_iff]
    refine ⟨q.start, ⟨by simp [hh], ?_⟩, q.stop, ⟨by simp [hh], ?_⟩, ?_⟩
    · simp [sub, hh]
    · simp [sub, List.drop_append, hh, List.drop_of_length_le, List.take_of_length_le]
    · rw [if_neg (UInt32.not_le.mpr hwf)]; rfl

theorem decodeError_eq_ok_iff {id : UInt64} {b : Bytes} {p : Packet} (hb : 9 ≤ b.length) :
    decodeError id b = .ok p ↔ Carries .error id b p := by
  unfold decodeError
  obtain ⟨h, hh, hbh⟩ := exists_header hb
  constructor
  · split_ifs with hlen
    · simp
    · have hend : b.length = 10 := not_not.mp hlen
      simp only [bind_eq_ok_iff, index_eq_ok_iff, pure_eq_ok_iff]
      rintro ⟨c, hc, rfl⟩
      refine ⟨trivial, rfl, rfl, ?_⟩
      rw [List.getElem?_eq_getElem (by omega)] at hc
      rw [Packet.body, List.drop_eq_getElem_cons (by omega), List.drop_of_length_le (by omega),
        Option.some.inj hc]
  · rintro ⟨-, hty, rfl, hbody⟩
    cases p <;> simp only [packetType, reduceCtorEq] at hty
    case error q =>
    rw [hbody, Packet.body] at hbh
    subst hbh
    rw [if_neg (by simp [hh, errorLen, headerLen])]
    simp only [bind_eq_ok_iff, index_eq_ok_iff, pure_eq_ok_iff]
    exact ⟨q.code, by simp [hh], rfl⟩

theorem decodeHello_eq_ok_iff {id : UInt64} {b : Bytes} {p : Packet} (hb : 9 ≤ b.length) :
    decodeHello id b = .ok p ↔ Carries .hello id b p := by
  unfold decodeHello
  obtain ⟨h, hh, hbh⟩ := exists_header hb
  constructor
  · split_ifs with hlen
    · simp
    · have hend : b.length = 13 := not_not.mp hlen
      simp only [bind_eq_ok_iff, uint32_eq_ok_iff, pure_eq_ok_iff]
      rintro ⟨caps, ⟨-, hcaps⟩, rfl⟩
      exact ⟨trivial, rfl, rfl, by rw [Packet.body, ← hcaps, sub_eq_drop (by omega)]⟩
  · rintro ⟨-, hty, rfl, hbody⟩
    cases p <;> simp only [packetType, reduceCtorEq] at hty
    case hello q =>
    rw [hbody, Packet.body] at hbh
    subst hbh
    rw [if_neg (by simp [hh, helloLen, headerLen])]
    simp only [bind_eq_ok_iff, uint32_eq_ok_iff, pure_eq_ok_iff]
    exact ⟨q.caps, ⟨by simp [hh], by simp [sub, hh, List.take_of_length_le]⟩, rfl⟩

theorem decodeDataSeq_eq_ok_iff {id : UInt64} {b : Bytes} {p : Packet} (hb : 9 ≤ b.length) :
    decodeDataSeq id b = .ok p ↔ Carries .dataSeq id b p := by
  unfold decodeDataSeq
  obtain ⟨h, hh, hbh⟩ := exists_header hb
  constructor
  · split_ifs with hlen
    · simp
    · simp only [bind_eq_ok_iff, uint32_eq_ok_iff, sliceFrom_eq_ok_iff, pure_eq_ok_iff]
      rintro ⟨ts, ⟨-, hts⟩, off, ⟨-, hoff⟩, pay, ⟨-, rfl⟩, seq, ⟨-, hseq⟩, ⟨⟩, hbounds, rfl⟩
      refine ⟨checkBounds_eq_ok_iff.mp hbounds, rfl, rfl, ?_⟩
      rw [Packet.body, ← hts, ← hoff, ← hseq, sub_append_drop (by omega),
        sub_append_drop (by omega), sub_append_drop (by omega)]
  · rintro ⟨hwf, hty, rfl, hbody⟩
    cases p <;> simp only [packetType, reduceCtorEq] at hty
    case dataSeq q =>
    rw [hbody, Packet.body] at hbh
    subst hbh
    rw [if_neg (by simp [hh, dataSeqHeaderLen, dataHeaderLen, headerLen]; omega)]
    simp only [bind_eq_ok_iff, uint32_eq_ok_iff, sliceFrom_eq_ok_iff, pure_eq_ok_iff]
    refine ⟨q.totalSize, ⟨by simp [hh]; omega, ?_⟩, q.offset, ⟨by simp [hh]; omega, ?_⟩, q.payload,
      ⟨by simp [hh]; omega, ?_⟩, q.seq, ⟨by simp [hh]; omega, ?_⟩, (),
      checkBounds_eq_ok_iff.mpr hwf, rfl⟩
    all_goals simp [sub, List.drop_append, hh, List.drop_of_length_le]

/-! ### META -/

/-- Fields whose lengths fit their length prefixes. -/
def FitsPrefix (f : Field) : Prop := f.name.length < 256 ∧ f.value.length < 65536

/-- The loop over the fields reads exactly a concatenation of field layouts. -/
theorem decodeFields_eq_ok_iff {count : ℕ} {fields fields' : List Field} {rest rest' : Bytes} :
    decodeFields count fields rest = .ok (fields', rest') ↔
      ∃ new : List Field, new.length = count ∧ fields' = fields ++ new ∧
        (∀ f ∈ new, FitsPrefix f) ∧ rest = new.flatMap Field.layout ++ rest' := by
  induction count generalizing fields rest with
  | zero =>
    rw [decodeFields]
    constructor
    · rintro ⟨⟩
      exact ⟨[], rfl, by simp, by simp, by simp⟩
    · rintro ⟨new, hnew, rfl, -, rfl⟩
      rw [List.length_eq_zero_iff.mp hnew]
      simp
  | succ count ih =>
    rw [decodeFields]
    constructor
    · split_ifs with hempty
      · simp
      simp only [bind_eq_ok_iff, index_eq_ok_iff]
      rintro ⟨n, hn, hrest⟩
      split_ifs at hrest with hshort
      · simp at hrest
      simp only [bind_eq_ok_iff, slice_eq_ok_iff, uint16_eq_ok_iff, sliceFrom_eq_ok_iff] at hrest
      obtain ⟨name, ⟨-, rfl⟩, m, ⟨-, hm⟩, _, ⟨-, rfl⟩, hrest⟩ := hrest
      split_ifs at hrest with hvalue
      · simp at hrest
      simp only [bind_eq_ok_iff, slice_eq_ok_iff, sliceFrom_eq_ok_iff] at hrest
      obtain ⟨value, ⟨-, rfl⟩, _, ⟨-, rfl⟩, hrest⟩ := hrest
      obtain ⟨new, hnew, rfl, hfits, htail⟩ := ih.mp hrest
      have hname : (sub rest 1 (1 + n.toNat)).length = n.toNat := by
        rw [length_sub (by omega)]; omega
      have hval : (sub (rest.drop (3 + n.toNat)) 0 m.toNat).length = m.toNat := by
        rw [length_sub (by omega)]; omega
      refine ⟨{ name := sub rest 1 (1 + n.toNat), value := sub (rest.drop (3 + n.toNat)) 0 m.toNat } ::
        new, by simp [hnew], by simp, ?_, ?_⟩
      · rw [List.forall_mem_cons]
        exact ⟨⟨by simpa [hname] using n.toNat_lt, by simpa [hval] using m.toNat_lt⟩, hfits⟩
      · have hcons : rest = n :: rest.drop 1 := by
          rw [List.getElem?_eq_getElem (by omega)] at hn
          rw [← Option.some.inj hn, ← List.drop_eq_getElem_cons (by omega), List.drop_zero]
        rw [List.flatMap_cons, List.append_assoc, ← htail, Field.layout]
        simp only
        rw [hname, hval, UInt8.ofNat_toNat, ← hm, List.cons_append, List.append_assoc,
          List.append_assoc, sub_append_drop (by omega), List.drop_zero,
          show 3 + n.toNat = 1 + n.toNat + 2 by omega, sub_append_drop (by omega),
          sub_append_drop (by omega)]
        exact hcons
    · rintro ⟨new, hnew, rfl, hfits, hrest⟩
      obtain ⟨f, new, rfl⟩ := List.exists_cons_of_length_eq_add_one hnew
      rw [List.forall_mem_cons] at hfits
      obtain ⟨⟨hname, hvalue⟩, hfits⟩ := hfits
      have hn : (UInt8.ofNat f.name.length).toNat = f.name.length := by
        rw [UInt8.toNat_ofNat']; omega
      have hm : (UInt16.ofNat f.value.length).toNat = f.value.length := by
        rw [UInt16.toNat_ofNat']; omega
      set tail := new.flatMap Field.layout ++ rest' with htail
      have hcons : rest = UInt8.ofNat f.name.length ::
          (f.name ++ (beBytes 2 f.value.length ++ (f.value ++ tail))) := by
        rw [hrest, List.flatMap_cons, Field.layout]; simp [htail]
      have hlen : rest.length = 3 + f.name.length + f.value.length + tail.length := by
        rw [hcons]; simp; omega
      have hcount : index rest 0 = .ok (UInt8.ofNat f.name.length) := by
        rw [index_eq_ok_iff, hcons]; rfl
      have hname' : slice rest 1 (1 + f.name.length) = .ok f.name := by
        refine slice_eq_ok_iff.mpr ⟨⟨by omega, by omega⟩, ?_⟩
        rw [hcons]; simp [sub]
      have hvlen : uint16 rest (1 + f.name.length) = .ok (UInt16.ofNat f.value.length) := by
        refine uint16_eq_ok_iff.mpr ⟨by omega, ?_⟩
        rw [hcons, hm, Nat.add_comm 1]; simp [sub]
      have hafter : rest.drop (3 + f.name.length) = f.value ++ tail := by
        rw [hcons, show 3 + f.name.length = f.name.length + 2 + 1 by omega]
        simp [List.drop_append, List.drop_of_length_le]
      rw [if_neg (by omega)]
      refine bind_eq_ok_iff.mpr ⟨_, hcount, ?_⟩
      rw [hn, if_neg (by omega)]
      refine bind_eq_ok_iff.mpr ⟨_, hname', bind_eq_ok_iff.mpr ⟨_, hvlen, ?_⟩⟩
      refine bind_eq_ok_iff.mpr ⟨_, sliceFrom_eq_ok_iff.mpr ⟨by omega, hafter⟩, ?_⟩
      rw [hm, if_neg (by simp)]
      refine bind_eq_ok_iff.mpr ⟨f.value, slice_eq_ok_iff.mpr ⟨by simp, by simp [sub]⟩, ?_⟩
      refine bind_eq_ok_iff.mpr ⟨tail, sliceFrom_eq_ok_iff.mpr ⟨by simp, by simp⟩, ?_⟩
      exact ih.mpr ⟨new, by simpa using hnew, by simp, hfits, htail⟩

/-- Well-formed fields fit their length prefixes. -/
theorem MetaFields.fits {fields : List Field} (h : MetaFields fields) : ∀ f ∈ fields, FitsPrefix f := by
  have hshort : ∀ n ∈ docNames, n.length < 256 := by decide
  exact fun f hf => ⟨hshort _ (h.names f hf), Nat.lt_succ_of_le (h.values f hf).short⟩

theorem decodeMeta_eq_ok_iff {id : UInt64} {b : Bytes} {p : Packet} (hb : 9 ≤ b.length) :
    decodeMeta id b = .ok p ↔ Carries .metaData id b p := by
  unfold decodeMeta
  constructor
  · split_ifs with hlen
    · simp
    · simp only [bind_eq_ok_iff, sliceFrom_eq_ok_iff, index_eq_ok_iff]
      rintro ⟨_, ⟨-, rfl⟩, c, hc, ⟨fields, rest⟩, hloop, hrest⟩
      dsimp only at hrest
      split_ifs at hrest with htrail
      · simp at hrest
      simp only [bind_eq_ok_iff, pure_eq_ok_iff] at hrest
      obtain ⟨⟨⟩, hcheck, rfl⟩ := hrest
      obtain ⟨new, hnew, rfl, -, hbytes⟩ := decodeFields_eq_ok_iff.mp hloop
      rw [not_not, List.length_eq_zero_iff] at htrail
      simp only [metaFixedLen, headerLen] at hlen
      refine ⟨check_eq_ok_iff.mp hcheck, rfl, rfl, ?_⟩
      rw [List.getElem?_eq_getElem (by omega)] at hc
      rw [Packet.body, hnew, UInt8.ofNat_toNat, List.drop_eq_getElem_cons (by omega),
        Option.some.inj hc]
      congr 1
      rw [htrail, List.append_nil] at hbytes
      exact hbytes
  · rintro ⟨hwf, hty, rfl, hbody⟩
    cases p <;> simp only [packetType, reduceCtorEq] at hty
    case metaData q =>
    obtain ⟨h, hh, hbh⟩ := exists_header hb
    rw [hbody, Packet.body] at hbh
    have hcount : (UInt8.ofNat q.fields.length).toNat = q.fields.length := by
      have hle := MetaFields.count hwf
      rw [UInt8.toNat_ofNat']; omega
    have hfixed : metaFixedLen ≤ b.length := by rw [hbh]; simp [hh, metaFixedLen, headerLen]; omega
    have hrest : sliceFrom b metaFixedLen = .ok (q.fields.flatMap Field.layout) := by
      refine sliceFrom_eq_ok_iff.mpr ⟨hfixed, ?_⟩
      rw [hbh]; simp [List.drop_append, hh, metaFixedLen, headerLen, List.drop_of_length_le]
    have hcode : index b 9 = .ok (UInt8.ofNat q.fields.length) := by
      rw [index_eq_ok_iff, hbh]; simp [hh]
    have hloop : decodeFields q.fields.length [] (q.fields.flatMap Field.layout) =
        .ok (q.fields, []) :=
      decodeFields_eq_ok_iff.mpr ⟨q.fields, rfl, rfl, MetaFields.fits hwf, by simp⟩
    rw [if_neg (by omega)]
    refine bind_eq_ok_iff.mpr ⟨_, hrest, bind_eq_ok_iff.mpr ⟨_, hcode, ?_⟩⟩
    rw [hcount]
    refine bind_eq_ok_iff.mpr ⟨_, hloop, ?_⟩
    exact bind_eq_ok_iff.mpr ⟨(), check_eq_ok_iff.mpr hwf, rfl⟩

/-! ## `Decode` and `Marshal` -/

theorem typeOf?_eq_some_iff {c : UInt8} {t : PacketType} : typeOf? c = some t ↔ typeCode t = c := by
  constructor
  · unfold typeOf?
    split_ifs <;> rintro ⟨⟩ <;> simp_all [typeCode]
  · rintro rfl
    cases t <;> decide

theorem decodeAs_eq_ok_iff {t : PacketType} {id : UInt64} {b : Bytes} {p : Packet}
    (hb : 9 ≤ b.length) : decodeAs t id b = .ok p ↔ Carries t id b p := by
  cases t with
  | req => exact decodeReq_eq_ok_iff hb
  | data => exact decodeData_eq_ok_iff hb
  | grant => exact decodeGrant_eq_ok_iff hb
  | resend => exact decodeResend_eq_ok_iff hb
  | error => exact decodeError_eq_ok_iff hb
  | metaData => exact decodeMeta_eq_ok_iff hb
  | hello => exact decodeHello_eq_ok_iff hb
  | dataSeq => exact decodeDataSeq_eq_ok_iff hb
  | resendSeq => exact decodeResendSeq_eq_ok_iff hb

/-- The first nine bytes of a layout are the header. -/
theorem eq_layout_iff {b : Bytes} {p : Packet} :
    b = p.layout ↔ 9 ≤ b.length ∧ b[0]? = some (typeCode (packetType p)) ∧
      sub b 1 9 = beBytes 8 p.rpc.toNat ∧ b.drop 9 = p.body := by
  constructor
  · rintro rfl
    refine ⟨by simp [Packet.layout], by simp [Packet.layout, Packet.header], ?_, p.drop_layout⟩
    simp [Packet.layout, Packet.header, sub]
  · rintro ⟨hlen, htype, hid, hbody⟩
    rw [Packet.layout, Packet.header, ← hid, ← hbody, List.cons_append, sub_append_drop (by omega)]
    rw [List.getElem?_eq_getElem (by omega)] at htype
    rw [← Option.some.inj htype, ← List.drop_eq_getElem_cons (by omega), List.drop_zero]

/-- **`Decode` inverts the layout**: it returns `p` exactly on the layout of a
    well-formed `p`. -/
theorem decode_eq_ok_iff {b : Bytes} {p : Packet} :
    decode b = .ok p ↔ p.WellFormed ∧ b = p.layout := by
  rw [eq_layout_iff, decode]
  split_ifs with hlen
  · simp only [malformed_ne_ok, false_iff, not_and]
    exact fun _ h => absurd h (not_le.mpr hlen)
  have hb : 9 ≤ b.length := not_lt.mp hlen
  simp only [bind_eq_ok_iff, index_eq_ok_iff, uint64_eq_ok_iff]
  constructor
  · rintro ⟨c, hc, id, ⟨-, hid⟩, hrest⟩
    split at hrest
    · next t ht =>
      obtain ⟨hwf, rfl, rfl, hbody⟩ := (decodeAs_eq_ok_iff hb).mp hrest
      exact ⟨hwf, hb, by rw [hc, typeOf?_eq_some_iff.mp ht], hid, hbody⟩
    · simp at hrest
  · rintro ⟨hwf, -, htype, hid, hbody⟩
    refine ⟨_, htype, _, ⟨by omega, hid⟩, ?_⟩
    rw [typeOf?_eq_some_iff.mpr rfl]
    exact (decodeAs_eq_ok_iff hb).mpr ⟨hwf, rfl, rfl, hbody⟩

/-- The loop of `Append` over the fields writes their layouts. -/
theorem foldl_appendField {dst : Bytes} {fields : List Field} (h : ∀ f ∈ fields, FitsPrefix f) :
    fields.foldl appendField dst = dst ++ fields.flatMap Field.layout := by
  induction fields generalizing dst with
  | nil => simp
  | cons f fields ih =>
    rw [List.forall_mem_cons] at h
    have hm : (UInt16.ofNat f.value.length).toNat = f.value.length := by
      have := h.1.2
      rw [UInt16.toNat_ofNat']; omega
    rw [List.foldl_cons, ih h.2, List.flatMap_cons, appendField, appendUint16, hm, Field.layout]
    simp

/-- **`Marshal` writes the layout**, exactly of the well-formed packets. -/
theorem marshal_eq_ok_iff {p : Packet} {b : Bytes} :
    marshal p = .ok b ↔ p.WellFormed ∧ b = p.layout := by
  unfold marshal append
  cases p with
  | req q =>
    simp only [Packet.WellFormed, ← utf8Valid_iff]
    split_ifs with h1 h2
    · simp only [malformed_ne_ok, false_iff]
      rintro ⟨⟨hpos, hmax, -⟩, -⟩
      omega
    · have hn : (UInt16.ofNat q.assetId.length).toNat = q.assetId.length := by
        rw [UInt16.toNat_ofNat']; omega
      simp only [appendUint16, appendUint32, appendUint64, hn, Except.ok.injEq, Packet.layout,
        Packet.header, Packet.body, h2, and_true]
      constructor
      · rintro rfl; exact ⟨by omega, by simp⟩
      · rintro ⟨-, rfl⟩; simp
    · simp only [malformed_ne_ok, false_iff]
      exact fun h => h2 h.1.2.2
  | data q =>
    simp only [bind_eq_ok_iff, pure_eq_ok_iff, checkBounds_eq_ok_iff, exists_const, Packet.layout,
      Packet.header, Packet.body, Packet.WellFormed, appendUint32, appendUint64, List.append_assoc,
      List.nil_append, List.cons_append, eq_comm (a := b)]
  | grant q =>
    simp [Packet.layout, Packet.header, Packet.body, Packet.WellFormed, appendUint32, appendUint64,
      eq_comm (a := b)]
  | resend q =>
    simp only [Packet.WellFormed]
    split_ifs with h
    · simp [UInt32.not_lt.mpr h]
    · simp [UInt32.not_le.mp h, Packet.layout, Packet.header, Packet.body, appendUint32,
        appendUint64, eq_comm (a := b)]
  | error q =>
    simp [Packet.layout, Packet.header, Packet.body, Packet.WellFormed, appendUint64,
      eq_comm (a := b)]
  | metaData q =>
    simp only [bind_eq_ok_iff, pure_eq_ok_iff, check_eq_ok_iff, exists_const, Packet.WellFormed]
    refine and_congr_right fun hwf => ?_
    rw [foldl_appendField (MetaFields.fits hwf)]
    simp [Packet.layout, Packet.header, Packet.body, appendUint64, eq_comm (a := b)]
  | hello q =>
    simp [Packet.layout, Packet.header, Packet.body, Packet.WellFormed, appendUint32, appendUint64,
      eq_comm (a := b)]
  | dataSeq q =>
    simp only [bind_eq_ok_iff, pure_eq_ok_iff, checkBounds_eq_ok_iff, exists_const, Packet.layout,
      Packet.header, Packet.body, Packet.WellFormed, appendUint32, appendUint64, List.append_assoc,
      List.nil_append, List.cons_append, eq_comm (a := b)]
  | resendSeq q =>
    simp only [Packet.WellFormed]
    split_ifs with h
    · simp [UInt32.not_lt.mpr h]
    · simp [UInt32.not_le.mp h, Packet.layout, Packet.header, Packet.body, appendUint32,
        appendUint64, eq_comm (a := b)]

/-! ## `Decode` stays in range

Each case checks the length before it reads, so the only failure left is
`malformed`. -/

theorem checkBounds_ne_outOfRange (p : Data) : checkBounds p ≠ .error .outOfRange := by
  unfold checkBounds
  split_ifs <;> simp

theorem checkFields_ne_outOfRange (seen fields : List Field) :
    checkFields seen fields ≠ .error .outOfRange := by
  induction fields generalizing seen with
  | nil => simp [checkFields]
  | cons f rest ih =>
    rw [checkFields]
    split_ifs <;> first | exact malformed_ne_outOfRange | exact ih _

theorem check_ne_outOfRange (fields : List Field) : check fields ≠ .error .outOfRange := by
  unfold check
  split_ifs
  · exact malformed_ne_outOfRange
  · exact checkFields_ne_outOfRange _ _

theorem decodeFields_ne_outOfRange (count : ℕ) (fields : List Field) (rest : Bytes) :
    decodeFields count fields rest ≠ .error .outOfRange := by
  induction count generalizing fields rest with
  | zero => simp [decodeFields]
  | succ count ih =>
    rw [decodeFields]
    split_ifs with hempty
    · exact malformed_ne_outOfRange
    refine bind_ne_outOfRange (index_ne_outOfRange (by omega)) fun n _ => ?_
    dsimp only
    split_ifs with hshort
    · exact malformed_ne_outOfRange
    refine bind_ne_outOfRange (slice_ne_outOfRange (by omega) (by omega)) fun name _ => ?_
    refine bind_ne_outOfRange (uint16_ne_outOfRange (by omega)) fun m _ => ?_
    refine bind_ne_outOfRange (sliceFrom_ne_outOfRange (by omega)) fun after _ => ?_
    split_ifs with hvalue
    · exact malformed_ne_outOfRange
    refine bind_ne_outOfRange (slice_ne_outOfRange (by omega) (by omega)) fun value _ => ?_
    exact bind_ne_outOfRange (sliceFrom_ne_outOfRange (by omega)) fun _ _ => ih _ _

theorem decodeAs_ne_outOfRange (t : PacketType) (id : UInt64) (b : Bytes) :
    decodeAs t id b ≠ .error .outOfRange := by
  cases t with
  | req =>
    rw [decodeAs, decodeReq]
    split_ifs with hlen
    · exact malformed_ne_outOfRange
    simp only [reqFixedLen, headerLen] at hlen
    refine bind_ne_outOfRange (uint16_ne_outOfRange (by omega)) fun n _ => ?_
    dsimp only
    split_ifs with hzero hid
    · exact malformed_ne_outOfRange
    · exact malformed_ne_outOfRange
    refine bind_ne_outOfRange (sliceFrom_ne_outOfRange (by omega)) fun assetId _ => ?_
    split_ifs with hutf
    · exact bind_ne_outOfRange (uint32_ne_outOfRange (by omega)) fun _ _ => pure_ne_outOfRange
    · exact malformed_ne_outOfRange
  | data =>
    rw [decodeAs, decodeData]
    split_ifs with hlen
    · exact malformed_ne_outOfRange
    simp only [dataHeaderLen, headerLen] at hlen
    refine bind_ne_outOfRange (uint32_ne_outOfRange (by omega)) fun _ _ => ?_
    refine bind_ne_outOfRange (uint32_ne_outOfRange (by omega)) fun _ _ => ?_
    refine bind_ne_outOfRange (sliceFrom_ne_outOfRange (by omega)) fun _ _ => ?_
    exact bind_ne_outOfRange (checkBounds_ne_outOfRange _) fun _ _ => pure_ne_outOfRange
  | grant =>
    rw [decodeAs, decodeGrant]
    split_ifs with hlen
    · exact malformed_ne_outOfRange
    simp only [grantLen, headerLen] at hlen
    refine bind_ne_outOfRange (uint32_ne_outOfRange (by omega)) fun _ _ => ?_
    exact bind_ne_outOfRange (index_ne_outOfRange (by omega)) fun _ _ => pure_ne_outOfRange
  | resend =>
    rw [decodeAs, decodeResend]
    split_ifs with hlen
    · exact malformed_ne_outOfRange
    simp only [resendLen, headerLen] at hlen
    refine bind_ne_outOfRange (uint32_ne_outOfRange (by omega)) fun _ _ => ?_
    refine bind_ne_outOfRange (uint32_ne_outOfRange (by omega)) fun _ _ => ?_
    split_ifs
    · exact malformed_ne_outOfRange
    · exact pure_ne_outOfRange
  | error =>
    rw [decodeAs, decodeError]
    split_ifs with hlen
    · exact malformed_ne_outOfRange
    simp only [errorLen, headerLen] at hlen
    exact bind_ne_outOfRange (index_ne_outOfRange (by omega)) fun _ _ => pure_ne_outOfRange
  | metaData =>
    rw [decodeAs, decodeMeta]
    split_ifs with hlen
    · exact malformed_ne_outOfRange
    simp only [metaFixedLen, headerLen] at hlen
    refine bind_ne_outOfRange (sliceFrom_ne_outOfRange (by simp only [metaFixedLen, headerLen]; omega))
      fun _ _ => ?_
    refine bind_ne_outOfRange (index_ne_outOfRange (by omega)) fun _ _ => ?_
    refine bind_ne_outOfRange (decodeFields_ne_outOfRange _ _ _) fun ⟨fields, rest⟩ _ => ?_
    dsimp only
    split_ifs
    · exact malformed_ne_outOfRange
    · exact bind_ne_outOfRange (check_ne_outOfRange _) fun _ _ => pure_ne_outOfRange
  | hello =>
    rw [decodeAs, decodeHello]
    split_ifs with hlen
    · exact malformed_ne_outOfRange
    simp only [helloLen, headerLen] at hlen
    exact bind_ne_outOfRange (uint32_ne_outOfRange (by omega)) fun _ _ => pure_ne_outOfRange
  | dataSeq =>
    rw [decodeAs, decodeDataSeq]
    split_ifs with hlen
    · exact malformed_ne_outOfRange
    simp only [dataSeqHeaderLen, dataHeaderLen, headerLen] at hlen
    refine bind_ne_outOfRange (uint32_ne_outOfRange (by omega)) fun _ _ => ?_
    refine bind_ne_outOfRange (uint32_ne_outOfRange (by omega)) fun _ _ => ?_
    refine bind_ne_outOfRange (sliceFrom_ne_outOfRange (by omega)) fun _ _ => ?_
    refine bind_ne_outOfRange (uint32_ne_outOfRange (by omega)) fun _ _ => ?_
    exact bind_ne_outOfRange (checkBounds_ne_outOfRange _) fun _ _ => pure_ne_outOfRange
  | resendSeq =>
    rw [decodeAs, decodeResendSeq]
    split_ifs with hlen
    · exact malformed_ne_outOfRange
    simp only [resendSeqLen, headerLen] at hlen
    refine bind_ne_outOfRange (uint32_ne_outOfRange (by omega)) fun _ _ => ?_
    refine bind_ne_outOfRange (uint32_ne_outOfRange (by omega)) fun _ _ => ?_
    split_ifs
    · exact malformed_ne_outOfRange
    · exact pure_ne_outOfRange

theorem decode_ne_outOfRange (b : Bytes) : decode b ≠ .error .outOfRange := by
  unfold decode
  split_ifs with hlen
  · exact malformed_ne_outOfRange
  simp only [headerLen] at hlen
  refine bind_ne_outOfRange (index_ne_outOfRange (by omega)) fun c _ => ?_
  refine bind_ne_outOfRange (uint64_ne_outOfRange (by omega)) fun id _ => ?_
  split
  · exact decodeAs_ne_outOfRange _ _ _
  · exact malformed_ne_outOfRange

/-- `Decode` either accepts or reports a malformed packet. -/
theorem decode_total (b : Bytes) :
    (∃ p, decode b = .ok p) ∨ ∃ m, decode b = .error (.malformed m) := by
  cases h : decode b with
  | ok p => exact .inl ⟨p, rfl⟩
  | error e =>
    cases e with
    | outOfRange => exact absurd h (decode_ne_outOfRange b)
    | malformed m => exact .inr ⟨m, rfl⟩

/-! ## Round trip and canonicity -/

/-- **The Go codec is canonical.** `Marshal` encodes exactly the packets that
    satisfy the documented rules; `Decode` gives back what was encoded, and
    accepts a byte string only if `Marshal` produces it; every other byte
    string is reported as malformed and none is read out of range. -/
theorem marshal_decode_canonical :
    (∀ p : Packet, (∃ b, marshal p = .ok b) ↔ p.WellFormed) ∧
    (∀ (p : Packet) (b : Bytes), marshal p = .ok b → decode b = .ok p) ∧
    (∀ (b : Bytes) (p : Packet), decode b = .ok p → marshal p = .ok b) ∧
    (∀ b : Bytes, (∀ p : Packet, marshal p ≠ .ok b) → ∃ m, decode b = .error (.malformed m)) ∧
    (∀ b : Bytes, decode b ≠ .error .outOfRange) := by
  have hmarshal (p : Packet) (b : Bytes) : marshal p = .ok b ↔ decode b = .ok p :=
    marshal_eq_ok_iff.trans decode_eq_ok_iff.symm
  refine ⟨fun p => ?_, fun p b => (hmarshal p b).mp, fun b p => (hmarshal p b).mpr, fun b hb => ?_,
    decode_ne_outOfRange⟩
  · simp only [marshal_eq_ok_iff, exists_and_left, exists_eq, and_true]
  · rcases decode_total b with ⟨p, hp⟩ | hm
    · exact absurd ((hmarshal p b).mpr hp) (hb p)
    · exact hm

end Go

end Http4.Wire
