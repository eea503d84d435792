import Http4.Wire.GoRoundTrip
import Http4.Wire.TsCodec

/-!
# The two codecs compared

`client/src/wire.ts` "Mirrors server/internal/wire". Both decoders are run on
the same bytes, case by case, and both encoders on the same packet.

Main results:

* `decode_eq_map`: on every byte string the TypeScript decoder returns what the
  Go decoder returns, read through `ofGo`; the two report the same errors.
* `encode_eq_ok_iff`: `encode` writes the layout of the Go packet with the same
  field values.
* `codecsAgree_iff`: the results are the same packet exactly when the byte
  string is no REQ whose `asset_id` starts with a byte order mark.
-/

namespace Http4.Wire.Ts

open Bytes
open Unicode (utf8 utf16 utf8Decode utf16Decode utf8Valid)

/-! ## One packet in two languages -/

/-- A Go string and a JavaScript string of the same characters. -/
def SameText (b : Bytes) (u : JsString) : Prop := ∃ cs, b = utf8 cs ∧ u = utf16 cs

/-- META fields with the same texts, in the same order. -/
def SameFields (fs : List Field) (gs : List (JsString × JsString)) : Prop :=
  List.Forall₂ (fun f g => SameText f.name g.1 ∧ SameText f.value g.2) fs gs

/-- Packets of the same type with the same field values. -/
def Same : Wire.Packet → Packet → Prop
  | .req p, .req q =>
    q.rpcId = p.rpcId.toNat ∧ q.initialGrant = p.initialGrant.toNat ∧ SameText p.assetId q.assetId
  | .data p, .data q =>
    q.rpcId = p.rpcId.toNat ∧ q.totalSize = p.totalSize.toNat ∧ q.offset = p.offset.toNat ∧
      q.payload = p.payload
  | .grant p, .grant q =>
    q.rpcId = p.rpcId.toNat ∧ q.maxOffset = p.maxOffset.toNat ∧ q.priority = p.priority.toNat
  | .resend p, .resend q =>
    q.rpcId = p.rpcId.toNat ∧ q.start = p.start.toNat ∧ q.stop = p.stop.toNat
  | .error p, .error q => q.rpcId = p.rpcId.toNat ∧ q.code = p.code.toNat
  | .metaData p, .metaData q => q.rpcId = p.rpcId.toNat ∧ SameFields p.fields q.fields
  | .hello p, .hello q => q.rpcId = p.rpcId.toNat ∧ q.caps = p.caps.toNat
  | .dataSeq p, .dataSeq q =>
    q.rpcId = p.rpcId.toNat ∧ q.totalSize = p.totalSize.toNat ∧ q.offset = p.offset.toNat ∧
      q.payload = p.payload ∧ q.seq = p.seq.toNat
  | .resendSeq p, .resendSeq q =>
    q.rpcId = p.rpcId.toNat ∧ q.start = p.start.toNat ∧ q.stop = p.stop.toNat
  | _, _ => False

/-- A META field as `latin1` reads it. -/
def ofField (f : Field) : JsString × JsString := (latin1 f.name, latin1 f.value)

/-- What the TypeScript decoder returns where the Go decoder returns `p`. -/
def ofGo : Wire.Packet → Packet
  | .req p => .req { rpcId := p.rpcId.toNat, initialGrant := p.initialGrant.toNat,
                     assetId := (utf8DecoderDecode p.assetId).getD [] }
  | .data p => .data { rpcId := p.rpcId.toNat, totalSize := p.totalSize.toNat,
                       offset := p.offset.toNat, payload := p.payload }
  | .grant p => .grant { rpcId := p.rpcId.toNat, maxOffset := p.maxOffset.toNat,
                         priority := p.priority.toNat }
  | .resend p => .resend { rpcId := p.rpcId.toNat, start := p.start.toNat, stop := p.stop.toNat }
  | .error p => .error { rpcId := p.rpcId.toNat, code := p.code.toNat }
  | .metaData p => .metaData { rpcId := p.rpcId.toNat, fields := p.fields.map ofField }
  | .hello p => .hello { rpcId := p.rpcId.toNat, caps := p.caps.toNat }
  | .dataSeq p => .dataSeq { rpcId := p.rpcId.toNat, totalSize := p.totalSize.toNat,
                             offset := p.offset.toNat, payload := p.payload, seq := p.seq.toNat }
  | .resendSeq p => .resendSeq { rpcId := p.rpcId.toNat, start := p.start.toNat,
                                 stop := p.stop.toNat }

/-! ## Reads -/

@[simp] theorem ok_bind {α β : Type} (a : α) (f : α → Except Fault β) :
    ((Except.ok a : Except Fault α) >>= f) = f a := rfl

theorem map_ok {α β : Type} (f : α → β) (a : α) :
    f <$> (Except.ok a : Except Fault α) = .ok (f a) := rfl

theorem getUint_two (b : Bytes) (i : ℕ) : getUint 2 b i = UInt16.toNat <$> Go.uint16 b i := by
  unfold getUint
  split_ifs with h
  · have hlen : (sub b i (i + 2)).length = 2 := by rw [length_sub h]; omega
    have hx : Go.uint16 b i = .ok (UInt16.ofNat (beNat (sub b i (i + 2)))) := by
      simp [Go.uint16, Go.slice, h, pure, Except.pure]
    have hlt := beNat_lt (sub b i (i + 2))
    rw [hlen] at hlt
    rw [hx, map_ok, UInt16.toNat_ofNat', Nat.mod_eq_of_lt (by omega)]
  · simp [Go.uint16, Go.slice, h, bind, Except.bind, Functor.map, Except.map]

theorem getUint_four (b : Bytes) (i : ℕ) : getUint 4 b i = UInt32.toNat <$> Go.uint32 b i := by
  unfold getUint
  split_ifs with h
  · have hlen : (sub b i (i + 4)).length = 4 := by rw [length_sub h]; omega
    have hx : Go.uint32 b i = .ok (UInt32.ofNat (beNat (sub b i (i + 4)))) := by
      simp [Go.uint32, Go.slice, h, pure, Except.pure]
    have hlt := beNat_lt (sub b i (i + 4))
    rw [hlen] at hlt
    rw [hx, map_ok, UInt32.toNat_ofNat', Nat.mod_eq_of_lt (by omega)]
  · simp [Go.uint32, Go.slice, h, bind, Except.bind, Functor.map, Except.map]

theorem getUint_eight (b : Bytes) (i : ℕ) : getUint 8 b i = UInt64.toNat <$> Go.uint64 b i := by
  unfold getUint
  split_ifs with h
  · have hlen : (sub b i (i + 8)).length = 8 := by rw [length_sub h]; omega
    have hx : Go.uint64 b i = .ok (UInt64.ofNat (beNat (sub b i (i + 8)))) := by
      simp [Go.uint64, Go.slice, h, pure, Except.pure]
    have hlt := beNat_lt (sub b i (i + 8))
    rw [hlen] at hlt
    rw [hx, map_ok, UInt64.toNat_ofNat', Nat.mod_eq_of_lt (by omega)]
  · simp [Go.uint64, Go.slice, h, bind, Except.bind, Functor.map, Except.map]

theorem getUint_one (b : Bytes) (i : ℕ) : getUint 1 b i = UInt8.toNat <$> Go.index b i := by
  unfold getUint Go.index
  split_ifs with h
  · have hs : sub b i (i + 1) = [b[i]] := by
      rw [sub, Nat.add_sub_cancel_left, List.drop_eq_getElem_cons (by omega), List.take_succ_cons,
        List.take_zero]
    rw [hs, List.getElem?_eq_getElem (by omega), map_ok]
    simp [beNat]
  · rw [List.getElem?_eq_none (by omega)]
    rfl

theorem byteAt_eq (b : Bytes) (i : ℕ) : byteAt b i = Go.index b i := rfl

theorem sliceFrom_of_le {b : Bytes} {i : ℕ} (h : i ≤ b.length) : Go.sliceFrom b i = .ok (b.drop i) :=
  Go.sliceFrom_eq_ok_iff.mpr ⟨h, rfl⟩

theorem slice_of_le {b : Bytes} {i j : ℕ} (hij : i ≤ j) (h : j ≤ b.length) :
    Go.slice b i j = .ok (sub b i j) :=
  Go.slice_eq_ok_iff.mpr ⟨⟨hij, h⟩, rfl⟩

/-! ## The checks -/

theorem checkDataBounds_eq (p : Wire.Data) :
    checkDataBounds { rpcId := p.rpcId.toNat, totalSize := p.totalSize.toNat,
                      offset := p.offset.toNat, payload := p.payload } = Go.checkBounds p := by
  unfold checkDataBounds Go.checkBounds
  simp only [gt_iff_lt, ← Nat.cast_add, Nat.cast_lt]

theorem latin1_injective : Function.Injective latin1 :=
  List.map_injective_iff.mpr fun a c h => by
    have := congrArg UInt16.toNat h
    simpa [UInt8.toNat_inj] using this

theorem printed_latin1 (b : Bytes) : printed (latin1 b) = Go.printed b := by
  simp [printed, latin1, Go.printed]

/-- The allowed names are ASCII, so `latin1` reads them as written. -/
theorem metaNames_eq : metaNames = Go.metaNames.map latin1 := by decide

theorem contains_map_latin1 (l : List Bytes) (b : Bytes) :
    (l.map latin1).contains (latin1 b) = l.contains b := by
  rw [Bool.eq_iff_iff, List.contains_iff_mem, List.contains_iff_mem,
    List.mem_map_of_injective latin1_injective]

/-- The regular expression is Go's test of the characters and of both ends. -/
theorem matchesMetaValue_iff (v : Bytes) :
    matchesMetaValue (latin1 v) = true ↔
      v ≠ [] ∧ (∀ c ∈ v, Printable c) ∧ v.head? ≠ some 0x20 ∧ v.getLast? ≠ some 0x20 := by
  have hvis (c : UInt8) : visible c.toUInt16 = true ↔ Printable c ∧ c ≠ 0x20 := by
    have h20 : c ≠ 0x20 ↔ c.toNat ≠ 0x20 := by rw [Ne, ← UInt8.toNat_inj]; rfl
    simp only [visible, Printable, h20, UInt8.toNat_toUInt16, Bool.and_eq_true, decide_eq_true_eq]
    omega
  have hprint (c : UInt8) : printable c.toUInt16 = true ↔ Printable c := by
    simp [printable, Printable]
  cases v with
  | nil => simp [latin1, matchesMetaValue]
  | cons c w =>
    simp only [latin1, List.map_cons, matchesMetaValue, Bool.and_eq_true, hvis, List.isEmpty_map,
      Bool.or_eq_true, List.mem_cons, forall_eq_or_imp, List.head?_cons, ne_eq, reduceCtorEq,
      not_false_eq_true, true_and, Option.some.injEq]
    rcases List.eq_nil_or_concat' w with rfl | ⟨w, d, rfl⟩
    · simp
    · have hlast : (c :: (w ++ [d])).getLast? = some d := by
        rw [← List.cons_append, List.getLast?_append]; rfl
      simp only [hlast, List.map_append, List.map_cons, List.map_nil, List.dropLast_concat,
        List.getLast?_concat, Option.any_some, hvis, List.all_map, List.all_eq_true,
        Function.comp_apply, hprint, List.mem_append, List.mem_singleton, List.isEmpty_iff,
        List.append_eq_nil_iff, reduceCtorEq, and_false, false_or, Option.some.injEq]
      constructor
      · rintro ⟨⟨hc, hc'⟩, hw, hd, hd'⟩
        exact ⟨⟨hc, fun x hx => hx.elim (hw x) (fun h => h ▸ hd)⟩, hc', hd'⟩
      · rintro ⟨⟨hc, hw⟩, hc', hd'⟩
        exact ⟨⟨hc, hc'⟩, fun x hx => hw x (.inl hx), hw d (.inr rfl), hd'⟩

theorem validMetaValue_latin1 (v : Bytes) : validMetaValue (latin1 v) = Go.validMetaValue v := by
  rw [Bool.eq_iff_iff, Go.validMetaValue_iff, validMetaValue]
  have hlen : (latin1 v).length = v.length := by simp [latin1]
  simp only [Bool.and_eq_true, decide_eq_true_eq, matchesMetaValue_iff, hlen, maxMetaValue]
  constructor
  · rintro ⟨⟨hpos, hmax⟩, -, hp, hh, hl⟩
    exact ⟨hpos, hmax, hp, hh, hl⟩
  · rintro ⟨hpos, hmax, hp, hh, hl⟩
    exact ⟨⟨hpos, hmax⟩, List.ne_nil_of_length_pos hpos, hp, hh, hl⟩

theorem checkMetaFields_eq (seen fields : List Field) :
    checkMetaFields (seen.map fun f => latin1 f.name) (fields.map ofField) =
      Go.checkFields seen fields := by
  induction fields generalizing seen with
  | nil => rfl
  | cons f rest ih =>
    have hseen : (seen.map fun f => latin1 f.name).contains (latin1 f.name) =
        seen.any fun g => g.name = f.name := by
      rw [show seen.map (fun f => latin1 f.name) = (seen.map Field.name).map latin1 by simp,
        contains_map_latin1, Bool.eq_iff_iff]
      simp
    have hih := ih (seen ++ [f])
    rw [List.map_append, List.map_cons, List.map_nil] at hih
    rw [List.map_cons, ofField, checkMetaFields, Go.checkFields, metaNames_eq, contains_map_latin1,
      hseen, printed_latin1, validMetaValue_latin1, hih]

theorem checkMeta_eq (fields : List Field) : checkMeta (fields.map ofField) = Go.check fields := by
  have hcount : metaNames.length = Go.metaNames.length := by rw [metaNames_eq, List.length_map]
  rw [checkMeta, Go.check, List.length_map, hcount]
  split_ifs
  · rfl
  · exact checkMetaFields_eq [] fields

theorem checkResendRange_eq (t : PacketType) (start stop : UInt32) :
    checkResendRange t start.toNat stop.toNat =
      if start ≥ stop then malformed (.emptyRange t start.toNat stop.toNat) else .ok () := by
  unfold checkResendRange
  simp only [ge_iff_le, Nat.cast_le, UInt32.le_iff_toNat_le]

/-! ## `decode`, one packet type at a time -/

theorem decodeReq_eq (id : UInt64) (b : Bytes) :
    decodeReq id.toNat b = ofGo <$> Go.decodeReq id b := by
  rw [decodeReq, Go.decodeReq, show reqFixedLen = Go.reqFixedLen from rfl]
  by_cases h : b.length < Go.reqFixedLen
  · rw [if_pos h, if_pos h]; rfl
  have hlen : 15 ≤ b.length := not_lt.mp h
  rw [if_neg h, if_neg h]
  simp only [getUint_two, getUint_four, sliceFrom_of_le hlen, bind_map_left, map_bind, ok_bind]
  refine bind_congr fun n => ?_
  by_cases h0 : n.toNat = 0
  · rw [if_pos h0, if_pos h0]; rfl
  by_cases hid : b.length ≠ Go.reqFixedLen + n.toNat
  · rw [if_neg h0, if_neg h0, if_pos hid, if_pos hid]; rfl
  rw [if_neg h0, if_neg h0, if_neg hid, if_neg hid, show b.drop Go.reqFixedLen = b.drop 15 from rfl]
  -- a fatal decoder refuses exactly the strings that are not UTF-8
  cases hdec : utf8Decode (b.drop 15) with
  | none =>
    have hbad : ¬ utf8Valid (b.drop 15) = true := by
      rw [Unicode.utf8Valid_eq_isSome, hdec]; simp
    rw [if_pos hbad, utf8DecoderDecode, hdec]; rfl
  | some cs =>
    have hok : utf8Valid (b.drop 15) = true := by rw [Unicode.utf8Valid_eq_isSome, hdec]; rfl
    rw [if_neg (not_not.mpr hok), utf8DecoderDecode, hdec, map_bind]
    refine bind_congr fun grant => ?_
    simp [map_pure, ofGo, utf8DecoderDecode, hdec]

theorem decodeData_eq (id : UInt64) (b : Bytes) :
    decodeData id.toNat b = ofGo <$> Go.decodeData id b := by
  rw [decodeData, Go.decodeData, show dataHeaderLen = Go.dataHeaderLen from rfl]
  by_cases h : b.length < Go.dataHeaderLen
  · rw [if_pos h, if_pos h]; rfl
  have hlen : 17 ≤ b.length := not_lt.mp h
  rw [if_neg h, if_neg h]
  simp only [getUint_four, sliceFrom_of_le hlen, bind_map_left, map_bind, ok_bind]
  refine bind_congr fun totalSize => bind_congr fun offset => ?_
  rw [← checkDataBounds_eq]
  rfl

theorem decodeDataSeq_eq (id : UInt64) (b : Bytes) :
    decodeDataSeq id.toNat b = ofGo <$> Go.decodeDataSeq id b := by
  rw [decodeDataSeq, Go.decodeDataSeq, show dataSeqHeaderLen = Go.dataSeqHeaderLen from rfl]
  by_cases h : b.length < Go.dataSeqHeaderLen
  · rw [if_pos h, if_pos h]; rfl
  have hlen : 21 ≤ b.length := not_lt.mp h
  rw [if_neg h, if_neg h]
  simp only [getUint_four, sliceFrom_of_le hlen, bind_map_left, map_bind, ok_bind]
  refine bind_congr fun totalSize => bind_congr fun offset => bind_congr fun seq => ?_
  rw [← checkDataBounds_eq]
  rfl

theorem decodeGrant_eq (id : UInt64) (b : Bytes) :
    decodeGrant id.toNat b = ofGo <$> Go.decodeGrant id b := by
  rw [decodeGrant, Go.decodeGrant, show grantLen = Go.grantLen from rfl]
  by_cases h : b.length ≠ Go.grantLen
  · rw [if_pos h, if_pos h]; rfl
  rw [if_neg h, if_neg h]
  simp only [getUint_four, getUint_one, bind_map_left, map_bind]
  rfl

theorem decodeResend_eq (id : UInt64) (b : Bytes) :
    decodeResend id.toNat b = ofGo <$> Go.decodeResend id b := by
  rw [decodeResend, Go.decodeResend, show resendLen = Go.resendLen from rfl]
  by_cases h : b.length ≠ Go.resendLen
  · rw [if_pos h, if_pos h]; rfl
  rw [if_neg h, if_neg h]
  simp only [getUint_four, bind_map_left, map_bind, checkResendRange_eq]
  refine bind_congr fun start => bind_congr fun stop => ?_
  split_ifs <;> rfl

theorem decodeResendSeq_eq (id : UInt64) (b : Bytes) :
    decodeResendSeq id.toNat b = ofGo <$> Go.decodeResendSeq id b := by
  rw [decodeResendSeq, Go.decodeResendSeq, show resendSeqLen = Go.resendSeqLen from rfl]
  by_cases h : b.length ≠ Go.resendSeqLen
  · rw [if_pos h, if_pos h]; rfl
  rw [if_neg h, if_neg h]
  simp only [getUint_four, bind_map_left, map_bind, checkResendRange_eq]
  refine bind_congr fun start => bind_congr fun stop => ?_
  split_ifs <;> rfl

theorem decodeError_eq (id : UInt64) (b : Bytes) :
    decodeError id.toNat b = ofGo <$> Go.decodeError id b := by
  rw [decodeError, Go.decodeError, show errorLen = Go.errorLen from rfl]
  by_cases h : b.length ≠ Go.errorLen
  · rw [if_pos h, if_pos h]; rfl
  rw [if_neg h, if_neg h]
  simp only [getUint_one, bind_map_left, map_bind]
  rfl

theorem decodeHello_eq (id : UInt64) (b : Bytes) :
    decodeHello id.toNat b = ofGo <$> Go.decodeHello id b := by
  rw [decodeHello, Go.decodeHello, show helloLen = Go.helloLen from rfl]
  by_cases h : b.length ≠ Go.helloLen
  · rw [if_pos h, if_pos h]; rfl
  rw [if_neg h, if_neg h]
  simp only [getUint_four, bind_map_left, map_bind]
  rfl

/-- The Go loop keeps the unread rest, the TypeScript loop its position: one
    step of either moves both the same way. -/
theorem decodeFields_eq (b : Bytes) (count : ℕ) (fields : List Field) (pos : ℕ)
    (hpos : pos ≤ b.length) :
    decodeFields b count fields.length pos (fields.map ofField) =
      (fun r => (r.1.map ofField, b.length - r.2.length)) <$>
        Go.decodeFields count fields (b.drop pos) := by
  induction count generalizing fields pos with
  | zero =>
    rw [decodeFields, Go.decodeFields, map_ok, List.length_drop, Nat.sub_sub_self hpos]
  | succ count ih =>
    have hlen : (b.drop pos).length = b.length - pos := List.length_drop
    rw [decodeFields, Go.decodeFields]
    by_cases h1 : pos + 1 > b.length
    · rw [if_pos h1, if_pos (by omega)]; rfl
    have hfirst : byteAt b pos = Go.index (b.drop pos) 0 := by
      rw [byteAt_eq, Go.index, Go.index, List.getElem?_drop, Nat.add_zero]
    rw [if_neg h1, if_neg (by omega), hfirst, map_bind]
    refine bind_congr fun n => ?_
    by_cases h2 : pos + 1 + n.toNat + 2 > b.length
    · rw [if_pos h2, if_pos (by omega)]; rfl
    have hname : sub (b.drop pos) 1 (1 + n.toNat) = sub b (pos + 1) (pos + 1 + n.toNat) := by
      rw [sub_drop, Nat.add_assoc]
    have hcount : Go.uint16 (b.drop pos) (1 + n.toNat) = Go.uint16 b (pos + 1 + n.toNat) := by
      simp only [Go.uint16, Go.slice, hlen, sub_drop]
      rw [if_pos (by omega), if_pos (by omega)]
      simp only [Nat.add_assoc]
    rw [if_neg h2, if_neg (by omega), slice_of_le (by omega) (by omega), ok_bind, hcount, hname,
      sliceFrom_of_le (by omega), List.drop_drop, getUint_two, bind_map_left, map_bind]
    refine bind_congr fun m => ?_
    rw [ok_bind]
    by_cases h3 : pos + (3 + n.toNat) + m.toNat > b.length
    · rw [if_pos h3, if_pos (by rw [List.length_drop]; omega), printed_latin1]; rfl
    have hvalue : sub (b.drop (pos + (3 + n.toNat))) 0 m.toNat =
        sub b (pos + (3 + n.toNat)) (pos + (3 + n.toNat) + m.toNat) := by
      rw [sub_drop, Nat.add_zero]
    rw [if_neg h3, if_neg (by rw [List.length_drop]; omega),
      slice_of_le (Nat.zero_le _) (by rw [List.length_drop]; omega), ok_bind, hvalue,
      sliceFrom_of_le (by rw [List.length_drop]; omega), ok_bind, List.drop_drop,
      ← ih _ _ (by omega)]
    simp [ofField]

theorem decodeMeta_eq (id : UInt64) (b : Bytes) :
    decodeMeta id.toNat b = ofGo <$> Go.decodeMeta id b := by
  rw [decodeMeta, Go.decodeMeta, show metaFixedLen = Go.metaFixedLen from rfl]
  by_cases h : b.length < Go.metaFixedLen
  · rw [if_pos h, if_pos h]; rfl
  have hlen : Go.metaFixedLen ≤ b.length := not_lt.mp h
  rw [if_neg h, if_neg h, sliceFrom_of_le hlen, ok_bind, byteAt_eq, map_bind]
  refine bind_congr fun c => ?_
  have hloop := decodeFields_eq b c.toNat [] Go.metaFixedLen hlen
  rw [List.length_nil, List.map_nil] at hloop
  dsimp only
  rw [hloop, bind_map_left]
  cases hgo : Go.decodeFields c.toNat [] (b.drop Go.metaFixedLen) with
  | error e => rfl
  | ok r =>
    obtain ⟨fields, rest⟩ := r
    have hrest : rest.length ≤ b.length := by
      obtain ⟨new, -, -, -, hb⟩ := Go.decodeFields_eq_ok_iff.mp hgo
      have := congrArg List.length hb
      rw [List.length_drop, List.length_append] at this
      omega
    simp only [ok_bind, Nat.sub_sub_self hrest]
    by_cases htrail : rest.length ≠ 0
    · rw [if_pos (by omega), if_pos htrail]; rfl
    rw [if_neg (by omega), if_neg htrail, checkMeta_eq, map_bind]
    rfl

theorem typeOf?_eq (c : UInt8) : typeOf? c = Go.typeOf? c := by
  unfold typeOf? Go.typeOf?
  split_ifs <;> first | rfl | simp_all

theorem decodeAs_eq (t : PacketType) (id : UInt64) (b : Bytes) :
    decodeAs t id.toNat b = ofGo <$> Go.decodeAs t id b := by
  cases t with
  | req => exact decodeReq_eq id b
  | data => exact decodeData_eq id b
  | grant => exact decodeGrant_eq id b
  | resend => exact decodeResend_eq id b
  | error => exact decodeError_eq id b
  | metaData => exact decodeMeta_eq id b
  | hello => exact decodeHello_eq id b
  | dataSeq => exact decodeDataSeq_eq id b
  | resendSeq => exact decodeResendSeq_eq id b

/-- **The decoders run in parallel**: on every byte string TypeScript returns
    `ofGo` of what Go returns, or reports the same error. -/
theorem decode_eq_map (b : Bytes) : decode b = ofGo <$> Go.decode b := by
  rw [decode, Go.decode, show headerLen = Go.headerLen from rfl]
  by_cases h : b.length < Go.headerLen
  · rw [if_pos h, if_pos h]; rfl
  have hlen : 9 ≤ b.length := not_lt.mp h
  obtain ⟨c, hc⟩ : ∃ c, Go.index b 0 = .ok c :=
    ⟨b[0], Go.index_eq_ok_iff.mpr (List.getElem?_eq_getElem (by omega))⟩
  rw [if_neg h, if_neg h, getUint_eight, byteAt_eq, hc, ok_bind, bind_map_left, map_bind]
  refine bind_congr fun id => ?_
  rw [ok_bind, typeOf?_eq]
  cases Go.typeOf? c with
  | none => rfl
  | some t => exact decodeAs_eq t id b

/-! ## META texts -/

/-- A text either side shows to be ASCII is the same numbers on both. -/
theorem SameText.eq_latin1 {b : Bytes} {u : JsString} (h : SameText b u)
    (hascii : (∀ x ∈ b, x.toNat < 0x80) ∨ ∀ x ∈ u, x.toNat < 0x80) : u = latin1 b := by
  obtain ⟨cs, rfl, rfl⟩ := h
  exact Unicode.utf16_eq_map_utf8
    (hascii.elim Unicode.isAscii_of_utf8 Unicode.isAscii_of_utf16)

theorem sameText_latin1 {b : Bytes} (h : ∀ x ∈ b, x.toNat < 0x80) : SameText b (latin1 b) := by
  obtain ⟨cs, rfl⟩ := Unicode.exists_utf8_of_ascii h
  exact ⟨cs, rfl, (Unicode.utf16_eq_map_utf8 (Unicode.isAscii_of_utf8 h)).symm⟩

theorem ascii_of_mem_docNames : ∀ name ∈ docNames, ∀ x ∈ name, x.toNat < 0x80 := by decide +kernel

theorem ascii_of_mem_metaNames : ∀ name ∈ metaNames, ∀ u ∈ name, u.toNat < 0x80 := by
  rw [metaNames_eq]
  simp only [List.forall_mem_map, latin1, UInt8.toNat_toUInt16]
  exact ascii_of_mem_docNames

theorem ascii_of_metaValue {v : Bytes} (h : MetaValue v) : ∀ x ∈ v, x.toNat < 0x80 := fun x hx => by
  have := (h.printable x hx).2
  omega

/-- What `validMetaValue` accepts is ASCII. -/
theorem ascii_of_validMetaValue {v : JsString} (h : validMetaValue v = true) :
    ∀ u ∈ v, u.toNat < 0x80 := by
  have hmatch : matchesMetaValue v = true := by
    rw [validMetaValue, Bool.and_eq_true] at h
    exact h.2
  have hvis {u : UInt16} (hu : visible u = true) : u.toNat < 0x80 := by
    rw [visible, Bool.and_eq_true, decide_eq_true_eq, decide_eq_true_eq] at hu
    omega
  have hprint {u : UInt16} (hu : printable u = true) : u.toNat < 0x80 := by
    rw [printable, Bool.and_eq_true, decide_eq_true_eq, decide_eq_true_eq] at hu
    omega
  cases v with
  | nil => simp
  | cons c w =>
    rw [matchesMetaValue, Bool.and_eq_true] at hmatch
    obtain ⟨hc, hw⟩ := hmatch
    rw [List.forall_mem_cons]
    refine ⟨hvis hc, ?_⟩
    rcases List.eq_nil_or_concat' w with rfl | ⟨w, d, rfl⟩
    · simp
    rw [List.isEmpty_eq_false_iff.mpr (by simp), Bool.false_or, List.dropLast_concat,
      List.getLast?_concat, Option.any_some, Bool.and_eq_true, List.all_eq_true] at hw
    rw [List.forall_mem_append, List.forall_mem_singleton]
    exact ⟨fun u hu => hprint (hw.1 u hu), hvis hw.2⟩

theorem ascii_of_checkMetaFields {seen : List JsString} {gs : List (JsString × JsString)}
    (h : checkMetaFields seen gs = .ok ()) :
    ∀ g ∈ gs, (∀ u ∈ g.1, u.toNat < 0x80) ∧ ∀ u ∈ g.2, u.toNat < 0x80 := by
  induction gs generalizing seen with
  | nil => simp
  | cons g gs ih =>
    obtain ⟨name, value⟩ := g
    rw [checkMetaFields] at h
    by_cases h1 : metaNames.contains name = true
    swap
    · rw [if_pos h1] at h; exact absurd h malformed_ne_ok
    by_cases h2 : seen.contains name = true
    · rw [if_neg (not_not.mpr h1), if_pos h2] at h; exact absurd h malformed_ne_ok
    by_cases h3 : validMetaValue value = true
    swap
    · rw [if_neg (not_not.mpr h1), if_neg h2, if_pos h3] at h; exact absurd h malformed_ne_ok
    rw [if_neg (not_not.mpr h1), if_neg h2, if_neg (not_not.mpr h3)] at h
    rw [List.forall_mem_cons]
    exact ⟨⟨ascii_of_mem_metaNames name (List.contains_iff_mem.mp h1), ascii_of_validMetaValue h3⟩,
      ih h⟩

/-- Where one side's check accepts, the fields are the Go fields read as
    `latin1`. -/
theorem SameFields.eq_map {fs : List Field} {gs : List (JsString × JsString)} (h : SameFields fs gs)
    (hok : MetaFields fs ∨ checkMeta gs = .ok ()) : gs = fs.map ofField := by
  have hascii : (∀ f ∈ fs, (∀ x ∈ f.name, x.toNat < 0x80) ∧ ∀ x ∈ f.value, x.toNat < 0x80) ∨
      ∀ g ∈ gs, (∀ u ∈ g.1, u.toNat < 0x80) ∧ ∀ u ∈ g.2, u.toNat < 0x80 := by
    rcases hok with hf | hg
    · exact .inl fun f hmem => ⟨ascii_of_mem_docNames f.name (hf.names f hmem),
        ascii_of_metaValue (hf.values f hmem)⟩
    · unfold checkMeta at hg
      split_ifs at hg with hcount
      · exact absurd hg malformed_ne_ok
      · exact .inr (ascii_of_checkMetaFields hg)
  clear hok
  induction h with
  | nil => rfl
  | @cons f g fs gs hfg _ ih =>
    simp only [List.forall_mem_cons] at hascii
    have hname := hfg.1.eq_latin1 (hascii.imp (·.1.1) (·.1.1))
    have hvalue := hfg.2.eq_latin1 (hascii.imp (·.1.2) (·.1.2))
    rw [List.map_cons, ← ih (hascii.imp (·.2) (·.2)), ofField, ← hname, ← hvalue]

theorem SameFields.checkMeta_eq_ok_iff {fs : List Field} {gs : List (JsString × JsString)}
    (h : SameFields fs gs) : checkMeta gs = .ok () ↔ MetaFields fs := by
  constructor
  · intro hg
    rw [h.eq_map (.inr hg), checkMeta_eq] at hg
    exact Go.check_eq_ok_iff.mp hg
  · intro hf
    rw [h.eq_map (.inl hf), checkMeta_eq]
    exact Go.check_eq_ok_iff.mpr hf

/-! ## `encode` -/

/-- Every write of `encode` continues where the one before it stopped. -/
theorem write_end {a xs : Bytes} {n i : ℕ} (hi : i = a.length) (hn : xs.length ≤ n) :
    write (a ++ List.replicate n 0) i xs =
      .ok (a ++ xs ++ List.replicate (n - xs.length) 0) := by
  subst hi
  rw [write, if_pos (by simpa using hn)]
  simp [List.drop_append, List.drop_of_length_le]

theorem setUint_end {a : Bytes} {k n i x : ℕ} (hi : i = a.length) (hn : k ≤ n) (hx : x < 256 ^ k) :
    setUint k (a ++ List.replicate n 0) i x = .ok (a ++ beBytes k x ++ List.replicate (n - k) 0) := by
  have hmod : ((x : ℤ) % 256 ^ k).toNat = x := by
    rw [Int.emod_eq_of_lt (by positivity) (by exact_mod_cast hx), Int.toNat_natCast]
  rw [setUint, hmod, write_end hi (by simpa using hn), length_beBytes]

theorem checkUint_natCast {bits n : ℕ} (h : n < 2 ^ bits) : checkUint bits n = .ok () := by
  have h' : (n : ℤ) < 2 ^ bits := by exact_mod_cast h
  rw [checkUint, if_neg (by omega)]

theorem packetTypeCode_eq (t : PacketType) : packetTypeCode t = Go.typeCode t := by
  cases t <;> rfl

theorem header_eq (t : PacketType) (id : UInt64) (n : ℕ) :
    header t id.toNat (9 + n) =
      .ok ((Go.typeCode t :: beBytes 8 id.toNat) ++ List.replicate n 0) := by
  have hcode : beBytes 1 (packetTypeCode t).toNat = [Go.typeCode t] := by
    rw [packetTypeCode_eq]; simp [beBytes]
  have hone := setUint_end (a := []) (k := 1) (n := 9 + n) (i := 0) rfl (by omega)
    (packetTypeCode t).toNat_lt
  rw [List.nil_append, List.nil_append, hcode] at hone
  rw [header, hone, ok_bind, setUint_end (i := 1) rfl (by omega) id.toNat_lt,
    show 9 + n - 1 - 8 = n by omega]
  rfl

/-- The loop over the fields writes their layouts. -/
theorem encodeFields_end {fields : List Field} (hfits : ∀ f ∈ fields, Go.FitsPrefix f) {a : Bytes}
    {n i : ℕ} (hi : i = a.length) (hn : n = (fields.flatMap Field.layout).length) :
    encodeFields (a ++ List.replicate n 0) i (fields.map ofField) =
      .ok (a ++ fields.flatMap Field.layout) := by
  induction fields generalizing a n i with
  | nil => simp [encodeFields, hn]
  | cons f fields ih =>
    obtain ⟨⟨hname, hvalue⟩, hfits⟩ := List.forall_mem_cons.mp hfits
    have hascii (b : Bytes) : (latin1 b).map UInt16.toUInt8 = b := by
      rw [latin1, List.map_map]
      exact (List.map_congr_left fun c _ => by simp).trans (List.map_id b)
    have hlen (b : Bytes) : (latin1 b).length = b.length := by simp [latin1]
    have hfield : f.layout.length = 3 + f.name.length + f.value.length := by
      simp [Field.layout]; omega
    rw [List.flatMap_cons, List.length_append, hfield] at hn
    have hbyte : beBytes 1 f.name.length = [UInt8.ofNat f.name.length] := by simp [beBytes]
    rw [List.map_cons, ofField, encodeFields, List.flatMap_cons]
    simp only [writeAscii, hascii, hlen]
    rw [setUint_end hi (by omega) (by omega), ok_bind,
      write_end (by simp; omega) (by omega), ok_bind, setUint_end (by simp; omega) (by omega) (by omega),
      ok_bind, write_end (by simp; omega) (by omega), ok_bind, hbyte,
      ih hfits (by simp; omega) (by omega)]
    simp [Field.layout]

/-- The `reduce` of `encode` adds up the lengths of the layouts. -/
theorem foldl_length (fields : List Field) (n : ℕ) :
    (fields.map ofField).foldl (fun n f => n + 3 + f.1.length + f.2.length) n =
      n + (fields.flatMap Field.layout).length := by
  induction fields generalizing n with
  | nil => simp
  | cons f fields ih =>
    rw [List.map_cons, List.foldl_cons, ih, List.flatMap_cons, List.length_append]
    simp [ofField, latin1, Field.layout]
    omega

/-- A check followed by the rest of `encode`. -/
theorem check_bind_eq_ok_iff {α : Type} {x : Except Fault Unit} {f : Unit → Except Fault α} {b : α} :
    (x >>= f) = .ok b ↔ x = .ok () ∧ f () = .ok b := by
  rw [bind_eq_ok_iff]
  exact ⟨fun ⟨_, hx, hf⟩ => ⟨hx, hf⟩, fun ⟨hx, hf⟩ => ⟨(), hx, hf⟩⟩

theorem ok_eq_ok_iff {a b c : Bytes} (h : a = c) : (Except.ok a : Except Fault Bytes) = .ok b ↔ b = c := by
  rw [Except.ok.injEq, h, eq_comm]

theorem checkResendRange_eq_ok_iff {t : PacketType} {start stop : UInt32} :
    checkResendRange t start.toNat stop.toNat = .ok () ↔ start < stop := by
  rw [checkResendRange_eq]
  split_ifs with h
  · simp [UInt32.not_lt.mpr h]
  · simp [UInt32.not_le.mp h]

theorem encode_req_eq_ok_iff {p : Wire.Req} {q : Req} (h : Same (.req p) (.req q))
    {b : Bytes} : encode (.req q) = .ok b ↔
      (Wire.Packet.req p).WellFormed ∧ b = (Wire.Packet.req p).layout := by
  unfold encode
  obtain ⟨id, grant, assetId⟩ := q
  obtain ⟨rfl, rfl, cs, hgo, rfl⟩ := h
  have hid : utf8EncoderEncode (utf16 cs) = some p.assetId := by
    rw [utf8EncoderEncode, Unicode.utf16Decode_utf16, hgo]; rfl
  rw [Packet.rpcId, checkUint_natCast p.rpcId.toNat_lt, ok_bind]
  dsimp only
  rw [checkUint_natCast p.initialGrant.toNat_lt, ok_bind, hid]
  dsimp only
  by_cases hlen : p.assetId.length = 0 ∨ p.assetId.length > 0xffff
  · rw [if_pos hlen]
    simp only [malformed_ne_ok, Wire.Packet.WellFormed, false_iff]
    omega
  have hwf : (Wire.Packet.req p).WellFormed := ⟨by omega, by omega, cs, hgo⟩
  rw [if_neg hlen, show reqFixedLen + p.assetId.length = 9 + (6 + p.assetId.length) by
    simp [reqFixedLen, headerLen]; omega, header_eq, ok_bind,
    setUint_end (by simp) (by omega) p.initialGrant.toNat_lt, ok_bind,
    setUint_end (by simp) (by omega) (by omega), ok_bind,
    write_end (by simp [reqFixedLen, headerLen]) (by omega), ok_eq_ok_iff (c := (Wire.Packet.req p).layout)]
  · exact ⟨fun hb => ⟨hwf, hb⟩, And.right⟩
  · simp [Wire.Packet.layout, Wire.Packet.header, Wire.Packet.body, Go.packetType, Wire.Packet.rpc]
    omega

theorem encode_data_eq_ok_iff {p : Wire.Data} {q : Data} (h : Same (.data p) (.data q))
    {b : Bytes} : encode (.data q) = .ok b ↔
      (Wire.Packet.data p).WellFormed ∧ b = (Wire.Packet.data p).layout := by
  unfold encode
  obtain ⟨id, totalSize, offset, payload⟩ := q
  obtain ⟨rfl, rfl, rfl, rfl⟩ := h
  rw [Packet.rpcId, checkUint_natCast p.rpcId.toNat_lt, ok_bind]
  dsimp only
  rw [checkUint_natCast p.totalSize.toNat_lt, ok_bind, checkUint_natCast p.offset.toNat_lt, ok_bind,
    checkDataBounds_eq, check_bind_eq_ok_iff, Go.checkBounds_eq_ok_iff]
  refine and_congr_right fun _ => ?_
  rw [show dataHeaderLen + p.payload.length = 9 + (8 + p.payload.length) by
    simp [dataHeaderLen, headerLen]; omega, header_eq, ok_bind,
    setUint_end (by simp) (by omega) p.totalSize.toNat_lt, ok_bind,
    setUint_end (by simp) (by omega) p.offset.toNat_lt, ok_bind,
    write_end (by simp [dataHeaderLen, headerLen]) (by omega)]
  refine ok_eq_ok_iff ?_
  simp [Wire.Packet.layout, Wire.Packet.header, Wire.Packet.body, Go.packetType, Wire.Packet.rpc]
  omega

theorem encode_grant_eq_ok_iff {p : Wire.Grant} {q : Grant} (h : Same (.grant p) (.grant q))
    {b : Bytes} : encode (.grant q) = .ok b ↔
      (Wire.Packet.grant p).WellFormed ∧ b = (Wire.Packet.grant p).layout := by
  unfold encode
  obtain ⟨id, maxOffset, priority⟩ := q
  obtain ⟨rfl, rfl, rfl⟩ := h
  have hpri : beBytes 1 p.priority.toNat = [p.priority] := by simp [beBytes]
  rw [Packet.rpcId, checkUint_natCast p.rpcId.toNat_lt, ok_bind]
  dsimp only
  rw [checkUint_natCast p.maxOffset.toNat_lt, ok_bind, checkUint_natCast p.priority.toNat_lt, ok_bind,
    show grantLen = 9 + 5 from rfl, header_eq, ok_bind,
    setUint_end (by simp) (by omega) p.maxOffset.toNat_lt, ok_bind,
    setUint_end (by simp) (by omega) p.priority.toNat_lt, hpri]
  rw [Wire.Packet.WellFormed, true_and]
  refine ok_eq_ok_iff ?_
  simp [Wire.Packet.layout, Wire.Packet.header, Wire.Packet.body, Go.packetType, Wire.Packet.rpc]

theorem encode_resend_eq_ok_iff {p : Wire.Resend} {q : Resend} (h : Same (.resend p) (.resend q))
    {b : Bytes} : encode (.resend q) = .ok b ↔
      (Wire.Packet.resend p).WellFormed ∧ b = (Wire.Packet.resend p).layout := by
  unfold encode
  obtain ⟨id, start, stop⟩ := q
  obtain ⟨rfl, rfl, rfl⟩ := h
  rw [Packet.rpcId, checkUint_natCast p.rpcId.toNat_lt, ok_bind]
  dsimp only
  rw [checkUint_natCast p.start.toNat_lt, ok_bind, checkUint_natCast p.stop.toNat_lt, ok_bind,
    check_bind_eq_ok_iff, checkResendRange_eq_ok_iff]
  refine and_congr_right fun _ => ?_
  rw [show resendLen = 9 + 8 from rfl, header_eq, ok_bind,
    setUint_end (by simp) (by omega) p.start.toNat_lt, ok_bind,
    setUint_end (by simp) (by omega) p.stop.toNat_lt]
  refine ok_eq_ok_iff ?_
  simp [Wire.Packet.layout, Wire.Packet.header, Wire.Packet.body, Go.packetType, Wire.Packet.rpc]

theorem encode_error_eq_ok_iff {p : Wire.ErrorPacket} {q : ErrorPacket} (h : Same (.error p) (.error q))
    {b : Bytes} : encode (.error q) = .ok b ↔
      (Wire.Packet.error p).WellFormed ∧ b = (Wire.Packet.error p).layout := by
  unfold encode
  obtain ⟨id, code⟩ := q
  obtain ⟨rfl, rfl⟩ := h
  have hcode : beBytes 1 p.code.toNat = [p.code] := by simp [beBytes]
  rw [Packet.rpcId, checkUint_natCast p.rpcId.toNat_lt, ok_bind]
  dsimp only
  rw [checkUint_natCast p.code.toNat_lt, ok_bind, show errorLen = 9 + 1 from rfl, header_eq, ok_bind,
    setUint_end (by simp) (by omega) p.code.toNat_lt, hcode]
  rw [Wire.Packet.WellFormed, true_and]
  refine ok_eq_ok_iff ?_
  simp [Wire.Packet.layout, Wire.Packet.header, Wire.Packet.body, Go.packetType, Wire.Packet.rpc]

theorem encode_metaData_eq_ok_iff {p : Wire.Meta} {q : Meta} (h : Same (.metaData p) (.metaData q))
    {b : Bytes} : encode (.metaData q) = .ok b ↔
      (Wire.Packet.metaData p).WellFormed ∧ b = (Wire.Packet.metaData p).layout := by
  unfold encode
  obtain ⟨id, fields⟩ := q
  obtain ⟨rfl, hsame⟩ := h
  rw [Packet.rpcId, checkUint_natCast p.rpcId.toNat_lt, ok_bind]
  dsimp only
  rw [check_bind_eq_ok_iff, hsame.checkMeta_eq_ok_iff]
  refine and_congr_right fun hwf => ?_
  have hcount := hwf.count
  have hbyte : beBytes 1 p.fields.length = [UInt8.ofNat p.fields.length] := by simp [beBytes]
  have hlen : (p.fields.map ofField).foldl (fun n f => n + 3 + f.1.length + f.2.length) metaFixedLen =
      9 + (1 + (p.fields.flatMap Field.layout).length) := by
    rw [foldl_length]; simp [metaFixedLen, headerLen]; omega
  obtain rfl : fields = p.fields.map ofField := hsame.eq_map (.inl hwf)
  rw [List.length_map, hlen, header_eq, ok_bind,
    setUint_end (by simp) (by omega) (by omega), ok_bind, hbyte,
    encodeFields_end (Go.MetaFields.fits hwf) (by simp [metaFixedLen, headerLen]) (by omega)]
  refine ok_eq_ok_iff ?_
  simp [Wire.Packet.layout, Wire.Packet.header, Wire.Packet.body, Go.packetType, Wire.Packet.rpc]

theorem encode_hello_eq_ok_iff {p : Wire.Hello} {q : Hello} (h : Same (.hello p) (.hello q))
    {b : Bytes} : encode (.hello q) = .ok b ↔
      (Wire.Packet.hello p).WellFormed ∧ b = (Wire.Packet.hello p).layout := by
  unfold encode
  obtain ⟨id, caps⟩ := q
  obtain ⟨rfl, rfl⟩ := h
  rw [Packet.rpcId, checkUint_natCast p.rpcId.toNat_lt, ok_bind]
  dsimp only
  rw [checkUint_natCast p.caps.toNat_lt, ok_bind, show helloLen = 9 + 4 from rfl, header_eq, ok_bind,
    setUint_end (by simp) (by omega) p.caps.toNat_lt]
  rw [Wire.Packet.WellFormed, true_and]
  refine ok_eq_ok_iff ?_
  simp [Wire.Packet.layout, Wire.Packet.header, Wire.Packet.body, Go.packetType, Wire.Packet.rpc]

theorem encode_dataSeq_eq_ok_iff {p : Wire.DataSeq} {q : DataSeq} (h : Same (.dataSeq p) (.dataSeq q))
    {b : Bytes} : encode (.dataSeq q) = .ok b ↔
      (Wire.Packet.dataSeq p).WellFormed ∧ b = (Wire.Packet.dataSeq p).layout := by
  unfold encode
  obtain ⟨⟨id, totalSize, offset, payload⟩, seq⟩ := q
  obtain ⟨rfl, rfl, rfl, rfl, rfl⟩ := h
  rw [Packet.rpcId, checkUint_natCast p.rpcId.toNat_lt, ok_bind]
  dsimp only
  rw [checkUint_natCast p.totalSize.toNat_lt, ok_bind, checkUint_natCast p.offset.toNat_lt, ok_bind,
    checkUint_natCast p.seq.toNat_lt, ok_bind, checkDataBounds_eq, check_bind_eq_ok_iff,
    Go.checkBounds_eq_ok_iff]
  refine and_congr_right fun _ => ?_
  rw [show dataSeqHeaderLen + p.payload.length = 9 + (12 + p.payload.length) by
    simp [dataSeqHeaderLen, dataHeaderLen, headerLen]; omega, header_eq, ok_bind,
    setUint_end (by simp) (by omega) p.totalSize.toNat_lt, ok_bind,
    setUint_end (by simp) (by omega) p.offset.toNat_lt, ok_bind,
    setUint_end (by simp) (by omega) p.seq.toNat_lt, ok_bind,
    write_end (by simp [dataSeqHeaderLen, dataHeaderLen, headerLen]) (by omega)]
  refine ok_eq_ok_iff ?_
  simp [Wire.Packet.layout, Wire.Packet.header, Wire.Packet.body, Go.packetType, Wire.Packet.rpc]
  omega

theorem encode_resendSeq_eq_ok_iff {p : Wire.ResendSeq} {q : ResendSeq} (h : Same (.resendSeq p) (.resendSeq q))
    {b : Bytes} : encode (.resendSeq q) = .ok b ↔
      (Wire.Packet.resendSeq p).WellFormed ∧ b = (Wire.Packet.resendSeq p).layout := by
  unfold encode
  obtain ⟨id, start, stop⟩ := q
  obtain ⟨rfl, rfl, rfl⟩ := h
  rw [Packet.rpcId, checkUint_natCast p.rpcId.toNat_lt, ok_bind]
  dsimp only
  rw [checkUint_natCast p.start.toNat_lt, ok_bind, checkUint_natCast p.stop.toNat_lt, ok_bind,
    check_bind_eq_ok_iff, checkResendRange_eq_ok_iff]
  refine and_congr_right fun _ => ?_
  rw [show resendSeqLen = 9 + 8 from rfl, header_eq, ok_bind,
    setUint_end (by simp) (by omega) p.start.toNat_lt, ok_bind,
    setUint_end (by simp) (by omega) p.stop.toNat_lt]
  refine ok_eq_ok_iff ?_
  simp [Wire.Packet.layout, Wire.Packet.header, Wire.Packet.body, Go.packetType, Wire.Packet.rpc]

/-- **`encode` writes the layout** of the Go packet with the same field values,
    exactly if that packet is well-formed. -/
theorem encode_eq_ok_iff {p : Wire.Packet} {q : Packet} (h : Same p q) {b : Bytes} :
    encode q = .ok b ↔ p.WellFormed ∧ b = p.layout := by
  cases p with
  | req p =>
    cases q <;> try exact h.elim
    exact encode_req_eq_ok_iff h
  | data p =>
    cases q <;> try exact h.elim
    exact encode_data_eq_ok_iff h
  | grant p =>
    cases q <;> try exact h.elim
    exact encode_grant_eq_ok_iff h
  | resend p =>
    cases q <;> try exact h.elim
    exact encode_resend_eq_ok_iff h
  | error p =>
    cases q <;> try exact h.elim
    exact encode_error_eq_ok_iff h
  | metaData p =>
    cases q <;> try exact h.elim
    exact encode_metaData_eq_ok_iff h
  | hello p =>
    cases q <;> try exact h.elim
    exact encode_hello_eq_ok_iff h
  | dataSeq p =>
    cases q <;> try exact h.elim
    exact encode_dataSeq_eq_ok_iff h
  | resendSeq p =>
    cases q <;> try exact h.elim
    exact encode_resendSeq_eq_ok_iff h

/-! ## The byte order mark -/

/-- The UTF-8 encoding of U+FEFF. -/
def bomBytes : Bytes := [0xEF, 0xBB, 0xBF]

theorem utf8EncodeChar_bom : String.utf8EncodeChar bom = bomBytes := by decide

theorem bomBytes_prefix_iff {cs : List Char} : bomBytes <+: utf8 cs ↔ cs.head? = some bom := by
  constructor
  · rintro ⟨rest, hrest⟩
    have hdec := Unicode.utf8Decode_utf8EncodeChar bom rest
    rw [utf8EncodeChar_bom, hrest, Unicode.utf8Decode_utf8] at hdec
    obtain ⟨cs', -, rfl⟩ := Option.map_eq_some_iff.mp hdec.symm
    rfl
  · intro h
    obtain ⟨cs', rfl⟩ := List.head?_eq_some_iff.mp h
    exact ⟨utf8 cs', by rw [Unicode.utf8_cons, utf8EncodeChar_bom]⟩

theorem stripBom_eq_self_iff {cs : List Char} : stripBom cs = cs ↔ cs.head? ≠ some bom := by
  cases cs with
  | nil => simp [stripBom]
  | cons c cs =>
    rw [stripBom, List.head?_cons, ne_eq, Option.some.injEq]
    split_ifs with hc
    · simp [hc]
    · simp [hc]

/-- `b` is the encoding of a well-formed REQ whose `asset_id` starts with a byte
    order mark. -/
def BomReq (b : Bytes) : Prop :=
  ∃ p : Wire.Req, (Wire.Packet.req p).WellFormed ∧ b = (Wire.Packet.req p).layout ∧
    bomBytes <+: p.assetId

/-- What the decoder makes of an asset ID. -/
theorem utf8DecoderDecode_utf8 (cs : List Char) :
    utf8DecoderDecode (utf8 cs) = some (utf16 (stripBom cs)) := by
  rw [utf8DecoderDecode, Unicode.utf8Decode_utf8, Option.map_some]

theorem sameText_stripBom_iff {cs : List Char} :
    SameText (utf8 cs) (utf16 (stripBom cs)) ↔ ¬ bomBytes <+: utf8 cs := by
  rw [bomBytes_prefix_iff, ← ne_eq, ← stripBom_eq_self_iff]
  constructor
  · rintro ⟨cs', h8, h16⟩
    rw [Unicode.utf16_injective h16, Unicode.utf8_injective h8]
  · exact fun h => ⟨cs, rfl, by rw [h]⟩

/-- The packets read from one byte string have the same field values, unless
    the byte string is a `BomReq`. -/
theorem same_ofGo_iff {p : Wire.Packet} (hwf : p.WellFormed) :
    Same p (ofGo p) ↔ ¬ BomReq p.layout := by
  have hother (h : Same p (ofGo p)) (hreq : ∀ q, p ≠ .req q) : Same p (ofGo p) ↔ ¬ BomReq p.layout :=
    iff_of_true h fun ⟨q, hq, hlay, _⟩ => hreq q (by
      have hp := Go.decode_eq_ok_iff.mpr ⟨hwf, rfl⟩
      rw [hlay, Go.decode_eq_ok_iff.mpr ⟨hq, rfl⟩] at hp
      exact (Except.ok.inj hp).symm)
  cases p with
  | req p =>
    obtain ⟨cs, hcs⟩ := hwf.2.2
    have hbom : BomReq (Wire.Packet.req p).layout ↔ bomBytes <+: p.assetId := by
      refine ⟨fun ⟨q, hq, hlay, hpre⟩ => ?_, fun h => ⟨p, hwf, rfl, h⟩⟩
      have hp := Go.decode_eq_ok_iff.mpr ⟨hwf, rfl⟩
      rw [hlay, Go.decode_eq_ok_iff.mpr ⟨hq, rfl⟩] at hp
      cases hp
      exact hpre
    rw [hbom, hcs, ← sameText_stripBom_iff]
    simp only [Same, ofGo, true_and, hcs, utf8DecoderDecode_utf8, Option.getD_some]
  | data p => exact hother ⟨rfl, rfl, rfl, rfl⟩ (by simp)
  | grant p => exact hother ⟨rfl, rfl, rfl⟩ (by simp)
  | resend p => exact hother ⟨rfl, rfl, rfl⟩ (by simp)
  | error p => exact hother ⟨rfl, rfl⟩ (by simp)
  | metaData p =>
    refine hother ⟨rfl, ?_⟩ (by simp)
    rw [SameFields, List.forall₂_map_right_iff, List.forall₂_same]
    exact fun f hf => ⟨sameText_latin1 (ascii_of_mem_docNames f.name (MetaFields.names hwf f hf)),
      sameText_latin1 (ascii_of_metaValue (MetaFields.values hwf f hf))⟩
  | hello p => exact hother ⟨rfl, rfl⟩ (by simp)
  | dataSeq p => exact hother ⟨rfl, rfl, rfl, rfl, rfl⟩ (by simp)
  | resendSeq p => exact hother ⟨rfl, rfl, rfl⟩ (by simp)

/-- Encoding what was decoded gives back the byte string, unless it is a
    `BomReq`: `encode` then writes an asset ID three bytes shorter. -/
theorem encode_ofGo_iff {p : Wire.Packet} (hwf : p.WellFormed) :
    encode (ofGo p) = .ok p.layout ↔ ¬ BomReq p.layout := by
  refine ⟨?_, fun h => (encode_eq_ok_iff ((same_ofGo_iff hwf).mpr h)).mpr ⟨hwf, rfl⟩⟩
  rintro henc ⟨q, hq, hlay, hpre⟩
  obtain ⟨cs, hcs⟩ := hq.2.2
  have hpq : p = .req q := by
    have hp := Go.decode_eq_ok_iff.mpr ⟨hwf, rfl⟩
    rw [hlay, Go.decode_eq_ok_iff.mpr ⟨hq, rfl⟩] at hp
    exact (Except.ok.inj hp).symm
  subst hpq
  rw [hcs, bomBytes_prefix_iff] at hpre
  obtain ⟨cs', rfl⟩ := List.head?_eq_some_iff.mp hpre
  have hstrip : stripBom (bom :: cs') = cs' := by rw [stripBom, if_pos rfl]
  -- the packet read has the asset ID without its mark
  have hsame : Same (.req { q with assetId := utf8 cs' }) (ofGo (.req q)) := by
    refine ⟨rfl, rfl, cs', rfl, ?_⟩
    simp only [hcs, utf8DecoderDecode_utf8, hstrip, Option.getD_some]
  have hlen := congrArg List.length ((encode_eq_ok_iff hsame).mp henc).2
  simp only [Wire.Packet.layout, Wire.Packet.body, List.length_append, Wire.Packet.length_header,
    length_beBytes, hcs, Unicode.utf8_cons, utf8EncodeChar_bom] at hlen
  simp [bomBytes] at hlen

/-! ## Agreement -/

/-- The two decoders agree on `b`: both accept it or neither does, what they
    return is the same packet, and `encode` gives `b` back. -/
structure CodecsAgree (b : Bytes) : Prop where
  accept : (∃ p, Go.decode b = .ok p) ↔ ∃ q, decode b = .ok q
  same : ∀ p q, Go.decode b = .ok p → decode b = .ok q → Same p q
  reencode : ∀ q, decode b = .ok q → encode q = .ok b

theorem decode_eq_ok_iff {b : Bytes} {q : Packet} :
    decode b = .ok q ↔ ∃ p, Go.decode b = .ok p ∧ ofGo p = q := by
  rw [decode_eq_map]
  cases Go.decode b with
  | error e => simp [Functor.map, Except.map]
  | ok p => rw [map_ok]; simp

theorem exists_decode_iff (b : Bytes) : (∃ p, Go.decode b = .ok p) ↔ ∃ q, decode b = .ok q := by
  simp only [decode_eq_ok_iff]
  exact ⟨fun ⟨p, hp⟩ => ⟨ofGo p, p, hp, rfl⟩, fun ⟨_, p, hp, _⟩ => ⟨p, hp⟩⟩

/-- **The codecs agree** on every byte string except the REQs whose asset ID
    starts with a byte order mark; those both accept, but TypeScript reads the
    asset ID without the mark. The encoders agree on every packet. -/
theorem codecsAgree_iff (b : Bytes) :
    (CodecsAgree b ↔ ¬ BomReq b) ∧
    ((∃ p, Go.decode b = .ok p) ↔ ∃ q, decode b = .ok q) ∧
    (∀ (p : Wire.Packet) (q : Packet), Same p q → (Go.marshal p = .ok b ↔ encode q = .ok b)) := by
  refine ⟨⟨fun hagree hbom => ?_, fun hbom => ⟨exists_decode_iff b, ?_, ?_⟩⟩,
    exists_decode_iff b, fun p q h => Go.marshal_eq_ok_iff.trans (encode_eq_ok_iff h).symm⟩
  · obtain ⟨p, hwf, rfl, -⟩ := id hbom
    have hgo := Go.decode_eq_ok_iff.mpr ⟨hwf, rfl⟩
    exact (same_ofGo_iff hwf).mp
      (hagree.same _ _ hgo (decode_eq_ok_iff.mpr ⟨_, hgo, rfl⟩)) hbom
  · intro p q hp hq
    obtain ⟨hwf, rfl⟩ := Go.decode_eq_ok_iff.mp hp
    obtain ⟨p', hp', rfl⟩ := decode_eq_ok_iff.mp hq
    obtain rfl := Except.ok.inj (hp.symm.trans hp')
    exact (same_ofGo_iff hwf).mpr hbom
  · intro q hq
    obtain ⟨p, hp, rfl⟩ := decode_eq_ok_iff.mp hq
    obtain ⟨hwf, rfl⟩ := Go.decode_eq_ok_iff.mp hp
    exact (encode_ofGo_iff hwf).mpr hbom

/-- A REQ for the asset ID U+FEFF `a`. -/
def bomReqBytes : Bytes :=
  [0x01, 0, 0, 0, 0, 0, 0, 0, 7, 0, 0, 0, 1, 0, 4, 0xEF, 0xBB, 0xBF, 0x61]

/-- Go reads the four bytes of its asset ID, TypeScript the one character after
    the mark, and `encode` does not give the byte string back. -/
theorem bomReqBytes_disagree :
    Go.decode bomReqBytes =
      .ok (.req { rpcId := 7, initialGrant := 1, assetId := [0xEF, 0xBB, 0xBF, 0x61] }) ∧
    decode bomReqBytes = .ok (.req { rpcId := 7, initialGrant := 1, assetId := [0x61] }) ∧
    ¬ CodecsAgree bomReqBytes := by
  have hts : decode bomReqBytes = .ok (.req { rpcId := 7, initialGrant := 1, assetId := [0x61] }) := by
    decide +kernel
  refine ⟨by decide +kernel, hts, fun h => ?_⟩
  exact absurd (h.reencode _ hts) (by decide +kernel)

end Http4.Wire.Ts
