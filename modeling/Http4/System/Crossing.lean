import Http4.Client.RttSamples
import Http4.Sender.Replies

/-!
# Packets that cross

A packet is written in one language and read in the other. What the client's `encode`
writes, the server's `Decode` reads as the same packet, and the other way round.

Main results:

* `exists_decode_of_encode`: whatever `encode` writes, Go decodes to the same packet.
* `exists_authority`, `exists_req`: the grants and REQs of the client, as the server reads
  them.
* `exists_metaData`, `exists_dataIn`: META and DATA of the server, as the client reads them.
-/

namespace Http4.System

open Wire (Packet)
open Wire.Ts (JsString Same SameText SameFields)
open Client
open Client.Http4Client (Carried Replies)
open Sender

/-! ## From TypeScript to Go -/

theorem exists_uint64 {n : ℤ} (h : Wire.Ts.checkUint 64 n = .ok ()) : ∃ x : UInt64, n = x.toNat := by
  obtain ⟨hpos, hlt⟩ := Outgoing.range_of_checkUint h
  refine ⟨UInt64.ofNat n.toNat, ?_⟩
  rw [UInt64.toNat_ofNat_of_lt' (by change _ < 2 ^ 64; omega), Int.toNat_of_nonneg hpos]

theorem exists_uint32 {n : ℤ} (h : Wire.Ts.checkUint 32 n = .ok ()) : ∃ x : UInt32, n = x.toNat := by
  obtain ⟨hpos, hlt⟩ := Outgoing.range_of_checkUint h
  refine ⟨UInt32.ofNat n.toNat, ?_⟩
  rw [UInt32.toNat_ofNat_of_lt' (by change _ < 2 ^ 32; omega), Int.toNat_of_nonneg hpos]

theorem exists_uint8 {n : ℤ} (h : Wire.Ts.checkUint 8 n = .ok ()) : ∃ x : UInt8, n = x.toNat := by
  obtain ⟨hpos, hlt⟩ := Outgoing.range_of_checkUint h
  refine ⟨UInt8.ofNat n.toNat, ?_⟩
  rw [UInt8.toNat_ofNat_of_lt' (by change _ < 2 ^ 8; omega), Int.toNat_of_nonneg hpos]

/-- Texts that `checkMeta` accepts are the same in Go. -/
theorem exists_sameFields {fields : List (JsString × JsString)} (h : Wire.Ts.checkMeta fields = .ok ()) :
    ∃ fs, SameFields fs fields := by
  have hascii : ∀ f ∈ fields, (∀ u ∈ f.1, u.toNat < 0x80) ∧ ∀ u ∈ f.2, u.toNat < 0x80 := by
    rw [Wire.Ts.checkMeta] at h
    split_ifs at h
    · exact absurd h Wire.malformed_ne_ok
    · exact Wire.Ts.ascii_of_checkMetaFields h
  have hsame {u : JsString} (hu : ∀ x ∈ u, x.toNat < 0x80) : SameText (u.map UInt16.toUInt8) u := by
    have hlatin : Wire.Ts.latin1 (u.map UInt16.toUInt8) = u := by
      rw [Wire.Ts.latin1, List.map_map]
      refine (List.map_congr_left fun x hx => ?_).trans (List.map_id u)
      have hlt := hu x hx
      rw [← UInt16.toNat_inj]
      simp
      omega
    have hbytes : ∀ x ∈ u.map UInt16.toUInt8, x.toNat < 0x80 := by
      intro x hx
      obtain ⟨y, hy, rfl⟩ := List.mem_map.mp hx
      have hlt := hu y hy
      simp
      omega
    have htext := Wire.Ts.sameText_latin1 hbytes
    rwa [hlatin] at htext
  refine ⟨fields.map fun f => { name := f.1.map UInt16.toUInt8, value := f.2.map UInt16.toUInt8 }, ?_⟩
  rw [SameFields, List.forall₂_map_left_iff, List.forall₂_same]
  exact fun f hf => ⟨hsame (hascii f hf).1, hsame (hascii f hf).2⟩

/-- A packet that is written has its like in Go. -/
theorem exists_same {q : Wire.Ts.Packet} {b : Bytes} (h : Wire.Ts.encode q = .ok b) : ∃ p, Same p q := by
  unfold Wire.Ts.encode at h
  obtain ⟨hid, h⟩ := Wire.Ts.check_bind_eq_ok_iff.mp h
  obtain ⟨id, hid⟩ := exists_uint64 hid
  cases q with
  | req q =>
    obtain ⟨hgrant, h⟩ := Wire.Ts.check_bind_eq_ok_iff.mp h
    obtain ⟨grant, hgrant⟩ := exists_uint32 hgrant
    cases hassetId : Wire.Ts.utf8EncoderEncode q.assetId with
    | none =>
      rw [hassetId] at h
      exact absurd h Wire.malformed_ne_ok
    | some assetId =>
      obtain ⟨cs, hcs, rfl⟩ := Option.map_eq_some_iff.mp hassetId
      exact ⟨.req { rpcId := id, initialGrant := grant, assetId := Unicode.utf8 cs }, hid, hgrant, cs, rfl,
        (Unicode.utf16Decode_eq_some_iff.mp hcs)⟩
  | data q =>
    obtain ⟨hsize, h⟩ := Wire.Ts.check_bind_eq_ok_iff.mp h
    obtain ⟨hoffset, -⟩ := Wire.Ts.check_bind_eq_ok_iff.mp h
    obtain ⟨size, hsize⟩ := exists_uint32 hsize
    obtain ⟨offset, hoffset⟩ := exists_uint32 hoffset
    exact ⟨.data { rpcId := id, totalSize := size, offset := offset, payload := q.payload }, hid, hsize, hoffset, rfl⟩
  | grant q =>
    obtain ⟨hoffset, h⟩ := Wire.Ts.check_bind_eq_ok_iff.mp h
    obtain ⟨hpriority, -⟩ := Wire.Ts.check_bind_eq_ok_iff.mp h
    obtain ⟨offset, hoffset⟩ := exists_uint32 hoffset
    obtain ⟨priority, hpriority⟩ := exists_uint8 hpriority
    exact ⟨.grant { rpcId := id, maxOffset := offset, priority := priority }, hid, hoffset, hpriority⟩
  | resend q =>
    obtain ⟨hstart, h⟩ := Wire.Ts.check_bind_eq_ok_iff.mp h
    obtain ⟨hstop, -⟩ := Wire.Ts.check_bind_eq_ok_iff.mp h
    obtain ⟨start, hstart⟩ := exists_uint32 hstart
    obtain ⟨stop, hstop⟩ := exists_uint32 hstop
    exact ⟨.resend { rpcId := id, start := start, stop := stop }, hid, hstart, hstop⟩
  | error q =>
    obtain ⟨hcode, -⟩ := Wire.Ts.check_bind_eq_ok_iff.mp h
    obtain ⟨code, hcode⟩ := exists_uint8 hcode
    exact ⟨.error { rpcId := id, code := code }, hid, hcode⟩
  | metaData q =>
    obtain ⟨hfields, -⟩ := Wire.Ts.check_bind_eq_ok_iff.mp h
    obtain ⟨fs, hfs⟩ := exists_sameFields hfields
    exact ⟨.metaData { rpcId := id, fields := fs }, hid, hfs⟩
  | hello q =>
    obtain ⟨hcaps, -⟩ := Wire.Ts.check_bind_eq_ok_iff.mp h
    obtain ⟨caps, hcaps⟩ := exists_uint32 hcaps
    exact ⟨.hello { rpcId := id, caps := caps }, hid, hcaps⟩
  | dataSeq q =>
    obtain ⟨hsize, h⟩ := Wire.Ts.check_bind_eq_ok_iff.mp h
    obtain ⟨hoffset, h⟩ := Wire.Ts.check_bind_eq_ok_iff.mp h
    obtain ⟨hseq, -⟩ := Wire.Ts.check_bind_eq_ok_iff.mp h
    obtain ⟨size, hsize⟩ := exists_uint32 hsize
    obtain ⟨offset, hoffset⟩ := exists_uint32 hoffset
    obtain ⟨seq, hseq⟩ := exists_uint32 hseq
    exact ⟨.dataSeq { rpcId := id, totalSize := size, offset := offset, payload := q.payload, seq := seq },
      hid, hsize, hoffset, rfl, hseq⟩
  | resendSeq q =>
    obtain ⟨hstart, h⟩ := Wire.Ts.check_bind_eq_ok_iff.mp h
    obtain ⟨hstop, -⟩ := Wire.Ts.check_bind_eq_ok_iff.mp h
    obtain ⟨start, hstart⟩ := exists_uint32 hstart
    obtain ⟨stop, hstop⟩ := exists_uint32 hstop
    exact ⟨.resendSeq { rpcId := id, start := start, stop := stop }, hid, hstart, hstop⟩

/-- **What `encode` writes, Go decodes** to the same packet. -/
theorem exists_decode_of_encode {q : Wire.Ts.Packet} {b : Bytes} (h : Wire.Ts.encode q = .ok b) :
    ∃ p, Same p q ∧ Wire.Go.decode b = .ok p := by
  obtain ⟨p, hp⟩ := exists_same h
  exact ⟨p, hp, Wire.Go.decode_eq_ok_iff.mpr ((Wire.Ts.encode_eq_ok_iff hp).mp h)⟩

/-! ## The client's packets -/

section Client

variable {p : Outgoing} {b : Bytes}

/-- The packet a datagram of the client carries, in both languages. -/
theorem exists_decode (h : p.encode = some b) :
    ∃ q g, p.packet = some q ∧ Same g q ∧ Wire.Go.decode b = .ok g := by
  rw [Outgoing.encode, Option.bind_eq_bind, Option.bind_eq_some_iff] at h
  obtain ⟨q, hq, h⟩ := h
  have hok : Wire.Ts.encode q = .ok b := by
    cases hencode : Wire.Ts.encode q with
    | error e => rw [hencode] at h; cases h
    | ok b' => rw [hencode] at h; rw [Option.some.inj h]
  obtain ⟨g, hsame, hdecode⟩ := exists_decode_of_encode hok
  exact ⟨q, g, hq, hsame, hdecode⟩

/-- A REQ that the server reads is one that the client handed over. -/
theorem exists_req (h : p.encode = some b) {q : Wire.Req} (hdecode : Wire.Go.decode b = .ok (.req q)) :
    ∃ assetId, p = .req q.rpcId.toNat q.initialGrant.toNat assetId ∧ SameText q.assetId assetId := by
  obtain ⟨q', g, hq', hsame, hg⟩ := exists_decode h
  obtain rfl := Except.ok.inj (hg.symm.trans hdecode)
  cases q' with
  | req r =>
    obtain ⟨hid, hgrant, htext⟩ := hsame
    cases p with
    | req rpcId initialGrant assetId =>
      rw [Outgoing.packet, Option.bind_eq_bind, Option.bind_eq_some_iff] at hq'
      obtain ⟨n, hn, hq'⟩ := hq'
      cases hq'
      have hn' := Outgoing.eq_of_asInteger hn
      simp only at hid hgrant htext
      exact ⟨assetId, by rw [hid, ← hn', hgrant]; norm_cast, htext⟩
    | grant | resend =>
      simp [Outgoing.packet, Option.bind_eq_some_iff] at hq'
    | hello | resendSeq => cases hq'
  | data | grant | resend | error | metaData | hello | dataSeq | resendSeq => exact hsame.elim

theorem grantOf_of_decode {g : Packet} (hdecode : Wire.Go.decode b = .ok g) (id : UInt64) :
    grantOf id b = grantIn id g := by
  rw [grantOf, hdecode]

/-- The grant the server reads in a datagram is the one of the packet. -/
theorem exists_authority (h : p.encode = some b) {id : UInt64} (hpos : 0 < grantOf id b) :
    p.authority id.toNat = some (grantOf id b : ℚ) := by
  obtain ⟨q', g, hq', hsame, hdecode⟩ := exists_decode h
  rw [grantOf_of_decode hdecode] at hpos ⊢
  cases g with
  | req q =>
    obtain ⟨assetId, rfl, -⟩ := exists_req h hdecode
    by_cases hid : q.rpcId = id
    swap
    · rw [grantIn, if_neg hid] at hpos
      exact absurd hpos (lt_irrefl 0)
    rw [grantIn, if_pos hid, Outgoing.authority, if_pos (by rw [hid])]
  | grant q =>
    by_cases hid : q.rpcId = id
    swap
    · rw [grantIn, if_neg hid] at hpos
      exact absurd hpos (lt_irrefl 0)
    rw [grantIn, if_pos hid]
    cases q' with
    | grant r =>
      obtain ⟨hrpcId, hoffset, -⟩ := hsame
      cases p with
      | grant rpcId maxOffset priority =>
        rw [Outgoing.packet, Option.bind_eq_bind, Option.bind_eq_some_iff] at hq'
        obtain ⟨n, hn, hq'⟩ := hq'
        cases hq'
        simp only at hrpcId hoffset
        rw [Outgoing.authority, if_pos (by rw [hrpcId, hid]), ← Outgoing.eq_of_asInteger hn, hoffset, Int.cast_natCast]
      | req | resend => simp [Outgoing.packet, Option.bind_eq_some_iff] at hq'
      | hello | resendSeq => cases hq'
    | req | data | resend | error | metaData | hello | dataSeq | resendSeq => exact hsame.elim
  | data | resend | error | metaData | hello | dataSeq | resendSeq => exact absurd hpos (lt_irrefl 0)

end Client

/-! ## The server's packets -/

section Server

variable {b : Bytes}

/-- A packet the client reads is one that Go reads too. -/
theorem exists_decode_of_packetIn {q : Wire.Ts.Packet} (h : packetIn b = some q) :
    ∃ g, Wire.Go.decode b = .ok g ∧ Wire.Ts.ofGo g = q := by
  rw [packetIn] at h
  cases hdecode : Wire.Ts.decode b with
  | error e => rw [hdecode] at h; cases h
  | ok q' =>
    rw [hdecode] at h
    obtain rfl := Option.some.inj h
    exact Wire.Ts.decode_eq_ok_iff.mp hdecode

/-- META as the client reads it. -/
theorem exists_metaData {m : Wire.Ts.Meta} (h : packetIn b = some (.metaData m)) :
    ∃ m' : Wire.Meta, Wire.Go.decode b = .ok (.metaData m') ∧ m.rpcId = m'.rpcId.toNat ∧
      m.fields = m'.fields.map Wire.Ts.ofField := by
  obtain ⟨g, hdecode, hg⟩ := exists_decode_of_packetIn h
  cases g <;> cases hg
  exact ⟨_, hdecode, rfl, rfl⟩

/-- DATA as the client reads it. -/
theorem exists_dataIn {d : Wire.Ts.Data} (h : Carried (packetIn b) d) :
    ∃ g d', Wire.Go.decode b = .ok g ∧ dataIn g = some d' ∧ d.rpcId = d'.rpcId.toNat ∧
      d.totalSize = d'.totalSize.toNat ∧ d.offset = d'.offset.toNat ∧ d.payload = d'.payload := by
  rcases h with h | ⟨t, h, rfl⟩
  · obtain ⟨g, hdecode, hg⟩ := exists_decode_of_packetIn h
    cases g <;> cases hg
    exact ⟨_, _, hdecode, rfl, rfl, rfl, rfl, rfl⟩
  · obtain ⟨g, hdecode, hg⟩ := exists_decode_of_packetIn h
    cases g <;> cases hg
    exact ⟨_, _, hdecode, rfl, rfl, rfl, rfl, rfl⟩

end Server

end Http4.System
