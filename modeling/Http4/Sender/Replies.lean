import Http4.Sender.Grants
import Http4.Wire.GoRoundTrip

/-!
# Where replies come from

An RPC is made by a REQ, for the asset that `Assets.Get` returned for it, and what is
sent for the RPC is the META of that asset and slices of its body within the grants the
client made. So a session that has got certain datagrams cannot have sent every packet.

Main results:

* `sourced_of_run`: every packet handed over is an ERROR, or the META or a granted slice
  of an asset the client asked for.
* `CanReply.metaData`, `CanReply.data`: the datagrams without which META and DATA cannot
  have been sent.
-/

namespace Http4.Sender

open Wire (Packet)

/-! ## Assets asked for -/

/-- `Assets.Get` returns only an asset that `A` allows for the asset ID. -/
def Act.Serves (A : Bytes → Asset → Prop) : Act → Prop
  | .receive b _ (.found a) => ∀ q, Wire.Go.decode b = .ok (.req q) → A q.assetId a
  | _ => True

/-- A REQ for the asset is among the datagrams. -/
def Asked (A : Bytes → Asset → Prop) (offered : List Bytes) (id : UInt64) (a : Asset) : Prop :=
  ∃ b ∈ offered, ∃ q, Wire.Go.decode b = .ok (.req q) ∧ q.rpcId = id ∧ A q.assetId a

/-- What holds of a packet that is handed over. -/
inductive Sourced (A : Bytes → Asset → Prop) (offered : List Bytes) (pkt : Packet) : Prop
  | error (e : Wire.ErrorPacket) (hpkt : pkt = .error e)
  | metaData (id : UInt64) (a : Asset) (hpkt : pkt = .metaData (a.metaData id))
      (hasked : Asked A offered id a)
  | data (d : Wire.Data) (a : Asset) (hpkt : dataIn pkt = some d) (hasked : Asked A offered d.rpcId a)
      (hsize : d.totalSize.toNat = u32 a.body.length)
      (hpayload : d.payload = Bytes.sub a.body d.offset.toNat (d.offset.toNat + d.payload.length))
      (hle : d.offset.toNat + d.payload.length ≤ u32 a.body.length)
      (hgrant : d.offset.toNat + d.payload.length ≤ highestGrant d.rpcId offered)

/-- What an RPC was made for. -/
structure Rpc.MadeFor (r : Rpc) (A : Bytes → Asset → Prop) (offered : List Bytes) (a : Asset) : Prop where
  asked : Asked A offered r.id a
  asset : r.asset = a.body
  metaData : r.metaData = a.metaData r.id
  size : r.size = u32 a.body.length

section Sourced

variable {A : Bytes → Asset → Prop} {offered : List Bytes} {cfg : Config} {s s' : Sys}

theorem Asked.append {id : UInt64} {a : Asset} (h : Asked A offered id a) (more : List Bytes) :
    Asked A (offered ++ more) id a := by
  obtain ⟨b, hb, hreq⟩ := h
  exact ⟨b, List.mem_append_left _ hb, hreq⟩

theorem Sourced.append {pkt : Packet} (h : Sourced A offered pkt) (more : List Bytes) :
    Sourced A (offered ++ more) pkt := by
  cases h with
  | error e hpkt => exact .error e hpkt
  | metaData id a hpkt hasked => exact .metaData id a hpkt (hasked.append more)
  | data d a hpkt hasked hsize hpayload hle hgrant =>
    exact .data d a hpkt (hasked.append more) hsize hpayload hle
      (hgrant.trans (highestGrant_append d.rpcId offered more))

theorem Rpc.MadeFor.append {r : Rpc} {a : Asset} (h : r.MadeFor A offered a) (more : List Bytes) :
    r.MadeFor A (offered ++ more) a :=
  ⟨h.asked.append more, h.asset, h.metaData, h.size⟩

theorem Rpc.MadeFor.sameSend {r r' : Rpc} {a : Asset} (h : r.MadeFor A offered a) (hs : r.SameSend r') :
    r'.MadeFor A offered a :=
  ⟨by rw [hs.id]; exact h.asked, hs.asset.trans h.asset, by rw [hs.metaData, hs.id]; exact h.metaData,
    hs.size.trans h.size⟩

/-! ## Every step -/

/-- Every RPC was made for an asset asked for, and every packet handed over has its source. -/
structure SourcedSoFar (A : Bytes → Asset → Prop) (s : Sys) : Prop where
  rpcs : ∀ (p : ℕ) (r : Rpc), s.session.heap[p]? = some r → ∃ a, r.MadeFor A s.offered a
  handed : ∀ h ∈ s.handed, Sourced A s.offered h.packet

/-- A packet of work has its source, if the RPC it is for has. -/
theorem sourced_out (hinv : Inv cfg s.session) (hmade : GrantsMade s) (h : SourcedSoFar A s) {w : Work}
    (hdoing : Doing s.session w) : Sourced A s.offered (s.session.out w) := by
  have hdata := hinv.dataIn_out hdoing
  cases hdoing with
  | reply rest hpending hr hkind hseq =>
    obtain ⟨e, he⟩ := hinv.pending w.pkt (by rw [hpending]; exact List.mem_cons_self)
    exact .error e (by simp only [Session.out, data?_eq_none_of_pending hinv hpending, he])
  | data p r hp hr hw hseq =>
    obtain ⟨a, hasked, hasset, hmeta, hsize⟩ := h.rpcs p r hr
    cases hd : w.data? with
    | none =>
      cases hw with
      | metaData hkind hpkt hlo hhi =>
        exact .metaData r.id a (by simp only [Session.out, hd, hpkt, hmeta]) hasked
      | packet0 d _ _ hpkt | resend d _ _ _ _ hpkt | new d _ _ hpkt | tailDup d _ _ _ hpkt =>
        rw [data?_of_pkt hpkt] at hd
        cases hd
    | some d =>
      have hok := hinv.rpc p r hr
      obtain ⟨hc, hle⟩ := hw.carries hok hd
      have hgranted := hok.granted_le
      have hmade := hmade p r hr
      refine .data d a (hdata.trans hd) (hc.rpcId ▸ hasked) (hc.totalSize.trans hsize) ?_ ?_ ?_
      · rw [hc.offset, hc.length, ← hasset]
        exact hc.payload
      · rw [hc.offset, hc.length, ← hsize]
        omega
      · rw [hc.offset, hc.length, hc.rpcId]
        omega

theorem SourcedSoFar.step {act : Act} (hinv : Inv cfg s.session) (hmade : GrantsMade s) (h : SourcedSoFar A s)
    (hserves : act.Serves A) (heff : Effect cfg s act s') : SourcedSoFar A s' := by
  cases heff with
  | offer b =>
    refine ⟨fun p r hr => ?_, fun g hg => (h.handed g hg).append [b]⟩
    obtain ⟨a, ha⟩ := h.rpcs p r hr
    exact ⟨a, ha.append [b]⟩
  | packet b now got pkt m hb hdecode hm =>
    have hmap : MapOk { s.session with metrics := m } := ⟨hinv.map.mem, hinv.map.nodup⟩
    refine ⟨fun p r' hr' => ?_, h.handed⟩
    rcases heap_handle hmap hr' with ⟨r, hr, ht⟩ | ⟨-, q, a, rfl, rfl, -, rfl⟩
    · obtain ⟨a, ha⟩ := h.rpcs p r hr
      exact ⟨a, ha.sameSend ht.sameSend⟩
    · exact ⟨a, ⟨b, hb, q, hdecode, rfl, hserves q hdecode⟩, rfl, rfl, rfl⟩
  | sent w o m hphase ho hm =>
    refine ⟨h.rpcs, List.forall_mem_append.mpr ⟨h.handed, ?_⟩⟩
    rw [List.forall_mem_singleton]
    exact sourced_out hinv hmade h (hinv.work w (by rw [Session.busy, hphase]))
  | record w seq p r r' m hphase hp hr hw hrec hseq hm =>
    refine ⟨fun q t ht => ?_, h.handed⟩
    rcases heap_set_of ht with ⟨-, rfl⟩ | ht
    · obtain ⟨a, hasked, hasset, hmeta, hsize⟩ := h.rpcs p r hr
      exact ⟨a, by rw [hrec.id]; exact hasked, hrec.asset.trans hasset,
        by rw [hrec.metaData, hrec.id]; exact hmeta, hrec.size.trans hsize⟩
    · exact h.rpcs q t ht
  | malformed | nothing | pick | hold | check | refused | ended | recordReply | evictIdle =>
    exact ⟨h.rpcs, h.handed⟩

/-- **Every packet handed over has its source**, in every run in which `Assets.Get` returns
    what `A` allows. -/
theorem sourced_of_run {acts : List Act} (hserves : ∀ act ∈ acts, act.Serves A)
    (hrun : Machine.run (Sys.step cfg) (Sys.init cfg) acts = some s) :
    ∀ h ∈ s.handed, Sourced A s.offered h.packet := by
  let P (s : Sys) : Prop := Inv cfg s.session ∧ GrantsMade s ∧ SourcedSoFar A s
  have hP : P s := by
    refine Machine.run_while (P := P) (fun s act s' hact hs hstep => ?_) hserves ?_ hrun
    · obtain ⟨hinv, hmade, hsourced⟩ := hs
      have heff := hinv.effect hstep
      exact ⟨hinv.step hstep, hmade.step hinv heff, hsourced.step hinv hmade hact heff⟩
    · exact ⟨inv_init, by simp [GrantsMade, Sys.init, Session.init],
        by simp [Sys.init, Session.init], by simp [Sys.init]⟩
  exact hP.2.2.handed

end Sourced

/-! ## What a session can have sent -/

/-- A session that gets no other datagrams than those of `D` can hand over the datagram `b`. -/
def CanReply (cfg : Config) (D : Set Bytes) (b : Bytes) : Prop :=
  ∃ acts s, Machine.run (Sys.step cfg) (Sys.init cfg) acts = some s ∧ (∀ d ∈ s.offered, d ∈ D) ∧
    ∃ h ∈ s.handed, Wire.Go.marshal h.packet = .ok b

section CanReply

variable {cfg : Config} {D : Set Bytes} {b : Bytes}

theorem CanReply.mono {D' : Set Bytes} (h : CanReply cfg D b) (hle : D ⊆ D') : CanReply cfg D' b := by
  obtain ⟨acts, s, hrun, hoffered, hb⟩ := h
  exact ⟨acts, s, hrun, fun d hd => hle (hoffered d hd), hb⟩

theorem metaLoop_rpcId (id : UInt64) (fields : List Wire.Field) (n : ℕ) : (metaLoop id fields n).rpcId = id := by
  induction n with
  | zero => rfl
  | succ n ih =>
    rw [metaLoop]
    split_ifs
    · rfl
    · exact ih

theorem Asset.metaData_rpcId (a : Asset) (id : UInt64) : (a.metaData id).rpcId = id := metaLoop_rpcId ..

/-- What marshals to a datagram is what the datagram decodes to. -/
theorem marshal_eq_ok_iff_decode {pkt : Packet} :
    Wire.Go.marshal pkt = .ok b ↔ Wire.Go.decode b = .ok pkt :=
  Wire.Go.marshal_eq_ok_iff.trans Wire.Go.decode_eq_ok_iff.symm

theorem CanReply.sourced (h : CanReply cfg D b) {pkt : Packet} (hdecode : Wire.Go.decode b = .ok pkt) :
    ∃ offered : List Bytes, (∀ d ∈ offered, d ∈ D) ∧ Sourced (fun _ _ => True) offered pkt := by
  obtain ⟨acts, s, hrun, hoffered, g, hg, hmarshal⟩ := h
  obtain rfl := Except.ok.inj ((marshal_eq_ok_iff_decode.mp hmarshal).symm.trans hdecode)
  refine ⟨s.offered, hoffered, sourced_of_run (fun act _ => ?_) hrun g hg⟩
  cases act with
  | receive b now got =>
    cases got with
    | found a => exact fun _ _ => trivial
    | notFound | failed => trivial
  | offer | pick | hold | check | handOver | record | evictIdle => trivial

/-- META is sent for an RPC that a REQ asked for. -/
theorem CanReply.metaData (h : CanReply cfg D b) {m : Wire.Meta} (hdecode : Wire.Go.decode b = .ok (.metaData m)) :
    ∃ d ∈ D, ∃ q, Wire.Go.decode d = .ok (.req q) ∧ q.rpcId = m.rpcId := by
  obtain ⟨offered, hD, hsourced⟩ := h.sourced hdecode
  cases hsourced with
  | error e hpkt => cases hpkt
  | metaData id a hpkt hasked =>
    obtain rfl := Packet.metaData.inj hpkt
    obtain ⟨d, hd, q, hq, hid, -⟩ := hasked
    exact ⟨d, hD d hd, q, hq, hid.trans (a.metaData_rpcId id).symm⟩
  | data d a hpkt => cases hpkt

/-- The highest grant was made in a datagram. -/
theorem exists_grantOf {id : UInt64} {offered : List Bytes} (h : 0 < highestGrant id offered) :
    ∃ b ∈ offered, grantOf id b = highestGrant id offered := by
  induction offered with
  | nil => exact absurd h (lt_irrefl 0)
  | cons b offered ih =>
    have hcons : highestGrant id (b :: offered) = max (grantOf id b) (highestGrant id offered) := rfl
    rw [hcons] at h ⊢
    rcases le_total (highestGrant id offered) (grantOf id b) with hle | hle
    · exact ⟨b, List.mem_cons_self, (max_eq_left hle).symm⟩
    · rw [max_eq_right hle] at h ⊢
      obtain ⟨b', hb', heq⟩ := ih h
      exact ⟨b', List.mem_cons_of_mem _ hb', heq⟩

/-- DATA is sent for an RPC that a REQ asked for, and its last byte was granted. -/
theorem CanReply.data (h : CanReply cfg D b) {pkt : Packet} {d : Wire.Data}
    (hdecode : Wire.Go.decode b = .ok pkt) (hdata : dataIn pkt = some d) :
    (∃ b' ∈ D, ∃ q, Wire.Go.decode b' = .ok (.req q) ∧ q.rpcId = d.rpcId) ∧
      (0 < d.offset.toNat + d.payload.length →
        ∃ b' ∈ D, d.offset.toNat + d.payload.length ≤ grantOf d.rpcId b') := by
  obtain ⟨offered, hD, hsourced⟩ := h.sourced hdecode
  cases hsourced with
  | error e hpkt => rw [hpkt] at hdata; cases hdata
  | metaData id a hpkt hasked => rw [hpkt] at hdata; cases hdata
  | data d' a hpkt hasked hsize hpayload hle hgrant =>
    obtain rfl := Option.some.inj (hpkt.symm.trans hdata)
    obtain ⟨b', hb', q, hq, hid, -⟩ := hasked
    refine ⟨⟨b', hD b' hb', q, hq, hid⟩, fun hpos => ?_⟩
    obtain ⟨b'', hb'', heq⟩ := exists_grantOf (hpos.trans_le hgrant)
    exact ⟨b'', hD b'' hb'', hgrant.trans heq.ge⟩

end CanReply

end Http4.Sender
