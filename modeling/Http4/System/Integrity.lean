import Http4.Client.Outcomes
import Http4.System.World

/-!
# End-to-end integrity

A client and a session over a network that loses, duplicates, delays and reorders
datagrams, with asset contents that stay as they are. Every reply carries META or a slice
of the asset that the transfer of its rpc_id asked for, so what the client delivers is
that asset.

Main results:

* `World.honest`: every datagram that can reach the client is honest.
* `World.integrity`: what a transfer was settled with and what its stream was given.
* `World.delivered_or_failed`: the same, and how a transfer ends.
-/

namespace Http4.System

open Wire (Packet)
open Wire.Ts (JsString SameText)
open Client
open Client.Http4Client (Carried Honest Intact Named)
open Sender

/-! ## Contents that stay as they are -/

/-- An asset ID has one asset, and `total_size` can hold its length. -/
structure Fixed (A : Bytes → Asset → Prop) : Prop where
  unique : ∀ path a a', A path a → A path a' → a = a'
  size : ∀ path a, A path a → a.body.length < 2 ^ 32

/-- What a client sees of an asset: its body, and the fields of its META. -/
def content (a : Asset) (id : ℤ) : Content :=
  { body := a.body, headers := (a.metaData (UInt64.ofNat id.toNat)).fields.map Wire.Ts.ofField }

/-- The contents of the asset that a client calls `assetId`. -/
def contentsOf (A : Bytes → Asset → Prop) (id : ℤ) (assetId : JsString) : Set Content :=
  {x | ∃ path a, SameText path assetId ∧ A path a ∧ x = content a id}

section Fixed

variable {A : Bytes → Asset → Prop}

theorem sameText_injective {p q : Bytes} {u : JsString} (hp : SameText p u) (hq : SameText q u) : p = q := by
  obtain ⟨cs, rfl, rfl⟩ := hp
  obtain ⟨cs', rfl, heq⟩ := hq
  rw [Unicode.utf16_injective heq]

theorem Fixed.subsingleton (h : Fixed A) (id : ℤ) (assetId : JsString) : (contentsOf A id assetId).Subsingleton := by
  rintro x ⟨path, a, hpath, ha, rfl⟩ y ⟨path', a', hpath', ha', rfl⟩
  obtain rfl := sameText_injective hpath hpath'
  rw [h.unique path a a' ha ha']

end Fixed

namespace World

variable {cfg : Config} {opts : ClientOptions} {maxDatagramSize : ℕ} {w w' : World} {A : Bytes → Asset → Prop}

/-! ## Replies -/

/-- Every reply is a packet that the session handed over. -/
theorem exists_handed (h : Machine.Reachable (step cfg) (init opts maxDatagramSize cfg) w) :
    ∀ r ∈ w.replies, ∃ g ∈ w.server.handed, Wire.Go.marshal g.packet = .ok r.bytes := by
  let P (w : World) : Prop := Machine.Reachable (step cfg) (init opts maxDatagramSize cfg) w ∧
    ∀ r ∈ w.replies, ∃ g ∈ w.server.handed, Wire.Go.marshal g.packet = .ok r.bytes
  obtain ⟨acts, hrun⟩ := h
  refine (Machine.run_invariant (P := P) (fun w a w' ⟨hw, hreplies⟩ hstep => ⟨hw.next hstep, ?_⟩)
    ⟨⟨[], rfl⟩, fun r hr => by cases hr⟩ hrun).2
  have hs := server_reachable hw
  cases effect_of_step hstep with
  | client => exact hreplies
  | deliver b now got s s' hb hoffer hreceive =>
    have hs' := hs.next hoffer
    obtain rfl := Option.some.inj hoffer
    obtain ⟨⟨more, hmore⟩, -⟩ := frame_step hs' hreceive
    intro r hr
    obtain ⟨g, hg, hmarshal⟩ := hreplies r hr
    refine ⟨g, ?_, hmarshal⟩
    show g ∈ s'.handed
    rw [hmore]
    exact List.mem_append_left _ hg
  | server a s hown hs' =>
    obtain ⟨⟨more, hmore⟩, -⟩ := frame_step hs hs'
    refine List.forall_mem_append.mpr ⟨fun r hr => ?_, fun r hr => ?_⟩
    · obtain ⟨g, hg, hmarshal⟩ := hreplies r hr
      refine ⟨g, ?_, hmarshal⟩
      show g ∈ s.handed
      rw [hmore]
      exact List.mem_append_left _ hg
    · obtain ⟨g, hg, hr⟩ := List.mem_filterMap.mp hr
      split_ifs at hr
      obtain ⟨bytes, hbytes, rfl⟩ := Option.map_eq_some_iff.mp hr
      refine ⟨g, List.mem_of_mem_drop hg, ?_⟩
      show Wire.Go.marshal g.packet = .ok bytes
      cases hmarshal : Wire.Go.marshal g.packet with
      | error e => rw [hmarshal] at hbytes; cases hbytes
      | ok b => rw [hmarshal] at hbytes; rw [Option.some.inj hbytes]

/-- **Every reply has its source** among the REQs that the client sent. -/
theorem sourced {acts : List WorldAct} (hserves : ∀ a ∈ acts, a.Serves A)
    (hrun : Machine.run (step cfg) (init opts maxDatagramSize cfg) acts = some w) {r : Reply} (hr : r ∈ w.replies)
    {pkt : Packet} (hdecode : Wire.Go.decode r.bytes = .ok pkt) : Sourced A w.server.offered pkt := by
  obtain ⟨g, hg, hmarshal⟩ := exists_handed ⟨acts, hrun⟩ r hr
  obtain rfl := Except.ok.inj ((marshal_eq_ok_iff_decode.mp hmarshal).symm.trans hdecode)
  obtain ⟨bs, hbs, hall⟩ := exists_server_run hserves hrun
  exact sourced_of_run hall hbs g hg

/-- An asset asked for is that of the transfer with the rpc_id. -/
theorem exists_transfer (hw : Machine.Reachable (step cfg) (init opts maxDatagramSize cfg) w)
    (hnamed : Named w.client) {id : UInt64} {a : Asset} (h : Asked A w.server.offered id a) :
    ∃ t, w.client.objects.get? (id.toNat : ℤ) = some t ∧
      content a id.toNat ∈ contentsOf A id.toNat t.assetId := by
  obtain ⟨b, hb, q, hdecode, rfl, ha⟩ := h
  obtain ⟨p, hp, hencode⟩ := List.mem_filterMap.mp ((linked_reachable hw).offered b hb)
  obtain ⟨assetId, rfl, htext⟩ := exists_req hencode hdecode
  obtain ⟨t, ht, rfl, -⟩ := hnamed _ _ _ hp
  exact ⟨t, ht, q.assetId, a, htext, ha, rfl⟩

/-- **Every datagram that can reach the client is honest.** -/
theorem honest (hA : Fixed A) {acts : List WorldAct} (hserves : ∀ a ∈ acts, a.Serves A)
    (hrun : Machine.run (step cfg) (init opts maxDatagramSize cfg) acts = some w) (hnamed : Named w.client)
    {r : Reply} (hr : r ∈ w.replies) : Honest (contentsOf A) w.client (packetIn r.bytes) := by
  have hw : Machine.Reachable (step cfg) (init opts maxDatagramSize cfg) w := ⟨acts, hrun⟩
  refine ⟨fun d hd => ?_, fun m hm => ?_⟩
  · obtain ⟨g, d', hdecode, hdata, hid, hsize, hoffset, hpayload⟩ := exists_dataIn hd
    cases sourced hserves hrun hr hdecode with
    | error e hpkt => rw [hpkt] at hdata; cases hdata
    | metaData id a hpkt => rw [hpkt] at hdata; cases hdata
    | data d₁ a hpkt hasked hlen hcut hle hgrant =>
      obtain rfl := Option.some.inj (hpkt.symm.trans hdata)
      obtain ⟨t, ht, hmem⟩ := exists_transfer hw hnamed hasked
      have hlt : a.body.length < 2 ^ 32 := by
        obtain ⟨path, a', -, ha', hcontent⟩ := hmem
        rw [show a.body = a'.body from congrArg Content.body hcontent]
        exact hA.size path a' ha'
      rw [hid]
      refine ⟨t, ht, content a d₁.rpcId.toNat, hmem, ?_, ?_⟩
      · show d.totalSize = (a.body.length : ℤ)
        rw [hsize, hlen]
        unfold u32
        rw [Nat.mod_eq_of_lt hlt]
      · show d.payload = Bytes.sub a.body d.offset.toNat (d.offset.toNat + d.payload.length)
        rw [hoffset, hpayload]
        exact hcut
  · obtain ⟨m', hdecode, hid, hfields⟩ := exists_metaData hm
    cases sourced hserves hrun hr hdecode with
    | error e hpkt => cases hpkt
    | data d a hpkt => cases hpkt
    | metaData id a hpkt hasked =>
      obtain rfl := Packet.metaData.inj hpkt
      rw [Asset.metaData_rpcId] at hid
      obtain ⟨t, ht, hmem⟩ := exists_transfer hw hnamed hasked
      refine ⟨t, hid ▸ ht, content a id.toNat, hid ▸ hmem, ?_⟩
      rw [hfields]
      unfold content
      rw [Int.toNat_natCast, UInt64.ofNat_toNat]

/-! ## Runs -/

/-- In every run in which the contents stay as they are the client is intact. -/
theorem intact (hA : Fixed A) {acts : List WorldAct} (hserves : ∀ a ∈ acts, a.Serves A)
    (hrun : Machine.run (step cfg) (init opts maxDatagramSize cfg) acts = some w) :
    Intact (contentsOf A) w.client := by
  let P (w : World) : Prop := (∃ as, (∀ a ∈ as, a.Serves A) ∧
    Machine.run (step cfg) (init opts maxDatagramSize cfg) as = some w) ∧ Intact (contentsOf A) w.client
  have hP : P w := by
    refine Machine.run_while (P := P) (fun w a w' ha ⟨⟨as, has, hw⟩, hintact⟩ hstep => ?_) hserves
      ⟨⟨[], by simp, rfl⟩, Http4Client.intact_connect hA.subsingleton opts maxDatagramSize⟩ hrun
    refine ⟨⟨as ++ [a], List.forall_mem_append.mpr ⟨has, List.forall_mem_singleton.mpr ha⟩,
      Machine.run_concat_iff.mpr ⟨w, hw, hstep⟩⟩, ?_⟩
    cases effect_of_step hstep with
    | client e c hc hbrings =>
      refine hintact.step hA.subsingleton ?_ hc
      cases hevent : e.event with
      | datagram b alloc =>
        obtain ⟨r, hr, rfl⟩ := hbrings b alloc hevent
        exact honest hA has hw hintact.named hr
      | request | readDone | readRejected | tick | streamStarted | read | pullSettled | cancel | close
      | sessionEnded => exact Http4Client.honest_none
    | deliver | server => exact hintact
  exact hP.2

/-- What the caller of a transfer may have been given, of the assets `A`. -/
structure Genuine (A : Bytes → Asset → Prop) (id : ℤ) (t : Transfer) : Prop where
  /-- The promise is settled once at most. -/
  once : t.settlements.length ≤ 1
  /-- A response has the body of the asset, and the fields of its META. -/
  response : ∀ body headers, .response body headers ∈ t.settlements →
    ∃ path a, SameText path t.assetId ∧ A path a ∧ body = a.body ∧ headers = (content a id).headers
  /-- So has the response that a stream comes with. -/
  stream : ∀ size headers, .stream size headers ∈ t.settlements →
    ∃ path a, SameText path t.assetId ∧ A path a ∧ size = a.body.length ∧ headers = (content a id).headers
  /-- The chunks of a stream are a prefix of the body. -/
  chunks : ∀ st, t.stream = some st → st.chunks.flatten ≠ [] →
    ∃ path a, SameText path t.assetId ∧ A path a ∧ st.chunks.flatten <+: a.body
  /-- A stream is closed cleanly only with all of it. -/
  closed : ∀ st, t.stream = some st → st.body.closeRequested = true →
    ∃ path a, SameText path t.assetId ∧ A path a ∧ st.chunks.flatten = a.body

theorem genuine (hA : Fixed A) {acts : List WorldAct} (hserves : ∀ a ∈ acts, a.Serves A)
    (hrun : Machine.run (step cfg) (init opts maxDatagramSize cfg) acts = some w) {id : ℤ} {t : Transfer}
    (ht : w.client.objects.get? id = some t) : Genuine A id t := by
  have h := (intact hA hserves hrun).faithful id t ht
  refine ⟨?_, fun body headers hmem => ?_, fun size headers hmem => ?_, fun st hst hne => ?_, fun st hst hclose => ?_⟩
  · rw [h.once]
    split_ifs <;> omega
  · obtain ⟨x, ⟨path, a, hpath, ha, rfl⟩, hbody, hheaders⟩ := h.settlements _ hmem
    exact ⟨path, a, hpath, ha, hbody, hheaders⟩
  · obtain ⟨x, ⟨path, a, hpath, ha, rfl⟩, hsize, hheaders⟩ := h.settlements _ hmem
    exact ⟨path, a, hpath, ha, hsize, hheaders⟩
  · rcases h.stream st hst with ⟨hchunks, -⟩ | ⟨x, ⟨path, a, hpath, ha, rfl⟩, hgives⟩
    · rw [hchunks] at hne
      exact absurd rfl hne
    · exact ⟨path, a, hpath, ha, hgives.isPrefix⟩
  · rcases h.stream st hst with ⟨-, hno, -⟩ | ⟨x, ⟨path, a, hpath, ha, rfl⟩, hgives⟩
    · rw [hno] at hclose
      cases hclose
    · exact ⟨path, a, hpath, ha, hgives.whole hclose⟩

/-- **End-to-end integrity.** In every run in which the contents stay as they are, of every
    transfer:

    * its promise is settled once at most;
    * a response has the body of the asset, and the fields of its META as headers;
    * so has the response that a stream comes with, and its size is that of the body;
    * the chunks of a stream are at every moment a prefix of the body, and it is closed
      cleanly only with all of it. -/
theorem integrity (hA : Fixed A) {acts : List WorldAct} (hserves : ∀ a ∈ acts, a.Serves A)
    (hrun : Machine.run (step cfg) (init opts maxDatagramSize cfg) acts = some w) {id : ℤ} {t : Transfer}
    (ht : w.client.objects.get? id = some t) :
    t.settlements.length ≤ 1 ∧
    (∀ body headers, .response body headers ∈ t.settlements →
      ∃ path a, SameText path t.assetId ∧ A path a ∧ body = a.body ∧ headers = (content a id).headers) ∧
    (∀ size headers, .stream size headers ∈ t.settlements →
      ∃ path a, SameText path t.assetId ∧ A path a ∧ size = a.body.length ∧ headers = (content a id).headers) ∧
    ∀ st, t.stream = some st →
      (st.chunks.flatten ≠ [] → ∃ path a, SameText path t.assetId ∧ A path a ∧ st.chunks.flatten <+: a.body) ∧
      (st.body.closeRequested = true →
        ∃ path a, SameText path t.assetId ∧ A path a ∧ st.chunks.flatten = a.body) := by
  have h := genuine hA hserves hrun ht
  exact ⟨h.once, h.response, h.stream, fun st hst => ⟨h.chunks st hst, h.closed st hst⟩⟩

/-- The only asset there is. -/
def onlySmall (path : Bytes) (a : Asset) : Prop := path = Wire.lit "/a" ∧ a = smallAsset

theorem fixed_onlySmall : Fixed onlySmall := by
  refine ⟨fun path a a' h h' => h.2.trans h'.2.symm, fun path a h => ?_⟩
  rw [h.2]
  decide

/-- The whole of the small asset. -/
def smallData : Bytes :=
  datagram (.data { rpcId := 7, totalSize := 5, offset := 0, payload := smallAsset.body })

/-- The client asks for the asset, and the session sends META and packet 0. -/
def smallAnswer : List WorldAct :=
  [.client { event := .request 7 (Wire.Ts.jsLit "/a") false .normal },
   .deliver (datagram (.req { rpcId := 7, initialGrant := 4096, assetId := Wire.lit "/a" })) 0 (.found smallAsset)] ++
    (serverSends [0] ++ serverSends [0]).map .server

/-- Packet 0 arrives twice, and META after it. -/
def outOfOrder : List WorldAct :=
  [.client { event := .datagram smallData true }, .client { event := .datagram smallData true },
   .client { event := .datagram (datagram (.metaData (smallAsset.metaData 7))) true }]

theorem serves_smallAnswer : ∀ a ∈ smallAnswer ++ outOfOrder, a.Serves onlySmall := by
  have hreq : ∀ q, Wire.Go.decode (datagram (.req { rpcId := 7, initialGrant := 4096, assetId := Wire.lit "/a" })) =
      .ok (.req q) → onlySmall q.assetId smallAsset := by
    intro q hq
    have hdecode : Wire.Go.decode (datagram (.req { rpcId := 7, initialGrant := 4096, assetId := Wire.lit "/a" })) =
        .ok (.req { rpcId := 7, initialGrant := 4096, assetId := Wire.lit "/a" }) := by decide +kernel
    obtain rfl := Packet.req.inj (Except.ok.inj (hdecode.symm.trans hq))
    exact ⟨rfl, rfl⟩
  unfold smallAnswer outOfOrder
  simp only [List.cons_append, List.nil_append, serverSends, List.map_cons, List.map_nil, List.forall_mem_cons]
  exact ⟨trivial, hreq, trivial, trivial, trivial, trivial, trivial, trivial, trivial, trivial, trivial, trivial,
    trivial, by simp⟩

/-- A response from packets that came twice and out of order. -/
theorem integrity_outOfOrder : ∃ w t body headers,
    Machine.run (step smallConfig) (init {} 1200 smallConfig) (smallAnswer ++ outOfOrder) = some w ∧
      w.client.objects.get? 7 = some t ∧ Settlement.response body headers ∈ t.settlements ∧
      t.settlements.length ≤ 1 ∧ body = smallAsset.body := by
  have hany : (Machine.run (step smallConfig) (init {} 1200 smallConfig) (smallAnswer ++ outOfOrder)).any fun w =>
      (w.client.objects.get? 7).any fun t =>
        Settlement.response smallAsset.body ((smallAsset.metaData 7).fields.map Wire.Ts.ofField) ∈ t.settlements := by
    decide +kernel
  obtain ⟨w, hrun, hw⟩ := (Option.any_eq_true _ _).mp hany
  obtain ⟨t, ht, hmem⟩ := (Option.any_eq_true _ _).mp hw
  have hmem := of_decide_eq_true hmem
  obtain ⟨honce, hbody, -⟩ := integrity fixed_onlySmall serves_smallAnswer hrun ht
  obtain ⟨path, a, -, ha, heq, -⟩ := hbody _ _ hmem
  exact ⟨w, t, _, _, hrun, ht, hmem, honce, heq.trans (congrArg Asset.body ha.2)⟩

/-! ## How a transfer ends -/

/-- The reader of a transfer cancels its stream. -/
def WorldAct.cancels (id : ℤ) : WorldAct → Prop
  | .client e => e.event = .cancel id
  | .deliver _ _ _ | .server _ => False

/-- A transfer that nobody cancels is kept, whatever the network does. -/
theorem kept {acts : List WorldAct} {id : ℤ} (hkept : ∀ a ∈ acts, ¬ WorldAct.cancels id a)
    (hrun : Machine.run (step cfg) (init opts maxDatagramSize cfg) acts = some w) : Http4Client.Kept id w.client := by
  refine Machine.run_while (P := fun w => Http4Client.Kept id w.client) (fun w a w' ha h hstep => ?_) hkept
    (Http4Client.kept_connect opts maxDatagramSize) hrun
  cases effect_of_step hstep with
  | client e c hc => exact h.step ha hc
  | deliver | server => exact h

/-- **What the caller gets**, in every run in which the contents stay as they are: a promise
    is settled once at most, what it is resolved with and what a stream is given is of the
    asset, and a transfer that has ended has delivered the whole of it, or rejected its
    promise, or errored its stream, unless its reader cancelled it. -/
theorem delivered_or_failed (hA : Fixed A) {acts : List WorldAct} (hserves : ∀ a ∈ acts, a.Serves A)
    (hrun : Machine.run (step cfg) (init opts maxDatagramSize cfg) acts = some w) {id : ℤ} {t : Transfer}
    (ht : w.client.objects.get? id = some t) :
    Genuine A id t ∧
      ((∀ a ∈ acts, ¬ WorldAct.cancels id a) → t.live = false → t.Delivered ∨ t.Failed) :=
  ⟨genuine hA hserves hrun ht, fun hkept hlive =>
    (kept hkept hrun).outcome (client_reachable ⟨acts, hrun⟩) ht ((intact hA hserves hrun).faithful id t ht).once hlive⟩

/-- A request that is answered, and one that the end of the session finds waiting. -/
def oneOfTwo : List WorldAct :=
  smallAnswer ++ outOfOrder ++
    [.client { event := .request 8 (Wire.Ts.jsLit "/a") true .normal }, .client { event := .sessionEnded }]

theorem serves_oneOfTwo : ∀ a ∈ oneOfTwo, a.Serves onlySmall :=
  List.forall_mem_append.mpr ⟨serves_smallAnswer, by simp [WorldAct.Serves]⟩

/-- One is delivered, and the other fails. -/
theorem delivered_or_failed_oneOfTwo : ∃ w t t' body headers,
    Machine.run (step smallConfig) (init {} 1200 smallConfig) oneOfTwo = some w ∧
      w.client.objects.get? 7 = some t ∧ w.client.objects.get? 8 = some t' ∧
      Settlement.response body headers ∈ t.settlements ∧ body = smallAsset.body ∧ t'.live = false ∧ t'.Failed := by
  have hany : (Machine.run (step smallConfig) (init {} 1200 smallConfig) oneOfTwo).any fun w =>
      (w.client.objects.get? 7).any (fun t =>
        Settlement.response smallAsset.body ((smallAsset.metaData 7).fields.map Wire.Ts.ofField) ∈ t.settlements) ∧
      (w.client.objects.get? 8).any fun t =>
        t.live = false ∧ t.settlements.all (fun y => y matches .rejected _) := by
    decide +kernel
  obtain ⟨w, hrun, hw⟩ := (Option.any_eq_true _ _).mp hany
  obtain ⟨hw, hw'⟩ := of_decide_eq_true hw
  obtain ⟨t, ht, hmem⟩ := (Option.any_eq_true _ _).mp hw
  have hmem := of_decide_eq_true hmem
  obtain ⟨t', ht', hlive⟩ := (Option.any_eq_true _ _).mp hw'
  obtain ⟨hlive, hall⟩ := of_decide_eq_true hlive
  obtain ⟨hgenuine, -⟩ := delivered_or_failed fixed_onlySmall serves_oneOfTwo hrun ht
  obtain ⟨path, a, -, ha, heq, -⟩ := hgenuine.response _ _ hmem
  have hkept : ∀ a ∈ oneOfTwo, ¬ WorldAct.cancels 8 a := by
    unfold oneOfTwo smallAnswer outOfOrder serverSends
    simp [WorldAct.cancels]
  have hfailed := (delivered_or_failed fixed_onlySmall serves_oneOfTwo hrun ht').2 hkept hlive
  refine ⟨w, t, t', _, _, hrun, ht, ht', hmem, heq.trans (congrArg Asset.body ha.2), hlive, hfailed.resolve_left ?_⟩
  rintro (⟨body, headers, hmem⟩ | ⟨size, headers, st, hmem, -⟩) <;> cases List.all_eq_true.mp hall _ hmem

end World

end Http4.System
