import Http4.Client.Verdicts
import Http4.System.Integrity

/-!
# A failure is what happened

A caller is told why a transfer failed: `fetcher.ts` takes NOT_FOUND for the server's
word on the asset and does not ask again over HTTP. Over a network that loses,
duplicates, delays and reorders datagrams, every error a transfer is rejected with is
traced to what brought it about.

Main results:

* `Justified.step`: every ERROR of a session answers a datagram it got.
* `World.blamed`: what each failure comes from, and which ones never come.
-/

namespace Http4.Sender

open Wire (Packet)

/-! ## The session's errors -/

/-- What `Assets.Get` returns for a path is one of `G`. -/
def Act.Gets (G : Bytes → GetResult → Prop) : Act → Prop
  | .receive b _ got => ∀ q, Wire.Go.decode b = .ok (.req q) → G q.assetId got
  | .offer _ | .pick _ | .hold | .check | .handOver _ | .record | .evictIdle _ => True

/-- The datagram is a REQ of the RPC, and `Assets.Get` returned this for its path. -/
def Asks (G : Bytes → GetResult → Prop) (offered : List Bytes) (id : UInt64) (got : GetResult) : Prop :=
  ∃ b ∈ offered, ∃ q, Wire.Go.decode b = .ok (.req q) ∧ q.rpcId = id ∧ G q.assetId got

/-- The packet is a GRANT or a RESEND of the RPC. -/
def Refers (id : UInt64) : Packet → Prop
  | .grant p => p.rpcId = id
  | .resend p => p.rpcId = id
  | .req _ | .data _ | .error _ | .metaData _ | .hello _ | .dataSeq _ | .resendSeq _ => False

/-- What an ERROR answers. -/
inductive Answer (G : Bytes → GetResult → Prop) (offered : List Bytes) (e : Wire.ErrorPacket) : Prop
  | notFound (hcode : e.code = codeNotFound) (hasks : Asks G offered e.rpcId .notFound)
  | failed (hcode : e.code = codeBadRequest) (hasks : Asks G offered e.rpcId .failed)
  | unknown (hcode : e.code = codeUnknownRPC) (b : Bytes) (hb : b ∈ offered) (pkt : Packet)
      (hdecode : Wire.Go.decode b = .ok pkt) (hrefers : Refers e.rpcId pkt)

/-- Every ERROR that waits or was handed over answers a datagram. -/
structure Justified (G : Bytes → GetResult → Prop) (s : Sys) : Prop where
  pending : ∀ e, Packet.error e ∈ s.session.pending → Answer G s.offered e
  handed : ∀ h ∈ s.handed, ∀ e, h.packet = .error e → Answer G s.offered e

section Justified

variable {cfg : Config} {G : Bytes → GetResult → Prop} {s s' : Sys} {offered : List Bytes}

theorem Asks.append {id : UInt64} {got : GetResult} (h : Asks G offered id got) (more : List Bytes) :
    Asks G (offered ++ more) id got := by
  obtain ⟨b, hb, hreq⟩ := h
  exact ⟨b, List.mem_append_left _ hb, hreq⟩

theorem Answer.append {e : Wire.ErrorPacket} (h : Answer G offered e) (more : List Bytes) :
    Answer G (offered ++ more) e := by
  cases h with
  | notFound hcode hasks => exact .notFound hcode (hasks.append more)
  | failed hcode hasks => exact .failed hcode (hasks.append more)
  | unknown hcode b hb pkt hdecode hrefers =>
    exact .unknown hcode b (List.mem_append_left _ hb) pkt hdecode hrefers

/-- `resendSeq` replies nothing. -/
theorem pending_resendSeq (s : Session) (seq : ℕ) (now : ℤ) : (s.resendSeq seq now).pending = s.pending := by
  unfold Session.resendSeq
  dsimp only
  split_ifs
  · rfl
  · rfl
  · split <;> rfl

/-- The replies of `handle`. -/
theorem reply_of_handle {s : Session} {now : ℤ} {got : GetResult} {pkt : Packet} {e : Wire.ErrorPacket}
    (h : Packet.error e ∈ (Session.handle cfg s now got pkt).pending) : Packet.error e ∈ s.pending ∨
      (∃ q, pkt = .req q ∧ q.rpcId = e.rpcId ∧
        (e.code = codeNotFound ∧ got = .notFound ∨ e.code = codeBadRequest ∧ got = .failed)) ∨
      e.code = codeUnknownRPC ∧ Refers e.rpcId pkt := by
  have hreply {e' : Wire.ErrorPacket} (h : Packet.error e ∈ (s.reply (.error e')).pending) :
      Packet.error e ∈ s.pending ∨ e = e' := by
    rcases List.mem_append.mp h with h | h
    · exact .inl h
    · exact .inr (Packet.error.inj (List.mem_singleton.mp h))
  cases pkt with
  | req q =>
    unfold Session.handle at h
    dsimp only at h
    cases hlookup : s.lookup q.rpcId with
    | some r =>
      rw [hlookup] at h
      exact .inl h
    | none =>
      rw [hlookup] at h
      cases got with
      | found a => exact .inl h
      | notFound =>
        rcases hreply h with h | rfl
        · exact .inl h
        · exact .inr (.inl ⟨q, rfl, rfl, .inl ⟨rfl, rfl⟩⟩)
      | failed =>
        rcases hreply h with h | rfl
        · exact .inl h
        · exact .inr (.inl ⟨q, rfl, rfl, .inr ⟨rfl, rfl⟩⟩)
  | grant q | resend q =>
    unfold Session.handle at h
    dsimp only at h
    cases hlookup : s.lookup q.rpcId with
    | some r =>
      rw [hlookup] at h
      exact .inl h
    | none =>
      rw [hlookup] at h
      rcases hreply h with h | rfl
      · exact .inl h
      · exact .inr (.inr ⟨rfl, rfl⟩)
  | hello q =>
    unfold Session.handle at h
    dsimp only at h
    split_ifs at h <;> exact .inl h
  | resendSeq q =>
    unfold Session.handle at h
    dsimp only at h
    split_ifs at h
    · have hfold (l : List ℕ) (t : Session) : (l.foldl (fun t seq => t.resendSeq seq now) t).pending = t.pending := by
        induction l generalizing t with
        | nil => rfl
        | cons seq l ih => exact (ih _).trans (pending_resendSeq t seq now)
      rw [hfold] at h
      exact .inl h
    · exact .inl h
  | data | dataSeq | error | metaData => exact .inl h

/-- Only a reply is an ERROR. -/
theorem mem_pending_of_out (hinv : Inv cfg s.session) {w : Work} (hdoing : Doing s.session w) {e : Wire.ErrorPacket}
    (h : s.session.out w = .error e) : Packet.error e ∈ s.session.pending := by
  cases hdoing with
  | reply rest hpending hr hkind hseq =>
    rw [Session.out, data?_eq_none_of_pending hinv hpending] at h
    rw [hpending, ← h]
    exact List.mem_cons_self
  | data p r hp hr hw hseq =>
    cases hd : w.data? with
    | none =>
      rw [Session.out, hd] at h
      cases hw with
      | metaData hkind hpkt hlo hhi =>
        have hmeta : w.pkt = .error e := h
        rw [hpkt] at hmeta
        cases hmeta
      | packet0 d _ _ hpkt | resend d _ _ _ _ hpkt | new d _ _ hpkt | tailDup d _ _ _ hpkt =>
        rw [data?_of_pkt hpkt] at hd
        cases hd
    | some d =>
      have hdata := hinv.dataIn_out (.data p r hp hr hw hseq)
      rw [h, hd] at hdata
      cases hdata

theorem Justified.step {act : Act} (hinv : Inv cfg s.session) (h : Justified G s) (hgets : act.Gets G)
    (heff : Effect cfg s act s') : Justified G s' := by
  cases heff with
  | offer b => exact ⟨fun e he => (h.pending e he).append [b], fun g hg e he => (h.handed g hg e he).append [b]⟩
  | packet b now got pkt m hb hdecode hm =>
    refine ⟨fun e he => ?_, h.handed⟩
    rcases reply_of_handle he with he | ⟨q, rfl, hid, ⟨hcode, rfl⟩ | ⟨hcode, rfl⟩⟩ | ⟨hcode, hrefers⟩
    · exact h.pending e he
    · exact .notFound hcode ⟨b, hb, q, hdecode, hid, hgets q hdecode⟩
    · exact .failed hcode ⟨b, hb, q, hdecode, hid, hgets q hdecode⟩
    · exact .unknown hcode b hb pkt hdecode hrefers
  | sent w o m hphase ho hm =>
    refine ⟨h.pending, List.forall_mem_append.mpr ⟨h.handed, ?_⟩⟩
    rw [List.forall_mem_singleton]
    exact fun e he => h.pending e (mem_pending_of_out hinv (hinv.work w (by rw [Session.busy, hphase])) he)
  | recordReply w seq rest m hphase hpending hkind hr hseq hm =>
    refine ⟨fun e he => h.pending e ?_, h.handed⟩
    rw [hpending]
    exact List.mem_cons_of_mem _ he
  | malformed | nothing | pick | hold | check | refused | ended | record | evictIdle => exact ⟨h.pending, h.handed⟩

/-- A session that has got nothing. -/
theorem justified_init : Justified G (Sys.init cfg) :=
  ⟨fun _ he => absurd he List.not_mem_nil, fun _ hg => absurd hg List.not_mem_nil⟩

end Justified

end Http4.Sender

namespace Http4.System

open Wire (Packet)
open Wire.Ts (JsString SameText)
open Client
open Client.Http4Client (Carried Cause Due)
open Sender

/-- What `Assets.Get` returns for a path is one of `G`. -/
def WorldAct.Gets (G : Bytes → GetResult → Prop) : WorldAct → Prop
  | .deliver b now got => (Act.receive b now got).Gets G
  | .client _ | .server _ => True

/-- The assets among the results. -/
def found (G : Bytes → GetResult → Prop) (path : Bytes) (a : Asset) : Prop := G path (.found a)

theorem WorldAct.Gets.serves {G : Bytes → GetResult → Prop} {a : WorldAct} (h : a.Gets G) : a.Serves (found G) := by
  cases a with
  | deliver b now got =>
    cases got with
    | found a => exact h
    | notFound | failed => trivial
  | client | server => trivial

/-- What an error that a transfer of the client was rejected with comes from. -/
inductive Blamed (G : Bytes → GetResult → Prop) (c : Http4Client) (id : ℤ) (name : JsString) : Failure → Prop
  /-- The session ended. -/
  | sessionClosed (hclosed : c.sessionClosed = true) : Blamed G c id name .sessionClosed
  /-- Recovery gave up: more attempts than allowed have gone by since anything arrived. -/
  | noProgress (t : Transfer) (ht : c.objects.get? id = some t) (hleft : t.live = false)
      (hname : t.assetId = name) (hlimit : c.opts.recoveryLimit < t.progress.recoveries) :
      Blamed G c id name
        (.noProgress name c.opts.recoveryLimit (t.asm.map fun asm => (asm.received, asm.size)))
  /-- The read loop ended with a throw. -/
  | thrown (e : Thrown) (hreading : c.reading = false) : Blamed G c id name (.thrown e)
  /-- The server has no such asset. -/
  | notFound (path : Bytes) (hpath : SameText path name) (hget : G path .notFound) :
      Blamed G c id name (.server name codeNotFound.toNat)
  /-- The server could not read the asset. -/
  | failed (path : Bytes) (hpath : SameText path name) (hget : G path .failed) :
      Blamed G c id name (.server name codeBadRequest.toNat)
  /-- The session did not know the rpc_id of a GRANT or a RESEND of the client. -/
  | unknownRPC (b : Bytes) (hb : b ∈ c.handed.filterMap Outgoing.encode) (rpcId : UInt64) (hid : id = rpcId.toNat)
      (pkt : Packet) (hdecode : Wire.Go.decode b = .ok pkt) (hrefers : Refers rpcId pkt) :
      Blamed G c id name (.server name codeUnknownRPC.toNat)

namespace World

variable {cfg : Config} {opts : ClientOptions} {maxDatagramSize : ℕ} {w w' : World}
  {G : Bytes → GetResult → Prop}

/-- Who gives up is to blame. -/
theorem blamed_of_due {c : Http4Client} {id : ℤ} {name : JsString} {attempts : ℚ} {got : Option (ℤ × ℕ)}
    (h : Due id (.noProgress name attempts got) c) : Blamed G c id name (.noProgress name attempts got) := by
  obtain ⟨t, ht, hleft, rfl, rfl, hlimit, rfl⟩ := h
  exact .noProgress t ht hleft rfl hlimit

/-- What is blamed stays so. -/
theorem blamed_client {c : Http4Client} {a : Http4Client.Step} {id : ℤ} {name : JsString} {e : Failure}
    (h : Blamed G w.client id name e) (hw : Machine.Reachable (step cfg) (init opts maxDatagramSize cfg) w)
    (hc : w.client.step a = some c) : Blamed G c id name e := by
  cases h with
  | sessionClosed hclosed => exact .sessionClosed ((Http4Client.ended_of_step hc).2 hclosed)
  | noProgress t ht hleft hname hlimit =>
    have hdue : Due id (.noProgress name w.client.opts.recoveryLimit
        (t.asm.map fun asm => (asm.received, asm.size))) w.client := ⟨t, ht, hleft, hname.symm, rfl, hlimit, rfl⟩
    exact blamed_of_due (hdue.step hc)
  | thrown e hreading => exact .thrown e ((Http4Client.ended_of_step hc).1 hreading)
  | notFound path hpath hget => exact .notFound path hpath hget
  | failed path hpath hget => exact .failed path hpath hget
  | unknownRPC b hb rpcId hid pkt hdecode hrefers =>
    obtain ⟨more, hmore⟩ := sent_client hw hc
    have hb' : b ∈ ({ w with client := c } : World).sent := hmore ▸ List.mem_append_left _ hb
    exact .unknownRPC b hb' rpcId hid pkt hdecode hrefers

/-- The session of a run is justified. -/
theorem justified {acts : List WorldAct} (hgets : ∀ a ∈ acts, a.Gets G)
    (hrun : Machine.run (step cfg) (init opts maxDatagramSize cfg) acts = some w) : Justified G w.server := by
  let P (w : World) : Prop := Machine.Reachable (step cfg) (init opts maxDatagramSize cfg) w ∧ Justified G w.server
  refine (Machine.run_while (P := P) (fun w a w' ha ⟨hw, hjust⟩ hstep => ⟨hw.next hstep, ?_⟩) hgets
    ⟨⟨[], rfl⟩, justified_init⟩ hrun).2
  have hs := server_reachable hw
  have hinv := Sender.inv_reachable hs
  cases effect_of_step hstep with
  | client => exact hjust
  | deliver b now got s s' hb hoffer hreceive =>
    have hinv' := Sender.inv_reachable (hs.next hoffer)
    have hoffered : Justified G s := hjust.step hinv (show (Act.offer b).Gets G from trivial) (hinv.effect hoffer)
    have hgot : (Act.receive b now got).Gets G := ha
    exact hoffered.step hinv' hgot (hinv'.effect hreceive)
  | server a s hown hs' =>
    refine hjust.step hinv ?_ (hinv.effect hs')
    cases a with
    | offer | receive => cases hown
    | pick | hold | check | handOver | record | evictIdle => trivial

/-- An asset ID asked for is that of the transfer with the rpc_id. -/
theorem exists_asking (hw : Machine.Reachable (step cfg) (init opts maxDatagramSize cfg) w)
    (hnamed : Http4Client.Named w.client) {id : UInt64} {got : GetResult} (h : Asks G w.server.offered id got) :
    ∃ t path, w.client.objects.get? (id.toNat : ℤ) = some t ∧ SameText path t.assetId ∧ G path got := by
  obtain ⟨b, hb, q, hdecode, rfl, hget⟩ := h
  obtain ⟨p, hp, hencode⟩ := List.mem_filterMap.mp ((linked_reachable hw).offered b hb)
  obtain ⟨assetId, rfl, htext⟩ := exists_req hencode hdecode
  obtain ⟨t, ht, rfl, -⟩ := hnamed _ _ _ hp
  exact ⟨t, q.assetId, ht, htext, hget⟩

/-- ERROR as the client reads it. -/
theorem exists_errorPacket {b : Bytes} {p : Wire.Ts.ErrorPacket} (h : packetIn b = some (.error p)) :
    ∃ e : Wire.ErrorPacket, Wire.Go.decode b = .ok (.error e) ∧ p.rpcId = e.rpcId.toNat ∧ p.code = e.code.toNat := by
  obtain ⟨g, hdecode, hg⟩ := exists_decode_of_packetIn h
  cases g <;> cases hg
  exact ⟨_, hdecode, rfl, rfl⟩

/-- An ERROR that reaches the client is to blame. -/
theorem blamed_server (hw : Machine.Reachable (step cfg) (init opts maxDatagramSize cfg) w)
    (hnamed : Http4Client.Named w.client) (hjust : Justified G w.server) {r : Reply} (hr : r ∈ w.replies)
    {p : Wire.Ts.ErrorPacket} (hp : packetIn r.bytes = some (.error p)) {name : JsString}
    (hname : ∀ t, w.client.objects.get? p.rpcId = some t → t.assetId = name) :
    Blamed G w.client p.rpcId name (.server name p.code) := by
  obtain ⟨e, hdecode, hid, hcode⟩ := exists_errorPacket hp
  obtain ⟨g, hg, hmarshal⟩ := exists_handed hw r hr
  have hpkt : g.packet = .error e := Except.ok.inj ((marshal_eq_ok_iff_decode.mp hmarshal).symm.trans hdecode)
  have hasked {got : GetResult} (hasks : Asks G w.server.offered e.rpcId got) :
      ∃ path, SameText path name ∧ G path got := by
    obtain ⟨t, path, ht, hpath, hget⟩ := exists_asking hw hnamed hasks
    rw [← hid] at ht
    rw [hname t ht] at hpath
    exact ⟨path, hpath, hget⟩
  rw [hcode]
  cases hjust.handed g hg e hpkt with
  | notFound hcode hasks =>
    obtain ⟨path, hpath, hget⟩ := hasked hasks
    rw [hcode]
    exact .notFound path hpath hget
  | failed hcode hasks =>
    obtain ⟨path, hpath, hget⟩ := hasked hasks
    rw [hcode]
    exact .failed path hpath hget
  | unknown hcode b hb pkt hdecode hrefers =>
    rw [hcode]
    exact .unknownRPC b ((linked_reachable hw).offered b hb) e.rpcId hid pkt hdecode hrefers

/-- The total_size of a transfer does not change. -/
theorem totalSize_eq (hA : Fixed (found G)) {acts : List WorldAct} (hgets : ∀ a ∈ acts, a.Gets G)
    (hrun : Machine.run (step cfg) (init opts maxDatagramSize cfg) acts = some w) {r : Reply} (hr : r ∈ w.replies)
    {d : Wire.Ts.Data} (hd : Carried (packetIn r.bytes) d) {t : Transfer} {asm : Reassembly}
    (ht : w.client.objects.get? d.rpcId = some t) (hasm : t.asm = some asm) : d.totalSize = asm.size := by
  have hserves : ∀ a ∈ acts, a.Serves (found G) := fun a ha => (hgets a ha).serves
  have hintact := intact hA hserves hrun
  obtain ⟨t', ht', x, hx, hslice⟩ := (honest hA hserves hrun hintact.named hr).data d hd
  obtain rfl := Option.some.inj (ht.symm.trans ht')
  obtain ⟨y, hy, hsize, -⟩ := (hintact.faithful _ t ht).asm asm hasm
  rw [hA.subsingleton _ _ hx hy] at hslice
  rw [hslice.1, hsize]

/-- What a step of the client rejects a transfer with is to blame. -/
theorem blamed_of_cause (hA : Fixed (found G)) {acts : List WorldAct} (hgets : ∀ a ∈ acts, a.Gets G)
    (hrun : Machine.run (step cfg) (init opts maxDatagramSize cfg) acts = some w) {a : Http4Client.Step}
    {c : Http4Client} (hc : w.client.step a = some c)
    (hbrings : ∀ b alloc, a.event = .datagram b alloc → ∃ r ∈ w.replies, r.bytes = b) {id : ℤ} {t' : Transfer}
    (ht' : c.objects.get? id = some t') {e : Failure} (he : e ∈ t'.failures)
    (hcause : Cause w.client c a.event id t'.assetId e) : Blamed G c id t'.assetId e := by
  have hw : Machine.Reachable (step cfg) (init opts maxDatagramSize cfg) w := ⟨acts, hrun⟩
  have hfails := Http4Client.fails_step hc
  have hnamed := (intact hA (fun a ha => (hgets a ha).serves) hrun).named
  have hdue : Due id e c := Http4Client.earned_reachable ((client_reachable hw).next hc) id t' e ht' he
  generalize hname : t'.assetId = name at hcause ⊢
  generalize hevent : a.event = event at hcause
  cases hcause with
  | sessionEnded hclosed => exact .sessionClosed hclosed
  | noProgress => exact blamed_of_due hdue
  | readRejected hreading | caught hreading => exact .thrown _ hreading
  | server hp =>
    obtain ⟨r, hr, rfl⟩ := hbrings _ _ hevent
    refine blamed_client (blamed_server hw hnamed (justified hgets hrun) hr hp fun t ht => ?_) hw hc
    obtain ⟨t₁, ht₁, hsame⟩ := hfails.known _ t ht
    obtain rfl := Option.some.inj (ht'.symm.trans ht₁)
    exact hsame.symm.trans hname
  | totalSizeChanged hd ht hasm hne =>
    obtain ⟨r, hr, rfl⟩ := hbrings _ _ hevent
    exact absurd (totalSize_eq hA hgets hrun hr hd ht hasm) hne

/-- What the promises of a run have failed with is to blame. -/
theorem blamed_of_failed (hA : Fixed (found G)) {acts : List WorldAct} (hgets : ∀ a ∈ acts, a.Gets G)
    (hrun : Machine.run (step cfg) (init opts maxDatagramSize cfg) acts = some w) {id : ℤ} {t : Transfer}
    (ht : w.client.objects.get? id = some t) {e : Failure} (he : e ∈ t.failures) :
    Blamed G w.client id t.assetId e := by
  let P (w : World) : Prop := (∃ as, (∀ a ∈ as, a.Gets G) ∧
    Machine.run (step cfg) (init opts maxDatagramSize cfg) as = some w) ∧
      ∀ id t e, w.client.objects.get? id = some t → e ∈ t.failures → Blamed G w.client id t.assetId e
  have hP : P w := by
    refine Machine.run_while (P := P) (fun w a w' ha ⟨⟨as, has, hw⟩, hblamed⟩ hstep => ?_) hgets ?_ hrun
    · refine ⟨⟨as ++ [a], List.forall_mem_append.mpr ⟨has, List.forall_mem_singleton.mpr ha⟩,
        Machine.run_concat_iff.mpr ⟨w, hw, hstep⟩⟩, fun id t' e ht' he => ?_⟩
      have hreach : Machine.Reachable (step cfg) (init opts maxDatagramSize cfg) w := ⟨as, hw⟩
      cases effect_of_step hstep with
      | client s c hc hbrings =>
        have hfails := Http4Client.fails_step hc
        rcases hfails.failed id t' e ht' he with ⟨t, ht, he⟩ | hcause
        · obtain ⟨t₁, ht₁, hname⟩ := hfails.known id t ht
          obtain rfl := Option.some.inj (ht'.symm.trans ht₁)
          rw [hname]
          exact blamed_client (hblamed id t e ht he) hreach hc
        · exact blamed_of_cause hA has hw hc hbrings ht' he hcause
      | deliver | server => exact hblamed id t' e ht' he
    · refine ⟨⟨[], by simp, rfl⟩, fun id t e ht => ?_⟩
      have hnone : (connect opts maxDatagramSize).objects = .empty :=
        keeps_sendHello Http4Client.objects (fun _ _ => rfl) fun _ _ => rfl
      change (connect opts maxDatagramSize).objects.get? id = some t at ht
      rw [hnone] at ht
      cases ht
  exact hP.2 id t e ht he

end World

end Http4.System
