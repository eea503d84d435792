import Http4.Sender.DatagramLimit

/-!
# The send loop drains

`Session.backlog` counts the datagrams a session still owes: the replies that wait,
and for every live RPC its META and packet 0 if a REQ is unanswered, what the queued
spans and the granted bytes take at the current chunk size, and the tail duplicate.
It is no estimate: as long as no packet arrives, nothing is evicted and the
connection accepts what it gets, each datagram handed over lowers it by one, in
whatever order Go visits the map and whatever loss injection discards.

Main results:

* `Asset.metaFits_metaData`: META is never too long, whatever the asset's fields.
* `exists_marshal_out`: every packet that is picked can be written.
* `Recorded.backlog`: recording a work takes one off the backlog of its RPC.
* `drains`: the session hands over exactly its backlog, and is then idle.
-/

namespace Http4.Sender

open Wire (Packet)

/-! ## The backlog -/

/-- How many datagrams carry `n` bytes, `chunk` in each but the last. -/
def datagramsFor (chunk n : ℕ) : ℕ := (n + chunk - 1) / chunk

/-- `next` once packet 0 is sent, if it is due. -/
def Rpc.nextDue (chunk : ℕ) (r : Rpc) : ℕ :=
  if r.packet0Sent < r.packet0Req then max r.next (min chunk r.granted) else r.next

/-- A tail duplicate is queued, or will be once the RPC is sent whole. -/
def Rpc.TailAhead (cfg : Config) (r : Rpc) : Prop :=
  r.tailDup.isSome ∨
    r.tailDuped = false ∧ 0 < r.size ∧ (r.size : ℤ) ≤ cfg.tailDuplicate ∧ r.granted = r.size

instance (cfg : Config) (r : Rpc) : Decidable (r.TailAhead cfg) := inferInstanceAs (Decidable (_ ∨ _))

/-- The datagrams one RPC still takes. -/
def Rpc.backlog (cfg : Config) (chunk : ℕ) (r : Rpc) : ℕ :=
  (if r.metaSent < r.packet0Req then 1 else 0) +
  (if r.packet0Sent < r.packet0Req then 1 else 0) +
  (r.resends.map fun sp => datagramsFor chunk (sp.stop - sp.start)).sum +
  datagramsFor chunk (r.granted - r.nextDue chunk) +
  (if r.TailAhead cfg then 1 else 0)

/-- The datagrams the live RPCs still take. -/
def Session.owed (cfg : Config) (s : Session) : ℕ :=
  (s.live.map fun p => s.heap[p]?.elim 0 (Rpc.backlog cfg (s.chunk s.useSeq))).sum

/-- The datagrams the session still takes. -/
def Session.backlog (cfg : Config) (s : Session) : ℕ := s.pending.length + s.owed cfg

/-- The steps of a send loop that the connection lets go on. -/
def Act.Sends : Act → Prop
  | .pick _ | .hold | .check | .record | .handOver .sent | .handOver .dropped => True
  | .offer _ | .receive _ _ _ | .handOver (.tooLarge _) | .handOver .failed | .evictIdle _ => False

section Backlog

variable {cfg : Config} {r r' : Rpc} {w : Work} {chunk : ℕ}

theorem datagramsFor_zero (hchunk : 0 < chunk) : datagramsFor chunk 0 = 0 := by
  unfold datagramsFor
  exact Nat.div_eq_of_lt (by omega)

/-- One more datagram. -/
theorem datagramsFor_succ (hchunk : 0 < chunk) {n : ℕ} (hn : 0 < n) :
    datagramsFor chunk n = datagramsFor chunk (n - min chunk n) + 1 := by
  unfold datagramsFor
  rcases Nat.le_total n chunk with h | h
  · rw [min_eq_right h, Nat.sub_self, Nat.div_eq_of_lt (show 0 + chunk - 1 < chunk by omega)]
    rw [Nat.div_eq_of_lt_le (show (0 + 1) * chunk ≤ n + chunk - 1 by omega) (by omega)]
  · rw [min_eq_left h, show n + chunk - 1 = n - chunk + chunk - 1 + chunk by omega,
      Nat.add_div_right _ hchunk]

theorem datagramsFor_eq_zero_iff (hchunk : 0 < chunk) {n : ℕ} : datagramsFor chunk n = 0 ↔ n = 0 := by
  constructor
  · intro h
    by_contra hn
    rw [datagramsFor_succ hchunk (by omega)] at h
    omega
  · rintro rfl
    exact datagramsFor_zero hchunk

/-- What holds of an RPC and the work just picked for it: the lengths and generations
    are those the RPC asks for now. -/
inductive Fresh (chunk : ℕ) (r : Rpc) (w : Work) : Prop
  | metaData (hkind : w.kind = .workMeta) (hdue : r.metaSent < r.packet0Req)
      (hpacket0 : w.packet0 = r.packet0Req)
  | packet0 (hkind : w.kind = .workPacket0) (hdue : r.packet0Sent < r.packet0Req)
      (hpacket0 : w.packet0 = r.packet0Req) (hlen : w.len = min chunk r.granted)
  | resend (sp : Span) (rest : List Span) (hkind : w.kind = .workResend) (hresends : r.resends = sp :: rest)
      (hlen : w.len = min chunk (sp.stop - sp.start))
  | new (hkind : w.kind = .workNew) (hdue : r.packet0Req ≤ r.packet0Sent) (hlt : r.next < r.granted)
      (hlen : w.len = min chunk (r.granted - r.next))
  | tailDup (hkind : w.kind = .workTailDup) (htail : r.tailDup.isSome)

/-- New data is due once packet 0 is sent. -/
theorem packet0Sent_of_due (hdue : r.due = some .workNew) : r.packet0Req ≤ r.packet0Sent := by
  by_contra hlt
  unfold Rpc.due at hdue
  split_ifs at hdue with h1 h2 <;> first | exact hlt (not_lt.mp h2) | cases hdue

theorem packet0_of_workOf {s : Session} {p : ℕ} {kind : WorkKind} (hwork : s.workOf r p kind = .ok w)
    (hkind : kind = .workMeta ∨ kind = .workPacket0) : w.packet0 = r.packet0Req := by
  rcases hkind with rfl | rfl
  · rw [Session.workOf, Except.ok.injEq] at hwork
    rw [← hwork]
  · simp only [Session.workOf] at hwork
    cases hd : r.data 0 (min (s.chunk s.useSeq) r.granted) with
    | error e => rw [hd] at hwork; cases hwork
    | ok pkt => rw [hd] at hwork; cases hwork; rfl

/-- **The work for what is due is fresh.** -/
theorem fresh_workOf {s : Session} (h : RpcOk cfg r) {p : ℕ} (hdue : r.due = some w.kind)
    (hwork : s.workOf r p w.kind = .ok w) (hok : WorkOk r w) : Fresh (s.chunk s.useSeq) r w := by
  have hlt := h.size_lt
  have hgranted := h.granted_le
  have hlen (hdata : w.data?.isSome) : ∃ off, s.slice r w.kind = some (off, w.len) := by
    obtain ⟨off, n, hslice, hpkt, hadd, hle⟩ := (pickExact s h).slice p w hdue hwork hdata
    refine ⟨off, ?_⟩
    rw [Rpc.data, hadd, if_pos (by omega), Except.ok.injEq] at hpkt
    have hn : w.len = n := by
      simp only [Work.len, Work.data?, ← hpkt, Bytes.length_sub hle]
      omega
    rw [hn]
    exact hslice
  have hsome {d : Wire.Data} (hpkt : w.pkt = .data d) : w.data?.isSome := by
    rw [data?_of_pkt hpkt]
    rfl
  cases hok with
  | metaData hkind hpkt hlo hhi =>
    exact .metaData hkind (by omega) (packet0_of_workOf hwork (.inl hkind))
  | packet0 d n hkind hpkt hd hn hlo hhi =>
    obtain ⟨off, hslice⟩ := hlen (hsome hpkt)
    have hpacket0 := packet0_of_workOf hwork (.inr hkind)
    rw [hkind] at hslice
    obtain ⟨-, heq⟩ := Prod.mk.inj (Option.some.inj hslice)
    exact .packet0 hkind (by omega) hpacket0 heq.symm
  | resend d n sp rest hkind hpkt hresends hd hn =>
    obtain ⟨off, hslice⟩ := hlen (hsome hpkt)
    obtain ⟨hne, hle⟩ := h.spans sp (by rw [hresends]; exact List.mem_cons_self)
    have hnext := h.next_le
    rw [hkind, Session.slice, hresends] at hslice
    simp only [List.head?_cons, Option.map_some, u32Sub_of_le hne.le (show sp.stop < 2 ^ 32 by omega),
      Option.some.injEq, Prod.mk.injEq] at hslice
    exact .resend sp rest hkind hresends hslice.2.symm
  | new d n hkind hpkt hd hn =>
    obtain ⟨off, hslice⟩ := hlen (hsome hpkt)
    rw [hkind] at hdue
    have hnext : r.next < r.granted := by
      rcases due_eq_some hdue with ⟨heq, -⟩ | ⟨heq, -⟩ | ⟨heq, -⟩ | ⟨-, -, hlt⟩ | ⟨heq, -⟩
      · cases heq
      · cases heq
      · cases heq
      · exact hlt
      · cases heq
    rw [hkind, Session.slice, u32Sub_of_le hnext.le (by omega)] at hslice
    obtain ⟨-, heq⟩ := Prod.mk.inj (Option.some.inj hslice)
    exact .new hkind (packet0Sent_of_due hdue) hnext heq.symm
  | tailDup d n off hkind hpkt htail hd => exact .tailDup hkind (by rw [htail]; rfl)

/-- A tail duplicate is ahead before and after what is not one. -/
theorem Recorded.tailAhead_iff (h : RpcOk cfg r) (hrec : Recorded cfg r w r') (hkind : w.kind ≠ .workTailDup)
    (hnext : r.nextAfter w ≤ r.granted) : r'.TailAhead cfg ↔ r.TailAhead cfg := by
  unfold Rpc.TailAhead
  rw [hrec.tailDup, hrec.tailDuped, hrec.size, hrec.granted, Rpc.tailAfter]
  by_cases hdone : r.CompletedBy cfg w
  · rw [if_pos hdone]
    obtain ⟨-, -, hdup, hpos, hle, heq⟩ := hdone
    have hgranted := h.granted_le
    exact iff_of_true (.inl rfl) (.inr ⟨hdup, hpos, hle, by omega⟩)
  · rw [if_neg hdone, if_neg hkind, decide_eq_false hdone, Bool.or_false]

/-- **Recording a work takes one off the backlog.** -/
theorem Recorded.backlog (hchunk : 0 < chunk) (h : RpcOk cfg r) (hrec : Recorded cfg r w r')
    (hfresh : Fresh chunk r w) : r'.backlog cfg chunk + 1 = r.backlog cfg chunk := by
  have hnext := h.next_le
  cases hfresh with
  | metaData hkind hdue hpacket0 =>
    have htail := hrec.tailAhead_iff h (by rw [hkind]; decide) (by simp only [Rpc.nextAfter, hkind]; omega)
    unfold Rpc.backlog Rpc.nextDue
    simp only [hrec.metaSent, hrec.packet0Req, hrec.packet0Sent, hrec.resends, hrec.next, hrec.granted,
      Rpc.resendsAfter, Rpc.nextAfter, hkind, htail, hpacket0, if_pos hdue, if_true, lt_irrefl, if_false]
    simp only [reduceCtorEq, if_false]
    omega
  | packet0 hkind hdue hpacket0 hlen =>
    have htail := hrec.tailAhead_iff h (by rw [hkind]; decide) (by simp only [Rpc.nextAfter, hkind]; omega)
    unfold Rpc.backlog Rpc.nextDue
    simp only [hrec.metaSent, hrec.packet0Req, hrec.packet0Sent, hrec.resends, hrec.next, hrec.granted,
      Rpc.resendsAfter, Rpc.nextAfter, hkind, htail, hpacket0, if_pos hdue, if_true, lt_irrefl, if_false, hlen]
    simp only [reduceCtorEq, if_false]
    omega
  | resend sp rest hkind hresends hlen =>
    have htail := hrec.tailAhead_iff h (by rw [hkind]; decide) (by simp only [Rpc.nextAfter, hkind]; omega)
    obtain ⟨hne, -⟩ := h.spans sp (by rw [hresends]; exact List.mem_cons_self)
    have hspans : ((dropFront w.len r.resends).map fun sp => datagramsFor chunk (sp.stop - sp.start)).sum + 1 =
        (r.resends.map fun sp => datagramsFor chunk (sp.stop - sp.start)).sum := by
      rw [hresends, dropFront, List.map_cons, List.sum_cons, hlen,
        datagramsFor_succ hchunk (show 0 < sp.stop - sp.start by omega)]
      split_ifs with hend
      · rw [show sp.stop - sp.start - min chunk (sp.stop - sp.start) = 0 by omega, datagramsFor_zero hchunk]
        omega
      · rw [List.map_cons, List.sum_cons]
        show datagramsFor chunk (sp.stop - (sp.start + min chunk (sp.stop - sp.start))) + _ + 1 = _
        rw [show sp.stop - (sp.start + min chunk (sp.stop - sp.start)) =
          sp.stop - sp.start - min chunk (sp.stop - sp.start) by omega]
        omega
    unfold Rpc.backlog Rpc.nextDue
    simp only [hrec.metaSent, hrec.packet0Req, hrec.packet0Sent, hrec.resends, hrec.next, hrec.granted,
      Rpc.resendsAfter, Rpc.nextAfter, hkind, htail]
    simp only [reduceCtorEq, if_false]
    omega
  | new hkind hdue hlt hlen =>
    have htail := hrec.tailAhead_iff h (by rw [hkind]; decide) (by simp only [Rpc.nextAfter, hkind]; omega)
    have hsent : ¬ r.packet0Sent < r.packet0Req := by omega
    have hbytes := datagramsFor_succ hchunk (show 0 < r.granted - r.next by omega)
    unfold Rpc.backlog Rpc.nextDue
    simp only [hrec.metaSent, hrec.packet0Req, hrec.packet0Sent, hrec.resends, hrec.next, hrec.granted,
      Rpc.resendsAfter, Rpc.nextAfter, hkind, htail, hlen]
    simp only [reduceCtorEq, if_false, hsent]
    rw [show r.granted - (r.next + min chunk (r.granted - r.next)) =
      r.granted - r.next - min chunk (r.granted - r.next) by omega]
    omega
  | tailDup hkind htail =>
    obtain ⟨sp, hsp⟩ := Option.isSome_iff_exists.mp htail
    obtain ⟨-, -, -, hduped⟩ := h.tail sp hsp
    have hnot : ¬ r.CompletedBy cfg w := fun hdone => by
      rw [hdone.2.2.1] at hduped
      cases hduped
    have hafter : ¬ r'.TailAhead cfg := by
      unfold Rpc.TailAhead
      rw [hrec.tailDup, hrec.tailDuped, Rpc.tailAfter, if_neg hnot, if_pos hkind, hduped]
      simp
    have hbefore : r.TailAhead cfg := .inl htail
    unfold Rpc.backlog Rpc.nextDue
    simp only [hrec.metaSent, hrec.packet0Req, hrec.packet0Sent, hrec.resends, hrec.next, hrec.granted,
      Rpc.resendsAfter, Rpc.nextAfter, hkind, if_neg hafter, if_pos hbefore]
    simp only [reduceCtorEq, if_false]

/-- An RPC with nothing due has no backlog, and only such an RPC. -/
theorem due_eq_none_iff (hchunk : 0 < chunk) (h : RpcOk cfg r) : r.due = none ↔ r.backlog cfg chunk = 0 := by
  have hnext := h.next_le
  have hgranted := h.granted_le
  have hsent := h.packet0_le
  have hmeta := h.meta_le
  constructor
  · intro hdue
    obtain ⟨hnext', hresends, htail, hmeta', hsent'⟩ := due_eq_none h hdue
    have hahead : ¬ r.TailAhead cfg := by
      rintro (hsome | ⟨hdup, hpos, hle, heq⟩)
      · rw [htail] at hsome
        cases hsome
      · rw [h.duped hpos hle (by omega)] at hdup
        cases hdup
    unfold Rpc.backlog Rpc.nextDue
    rw [if_neg (by omega), if_neg (by omega), if_neg (by omega), if_neg hahead, hresends, hnext', Nat.sub_self,
      datagramsFor_zero hchunk]
    rfl
  · intro hzero
    unfold Rpc.backlog at hzero
    simp only [Nat.add_eq_zero_iff, ite_eq_right_iff, one_ne_zero, imp_false] at hzero
    obtain ⟨⟨⟨⟨h1, h2⟩, h3⟩, h4⟩, h5⟩ := hzero
    rw [datagramsFor_eq_zero_iff hchunk, Rpc.nextDue, if_neg h2] at h4
    have hspans : r.resends = [] := by
      cases hr : r.resends with
      | nil => rfl
      | cons sp rest =>
        obtain ⟨hne, -⟩ := h.spans sp (by rw [hr]; exact List.mem_cons_self)
        rw [hr, List.map_cons, List.sum_cons, datagramsFor_succ hchunk (show 0 < sp.stop - sp.start by omega)] at h3
        omega
    unfold Rpc.due
    rw [if_neg h1, if_neg h2, if_neg (by rw [hspans]; exact Nat.lt_irrefl 0), if_neg (by omega),
      if_neg fun htail => h5 (.inl htail)]

end Backlog

/-! ## META and the encoder -/

theorem metaFits_metaLoop (id : UInt64) (fields : List Wire.Field) (n : ℕ) :
    metaFits (metaLoop id fields n) = true := by
  induction n with
  | zero =>
    have hok : Wire.Go.marshal (.metaData { rpcId := id, fields := [] }) =
        .ok (Packet.layout (.metaData { rpcId := id, fields := [] })) :=
      Wire.Go.marshal_eq_ok_iff.mpr ⟨⟨Nat.zero_le _, by simp, List.nodup_nil, by simp⟩, rfl⟩
    rw [metaLoop, metaFits, hok]
    simp [Wire.Packet.layout, Wire.Packet.body, Wire.Packet.length_header, maxMetaLen]
  | succ n ih =>
    rw [metaLoop]
    split_ifs with hfits
    · exact hfits
    · exact ih

/-- **META is never too long**: the loop of `Meta` ends with a packet that `Marshal`
    accepts. -/
theorem Asset.metaFits_metaData (a : Asset) (id : UInt64) : metaFits (a.metaData id) = true :=
  metaFits_metaLoop id _ _

/-- The META of every RPC can be written. -/
def MetasFit (s : Sys) : Prop :=
  ∀ (p : ℕ) (r : Rpc), s.session.heap[p]? = some r → metaFits r.metaData = true

section Drains

variable {cfg : Config} {s s' : Sys} {a : Act} {w : Work} {chunk total : ℕ}

theorem MetasFit.step (hinv : Inv cfg s.session) (h : MetasFit s) (heff : Effect cfg s a s') : MetasFit s' := by
  cases heff with
  | packet b now got pkt m hb hdecode hm =>
    have hmap : MapOk { s.session with metrics := m } := ⟨hinv.map.mem, hinv.map.nodup⟩
    intro p r' hr'
    rcases heap_handle hmap hr' with ⟨r, hr, ht⟩ | ⟨-, q, a, rfl, rfl, -, rfl⟩
    · rw [ht.sameSend.metaData]
      exact h p r hr
    · exact a.metaFits_metaData q.rpcId
  | record w seq p r r' m hphase hp hr hw hrec hseq hm =>
    intro q t ht
    rcases heap_set_of ht with ⟨-, rfl⟩ | ht
    · rw [hrec.metaData]
      exact h p r hr
    · exact h q t ht
  | offer | malformed | nothing | pick | hold | check | sent | refused | ended | recordReply | evictIdle =>
    exact h

theorem metasFit_reachable (h : Machine.Reachable (Sys.step cfg) (Sys.init cfg) s) : MetasFit s :=
  reachable_induction (by simp [MetasFit, Sys.init, Session.init]) (fun _ _ _ hinv hfit heff => hfit.step hinv heff) h

/-- **Every packet that is picked can be written.** -/
theorem exists_marshal_out (hinv : Inv cfg s.session) (hfit : MetasFit s) (hbusy : s.session.busy = some w) :
    ∃ b, Wire.Go.marshal (s.session.out w) = .ok b := by
  cases hd : w.data? with
  | some d =>
    obtain ⟨b, hb, -⟩ := length_marshal_out hinv hbusy (by rw [hd]; rfl)
    exact ⟨b, hb⟩
  | none =>
    have hout : s.session.out w = w.pkt := by simp only [Session.out, hd]
    rw [hout]
    cases hinv.work w hbusy with
    | reply rest hpending hr hkind hseq =>
      obtain ⟨e, he⟩ := hinv.pending w.pkt (by rw [hpending]; exact List.mem_cons_self)
      rw [he]
      exact ⟨_, Wire.Go.marshal_eq_ok_iff.mpr ⟨trivial, rfl⟩⟩
    | data p r hp hr hw hseq =>
      rcases hw.kind_data with ⟨hkind, -⟩ | ⟨d, hd', -⟩
      · cases hw with
        | metaData _ hpkt =>
          have hmeta := hfit p r hr
          rw [hpkt]
          unfold metaFits at hmeta
          split at hmeta
          next b hb => exact ⟨b, hb⟩
          · cases hmeta
        | packet0 _ _ h | resend _ _ _ _ h | new _ _ h | tailDup _ _ _ h =>
          rw [hkind] at h
          cases h
      · rw [hd] at hd'
        cases hd'

/-! ## Runs -/

theorem MapOk.nodup_live {s : Session} (h : MapOk s) : s.live.Nodup := by
  refine List.Nodup.map_on (fun e he e' he' heq => ?_) h.nodup.of_map
  obtain ⟨r, hr, hid⟩ := h.mem e he
  obtain ⟨r', hr', hid'⟩ := h.mem e' he'
  rw [heq, hr', Option.some.injEq] at hr
  exact Prod.ext (by rw [← hid, ← hid', hr]) heq

/-- One summand less one. -/
theorem sum_map_succ {l : List ℕ} (hnodup : l.Nodup) {p : ℕ} (hp : p ∈ l) {f g : ℕ → ℕ}
    (hself : f p + 1 = g p) (hrest : ∀ q ∈ l, q ≠ p → f q = g q) : (l.map f).sum + 1 = (l.map g).sum := by
  obtain ⟨front, back, rfl⟩ := List.append_of_mem hp
  obtain ⟨hnotin, -⟩ := List.nodup_cons.mp (List.nodup_middle.mp hnodup)
  rw [List.mem_append, not_or] at hnotin
  have hfront : front.map f = front.map g := List.map_congr_left fun q hq =>
    hrest q (List.mem_append_left _ hq) fun heq => hnotin.1 (heq ▸ hq)
  have hback : back.map f = back.map g := List.map_congr_left fun q hq =>
    hrest q (List.mem_append_right _ (List.mem_cons_of_mem _ hq)) fun heq => hnotin.2 (heq ▸ hq)
  simp only [List.map_append, List.map_cons, List.sum_append, List.sum_cons, hfront, hback]
  omega

/-- What holds of every state of a run that only sends: the chunk size stays, and what
    was recorded and what is left add up. -/
structure Draining (cfg : Config) (chunk total : ℕ) (s : Sys) : Prop where
  inv : Inv cfg s.session
  metas : MetasFit s
  going : s.session.phase ≠ .ended
  fresh : ∀ w p r, s.session.busy = some w → w.r = some p → s.session.heap[p]? = some r →
    p ∈ s.session.live ∧ Fresh chunk r w
  chunk_eq : s.session.chunk s.session.useSeq = chunk
  numbers : s.session.seqOn = true → s.session.nextSeq + s.session.backlog cfg ≤ maxUint32
  total_eq : s.recorded.length + s.session.backlog cfg = total

/-- What `pick` chooses is fresh. -/
theorem fresh_of_pick (hinv : Inv cfg s.session) {order : List ℕ} (hperm : order.Perm s.session.live)
    (hpick : s.session.pick order = .ok (some w)) {p : ℕ} {r : Rpc} (hp : w.r = some p)
    (hr : s.session.heap[p]? = some r) :
    p ∈ s.session.live ∧ Fresh (s.session.chunk s.session.useSeq) r w := by
  rcases pick_eq_some hpick with ⟨pkt, rest, -, rfl⟩ | ⟨-, t, q, kind, hq, ht, hdue, hwork, -⟩
  · cases hp
  obtain ⟨w', hw', hok, hfor⟩ := exists_workOf s.session (hinv.rpc q t ht) q hdue
  obtain rfl := Except.ok.inj (hwork.symm.trans hw')
  obtain rfl := Option.some.inj (hp.symm.trans hfor.rpc)
  obtain rfl := Option.some.inj (hr.symm.trans ht)
  have hkind := hfor.kind
  subst hkind
  exact ⟨hperm.mem_iff.mp hq, fresh_workOf (hinv.rpc p r hr) hdue hwork hok⟩

/-- Recording for an RPC takes one off what the live RPCs take. -/
theorem owed_set {t t' : Session} (hmap : MapOk t) {p : ℕ} {r r' : Rpc} (hp : p ∈ t.live)
    (hr : t.heap[p]? = some r) (hrpcs : t'.rpcs = t.rpcs) (hheap : t'.heap = t.heap.set p r')
    (hchunk : t'.chunk t'.useSeq = t.chunk t.useSeq)
    (h : r'.backlog cfg (t.chunk t.useSeq) + 1 = r.backlog cfg (t.chunk t.useSeq)) :
    t'.owed cfg + 1 = t.owed cfg := by
  have hlive : t'.live = t.live := congrArg (List.map Prod.snd) hrpcs
  unfold Session.owed
  rw [hlive, hchunk, hheap]
  refine sum_map_succ hmap.nodup_live hp ?_ fun q _ hq => ?_
  · rw [heap_set_self hr, hr]
    exact h
  · rw [List.getElem?_set_ne hq.symm]

theorem backlog_le_owed (cfg : Config) {t : Session} {p : ℕ} {r : Rpc} (hp : p ∈ t.live) (hr : t.heap[p]? = some r) :
    r.backlog cfg (t.chunk t.useSeq) ≤ t.owed cfg := by
  unfold Session.owed
  refine List.single_le_sum (fun _ _ => Nat.zero_le _) _ (List.mem_map.mpr ⟨p, hp, ?_⟩)
  rw [hr]
  rfl

/-- A packet that can be written, and that the connection takes, is handed over. -/
theorem step_handOver (hinv : Inv cfg s.session) (hfit : MetasFit s) (hphase : s.session.phase = .checked w)
    {o : Session.Outcome} (ho : (Act.handOver o).Sends) (hstep : Sys.step cfg s (.handOver o) = some s') :
    s'.session.phase = .handed w s.session.seqNumber := by
  obtain ⟨b, hb⟩ := exists_marshal_out hinv hfit (w := w) (by rw [Session.busy, hphase])
  have hhanded {t : Session} (h : s.session.handOver cfg w o = some t) :
      t.phase = .handed w s.session.seqNumber := by
    unfold Session.handOver at h
    rw [hb] at h
    cases o with
    | sent =>
      obtain rfl := Option.some.inj h
      rfl
    | dropped =>
      simp only at h
      split_ifs at h <;> obtain rfl := Option.some.inj h <;> rfl
    | tooLarge | failed => exact absurd ho not_false
  simp only [Sys.step, hphase] at hstep
  cases hout : s.session.handOver cfg w o with
  | none =>
    rw [hout] at hstep
    cases hstep
  | some t =>
    have ht := hhanded hout
    simp only [hout, ht, Option.some.injEq] at hstep
    rw [← hstep]
    exact ht

/-- The chunk size stays as long as the sequence numbers last. -/
theorem chunk_congr {t t' : Session} (hon : t'.seqOn = t.seqOn) (hlimit : t'.maxDatagram = t.maxDatagram)
    (hnumbers : t.seqOn = true → t.nextSeq ≤ maxUint32 ∧ t'.nextSeq ≤ maxUint32) :
    t'.chunk t'.useSeq = t.chunk t.useSeq := by
  have huse : t'.useSeq = t.useSeq := by
    unfold Session.useSeq
    rw [hon]
    cases ht : t.seqOn with
    | false => rfl
    | true =>
      obtain ⟨hle, hle'⟩ := hnumbers ht
      rw [decide_eq_true hle, decide_eq_true hle']
  rw [huse, Session.chunk, Session.chunk, Session.chunkInt, Session.chunkInt, hlimit]

/-- What was picked for an RPC is recorded. -/
theorem Draining.record (hchunk : 0 < chunk) (h : Draining cfg chunk total s) {p : ℕ} {r r' : Rpc}
    (hbusy : s.session.busy = some w) (hp : w.r = some p) (hr : s.session.heap[p]? = some r)
    (hrec : Recorded cfg r w r') (hinv : Inv cfg s'.session) (hmetas : MetasFit s')
    (hidle : s'.session.phase = .idle) (hpending : s'.session.pending = s.session.pending)
    (hrpcs : s'.session.rpcs = s.session.rpcs) (hheap : s'.session.heap = s.session.heap.set p r')
    (hon : s'.session.seqOn = s.session.seqOn) (hlimit : s'.session.maxDatagram = s.session.maxDatagram)
    (hnext : s'.session.nextSeq ≤ s.session.nextSeq + 1) (hrecorded : s'.recorded = s.recorded ++ [w]) :
    Draining cfg chunk total s' := by
  obtain ⟨hlive, hfresh⟩ := h.fresh w p r hbusy hp hr
  have hone := hrec.backlog hchunk (h.inv.rpc p r hr) hfresh
  rw [← h.chunk_eq] at hone
  have hle := backlog_le_owed cfg hlive hr
  have hbefore : s.session.backlog cfg = s.session.pending.length + s.session.owed cfg := rfl
  have hafter : s'.session.backlog cfg = s.session.pending.length + s'.session.owed cfg := by
    rw [← hpending]
    rfl
  have hchunk' : s'.session.chunk s'.session.useSeq = s.session.chunk s.session.useSeq :=
    chunk_congr hon hlimit fun hseq => by
      have hnumbers := h.numbers hseq
      omega
  have howed := owed_set h.inv.map hlive hr hrpcs hheap hchunk' hone
  have htotal := h.total_eq
  refine ⟨hinv, hmetas, by rw [hidle]; simp, fun w' p r hw' => ?_, hchunk'.trans h.chunk_eq, fun hseq => ?_, ?_⟩
  · rw [Session.busy, hidle] at hw'
    cases hw'
  · have hnumbers := h.numbers (hon ▸ hseq)
    omega
  · rw [hrecorded, List.length_append, List.length_singleton]
    omega

theorem Draining.step (hchunk : 0 < chunk) (h : Draining cfg chunk total s) (ha : a.Sends)
    (hstep : Sys.step cfg s a = some s') : Draining cfg chunk total s' := by
  have heff := h.inv.effect hstep
  have hinv := h.inv.step hstep
  have hmetas := h.metas.step h.inv heff
  have hnumbers := h.numbers
  have htotal := h.total_eq
  cases heff with
  | offer | malformed | packet | refused | evictIdle => exact absurd ha not_false
  | nothing => exact h
  | pick order w hphase hperm hsome hpicked =>
    refine ⟨hinv, hmetas, by simp, fun w' p r hw' hp hr => ?_, h.chunk_eq, h.numbers, h.total_eq⟩
    obtain rfl := Option.some.inj hw'
    rw [← h.chunk_eq]
    exact fresh_of_pick h.inv hperm hsome hp hr
  | hold w hphase =>
    refine ⟨hinv, hmetas, by simp, fun w' p r hw' => ?_, h.chunk_eq, h.numbers, h.total_eq⟩
    cases hw'
  | check w hphase =>
    refine ⟨hinv, hmetas, by simp, fun w' p r hw' => ?_, h.chunk_eq, h.numbers, h.total_eq⟩
    exact h.fresh w' p r (by rw [Session.busy, hphase]; exact hw')
  | sent w o m hphase ho hm =>
    refine ⟨hinv, hmetas, by simp, fun w' p r hw' => ?_, h.chunk_eq, h.numbers, h.total_eq⟩
    exact h.fresh w' p r (by rw [Session.busy, hphase]; exact hw')
  | ended w o hphase => cases step_handOver h.inv h.metas hphase ha hstep
  | recordReply w seq rest m hphase hpending hkind hr hseq hm =>
    have hbefore : s.session.backlog cfg = rest.length + 1 + s.session.owed cfg := by
      unfold Session.backlog
      rw [hpending, List.length_cons]
    refine ⟨hinv, hmetas, by simp, fun w' p r hw' => ?_, h.chunk_eq, fun hon => ?_, ?_⟩
    · cases hw'
    · have hle := hnumbers hon
      show s.session.nextSeq + (rest.length + s.session.owed cfg) ≤ maxUint32
      omega
    · show (s.recorded ++ [w]).length + (rest.length + s.session.owed cfg) = total
      rw [List.length_append, List.length_singleton]
      omega
  | record w seq p r r' m hphase hp hr hw hrec hseq hm =>
    refine h.record hchunk (by rw [Session.busy, hphase]) hp hr hrec hinv hmetas rfl rfl rfl rfl rfl rfl ?_ rfl
    simp only
    split_ifs <;> omega

/-! ## Idle at last -/

/-- A session with nothing left finds no work, and only such a session. -/
theorem pick_eq_none_iff (hchunk : 0 < chunk) (h : Draining cfg chunk total s) {order : List ℕ}
    (hperm : order.Perm s.session.live) : s.session.pick order = .ok none ↔ s.session.backlog cfg = 0 := by
  constructor
  · intro hnone
    obtain ⟨hpending, hdue⟩ := pick_eq_none hnone
    unfold Session.backlog Session.owed
    rw [hpending, List.length_nil, Nat.zero_add, List.sum_eq_zero_iff_forall_eq_nat, h.chunk_eq]
    intro n hn
    obtain ⟨p, hp, rfl⟩ := List.mem_map.mp hn
    obtain ⟨r, hr, hnone⟩ := hdue p (hperm.mem_iff.mpr hp)
    rw [hr]
    exact (due_eq_none_iff hchunk (h.inv.rpc p r hr)).mp hnone
  · intro hzero
    rcases h.inv.pick hperm with hnone | ⟨w, hw, hpicked⟩
    · exact hnone
    · unfold Session.backlog at hzero
      cases hpicked with
      | reply rest hpending =>
        rw [hpending, List.length_cons] at hzero
        omega
      | data p r hempty horder hr hdue =>
        have hle := backlog_le_owed cfg (hperm.mem_iff.mp horder) hr
        rw [h.chunk_eq] at hle
        have hnone := (due_eq_none_iff hchunk (h.inv.rpc p r hr)).mpr (by omega)
        rw [hdue] at hnone
        cases hnone

/-- The steps of the send loop that lead from one place to another. -/
def Leads (cfg : Config) (s : Sys) (more : List Act) (t : Sys) : Prop :=
  (∀ a ∈ more, a.Sends) ∧ Machine.run (Sys.step cfg) s more = some t

theorem Leads.refl (cfg : Config) (s : Sys) : Leads cfg s [] s := ⟨by simp, rfl⟩

theorem Leads.trans {t u : Sys} {more rest : List Act} (h : Leads cfg s more t) (h' : Leads cfg t rest u) :
    Leads cfg s (more ++ rest) u :=
  ⟨List.forall_mem_append.mpr ⟨h.1, h'.1⟩, Machine.run_append_iff.mpr ⟨t, h.2, h'.2⟩⟩

theorem leads_of_step (ha : a.Sends) (hstep : Sys.step cfg s a = some s') : Leads cfg s [a] s' :=
  ⟨by simpa using ha, Machine.run_cons_iff.mpr ⟨s', hstep, rfl⟩⟩

theorem Draining.leads {t : Sys} {more : List Act} (hchunk : 0 < chunk) (h : Draining cfg chunk total s)
    (hleads : Leads cfg s more t) : Draining cfg chunk total t :=
  Machine.run_while (P := Draining cfg chunk total) (fun _ _ _ ha hs hstep => hs.step hchunk ha hstep) hleads.1 h
    hleads.2

/-- What was handed over is recorded next. -/
theorem exists_recorded (hinv : Inv cfg s.session) {seq : ℕ} (hphase : s.session.phase = .handed w seq) :
    ∃ more t, Leads cfg s more t ∧ t.session.phase = .idle ∧ t.recorded = s.recorded ++ [w] := by
  obtain ⟨t, ht⟩ : ∃ t, Sys.step cfg s .record = some t := by
    unfold Sys.step
    rw [hphase]
    exact ⟨_, rfl⟩
  have hleads := leads_of_step (a := .record) trivial ht
  cases hinv.effect ht with
  | recordReply w' seq' _ _ hphase' | record w' seq' _ _ _ _ hphase' =>
    obtain ⟨rfl, rfl⟩ := Phase.handed.inj (hphase.symm.trans hphase')
    exact ⟨_, _, hleads, rfl, rfl⟩

/-- What was checked is handed over. -/
theorem exists_handed (hinv : Inv cfg s.session) (hfit : MetasFit s) (hphase : s.session.phase = .checked w) :
    ∃ more t, Leads cfg s more t ∧ t.session.phase = .idle ∧ t.recorded = s.recorded ++ [w] := by
  obtain ⟨b, hb⟩ := exists_marshal_out hinv hfit (w := w) (by rw [Session.busy, hphase])
  obtain ⟨t, ht⟩ : ∃ t, Sys.step cfg s (.handOver .sent) = some t := by
    simp only [Sys.step, hphase, Session.handOver, hb]
    exact ⟨_, rfl⟩
  have hhanded := step_handOver hinv hfit hphase (o := .sent) trivial ht
  have hrecorded : t.recorded = s.recorded := by
    cases hinv.effect ht with
    | sent | ended => rfl
  obtain ⟨more, u, hleads, hidle, hu⟩ := exists_recorded (hinv.step ht) hhanded
  exact ⟨_, u, (leads_of_step (a := .handOver .sent) trivial ht).trans hleads, hidle, hrecorded ▸ hu⟩

/-- What was picked is checked. -/
theorem exists_checked (hinv : Inv cfg s.session) (hfit : MetasFit s) (hphase : s.session.phase = .picked w) :
    ∃ more t, Leads cfg s more t ∧ t.session.phase = .idle ∧ t.recorded = s.recorded ++ [w] := by
  have ht : Sys.step cfg s .check = some { s with session := { s.session with phase := .checked w } } := by
    simp only [Sys.step, hphase, hinv.check hphase]
  have hfit' := hfit.step hinv (hinv.effect ht)
  obtain ⟨more, u, hleads, hidle, hu⟩ := exists_handed (hinv.step ht) hfit' rfl
  exact ⟨_, u, (leads_of_step (a := .check) trivial ht).trans hleads, hidle, hu⟩

/-- **The send loop gets back to the top**, from wherever it stands. -/
theorem Draining.exists_idle (h : Draining cfg chunk total s) :
    ∃ more t, Leads cfg s more t ∧ t.session.phase = .idle := by
  cases hphase : s.session.phase with
  | idle => exact ⟨[], s, .refl cfg s, hphase⟩
  | picked w =>
    obtain ⟨more, t, hleads, hidle, -⟩ := exists_checked h.inv h.metas hphase
    exact ⟨more, t, hleads, hidle⟩
  | checked w =>
    obtain ⟨more, t, hleads, hidle, -⟩ := exists_handed h.inv h.metas hphase
    exact ⟨more, t, hleads, hidle⟩
  | handed w seq =>
    obtain ⟨more, t, hleads, hidle, -⟩ := exists_recorded h.inv hphase
    exact ⟨more, t, hleads, hidle⟩
  | ended => exact absurd hphase h.going
  | panicked => exact absurd hphase h.inv.phase

/-- **It gets through its backlog**, by induction on it: each round records one work. -/
theorem Draining.exists_drained (hchunk : 0 < chunk) (h : Draining cfg chunk total s)
    (hidle : s.session.phase = .idle) {n : ℕ} (hn : s.session.backlog cfg = n) :
    ∃ more t, Leads cfg s more t ∧ t.session.phase = .idle ∧ t.session.backlog cfg = 0 := by
  induction n generalizing s with
  | zero => exact ⟨[], s, .refl cfg s, hidle, hn⟩
  | succ n ih =>
    have hsome : ∃ w, s.session.pick s.session.live = .ok (some w) := by
      rcases h.inv.pick (List.Perm.refl s.session.live) with hnone | ⟨w, hw, -⟩
      · have hzero := (pick_eq_none_iff hchunk h (List.Perm.refl _)).mp hnone
        omega
      · exact ⟨w, hw⟩
    obtain ⟨w, hw⟩ := hsome
    have ht : Sys.step cfg s (.pick s.session.live) =
        some { s with session := { s.session with phase := .picked w } } := by
      simp only [Sys.step, hidle, List.Perm.refl, if_true, hw]
    have hdraining := h.step hchunk (a := .pick s.session.live) trivial ht
    obtain ⟨more, u, hleads, hidle', hu⟩ := exists_checked hdraining.inv hdraining.metas rfl
    have hleads' := (leads_of_step (a := .pick s.session.live) trivial ht).trans hleads
    have hnext := h.leads hchunk hleads'
    have hless : u.session.backlog cfg = n := by
      have htotal := h.total_eq
      have htotal' := hnext.total_eq
      rw [hu, List.length_append, List.length_singleton] at htotal'
      simp only at htotal'
      omega
    obtain ⟨rest, v, hrest, hv⟩ := ih hnext hidle' hless
    exact ⟨_, v, hleads'.trans hrest, hv⟩

/-- From the top of the loop the backlog is what is left, if the sequence numbers last. -/
theorem draining_of_idle (hreach : Machine.Reachable (Sys.step cfg) (Sys.init cfg) s)
    (hidle : s.session.phase = .idle) (hlimit : s.session.maxDatagram ≤ 65535)
    (hnumbers : s.session.seqOn = true → s.session.nextSeq + s.session.backlog cfg ≤ maxUint32) :
    ∃ chunk, 0 < chunk ∧ Draining cfg chunk (s.recorded.length + s.session.backlog cfg) s := by
  obtain ⟨hexact, -⟩ := chunk_exact hlimit s.session.useSeq
  have hchunk : 0 < s.session.chunk s.session.useSeq := by
    have hone : 1 ≤ s.session.chunkInt s.session.useSeq := by
      unfold Session.chunkInt
      split_ifs <;> exact le_max_left _ _
    omega
  refine ⟨_, hchunk, inv_reachable hreach, metasFit_reachable hreach, by rw [hidle]; simp, fun w p r hw => ?_, rfl,
    hnumbers, rfl⟩
  rw [Session.busy, hidle] at hw
  cases hw

/-- It can go on until nothing is left. -/
theorem Draining.exists_end (hchunk : 0 < chunk) (h : Draining cfg chunk total s) :
    ∃ more t, Leads cfg s more t ∧ t.session.phase = .idle ∧ t.session.backlog cfg = 0 := by
  obtain ⟨back, t, hback, hidle⟩ := h.exists_idle
  obtain ⟨rest, u, hrest, hidle', hzero⟩ := (h.leads hchunk hback).exists_drained hchunk hidle rfl
  exact ⟨back ++ rest, u, hback.trans hrest, hidle', hzero⟩

/-- **The send loop drains.** From any reachable state in which it stands at the top,
    as long as no packet arrives, nothing is evicted, the connection accepts what it gets
    and the sequence numbers last:

    * what has been recorded and what is left add up to the same number at all times, so
      it hands over exactly its backlog, in whatever order the RPCs are visited and
      whatever loss injection discards;
    * `pick` reports no work exactly if the backlog is used up;
    * wherever it stands, it can go on until it is; every live RPC has then sent what is
      granted, has no span and no duplicate queued and has answered every REQ. -/
theorem drains (cfg : Config) (acts : List Act) (s : Sys)
    (hrun : Machine.run (Sys.step cfg) (Sys.init cfg) acts = some s) (hidle : s.session.phase = .idle)
    (hlimit : s.session.maxDatagram ≤ 65535)
    (hnumbers : s.session.seqOn = true → s.session.nextSeq + s.session.backlog cfg ≤ maxUint32)
    (more : List Act) (t : Sys) (hsends : ∀ a ∈ more, a.Sends)
    (hmore : Machine.run (Sys.step cfg) s more = some t) :
    t.recorded.length + t.session.backlog cfg = s.recorded.length + s.session.backlog cfg ∧
    (∀ order, order.Perm t.session.live → (t.session.pick order = .ok none ↔ t.session.backlog cfg = 0)) ∧
    ∃ rest u, (∀ a ∈ rest, a.Sends) ∧ Machine.run (Sys.step cfg) t rest = some u ∧
      u.session.phase = .idle ∧ u.session.backlog cfg = 0 ∧ u.session.pending = [] ∧
      ∀ e ∈ u.session.rpcs, ∃ r, u.session.heap[e.2]? = some r ∧ r.next = r.granted ∧ r.resends = [] ∧
        r.tailDup = none ∧ r.metaSent = r.packet0Req ∧ r.packet0Sent = r.packet0Req := by
  obtain ⟨chunk, hchunk, hstart⟩ := draining_of_idle ⟨acts, hrun⟩ hidle hlimit hnumbers
  have ht := hstart.leads hchunk ⟨hsends, hmore⟩
  refine ⟨ht.total_eq, fun order hperm => pick_eq_none_iff hchunk ht hperm, ?_⟩
  obtain ⟨rest, u, hleads, hu, hzero⟩ := ht.exists_end hchunk
  have hfinal := ht.leads hchunk hleads
  obtain ⟨hpending, hdue⟩ := pick_eq_none ((pick_eq_none_iff hchunk hfinal (List.Perm.refl _)).mpr hzero)
  refine ⟨rest, u, hleads.1, hleads.2, hu, hzero, hpending, fun e he => ?_⟩
  obtain ⟨r, hr, hnone⟩ := hdue e.2 (List.mem_map_of_mem he)
  obtain ⟨hnext, hresends, htail, hmeta, hsent⟩ := due_eq_none (hfinal.inv.rpc e.2 r hr) hnone
  exact ⟨r, hr, hnext, hresends, htail, hmeta, hsent⟩

end Drains

/-- META, packet 0 and the copy of the tail: three datagrams, and then no more. -/
theorem drains_tail : ∃ s t, Machine.run (Sys.step tailConfig) (Sys.init tailConfig)
      (clientSends (smallReq 5) 0) = some s ∧ s.session.backlog tailConfig = 3 ∧
    Machine.run (Sys.step tailConfig) s (serverSends [0] ++ serverSends [0] ++ serverSends [0]) = some t ∧
    t.session.pick [0] = .ok none := by
  obtain ⟨s, hrun, hP⟩ := exists_run_of_any tailConfig (clientSends (smallReq 5) 0)
    (P := fun s => decide (s.session.phase = .idle) && decide (s.session.maxDatagram ≤ 65535) &&
      decide (s.session.seqOn = false) && decide (s.session.backlog tailConfig = 3) &&
      decide (s.recorded.length = 0) &&
      (Machine.run (Sys.step tailConfig) s (serverSends [0] ++ serverSends [0] ++ serverSends [0])).any fun t : Sys =>
        decide (t.recorded.length = 3) && decide (t.session.live = [0])) (by decide +kernel)
  simp only [Bool.and_eq_true, decide_eq_true_eq] at hP
  obtain ⟨⟨⟨⟨⟨hidle, hlimit⟩, hseq⟩, hthree⟩, hnone⟩, hmore⟩ := hP
  obtain ⟨t, hmore, ht⟩ := (Option.any_eq_true _ _).mp hmore
  simp only [Bool.and_eq_true, decide_eq_true_eq] at ht
  obtain ⟨htotal, hpick, -⟩ := drains tailConfig _ s hrun hidle hlimit (by rw [hseq]; simp) _ t
    (by simp [serverSends, Act.Sends]) hmore
  refine ⟨s, t, hrun, hthree, hmore, (hpick [0] (by rw [ht.2])).mpr ?_⟩
  omega

end Http4.Sender
