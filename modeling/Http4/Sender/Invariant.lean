import Http4.Data.Machine
import Http4.Sender.Steps

/-!
# The sender's state invariant

`RpcOk` is what holds of every RPC at all times, `WorkOk` what holds of an RPC
and the work picked for it until that work is recorded. The receive loop may
touch the RPC in between; `WorkOk.touch` says that the work stays good.

Main results:

* `exists_workOf`: the work for what an RPC has due can be made, and is good.
* `exists_record`: what recording a good work changes.
* `Inv.handle`: handling a packet keeps the invariant of the session.
-/

namespace Http4.Sender

open Wire (Packet)

/-! ## RPCs -/

/-- What holds of the fields of an RPC. -/
structure RpcShape (r : Rpc) : Prop where
  size_lt : r.size < 2 ^ 32
  size_le : r.size ≤ r.asset.length
  next_le : r.next ≤ r.granted
  granted_le : r.granted ≤ r.size
  packet0_le : r.packet0Sent ≤ r.metaSent
  meta_le : r.metaSent ≤ r.packet0Req
  spans : ∀ sp ∈ r.resends, sp.start < sp.stop ∧ sp.stop ≤ r.next
  tail : ∀ sp, r.tailDup = some sp →
    sp.start ≤ sp.stop ∧ sp.stop = r.size ∧ r.next = r.size ∧ r.tailDuped = true

/-- What holds of every RPC: besides its shape, one that was sent whole has had
    its tail duplicate queued. -/
structure RpcOk (cfg : Config) (r : Rpc) : Prop extends RpcShape r where
  duped : 0 < r.size → (r.size : ℤ) ≤ cfg.tailDuplicate → r.next = r.size → r.tailDuped = true

section RpcOk

variable {cfg : Config} {r : Rpc}

theorem RpcOk.request (h : RpcOk cfg r) (g : ℕ) (now : ℤ) : RpcOk cfg (r.request g now) := by
  have hnext := h.next_le
  have hgranted := h.granted_le
  have hmeta := h.meta_le
  refine { h with next_le := ?_, granted_le := ?_, meta_le := ?_ } <;>
    simp only [Rpc.request, Rpc.raiseGrant] <;> omega

theorem RpcOk.grant (h : RpcOk cfg r) (g : ℕ) (now : ℤ) : RpcOk cfg (r.grant g now) := by
  have hnext := h.next_le
  have hgranted := h.granted_le
  refine { h with next_le := ?_, granted_le := ?_ } <;>
    simp only [Rpc.grant, Rpc.raiseGrant] <;> omega

theorem RpcOk.resend (h : RpcOk cfg r) (a b : ℕ) (now : ℤ) : RpcOk cfg (r.resend a b now) := by
  refine { h with spans := ?_ }
  rcases resends_resend r a b now with ⟨heq, -⟩ | ⟨hlt, heq⟩
  · rw [heq]; exact h.spans
  · rw [heq, List.forall_mem_append, List.forall_mem_singleton]
    exact ⟨h.spans, hlt, by simp only [Rpc.resend]; omega⟩

theorem RpcOk.resendSeq (h : RpcOk cfg r) (off n : ℕ) (now : ℤ) :
    RpcOk cfg (r.resendSeq off n now) := by
  refine { h with spans := ?_ }
  have hspans := h.spans
  rcases resends_resendSeq r off n now with ⟨heq, -⟩ | ⟨hlt, heq⟩ | ⟨hlt, front, last, hr, hlast, heq⟩
  · rw [heq]; exact h.spans
  · rw [heq, List.forall_mem_append, List.forall_mem_singleton]
    exact ⟨h.spans, hlt, by simp only [Rpc.resendSeq]; omega⟩
  · rw [hr, List.forall_mem_append, List.forall_mem_singleton] at hspans
    rw [heq, List.forall_mem_append, List.forall_mem_singleton]
    exact ⟨hspans.1, by simp only; omega, by simp only [Rpc.resendSeq]; omega⟩

theorem RpcOk.touch {pkt : Packet} {now : ℤ} {r' : Rpc} (h : RpcOk cfg r)
    (ht : Touch pkt now r r') : RpcOk cfg r' := by
  induction ht with
  | none => exact h
  | request q => exact h.request _ now
  | grant q => exact h.grant _ now
  | resend q => exact h.resend _ _ now
  | resendSeq _ off n _ ih => exact ih.resendSeq off n now

theorem rpcOk_new (id : UInt64) (a : Asset) : RpcOk cfg (Rpc.new id a) where
  size_lt := Nat.mod_lt _ (by decide)
  size_le := Nat.mod_le _ _
  next_le := le_refl _
  granted_le := Nat.zero_le _
  packet0_le := le_refl _
  meta_le := le_refl _
  spans := by simp [Rpc.new]
  tail := by simp [Rpc.new]
  duped := by simp only [Rpc.new]; omega

end RpcOk

/-! ## Work -/

/-- `d` carries the `n` bytes of the asset from `off` on. -/
structure Carries (r : Rpc) (d : Wire.Data) (off n : ℕ) : Prop where
  rpcId : d.rpcId = r.id
  totalSize : d.totalSize.toNat = r.size
  offset : d.offset.toNat = off
  payload : d.payload = Bytes.sub r.asset off (off + n)
  length : d.payload.length = n

/-- What holds of an RPC and the work picked for it. -/
inductive WorkOk (r : Rpc) (w : Work) : Prop
  | metaData (hkind : w.kind = .workMeta) (hpkt : w.pkt = .metaData r.metaData)
      (hlo : r.metaSent < w.packet0) (hhi : w.packet0 ≤ r.packet0Req)
  | packet0 (d : Wire.Data) (n : ℕ) (hkind : w.kind = .workPacket0) (hpkt : w.pkt = .data d)
      (hd : Carries r d 0 n) (hn : n ≤ r.granted) (hlo : r.packet0Sent < w.packet0)
      (hhi : w.packet0 ≤ r.metaSent)
  | resend (d : Wire.Data) (n : ℕ) (sp : Span) (rest : List Span) (hkind : w.kind = .workResend)
      (hpkt : w.pkt = .data d) (hresends : r.resends = sp :: rest) (hd : Carries r d sp.start n)
      (hn : sp.start + n ≤ sp.stop)
  | new (d : Wire.Data) (n : ℕ) (hkind : w.kind = .workNew) (hpkt : w.pkt = .data d)
      (hd : Carries r d r.next n) (hn : r.next + n ≤ r.granted)
  | tailDup (d : Wire.Data) (n off : ℕ) (hkind : w.kind = .workTailDup) (hpkt : w.pkt = .data d)
      (htail : r.tailDup = some { start := off, stop := off + n }) (hd : Carries r d off n)

theorem data?_of_pkt {w : Work} {d : Wire.Data} (h : w.pkt = .data d) : w.data? = some d := by
  rw [Work.data?, h]

theorem pkt_of_data? {w : Work} {d : Wire.Data} (h : w.data? = some d) : w.pkt = .data d := by
  unfold Work.data? at h
  split at h
  · cases h; assumption
  · cases h

section Work

variable {cfg : Config} {r r' : Rpc}

theorem Carries.congr {d : Wire.Data} {off n : ℕ} (h : Carries r d off n) (hs : r.SameSend r') :
    Carries r' d off n where
  rpcId := h.rpcId.trans hs.id.symm
  totalSize := h.totalSize.trans hs.size.symm
  offset := h.offset
  payload := by rw [hs.asset]; exact h.payload
  length := h.length

/-- A touch raises grants and generations, and changes the first span only by
    prolonging it. -/
theorem Touch.grows {pkt : Packet} {now : ℤ} (ht : Touch pkt now r r') :
    r.granted ≤ r'.granted ∧ r.packet0Req ≤ r'.packet0Req ∧
      ∀ sp rest, r.resends = sp :: rest →
        ∃ stop more, sp.stop ≤ stop ∧ r'.resends = { start := sp.start, stop := stop } :: more := by
  have hself (r : Rpc) (sp : Span) (rest : List Span) (h : r.resends = sp :: rest) :
      ∃ stop more, sp.stop ≤ stop ∧ r.resends = { start := sp.start, stop := stop } :: more :=
    ⟨sp.stop, rest, le_refl _, h⟩
  induction ht with
  | none => exact ⟨le_refl _, le_refl _, hself r⟩
  | request q => exact ⟨le_max_left _ _, Nat.le_succ _, hself r⟩
  | grant q => exact ⟨le_max_left _ _, le_refl _, hself r⟩
  | resend q =>
    refine ⟨le_refl _, le_refl _, fun sp rest hr => ?_⟩
    rcases resends_resend r q.start.toNat q.stop.toNat now with ⟨heq, -⟩ | ⟨-, heq⟩
    · exact ⟨sp.stop, rest, le_refl _, by rw [heq, hr]⟩
    · exact ⟨sp.stop, rest ++ [_], le_refl _, by rw [heq, hr, List.cons_append]⟩
  | resendSeq t off n ht ih =>
    obtain ⟨hgranted, hreq, hspan⟩ := ih
    refine ⟨hgranted, hreq, fun sp rest hr => ?_⟩
    obtain ⟨stop, more, hle, ht'⟩ := hspan sp rest hr
    rcases resends_resendSeq t off n now with ⟨heq, -⟩ | ⟨-, heq⟩ | ⟨hlt, front, last, hlast, hoff, heq⟩
    · exact ⟨stop, more, hle, by rw [heq, ht']⟩
    · exact ⟨stop, more ++ [_], hle, by rw [heq, ht', List.cons_append]⟩
    · -- the last span is prolonged; it may be the first one too
      cases front with
      | nil =>
        rw [List.nil_append, ht'] at hlast
        obtain ⟨rfl, rfl⟩ := List.cons.inj hlast
        exact ⟨_, [], by simp only at hoff; omega, heq⟩
      | cons f front =>
        rw [List.cons_append, ht'] at hlast
        obtain ⟨rfl, rfl⟩ := List.cons.inj hlast
        exact ⟨stop, _, hle, heq⟩

theorem WorkOk.touch {pkt : Packet} {now : ℤ} {w : Work} (hw : WorkOk r w)
    (ht : Touch pkt now r r') : WorkOk r' w := by
  have hs := ht.sameSend
  obtain ⟨hgranted, hreq, hspan⟩ := ht.grows
  cases hw with
  | metaData hkind hpkt hlo hhi =>
    exact .metaData hkind (by rw [hs.metaData]; exact hpkt) (by rw [hs.metaSent]; exact hlo)
      (hhi.trans hreq)
  | packet0 d n hkind hpkt hd hn hlo hhi =>
    exact .packet0 d n hkind hpkt (hd.congr hs) (hn.trans hgranted)
      (by rw [hs.packet0Sent]; exact hlo) (by rw [hs.metaSent]; exact hhi)
  | resend d n sp rest hkind hpkt hresends hd hn =>
    obtain ⟨stop, more, hle, hr'⟩ := hspan sp rest hresends
    exact .resend d n _ more hkind hpkt hr' (hd.congr hs) (hn.trans hle)
  | new d n hkind hpkt hd hn =>
    exact .new d n hkind hpkt (by rw [hs.next]; exact hd.congr hs)
      (by rw [hs.next]; exact hn.trans hgranted)
  | tailDup d n off hkind hpkt htail hd =>
    exact .tailDup d n off hkind hpkt (by rw [hs.tailDup]; exact htail) (hd.congr hs)

/-! ### Picking -/

/-- What is due tells which field asks for it. -/
theorem due_eq_some {kind : WorkKind} (h : r.due = some kind) :
    (kind = .workMeta ∧ r.metaSent < r.packet0Req) ∨
    (kind = .workPacket0 ∧ r.packet0Req ≤ r.metaSent ∧ r.packet0Sent < r.packet0Req) ∨
    (kind = .workResend ∧ ∃ sp rest, r.resends = sp :: rest) ∨
    (kind = .workNew ∧ r.resends = [] ∧ r.next < r.granted) ∨
    (kind = .workTailDup ∧ r.granted ≤ r.next ∧ ∃ sp, r.tailDup = some sp) := by
  unfold Rpc.due at h
  split_ifs at h with h1 h2 h3 h4 h5 <;> obtain rfl := Option.some.inj h
  · exact .inl ⟨rfl, h1⟩
  · exact .inr (.inl ⟨rfl, by omega, h2⟩)
  · exact .inr (.inr (.inl ⟨rfl, List.length_pos_iff_exists_cons.mp h3⟩))
  · exact .inr (.inr (.inr (.inl ⟨rfl, List.eq_nil_of_length_eq_zero (by omega), h4⟩)))
  · exact .inr (.inr (.inr (.inr ⟨rfl, by omega, Option.isSome_iff_exists.mp h5⟩)))

theorem due_eq_none (h : RpcOk cfg r) (hdue : r.due = none) :
    r.next = r.granted ∧ r.resends = [] ∧ r.tailDup = none ∧
      r.metaSent = r.packet0Req ∧ r.packet0Sent = r.packet0Req := by
  have hnext := h.next_le
  have hsent := h.packet0_le
  have hmeta := h.meta_le
  unfold Rpc.due at hdue
  split_ifs at hdue with h1 h2 h3 h4 h5
  exact ⟨by omega, List.eq_nil_of_length_eq_zero (by omega), by simpa using h5, by omega, by omega⟩

theorem exists_data (h : RpcOk cfg r) (off n : ℕ) (hn : off + n ≤ r.size) :
    ∃ d, r.data off n = .ok (.data d) ∧ Carries r d off n := by
  have hlt := h.size_lt
  have hle := h.size_le
  have hadd : u32Add off n = off + n := u32Add_of_lt (by omega)
  refine ⟨_, by rw [Rpc.data, hadd, if_pos (by omega)], rfl, ?_, ?_, rfl, ?_⟩
  · exact UInt32.toNat_ofNat_of_lt' hlt
  · exact UInt32.toNat_ofNat_of_lt' (show off < 2 ^ 32 by omega)
  · exact (Bytes.length_sub (by omega)).trans (by omega)

/-- The fields of a work besides its packet, which `pick` sets alike for all
    kinds. -/
structure WorkFor (s : Session) (p : ℕ) (kind : WorkKind) (w : Work) : Prop where
  rpc : w.r = some p
  kind : w.kind = kind
  seq : w.seq = (s.useSeq && w.data?.isSome)

/-- **The work for what is due** can be made, and is good. -/
theorem exists_workOf (s : Session) (h : RpcOk cfg r) (p : ℕ) {kind : WorkKind}
    (hdue : r.due = some kind) :
    ∃ w, s.workOf r p kind = .ok w ∧ WorkOk r w ∧ WorkFor s p kind w := by
  have hlt := h.size_lt
  have hnext := h.next_le
  have hgranted := h.granted_le
  rcases due_eq_some hdue with ⟨rfl, hreq⟩ | ⟨rfl, hmeta, hreq⟩ | ⟨rfl, sp, rest, hsp⟩ |
    ⟨rfl, -, hnew⟩ | ⟨rfl, -, sp, hsp⟩
  · exact ⟨_, rfl, .metaData rfl rfl hreq (le_refl _), rfl, rfl, by simp [Work.data?]⟩
  · obtain ⟨d, hd, hc⟩ := exists_data h 0 (min (s.chunk s.useSeq) r.granted) (by omega)
    refine ⟨_, by simp only [Session.workOf, hd]; rfl, ?_, rfl, rfl, by simp [Work.data?]⟩
    exact .packet0 d _ rfl rfl hc (min_le_right _ _) hreq hmeta
  · obtain ⟨hne, hle⟩ := h.spans sp (by rw [hsp]; exact List.mem_cons_self)
    have hsub : u32Sub sp.stop sp.start = sp.stop - sp.start := u32Sub_of_le hne.le (by omega)
    obtain ⟨d, hd, hc⟩ := exists_data h sp.start
      (min (s.chunk s.useSeq) (sp.stop - sp.start)) (by omega)
    refine ⟨_, by simp only [Session.workOf, hsp, hsub, hd]; rfl, ?_, rfl, rfl, by simp [Work.data?]⟩
    exact .resend d _ sp rest rfl rfl hsp hc (by omega)
  · have hsub : u32Sub r.granted r.next = r.granted - r.next := u32Sub_of_le hnext (by omega)
    obtain ⟨d, hd, hc⟩ := exists_data h r.next
      (min (s.chunk s.useSeq) (r.granted - r.next)) (by omega)
    refine ⟨_, by simp only [Session.workOf, hsub, hd]; rfl, ?_, rfl, rfl, by simp [Work.data?]⟩
    exact .new d _ rfl rfl hc (by omega)
  · obtain ⟨hle, hstop, -, -⟩ := h.tail sp hsp
    have hsub : u32Sub sp.stop sp.start = sp.stop - sp.start := u32Sub_of_le hle (by omega)
    obtain ⟨d, hd, hc⟩ := exists_data h sp.start (sp.stop - sp.start) (by omega)
    refine ⟨_, by simp only [Session.workOf, hsp, hsub, hd]; rfl, ?_, rfl, rfl, by simp [Work.data?]⟩
    exact .tailDup d _ sp.start rfl rfl (by rw [hsp, Nat.add_sub_cancel' hle]) hc

/-! ### Recording -/

/-- The payload bytes a work carries. -/
def Work.len (w : Work) : ℕ := match w.data? with
  | some d => d.payload.length
  | none => 0

/-- The offset of its payload. -/
def Work.off (w : Work) : ℕ := match w.data? with
  | some d => d.offset.toNat
  | none => 0

/-- `next` once `w` is recorded. -/
def Rpc.nextAfter (r : Rpc) (w : Work) : ℕ := match w.kind with
  | .workPacket0 => max r.next w.len
  | .workNew => r.next + w.len
  | _ => r.next

/-- The spans left when `n` bytes of the first one have been sent. -/
def dropFront (n : ℕ) : List Span → List Span
  | [] => []
  | sp :: rest =>
    if sp.stop ≤ sp.start + n then rest else { start := sp.start + n, stop := sp.stop } :: rest

/-- `resends` once `w` is recorded. -/
def Rpc.resendsAfter (r : Rpc) (w : Work) : List Span := match w.kind with
  | .workResend => dropFront w.len r.resends
  | _ => r.resends

/-- Recording `w` queues the tail duplicate: `w` is what completes a small RPC. -/
def Rpc.CompletedBy (cfg : Config) (r : Rpc) (w : Work) : Prop :=
  w.kind ≠ .workResend ∧ w.data?.isSome ∧ r.tailDuped = false ∧ 0 < r.size ∧
    (r.size : ℤ) ≤ cfg.tailDuplicate ∧ r.nextAfter w = r.size

instance (cfg : Config) (r : Rpc) (w : Work) : Decidable (r.CompletedBy cfg w) :=
  inferInstanceAs (Decidable (_ ∧ _))

/-- `tailDup` once `w` is recorded. -/
def Rpc.tailAfter (cfg : Config) (r : Rpc) (w : Work) : Option Span :=
  if r.CompletedBy cfg w then some { start := w.off, stop := w.off + w.len }
  else if w.kind = .workTailDup then none else r.tailDup

/-- The RPC `r` once `w` is recorded. -/
structure Recorded (cfg : Config) (r : Rpc) (w : Work) (r' : Rpc) : Prop where
  id : r'.id = r.id
  asset : r'.asset = r.asset
  metaData : r'.metaData = r.metaData
  size : r'.size = r.size
  granted : r'.granted = r.granted
  packet0Req : r'.packet0Req = r.packet0Req
  next : r'.next = r.nextAfter w
  resends : r'.resends = r.resendsAfter w
  metaSent : r'.metaSent = if w.kind = .workMeta then w.packet0 else r.metaSent
  packet0Sent : r'.packet0Sent = if w.kind = .workPacket0 then w.packet0 else r.packet0Sent
  tailDuped : r'.tailDuped = (r.tailDuped || decide (r.CompletedBy cfg w))
  tailDup : r'.tailDup = r.tailAfter cfg w
  ok : RpcOk cfg r'

/-- Queuing the tail duplicate of `d`, which was just sent. -/
theorem RpcShape.queueTail {w : Work} {d : Wire.Data} (h : RpcShape r)
    (hduped : w.kind = .workResend → 0 < r.size → (r.size : ℤ) ≤ cfg.tailDuplicate →
      r.next = r.size → r.tailDuped = true)
    (hlast : 0 < r.size → (r.size : ℤ) ≤ cfg.tailDuplicate → r.next = r.size → ¬ r.tailDuped →
      d.offset.toNat + d.payload.length = r.size) :
    RpcOk cfg (r.queueTail cfg w d) := by
  have hlt := h.size_lt
  unfold Rpc.queueTail
  split_ifs with hcond
  · obtain ⟨-, hdup, -, hpos, hle, hnext⟩ := hcond
    have hstop := hlast hpos hle hnext hdup
    have hlen : u32 d.payload.length = d.payload.length := u32_of_lt (by omega)
    refine { h with tail := ?_, duped := fun _ _ _ => rfl }
    intro sp hsp
    obtain rfl := Option.some.inj hsp
    simp only [hlen, u32Add_of_lt (show d.offset.toNat + d.payload.length < 2 ^ 32 by omega)]
    exact ⟨Nat.le_add_right _ _, hstop, hnext, trivial⟩
  · refine { h with duped := fun hpos hle hnext => ?_ }
    by_contra hdup
    by_cases hkind : w.kind = .workResend
    · exact hdup (hduped hkind hpos hle hnext)
    · exact hcond ⟨by omega, hdup, hkind, hpos, hle, hnext⟩

/-- The fields that `sent` keeps, and those it sets. -/
structure SentAs (r : Rpc) (w : Work) (t : Rpc) : Prop where
  id : t.id = r.id
  asset : t.asset = r.asset
  metaData : t.metaData = r.metaData
  size : t.size = r.size
  granted : t.granted = r.granted
  packet0Req : t.packet0Req = r.packet0Req
  next : t.next = r.nextAfter w
  resends : t.resends = r.resendsAfter w
  metaSent : t.metaSent = r.metaSent
  packet0Sent : t.packet0Sent = if w.kind = .workPacket0 then w.packet0 else r.packet0Sent
  tailDuped : t.tailDuped = r.tailDuped
  tailDup : t.tailDup = if w.kind = .workTailDup then none else r.tailDup

theorem recorded_queueTail {w : Work} {d : Wire.Data} {t : Rpc} (h : SentAs r w t)
    (hd : w.data? = some d) (hmeta : w.kind ≠ .workMeta)
    (hstop : d.offset.toNat + d.payload.length < 2 ^ 32) (hok : RpcOk cfg (t.queueTail cfg w d)) :
    Recorded cfg r w (t.queueTail cfg w d) := by
  have hlen : u32 d.payload.length = d.payload.length := u32_of_lt (by omega)
  have hiff : (cfg.tailDuplicate > 0 ∧ ¬ t.tailDuped ∧ w.kind ≠ .workResend ∧ t.size > 0 ∧
      (t.size : ℤ) ≤ cfg.tailDuplicate ∧ t.next = t.size) ↔ r.CompletedBy cfg w := by
    rw [Rpc.CompletedBy, h.tailDuped, h.size, h.next, hd, Bool.not_eq_true]
    constructor
    · rintro ⟨-, hdup, hkind, hpos, hle, hnext⟩
      exact ⟨hkind, rfl, hdup, hpos, hle, hnext⟩
    · rintro ⟨hkind, -, hdup, hpos, hle, hnext⟩
      exact ⟨by omega, hdup, hkind, hpos, hle, hnext⟩
  have hsent : (if w.kind = .workMeta then w.packet0 else r.metaSent) = r.metaSent := if_neg hmeta
  unfold Rpc.queueTail at hok ⊢
  by_cases hdone : r.CompletedBy cfg w
  · rw [if_pos (hiff.mpr hdone)] at hok ⊢
    refine ⟨h.id, h.asset, h.metaData, h.size, h.granted, h.packet0Req, h.next, h.resends,
      h.metaSent.trans hsent.symm, h.packet0Sent, by simp [hdone], ?_, hok⟩
    rw [Rpc.tailAfter, if_pos hdone]
    simp only [Work.off, Work.len, hd, hlen, u32Add_of_lt hstop]
  · rw [if_neg (mt hiff.mp hdone)] at hok ⊢
    refine ⟨h.id, h.asset, h.metaData, h.size, h.granted, h.packet0Req, h.next, h.resends,
      h.metaSent.trans hsent.symm, h.packet0Sent, by simp [hdone, h.tailDuped], ?_, hok⟩
    rw [Rpc.tailAfter, if_neg hdone]
    exact h.tailDup

/-- A work is META, or data of one of the other kinds. -/
theorem WorkOk.kind_data {w : Work} (hw : WorkOk r w) :
    (w.kind = .workMeta ∧ w.data? = none ∧ r.metaSent < w.packet0 ∧ w.packet0 ≤ r.packet0Req) ∨
    ∃ d, w.data? = some d ∧ w.kind ≠ .workControl ∧ w.kind ≠ .workMeta := by
  cases hw with
  | metaData hkind hpkt hlo hhi =>
    exact .inl ⟨hkind, by simp only [Work.data?, hpkt], hlo, hhi⟩
  | packet0 d _ hkind hpkt
  | resend d _ _ _ hkind hpkt
  | new d _ hkind hpkt
  | tailDup d _ _ hkind hpkt =>
    exact .inr ⟨d, data?_of_pkt hpkt, by rw [hkind]; decide, by rw [hkind]; decide⟩

/-- The bytes a work carries, wherever they come from, are sent or granted. -/
theorem WorkOk.carries {w : Work} (h : RpcOk cfg r) (hw : WorkOk r w) {d : Wire.Data}
    (hd : w.data? = some d) : Carries r d w.off w.len ∧ w.off + w.len ≤ r.granted := by
  have hnext := h.next_le
  have hpkt := pkt_of_data? hd
  have hwork {d' : Wire.Data} {off n : ℕ} (hdata : w.pkt = .data d') (hc : Carries r d' off n)
      (hn : off + n ≤ r.granted) : Carries r d w.off w.len ∧ w.off + w.len ≤ r.granted := by
    obtain rfl : d = d' := by rw [hpkt] at hdata; injection hdata
    have hoff : w.off = off := by simp only [Work.off, hd]; exact hc.offset
    have hlen : w.len = n := by simp only [Work.len, hd]; exact hc.length
    rw [hoff, hlen]
    exact ⟨hc, hn⟩
  cases hw with
  | metaData hkind hmeta hlo hhi =>
    rw [hpkt] at hmeta
    cases hmeta
  | packet0 d' n hkind hdata hc hn hlo hhi => exact hwork hdata hc (by omega)
  | resend d' n sp rest hkind hdata hresends hc hn =>
    obtain ⟨-, hle⟩ := h.spans sp (by rw [hresends]; exact List.mem_cons_self)
    exact hwork hdata hc (by omega)
  | new d' n hkind hdata hc hn => exact hwork hdata hc hn
  | tailDup d' n off hkind hdata htail hc =>
    obtain ⟨-, hstop, hwhole, -⟩ := h.tail _ htail
    simp only at hstop
    exact hwork hdata hc (by omega)

theorem WorkOk.u32_len {w : Work} (hw : WorkOk r w) {d : Wire.Data} (hd : w.data? = some d)
    (h : RpcOk cfg r) : u32 d.payload.length = d.payload.length := by
  obtain ⟨hc, hle⟩ := hw.carries h hd
  have hlt := h.size_lt
  have hgranted := h.granted_le
  have hlen := hc.length
  exact u32_of_lt (by omega)

/-- The bytes that a work carries end below the end of a `uint32`. -/
theorem WorkOk.stop_lt {w : Work} (hw : WorkOk r w) {d : Wire.Data} (hd : w.data? = some d) (h : RpcOk cfg r) :
    d.offset.toNat + d.payload.length < 2 ^ 32 := by
  have hlt := h.size_lt
  have hgranted := h.granted_le
  obtain ⟨hc, hle⟩ := hw.carries h hd
  rw [hc.offset, hc.length]
  omega

section Sent

variable {w : Work} {d : Wire.Data} {n : ℕ} (h : RpcOk cfg r) (hd : w.data? = some d)
  (hstop : d.offset.toNat + d.payload.length < 2 ^ 32)
include h hd hstop

theorem exists_sent_packet0 (hkind : w.kind = .workPacket0) (hc : Carries r d 0 n) (hn : n ≤ r.granted)
    (hhi : w.packet0 ≤ r.metaSent) :
    ∃ t, r.sent w (u32 d.payload.length) = .ok t ∧ Recorded cfg r w (t.queueTail cfg w d) := by
  have hgranted := h.granted_le
  have hnext := h.next_le
  have hlen : w.len = d.payload.length := by simp only [Work.len, hd]
  have hn' := hc.length
  have hu : u32 d.payload.length = d.payload.length := u32_of_lt (by omega)
  have hmax : (if r.next ≥ d.payload.length then r.next else d.payload.length) =
      max r.next d.payload.length := by split_ifs <;> omega
  refine ⟨_, by simp only [Rpc.sent, hkind, hu, hmax]; rfl, ?_⟩
  refine recorded_queueTail ⟨rfl, rfl, rfl, rfl, rfl, rfl, ?_, ?_, rfl, ?_, rfl, ?_⟩ hd
    (by rw [hkind]; decide) hstop (RpcShape.queueTail ?_ ?_ ?_)
  · simp only [Rpc.nextAfter, hkind, hlen]
  · simp only [Rpc.resendsAfter, hkind]
  · simp [hkind]
  · simp [hkind]
  · refine { h.toRpcShape with next_le := ?_, packet0_le := hhi, spans := ?_, tail := ?_ }
    · simp only; omega
    · intro sp hsp
      obtain ⟨hne, hle⟩ := h.spans sp hsp
      exact ⟨hne, hle.trans (le_max_left _ _)⟩
    · intro sp hsp
      obtain ⟨h1, h2, h3, h4⟩ := h.tail sp hsp
      exact ⟨h1, h2, by simp only; omega, h4⟩
  · intro hresend
    rw [hkind] at hresend
    cases hresend
  · -- a repeated packet 0 of an RPC sent whole: its duplicate was queued before
    intro hpos hle heq hdup
    rw [hc.offset]
    simp only at heq hpos hle ⊢
    by_cases hwhole : r.next = r.size
    · exact absurd (h.duped hpos hle hwhole) hdup
    · omega

theorem exists_sent_resend {sp : Span} {rest : List Span} (hkind : w.kind = .workResend)
    (hresends : r.resends = sp :: rest) (hc : Carries r d sp.start n) :
    ∃ t, r.sent w (u32 d.payload.length) = .ok t ∧ Recorded cfg r w (t.queueTail cfg w d) := by
  have hlen : w.len = d.payload.length := by simp only [Work.len, hd]
  have hn' := hc.length
  have hoff := hc.offset
  have hspans := h.spans
  rw [hresends, List.forall_mem_cons] at hspans
  obtain ⟨⟨hne, hle⟩, hrest⟩ := hspans
  have hu : u32 d.payload.length = d.payload.length := u32_of_lt (by omega)
  have hadd : u32Add sp.start d.payload.length = sp.start + d.payload.length := u32Add_of_lt (by omega)
  refine ⟨_, by simp only [Rpc.sent, hkind, hresends, hu, hadd]; rfl, ?_⟩
  refine recorded_queueTail ⟨rfl, rfl, rfl, rfl, rfl, rfl, ?_, ?_, rfl, ?_, rfl, ?_⟩ hd
    (by rw [hkind]; decide) hstop (RpcShape.queueTail ?_ ?_ ?_)
  · simp only [Rpc.nextAfter, hkind]
  · simp only [Rpc.resendsAfter, hkind, hlen, hresends, dropFront, ge_iff_le]
  · simp [hkind]
  · simp [hkind]
  · refine { h.toRpcShape with spans := ?_ }
    simp only
    split_ifs with hend
    · exact hrest
    · exact List.forall_mem_cons.mpr ⟨⟨by simp only; omega, hle⟩, hrest⟩
  · exact fun _ => h.duped
  · intro hpos hle' heq hdup
    exact absurd (h.duped hpos hle' heq) hdup

theorem exists_sent_new (hkind : w.kind = .workNew) (hc : Carries r d r.next n) (hn : r.next + n ≤ r.granted) :
    ∃ t, r.sent w (u32 d.payload.length) = .ok t ∧ Recorded cfg r w (t.queueTail cfg w d) := by
  have hgranted := h.granted_le
  have hlen : w.len = d.payload.length := by simp only [Work.len, hd]
  have hn' := hc.length
  have hoff := hc.offset
  have hu : u32 d.payload.length = d.payload.length := u32_of_lt (by omega)
  have hadd : u32Add r.next d.payload.length = r.next + d.payload.length := u32Add_of_lt (by omega)
  refine ⟨_, by simp only [Rpc.sent, hkind, hu, hadd]; rfl, ?_⟩
  refine recorded_queueTail ⟨rfl, rfl, rfl, rfl, rfl, rfl, ?_, ?_, rfl, ?_, rfl, ?_⟩ hd
    (by rw [hkind]; decide) hstop (RpcShape.queueTail ?_ ?_ ?_)
  · simp only [Rpc.nextAfter, hkind, hlen]
  · simp only [Rpc.resendsAfter, hkind]
  · simp [hkind]
  · simp [hkind]
  · refine { h.toRpcShape with next_le := ?_, spans := ?_, tail := ?_ }
    · simp only; omega
    · intro sp hsp
      obtain ⟨hne, hle⟩ := h.spans sp hsp
      exact ⟨hne, hle.trans (Nat.le_add_right _ _)⟩
    · intro sp hsp
      obtain ⟨h1, h2, h3, h4⟩ := h.tail sp hsp
      exact ⟨h1, h2, by simp only; omega, h4⟩
  · intro hresend
    rw [hkind] at hresend
    cases hresend
  · intro _ _ heq _
    rw [hc.offset]
    exact heq

theorem exists_sent_tailDup {sp : Span} (hkind : w.kind = .workTailDup) (htail : r.tailDup = some sp) :
    ∃ t, r.sent w (u32 d.payload.length) = .ok t ∧ Recorded cfg r w (t.queueTail cfg w d) := by
  obtain ⟨-, -, -, hdup⟩ := h.tail _ htail
  refine ⟨_, by simp only [Rpc.sent, hkind]; rfl, ?_⟩
  refine recorded_queueTail ⟨rfl, rfl, rfl, rfl, rfl, rfl, ?_, ?_, rfl, ?_, rfl, ?_⟩ hd
    (by rw [hkind]; decide) hstop (RpcShape.queueTail ?_ ?_ ?_)
  · simp only [Rpc.nextAfter, hkind]
  · simp only [Rpc.resendsAfter, hkind]
  · simp [hkind]
  · simp [hkind]
  · exact { h.toRpcShape with tail := by simp }
  · exact fun _ => h.duped
  · intro _ _ _ hnot
    exact absurd hdup hnot

end Sent

/-- Recording data never panics, and keeps what holds of the RPC. -/
theorem exists_sent (h : RpcOk cfg r) {w : Work} (hw : WorkOk r w) {d : Wire.Data} (hd : w.data? = some d) :
    ∃ t, r.sent w (u32 d.payload.length) = .ok t ∧ Recorded cfg r w (t.queueTail cfg w d) := by
  have hstop := hw.stop_lt hd h
  have hsame {d' : Wire.Data} (hdata : w.pkt = .data d') : d' = d :=
    Option.some.inj ((data?_of_pkt hdata).symm.trans hd)
  cases hw with
  | metaData hkind hmeta hlo hhi =>
    rw [pkt_of_data? hd] at hmeta
    cases hmeta
  | packet0 d' n hkind hdata hc hn hlo hhi =>
    obtain rfl := hsame hdata
    exact exists_sent_packet0 h hd hstop hkind hc hn hhi
  | resend d' n sp rest hkind hdata hresends hc hn =>
    obtain rfl := hsame hdata
    exact exists_sent_resend h hd hstop hkind hresends hc
  | new d' n hkind hdata hc hn =>
    obtain rfl := hsame hdata
    exact exists_sent_new h hd hstop hkind hc hn
  | tailDup d' n off hkind hdata htail hc => exact exists_sent_tailDup h hd hstop hkind htail

/-- **What recording a work changes**: the RPC is `Recorded`, the send loop is idle
    again, and a DATA_SEQ takes its number's place in the ring. -/
theorem exists_record {s : Session} {w : Work} {p : ℕ} (seq : ℕ) (h : RpcOk cfg r) (hw : WorkOk r w)
    (hp : w.r = some p) (hr : s.heap[p]? = some r) (hseq : w.seq = true → w.data?.isSome) :
    ∃ r' m, s.record cfg w seq =
        { s with
          heap := s.heap.set p r'
          phase := .idle
          nextSeq := if w.seq then s.nextSeq + 1 else s.nextSeq
          ring := if w.seq then
              Function.update s.ring (seq % seqRingSize)
                { seq := seq, valid := true, resent := false, rpc := r.id, off := w.off, n := w.len }
            else s.ring
          metrics := m } ∧
      s.metrics.Counts m w.len (r.resentBytes w.kind w.len) ∧ Recorded cfg r w r' := by
  rcases hw.kind_data with ⟨hkind, hnone, hlo, hhi⟩ | ⟨d, hd, hcontrol, hmeta⟩
  · have hno : w.seq = false := by
      by_contra hyes
      rw [hnone] at hseq
      exact Bool.false_ne_true (hseq (by simpa using hyes))
    refine ⟨{ r with metaSent := w.packet0 },
      { s.metrics with metaPackets := s.metrics.metaPackets + 1 }, ?_, ?_, ?_⟩
    · simp only [Session.record, hkind, hp, hno, Session.update, Bool.false_eq_true, if_false,
        List.modify_eq_set_getElem?, hr]
      rfl
    · have hlen : w.len = 0 := by simp only [Work.len, hnone]
      rw [hlen, hkind]
      exact ⟨rfl, rfl, rfl⟩
    · have hnot : ¬ r.CompletedBy cfg w := fun hdone => by simp [Rpc.CompletedBy, hnone] at hdone
      refine ⟨rfl, rfl, rfl, rfl, rfl, rfl, by simp only [Rpc.nextAfter, hkind],
        by simp only [Rpc.resendsAfter, hkind], by simp [hkind], by simp [hkind], by simp [hnot],
        by simp [Rpc.tailAfter, hnot, hkind], { h with packet0_le := ?_, meta_le := hhi }⟩
      exact h.packet0_le.trans hlo.le
  · obtain ⟨t, ht, hrec⟩ := exists_sent h hw hd
    obtain ⟨m, hm, hcounts⟩ := record_data cfg seq hcontrol hmeta hp hd hr ht
    have hlen : u32 d.payload.length = w.len := by
      rw [hw.u32_len hd h, Work.len, hd]
    have hpayload : d.payload.length = w.len := by simp only [Work.len, hd]
    rw [hlen, hpayload] at hcounts
    refine ⟨_, m, ?_, hcounts, hrec⟩
    rw [hm, hlen]
    simp only [Work.off, hd]

end Work

/-! ## The session -/

/-- The work the send loop is busy with. -/
def Session.busy (s : Session) : Option Work := match s.phase with
  | .picked w => some w
  | .checked w => some w
  | .handed w _ => some w
  | _ => none

/-- What holds of the work the send loop is busy with: it is the first reply that
    waits, or it is good for its RPC. -/
inductive Doing (s : Session) (w : Work) : Prop
  | reply (rest : List Packet) (hpending : s.pending = w.pkt :: rest) (hr : w.r = none)
      (hkind : w.kind = .workControl) (hseq : w.seq = false)
  | data (p : ℕ) (r : Rpc) (hp : w.r = some p) (hr : s.heap[p]? = some r) (hw : WorkOk r w)
      (hseq : w.seq = true → w.data?.isSome)

/-- **The sender's invariant.** -/
structure Inv (cfg : Config) (s : Session) : Prop where
  map : MapOk s
  rpc : ∀ (p : ℕ) (r : Rpc), s.heap[p]? = some r → RpcOk cfg r
  work : ∀ w, s.busy = some w → Doing s w
  pending : ∀ pkt ∈ s.pending, ∃ e, pkt = .error e
  phase : s.phase ≠ .panicked
  ungranted : s.metrics.ungrantedSent = 0

section Session

variable {cfg : Config} {s : Session}

theorem inv_init : Inv cfg (Session.init cfg) where
  map := ⟨by simp [Session.init], by simp [Session.init]⟩
  rpc := by simp [Session.init]
  work := by simp [Session.init, Session.busy]
  pending := by simp [Session.init]
  phase := by simp [Session.init]
  ungranted := rfl

/-- A work in hand for an RPC is one of its own. -/
theorem Inv.exists_workOk (h : Inv cfg s) {w : Work} {p : ℕ} (hbusy : s.busy = some w) (hp : w.r = some p) :
    ∃ r, s.heap[p]? = some r ∧ WorkOk r w := by
  cases h.work w hbusy with
  | reply rest hpending hr =>
    rw [hp] at hr
    cases hr
  | data q r hq hr hw =>
    obtain rfl := Option.some.inj (hp.symm.trans hq)
    exact ⟨r, hr, hw⟩

theorem Inv.workOk (h : Inv cfg s) {w : Work} {p : ℕ} {r : Rpc} (hbusy : s.busy = some w) (hp : w.r = some p)
    (hr : s.heap[p]? = some r) : WorkOk r w := by
  obtain ⟨t, ht, hw⟩ := h.exists_workOk hbusy hp
  obtain rfl := Option.some.inj (hr.symm.trans ht)
  exact hw

/-- The invariant when only the place of the send loop and the fields it does not
    speak of change. -/
theorem Inv.congr {s' : Session} (h : Inv cfg s) (hheap : s'.heap = s.heap) (hrpcs : s'.rpcs = s.rpcs)
    (hpending : s'.pending = s.pending) (hwork : ∀ w, s'.busy = some w → Doing s w)
    (hphase : s'.phase ≠ .panicked)
    (hungranted : s'.metrics.ungrantedSent = s.metrics.ungrantedSent) : Inv cfg s' where
  map := ⟨by rw [hrpcs, hheap]; exact h.map.mem, by rw [hrpcs]; exact h.map.nodup⟩
  rpc := by rw [hheap]; exact h.rpc
  work := by
    intro w hw
    cases hwork w hw with
    | reply rest hp hr hkind hseq => exact .reply rest (hpending.trans hp) hr hkind hseq
    | data p r hp hr hw hseq => exact .data p r hp (by rw [hheap]; exact hr) hw hseq
  pending := by rw [hpending]; exact h.pending
  phase := hphase
  ungranted := hungranted.trans h.ungranted

theorem Inv.handle (h : Inv cfg s) (now : ℤ) (got : GetResult) (pkt : Packet) :
    Inv cfg (s.handle cfg now got pkt) where
  map := h.map.handle
  rpc := by
    intro p r' hr'
    rcases heap_handle h.map hr' with ⟨r, hr, ht⟩ | ⟨-, q, a, -, -, -, rfl⟩
    · exact (h.rpc p r hr).touch ht
    · exact (rpcOk_new q.rpcId a).request _ now
  work := by
    intro w hw
    rw [Session.busy, (sameLoop_handle cfg s now got pkt).phase] at hw
    cases h.work w hw with
    | reply rest hpending hr hkind hseq =>
      obtain ⟨more, hmore, -⟩ := pending_handle cfg s now got pkt
      exact .reply (rest ++ more) (by rw [hmore, hpending, List.cons_append]) hr hkind hseq
    | data p r hp hr hw hseq =>
      obtain ⟨r', hr', ht⟩ := exists_touch cfg now got pkt h.map hr
      exact .data p r' hp hr' (hw.touch ht) hseq
  pending := by
    obtain ⟨more, hmore, herror⟩ := pending_handle cfg s now got pkt
    rw [hmore]
    exact List.forall_mem_append.mpr ⟨h.pending, herror⟩
  phase := by
    rw [(sameLoop_handle cfg s now got pkt).phase]
    exact h.phase
  ungranted := by
    rw [(sameLoop_handle cfg s now got pkt).counts.ungrantedSent]
    exact h.ungranted

end Session

end Http4.Sender
