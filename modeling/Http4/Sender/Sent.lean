import Http4.Sender.Numbering

/-!
# Sent bytes, and the sender's state invariant

The bytes recorded as sent for an RPC, in packet 0 or as new data, are those
below its `next`. With the invariant of the session that gives the state
invariant of the sender: its fields stay in order, its `uint32` arithmetic is
exact, and it does not run out of work while there is some.

Main results:

* `SentBelow.step`: the bytes recorded as sent are always `[0, next)`.
* `sender_invariant`: the state invariant, over every run.
-/

namespace Http4.Sender

open Wire (Packet)

/-! ## The bytes recorded as sent -/

/-- The bytes recorded as sent for the RPC at `p`, in packet 0 or as new data. -/
def Sys.sentNew (s : Sys) (p : ℕ) : Set ℕ :=
  {x | ∃ w ∈ s.recorded, w.r = some p ∧ (w.kind = .workPacket0 ∨ w.kind = .workNew) ∧
    w.off ≤ x ∧ x < w.off + w.len}

/-- The bytes recorded as sent are those below `next`. -/
structure SentBelow (s : Sys) : Prop where
  known : ∀ w ∈ s.recorded, ∀ p, w.r = some p → p < s.session.heap.length
  bytes : ∀ (p : ℕ) (r : Rpc), s.session.heap[p]? = some r → s.sentNew p = Set.Iio r.next
  numbers : ∀ d ∈ s.numbers, d.offset.toNat + d.payload.length < 2 ^ 32

section SentBelow

variable {cfg : Config} {s s' : Sys} {r : Rpc} {w : Work}

/-- `next` rises by the new bytes of a work, and those are the bytes it has. -/
theorem WorkOk.lt_nextAfter_iff (hw : WorkOk r w) (x : ℕ) :
    x < r.nextAfter w ↔
      x < r.next ∨ ((w.kind = .workPacket0 ∨ w.kind = .workNew) ∧ w.off ≤ x ∧ x < w.off + w.len) := by
  have hsame (hkind : w.kind ≠ .workPacket0) (hkind' : w.kind ≠ .workNew)
      (hnext : r.nextAfter w = r.next) : x < r.nextAfter w ↔ x < r.next ∨
        ((w.kind = .workPacket0 ∨ w.kind = .workNew) ∧ w.off ≤ x ∧ x < w.off + w.len) := by
    rw [hnext]
    simp [hkind, hkind']
  cases hw with
  | metaData hkind hpkt hlo hhi =>
    exact hsame (by rw [hkind]; decide) (by rw [hkind]; decide) (by simp only [Rpc.nextAfter, hkind])
  | resend d n sp rest hkind hpkt hresends hd hn =>
    exact hsame (by rw [hkind]; decide) (by rw [hkind]; decide) (by simp only [Rpc.nextAfter, hkind])
  | tailDup d n off hkind hpkt htail hd =>
    exact hsame (by rw [hkind]; decide) (by rw [hkind]; decide) (by simp only [Rpc.nextAfter, hkind])
  | packet0 d n hkind hpkt hd hn hlo hhi =>
    have hoff : w.off = 0 := by simp only [Work.off, data?_of_pkt hpkt]; exact hd.offset
    simp only [Rpc.nextAfter, hkind, hoff]
    simp
  | new d n hkind hpkt hd hn =>
    have hoff : w.off = r.next := by simp only [Work.off, data?_of_pkt hpkt]; exact hd.offset
    simp only [Rpc.nextAfter, hkind, hoff]
    simp only [reduceCtorEq, or_true, true_and]
    omega

theorem sentNew_concat (h : s'.recorded = s.recorded ++ [w]) (p : ℕ) :
    s'.sentNew p = s.sentNew p ∪ {x | w.r = some p ∧
      (w.kind = .workPacket0 ∨ w.kind = .workNew) ∧ w.off ≤ x ∧ x < w.off + w.len} := by
  ext x
  simp only [Sys.sentNew, h, List.mem_append, List.mem_singleton, Set.mem_union, Set.mem_ofPred_eq,
    or_and_right, exists_or, exists_eq_left]

theorem SentBelow.congr (h : SentBelow s) (hheap : s'.session.heap = s.session.heap)
    (hrecorded : s'.recorded = s.recorded) (hhanded : s'.handed = s.handed) : SentBelow s' where
  known := by rw [hrecorded, hheap]; exact h.known
  bytes := by
    rw [hheap]
    intro p r hr
    rw [Sys.sentNew, hrecorded]
    exact h.bytes p r hr
  numbers := by rw [numbers_congr hhanded]; exact h.numbers

theorem SentBelow.record (h : SentBelow s) {p : ℕ} {r' : Rpc} (hp : w.r = some p)
    (hr : s.session.heap[p]? = some r) (hw : WorkOk r w) (hrec : Recorded cfg r w r')
    (hheap : s'.session.heap = s.session.heap.set p r')
    (hrecorded : s'.recorded = s.recorded ++ [w]) (hhanded : s'.handed = s.handed) :
    SentBelow s' where
  known := by
    rw [hrecorded, hheap, List.length_set]
    intro w' hw' q hq
    rcases List.mem_append.mp hw' with hold | hnew
    · exact h.known w' hold q hq
    · rw [List.mem_singleton.mp hnew, hp, Option.some.injEq] at hq
      exact hq ▸ (List.getElem?_eq_some_iff.mp hr).1
  bytes := by
    intro q t ht
    rw [sentNew_concat hrecorded]
    by_cases hpq : p = q
    · subst hpq
      rw [hheap, heap_set_self hr, Option.some.injEq] at ht
      subst ht
      ext x
      rw [h.bytes p r hr, Set.mem_union, Set.mem_Iio, Set.mem_Iio, Set.mem_ofPred_eq, hrec.next,
        hw.lt_nextAfter_iff]
      simp [hp]
    · rw [hheap, List.getElem?_set_ne hpq] at ht
      rw [h.bytes q t ht]
      ext x
      simp [hp, hpq]
  numbers := by rw [numbers_congr hhanded]; exact h.numbers

/-- **Every step keeps `[0, next)` as the bytes recorded as sent.** -/
theorem SentBelow.step {a : Act} (hinv : Inv cfg s.session) (h : SentBelow s)
    (heff : Effect cfg s a s') : SentBelow s' := by
  cases heff with
  | packet b now got pkt m hb hdecode hm =>
    have hmap : MapOk { s.session with metrics := m } := ⟨hinv.map.mem, hinv.map.nodup⟩
    refine ⟨?_, ?_, h.numbers⟩
    · intro w hw p hp
      have hlt := h.known w hw p hp
      obtain ⟨r, hr⟩ : ∃ r, s.session.heap[p]? = some r := ⟨_, List.getElem?_eq_getElem hlt⟩
      obtain ⟨r', hr', -⟩ := exists_touch cfg now got pkt hmap hr
      exact (List.getElem?_eq_some_iff.mp hr').1
    · intro p r' hr'
      rcases heap_handle hmap hr' with ⟨r, hr, ht⟩ | ⟨hp, q, a, -, -, -, rfl⟩
      · rw [ht.sameSend.next]
        exact h.bytes p r hr
      · -- nothing was sent for a new RPC
        ext x
        refine ⟨fun ⟨w, hw, hwp, _⟩ => ?_, fun hx => absurd hx (Nat.not_lt_zero x)⟩
        have hlt := h.known w hw p hwp
        simp only at hp
        omega
  | sent w o m hphase ho hm =>
    have hbusy : s.session.busy = some w := by rw [Session.busy, hphase]
    refine ⟨h.known, h.bytes, ?_⟩
    rw [numbers_concat rfl]
    intro d hd
    rcases List.mem_append.mp hd with hold | hnew
    · exact h.numbers d hold
    rcases out_cases hinv (hinv.work w hbusy) with ⟨hseq, d', hd', hout⟩ | ⟨hseq, hout, hpkt⟩
    · rw [hout] at hnew
      obtain rfl := List.mem_singleton.mp hnew
      cases hinv.work w hbusy with
      | reply rest hpending hr hkind hno =>
        rw [hseq] at hno
        cases hno
      | data p r hp hr hw _ =>
        have hok := hinv.rpc p r hr
        obtain ⟨hc, hle⟩ := hw.carries hok hd'
        have hlt := hok.size_lt
        have hgranted := hok.granted_le
        rw [hc.offset, hc.length]
        omega
    · rw [hout, hpkt] at hnew
      cases hnew
  | recordReply w seq rest m hphase hpending hkind hr hseq hm =>
    refine ⟨?_, ?_, h.numbers⟩
    · intro w' hw' p hp
      rcases List.mem_append.mp hw' with hold | hnew
      · exact h.known w' hold p hp
      · rw [List.mem_singleton.mp hnew, hr] at hp
        cases hp
    · intro p r' hr'
      rw [sentNew_concat rfl, h.bytes p r' hr']
      ext x
      simp [hr]
  | record w seq p r r' m hphase hp hr hw hrec hseq hm => exact h.record hp hr hw hrec rfl rfl rfl
  | offer | malformed | pick | hold | check | refused | ended | evictIdle => exact h.congr rfl rfl rfl
  | nothing => exact h

theorem sentBelow_reachable (h : Machine.Reachable (Sys.step cfg) (Sys.init cfg) s) :
    SentBelow s :=
  reachable_induction
    ⟨by simp [Sys.init], by simp [Sys.init, Session.init], by simp [Sys.init, Sys.numbers]⟩
    (fun _ _ _ hinv hsent heff => hsent.step hinv heff) h

/-! ## Exact arithmetic -/

/-- The arguments `off` and `n` of `data` in `pick`, for each kind. -/
def Session.slice (s : Session) (r : Rpc) : WorkKind → Option (ℕ × ℕ)
  | .workPacket0 => some (0, min (s.chunk s.useSeq) r.granted)
  | .workResend => r.resends.head?.map fun sp =>
      (sp.start, min (s.chunk s.useSeq) (u32Sub sp.stop sp.start))
  | .workNew => some (r.next, min (s.chunk s.useSeq) (u32Sub r.granted r.next))
  | .workTailDup => r.tailDup.map fun sp => (sp.start, u32Sub sp.stop sp.start)
  | .workMeta | .workControl => none

/-- The data picked is the slice of its kind. -/
theorem data_slice (s : Session) {p : ℕ} (hdue : r.due = some w.kind)
    (hwork : s.workOf r p w.kind = .ok w) (hdata : w.data?.isSome) :
    ∃ off n, s.slice r w.kind = some (off, n) ∧ r.data off n = .ok w.pkt := by
  have hdue' := due_eq_some hdue
  generalize hkind : w.kind = kind at hdue hwork hdue'
  rcases hdue' with ⟨rfl, -⟩ | ⟨rfl, -⟩ | ⟨rfl, sp, rest, hsp⟩ | ⟨rfl, -⟩ | ⟨rfl, -, sp, hsp⟩
  · rw [Session.workOf, Except.ok.injEq] at hwork
    subst hwork
    cases hdata
  · refine ⟨_, _, rfl, ?_⟩
    simp only [Session.workOf] at hwork
    cases hd : r.data 0 (min (s.chunk s.useSeq) r.granted) with
    | error e => rw [hd] at hwork; cases hwork
    | ok pkt => rw [hd] at hwork; cases hwork; rfl
  · refine ⟨_, _, by rw [Session.slice, hsp]; rfl, ?_⟩
    simp only [Session.workOf, hsp] at hwork
    cases hd : r.data sp.start (min (s.chunk s.useSeq) (u32Sub sp.stop sp.start)) with
    | error e => rw [hd] at hwork; cases hwork
    | ok pkt => rw [hd] at hwork; cases hwork; rfl
  · refine ⟨_, _, rfl, ?_⟩
    simp only [Session.workOf] at hwork
    cases hd : r.data r.next (min (s.chunk s.useSeq) (u32Sub r.granted r.next)) with
    | error e => rw [hd] at hwork; cases hwork
    | ok pkt => rw [hd] at hwork; cases hwork; rfl
  · refine ⟨_, _, by rw [Session.slice, hsp]; rfl, ?_⟩
    simp only [Session.workOf, hsp] at hwork
    cases hd : r.data sp.start (u32Sub sp.stop sp.start) with
    | error e => rw [hd] at hwork; cases hwork
    | ok pkt => rw [hd] at hwork; cases hwork; rfl

/-- The `uint32` expressions of `pick` on the RPC `r` do not wrap, and the slice it
    takes for what is due is in range. -/
structure PickExact (s : Session) (r : Rpc) : Prop where
  left : (u32Sub r.size r.next : ℤ) = r.size - r.next
  ungranted : (u32Sub r.granted r.next : ℤ) = r.granted - r.next
  spans : ∀ sp ∈ r.resends, (u32Sub sp.stop sp.start : ℤ) = sp.stop - sp.start
  tail : ∀ sp, r.tailDup = some sp → (u32Sub sp.stop sp.start : ℤ) = sp.stop - sp.start
  slice : ∀ p w, r.due = some w.kind → s.workOf r p w.kind = .ok w → w.data?.isSome →
    ∃ off n, s.slice r w.kind = some (off, n) ∧ r.data off n = .ok w.pkt ∧
      u32Add off n = off + n ∧ off + n ≤ r.asset.length

/-- Those of `send` on the work `w` with the data `d` for the RPC `r` do not wrap;
    the data is within the grant, so that the excess is not computed. -/
structure SendExact (s : Session) (r : Rpc) (w : Work) (d : Wire.Data) : Prop where
  length : u32 d.payload.length = d.payload.length
  stop : u32Add d.offset.toNat (u32 d.payload.length) = d.offset.toNat + d.payload.length
  granted : d.offset.toNat + d.payload.length ≤ r.granted
  number : w.seq = true → s.seqNumber = s.nextSeq
  front : w.kind = .workResend → ∃ sp rest, r.resends = sp :: rest ∧
    u32Add sp.start (u32 d.payload.length) = sp.start + d.payload.length
  next : w.kind = .workNew →
    u32Add r.next (u32 d.payload.length) = r.next + d.payload.length

theorem pickExact (s : Session) (h : RpcOk cfg r) : PickExact s r := by
  have hlt := h.size_lt
  have hsize := h.size_le
  have hnext := h.next_le
  have hgranted := h.granted_le
  have hspan : ∀ sp ∈ r.resends, u32Sub sp.stop sp.start = sp.stop - sp.start ∧
      sp.start ≤ sp.stop ∧ sp.stop ≤ r.next := by
    intro sp hsp
    obtain ⟨hne, hle⟩ := h.spans sp hsp
    exact ⟨u32Sub_of_le hne.le (by omega), hne.le, hle⟩
  have htail : ∀ sp, r.tailDup = some sp → u32Sub sp.stop sp.start = sp.stop - sp.start ∧
      sp.start ≤ sp.stop ∧ sp.stop = r.size := by
    intro sp hsp
    obtain ⟨hle, hstop, -, -⟩ := h.tail sp hsp
    exact ⟨u32Sub_of_le hle (by omega), hle, hstop⟩
  have hnew : u32Sub r.granted r.next = r.granted - r.next := u32Sub_of_le hnext (by omega)
  refine ⟨?_, ?_, ?_, ?_, ?_⟩
  · rw [u32Sub_of_le (by omega) hlt]
    omega
  · rw [hnew]
    omega
  · intro sp hsp
    obtain ⟨heq, hle, -⟩ := hspan sp hsp
    rw [heq]
    omega
  · intro sp hsp
    obtain ⟨heq, hle, -⟩ := htail sp hsp
    rw [heq]
    omega
  · intro p w hdue hwork hdata
    obtain ⟨off, n, hslice, hpkt⟩ := data_slice s hdue hwork hdata
    have hrange : off + n ≤ r.size := by
      have hdue' := due_eq_some hdue
      generalize w.kind = kind at hslice hdue'
      rcases hdue' with ⟨rfl, -⟩ | ⟨rfl, -⟩ | ⟨rfl, sp, rest, hsp⟩ | ⟨rfl, -⟩ |
        ⟨rfl, -, sp, hsp⟩
      · cases hslice
      · obtain ⟨rfl, rfl⟩ := Prod.mk.inj (Option.some.inj hslice)
        omega
      · obtain ⟨heq, hle, hstop⟩ := hspan sp (by rw [hsp]; exact List.mem_cons_self)
        rw [Session.slice, hsp] at hslice
        simp only [List.head?_cons, Option.map_some, heq, Option.some.injEq, Prod.mk.injEq] at hslice
        omega
      · rw [Session.slice, hnew] at hslice
        obtain ⟨rfl, rfl⟩ := Prod.mk.inj (Option.some.inj hslice)
        omega
      · obtain ⟨heq, hle, hstop⟩ := htail sp hsp
        rw [Session.slice, hsp] at hslice
        simp only [Option.map_some, heq, Option.some.injEq, Prod.mk.injEq] at hslice
        omega
    exact ⟨off, n, hslice, hpkt, u32Add_of_lt (by omega), by omega⟩

theorem sendExact (h : RpcOk cfg r) (hw : WorkOk r w) {d : Wire.Data} (hd : w.data? = some d)
    {s : Session} (hnumber : w.seq = true → s.nextSeq < 2 ^ 32) : SendExact s r w d := by
  obtain ⟨hc, hle⟩ := hw.carries h hd
  have hlt := h.size_lt
  have hgranted := h.granted_le
  have hlen := hw.u32_len hd h
  have hoff := hc.offset
  have hn := hc.length
  have hpkt := pkt_of_data? hd
  refine ⟨hlen, by rw [hlen]; exact u32Add_of_lt (by omega), by omega,
    fun hseq => seqNumber_of_lt (hnumber hseq), ?_, ?_⟩
  · intro hkind
    cases hw with
    | resend d' n sp rest _ hdata hresends hd' hstop =>
      obtain rfl : d = d' := by rw [hpkt] at hdata; injection hdata
      have hstart := hd'.offset
      exact ⟨sp, rest, hresends, by rw [hlen]; exact u32Add_of_lt (by omega)⟩
    | metaData h' | packet0 _ _ h' | new _ _ h' | tailDup _ _ _ h' => rw [hkind] at h'; cases h'
  · intro hkind
    cases hw with
    | new d' n _ hdata hd' hstop =>
      obtain rfl : d = d' := by rw [hpkt] at hdata; injection hdata
      have hstart := hd'.offset
      rw [hlen]
      exact u32Add_of_lt (by omega)
    | metaData h' | packet0 _ _ h' | resend _ _ _ _ h' | tailDup _ _ _ h' =>
      rw [hkind] at h'
      cases h'

/-- With datagrams of up to 65535 bytes the chunk size and its multiple in `bulk`
    are exact. -/
theorem chunk_exact {s : Session} (h : s.maxDatagram ≤ 65535) (seq : Bool) :
    (s.chunk seq : ℤ) = s.chunkInt seq ∧
      u32Mul quicSendQueue (s.chunk seq) = quicSendQueue * s.chunk seq := by
  have hint : 0 ≤ s.chunkInt seq ∧ s.chunkInt seq ≤ 65535 := by
    simp only [Session.chunkInt, Wire.Go.maxPayloadSeq, Wire.Go.maxPayload]
    split_ifs <;> constructor <;> simp only [le_max_iff, max_le_iff] <;> omega
  have hchunk : s.chunk seq = (s.chunkInt seq).toNat := u32_of_lt (by omega)
  refine ⟨by omega, u32Mul_of_lt ?_⟩
  rw [quicSendQueue]
  omega

/-! ## The state invariant -/

/-- **The sender's state invariant.** In every run:
    1. the fields of every live RPC are in order;
    2. no slice is out of range and no `uint32` expression of `pick`, `send` or
       `resendSeq` wraps, for a datagram limit of up to 65535 bytes;
    3. the bytes recorded as sent for an RPC are `[0, next)`, and new data starts
       at `next`;
    4. if `pick` reports no work, every live RPC has sent all that is granted, has
       no span queued and has answered every REQ. -/
theorem sender_invariant (cfg : Config) (acts : List Act) (s : Sys)
    (hrun : Machine.run (Sys.step cfg) (Sys.init cfg) acts = some s) :
    (∀ e ∈ s.session.rpcs, ∃ r, s.session.heap[e.2]? = some r ∧ r.id = e.1 ∧ RpcShape r) ∧
    (s.session.phase ≠ .panicked ∧
      (∀ order, order.Perm s.session.live → ∃ w, s.session.pick order = .ok w) ∧
      (∀ (p : ℕ) (r : Rpc), s.session.heap[p]? = some r → PickExact s.session r) ∧
      (∀ w d p r, s.session.busy = some w → w.data? = some d → w.r = some p →
        s.session.heap[p]? = some r → SendExact s.session r w d) ∧
      (∀ seq, s.session.holds seq = true → u32Add (s.session.entry seq).off (s.session.entry seq).n =
        (s.session.entry seq).off + (s.session.entry seq).n) ∧
      (s.session.maxDatagram ≤ 65535 → ∀ seq, (s.session.chunk seq : ℤ) = s.session.chunkInt seq ∧
        u32Mul quicSendQueue (s.session.chunk seq) = quicSendQueue * s.session.chunk seq)) ∧
    ((∀ (p : ℕ) (r : Rpc), s.session.heap[p]? = some r → s.sentNew p = Set.Iio r.next) ∧
      ∀ w p r, s.session.busy = some w → w.kind = .workNew → w.r = some p →
        s.session.heap[p]? = some r → w.off = r.next) ∧
    (∀ order, order.Perm s.session.live → s.session.pick order = .ok none →
      ∀ e ∈ s.session.rpcs, ∃ r, s.session.heap[e.2]? = some r ∧ r.next = r.granted ∧
        r.resends = [] ∧ r.metaSent = r.packet0Req ∧ r.packet0Sent = r.packet0Req) := by
  have hreach : Machine.Reachable (Sys.step cfg) (Sys.init cfg) s := ⟨acts, hrun⟩
  have hinv := inv_reachable hreach
  have hnum := numbered_reachable hreach
  have hsent := sentBelow_reachable hreach
  refine ⟨?_, ⟨hinv.phase, ?_, ?_, ?_, ?_, chunk_exact⟩, ⟨hsent.bytes, ?_⟩, ?_⟩
  · intro e he
    obtain ⟨r, hr, hid⟩ := hinv.map.mem e he
    exact ⟨r, hr, hid, (hinv.rpc e.2 r hr).toRpcShape⟩
  · intro order hperm
    rcases hinv.pick hperm with hnone | ⟨w, hw, -⟩
    · exact ⟨none, hnone⟩
    · exact ⟨some w, hw⟩
  · exact fun p r hr => pickExact s.session (hinv.rpc p r hr)
  · intro w d p r hw hd hp hr
    exact sendExact (hinv.rpc p r hr) (hinv.workOk hw hp hr) hd (fun hseq => (hnum.busy w hw hseq).2)
  · intro seq hseq
    rw [holds_iff, hnum.ring.holds_iff] at hseq
    obtain ⟨-, d, hd, -, hoff, hn⟩ := hnum.ring.kept seq hseq.1 hseq.2
    have hlt := hsent.numbers d (List.mem_of_getElem? hd)
    rw [Session.entry, hoff, hn]
    exact u32Add_of_lt hlt
  · intro w p r hw hkind hp hr
    cases hinv.workOk hw hp hr with
    | new d n _ hpkt hd hn => simp only [Work.off, data?_of_pkt hpkt]; exact hd.offset
    | metaData h' | packet0 _ _ h' | resend _ _ _ _ h' | tailDup _ _ _ h' =>
      rw [hkind] at h'
      cases h'
  · intro order hperm hnone e he
    obtain ⟨-, hall⟩ := pick_eq_none hnone
    obtain ⟨r, hr, hdue⟩ := hall e.2 (hperm.mem_iff.mpr (List.mem_map_of_mem he))
    obtain ⟨hnext, hresends, -, hmeta, hpacket0⟩ := due_eq_none (hinv.rpc e.2 r hr) hdue
    exact ⟨r, hr, hnext, hresends, hmeta, hpacket0⟩

/-- After META and packet 0 of a REQ that grants three bytes, the RPC has sent
    `[0, 3)`. -/
theorem sender_invariant_small :
    ∃ s r, Machine.run (Sys.step smallConfig) (Sys.init smallConfig)
        (clientSends (smallReq 3) 0 ++ serverSends [0] ++ serverSends [0]) = some s ∧
      s.session.heap[0]? = some r ∧ s.sentNew 0 = Set.Iio r.next ∧ r.next = 3 := by
  obtain ⟨s, hrun, hP⟩ := exists_run_of_any smallConfig
    (clientSends (smallReq 3) 0 ++ serverSends [0] ++ serverSends [0])
    (P := fun s => s.session.heap[0]?.any fun r => r.next = 3) (by decide +kernel)
  obtain ⟨r, hr, hnext⟩ := (Option.any_eq_true _ _).mp hP
  obtain ⟨-, -, ⟨hbytes, -⟩, -⟩ := sender_invariant _ _ s hrun
  exact ⟨s, r, hrun, hr, hbytes 0 r hr, by simpa using hnext⟩

end SentBelow

end Http4.Sender
