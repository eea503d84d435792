import Http4.Sender.Effect

/-!
# What the byte counters say

Every payload byte sent should be counted once as fresh or in `ResentBytes`, so
that in a session without evictions `DataBytes - ResentBytes` is the sum of `next`
over the RPCs. A packet 0 that is sent again after its grant rose carries old bytes
and new ones. Its old bytes are not counted in `ResentBytes`.

Main results:

* `len_eq_add`: what recording a work adds to the counters and to `next`.
* `balanced_iff`: the counters are right after a run exactly if no step of it
  records such a packet 0.
-/

namespace Http4.Sender

open Wire (Packet)

/-- The sum of `next` over the RPCs of the session. -/
def Session.nextSum (s : Session) : ℕ :=
  (s.live.map fun p => match s.heap[p]? with
    | some r => r.next
    | none => 0).sum

/-- The counters are right. -/
def Session.Balanced (s : Session) : Prop :=
  (s.metrics.dataBytes : ℤ) - s.metrics.resentBytes = s.nextSum

/-- The old bytes of a packet 0 that goes further than what was sent of its RPC. -/
def Rpc.oldBytes (r : Rpc) (w : Work) : ℕ :=
  if w.kind = .workPacket0 ∧ r.next < w.len then r.next else 0

/-- The old bytes of a packet 0 that the step records. -/
def Sys.uncounted (s : Sys) (a : Act) : ℕ :=
  match a, s.session.phase with
  | .record, .handed w _ =>
    match w.r.bind fun p => s.session.heap[p]? with
    | some r => r.oldBytes w
    | none => 0
  | _, _ => 0

/-- The step records a packet 0 for an RPC of which some bytes were sent, but fewer
    than the packet carries. -/
def Sys.ExtendsPacket0 (s : Sys) (a : Act) : Prop :=
  ∃ w seq p r, a = .record ∧ s.session.phase = .handed w seq ∧ w.kind = .workPacket0 ∧
    w.r = some p ∧ s.session.heap[p]? = some r ∧ 0 < r.next ∧ r.next < w.len

section Accounting

variable {cfg : Config} {s s' : Sys} {a : Act} {r : Rpc} {w : Work}

theorem uncounted_eq_zero_iff : s.uncounted a = 0 ↔ ¬ s.ExtendsPacket0 a := by
  constructor
  · rintro hzero ⟨w, seq, p, r, rfl, hphase, hkind, hp, hr, hpos, hlt⟩
    simp only [Sys.uncounted, hphase, hp, Option.bind_some, hr, Rpc.oldBytes, hkind, hlt, and_self,
      if_true] at hzero
    omega
  · intro hnot
    by_contra hpos
    unfold Sys.uncounted at hpos
    split at hpos
    next w seq hphase =>
      cases hbind : w.r.bind fun p => s.session.heap[p]? with
      | none => exact hpos (by rw [hbind])
      | some r =>
        obtain ⟨p, hp, hr⟩ := Option.bind_eq_some_iff.mp hbind
        rw [hbind] at hpos
        simp only [Rpc.oldBytes] at hpos
        split_ifs at hpos with hold
        · exact hnot ⟨w, seq, p, r, rfl, hphase, hold.1, hp, hr, Nat.pos_of_ne_zero hpos, hold.2⟩
        · exact hpos rfl
    · exact hpos rfl

/-- **The bytes of a work** are counted as sent again, or `next` rises over them, or
    they are the old bytes of a packet 0 that goes further. -/
theorem WorkOk.len_eq_add (hw : WorkOk r w) :
    w.len + r.next = r.resentBytes w.kind w.len + r.nextAfter w + r.oldBytes w := by
  cases hw with
  | metaData hkind hpkt hlo hhi =>
    have hlen : w.len = 0 := by simp only [Work.len, Work.data?, hpkt]
    simp [Rpc.resentBytes, Rpc.nextAfter, Rpc.oldBytes, hkind, hlen]
  | packet0 d n hkind hpkt hd hn hlo hhi =>
    simp only [Rpc.resentBytes, Rpc.nextAfter, Rpc.oldBytes, hkind, true_and]
    split_ifs <;> omega
  | resend d n sp rest hkind hpkt hresends hd hn =>
    simp [Rpc.resentBytes, Rpc.nextAfter, Rpc.oldBytes, hkind]
  | new d n hkind hpkt hd hn =>
    simp [Rpc.resentBytes, Rpc.nextAfter, Rpc.oldBytes, hkind, Nat.add_comm]
  | tailDup d n off hkind hpkt htail hd =>
    simp [Rpc.resentBytes, Rpc.nextAfter, Rpc.oldBytes, hkind]

/-! ## Without evictions -/

/-- `n` bytes are missing from the counters, and no RPC was evicted. -/
structure Missing (s : Session) (n : ℕ) : Prop where
  live : s.live = List.range s.heap.length
  bytes : s.metrics.dataBytes = s.metrics.resentBytes + (s.heap.map Rpc.next).sum + n

theorem Missing.nextSum_eq {s : Session} {n : ℕ} (h : Missing s n) : s.nextSum = (s.heap.map Rpc.next).sum := by
  rw [Session.nextSum, h.live]
  congr 1
  refine List.ext_getElem (by simp) fun p hp hp' => ?_
  simp only [List.getElem_map, List.getElem_range]
  rw [List.getElem?_eq_getElem (by simpa using hp')]

theorem Missing.eq_zero_iff {s : Session} {n : ℕ} (h : Missing s n) : s.Balanced ↔ n = 0 := by
  rw [Session.Balanced, h.nextSum_eq, h.bytes]
  push_cast
  omega

theorem Missing.congr {s s' : Session} {n : ℕ} (h : Missing s n) (hheap : s'.heap = s.heap)
    (hrpcs : s'.rpcs = s.rpcs) (hm : s.metrics.Counts s'.metrics 0 0) : Missing s' n where
  live := by rw [Session.live, hrpcs, hheap]; exact h.live
  bytes := by rw [hm.dataBytes, hm.resentBytes, hheap]; exact h.bytes

theorem Missing.handle {s : Session} {n : ℕ} (h : Missing s n) (hmap : MapOk s) (now : ℤ) (got : GetResult)
    (pkt : Packet) : Missing (s.handle cfg now got pkt) n := by
  have hcounts := (sameLoop_handle cfg s now got pkt).counts
  rcases rpcs_handle cfg s now got pkt with ⟨hrpcs, hlen⟩ | ⟨q, asset, -, -, -, hrpcs, hheap⟩
  · have hnext := map_heap_handle cfg now got pkt hmap Rpc.next
      (fun _ _ ht => ht.sameSend.next) hlen
    refine ⟨?_, ?_⟩
    · rw [Session.live, hrpcs, hlen]
      exact h.live
    · rw [hcounts.dataBytes, hcounts.resentBytes, hnext]
      exact h.bytes
  · -- nothing was sent for a new RPC
    refine ⟨?_, ?_⟩
    · rw [Session.live, hrpcs, hheap, List.map_append, List.length_append, List.length_singleton,
        List.range_succ]
      exact congrArg (· ++ [s.heap.length]) h.live
    · have hzero : ((Rpc.new q.rpcId asset).request q.initialGrant.toNat now).next = 0 := rfl
      rw [hcounts.dataBytes, hcounts.resentBytes, hheap, List.map_append, List.sum_append, List.map_singleton,
        List.sum_singleton, hzero]
      exact h.bytes

/-- Recording a work. -/
theorem Missing.record {s s' : Session} {n p : ℕ} {r' : Rpc} (h : Missing s n) (hr : s.heap[p]? = some r)
    (hw : WorkOk r w) (hnext : r'.next = r.nextAfter w) (hheap : s'.heap = s.heap.set p r')
    (hrpcs : s'.rpcs = s.rpcs) (hm : s.metrics.Counts s'.metrics w.len (r.resentBytes w.kind w.len)) :
    Missing s' (n + r.oldBytes w) := by
  have hlen := hw.len_eq_add
  have hsum := sum_map_set Rpc.next r' hr
  refine ⟨?_, ?_⟩
  · rw [Session.live, hrpcs, hheap, List.length_set]
    exact h.live
  · have hbytes := h.bytes
    rw [hm.dataBytes, hm.resentBytes, hheap]
    omega

/-- **What a step leaves uncounted.** -/
theorem Missing.step {n : ℕ} (hinv : Inv cfg s.session) (h : Missing s.session n)
    (hkeep : ∀ now, a ≠ .evictIdle now) (heff : Effect cfg s a s') :
    Missing s'.session (n + s.uncounted a) := by
  cases heff with
  | offer b => exact h
  | malformed b now got e m hb hdecode hm => exact h.congr rfl rfl hm
  | packet b now got pkt m hb hdecode hm =>
    have hcount : Missing { s.session with metrics := m } n := h.congr rfl rfl hm
    exact hcount.handle ⟨hinv.map.mem, hinv.map.nodup⟩ now got pkt
  | nothing => exact h
  | pick | hold | check | ended => exact h.congr rfl rfl (.refl _)
  | sent w o m hphase ho hm => exact h.congr rfl rfl hm
  | refused w limit m hphase hm => exact h.congr rfl rfl hm
  | recordReply w seq rest m hphase hpending hkind hr hseq hm =>
    have hzero : s.uncounted .record = 0 := by simp only [Sys.uncounted, hphase, hr, Option.bind_none]
    rw [hzero]
    exact h.congr rfl rfl hm
  | record w seq p r r' m hphase hp hr hw hrec hseq hm =>
    have hold : s.uncounted .record = r.oldBytes w := by
      simp only [Sys.uncounted, hphase, hp, Option.bind_some, hr]
    rw [hold]
    exact h.record hr hw hrec.next rfl rfl hm
  | evictIdle now => exact absurd rfl (hkeep now)

/-- **The byte counters.** After a run without evictions `DataBytes - ResentBytes` is
    the sum of `next` over the RPCs, exactly if no step of the run records a packet 0
    for an RPC of which some bytes were sent, but fewer than the packet carries. -/
theorem balanced_iff (cfg : Config) (acts : List Act) (s : Sys)
    (hrun : Machine.run (Sys.step cfg) (Sys.init cfg) acts = some s)
    (hkeep : ∀ a ∈ acts, ∀ now, a ≠ .evictIdle now) :
    s.session.Balanced ↔
      Machine.Along (Sys.step cfg) (Sys.init cfg) acts fun t a => ¬ t.ExtendsPacket0 a := by
  have hstep : ∀ (t : Sys) (a : Act) (t' : Sys) (n : ℕ), (∀ now, a ≠ .evictIdle now) →
      Inv cfg t.session ∧ Missing t.session n → Sys.step cfg t a = some t' →
      Inv cfg t'.session ∧ Missing t'.session (n + t.uncounted a) :=
    fun t a t' n ha ⟨hinv, hmissing⟩ ht => ⟨hinv.step ht, hmissing.step hinv ha (hinv.effect ht)⟩
  have hstart : Missing (Sys.init cfg).session 0 := ⟨rfl, by simp [Sys.init, Session.init]⟩
  have hend := Machine.run_total hstep (Machine.along_of_mem fun a ha _ => hkeep a ha) ⟨inv_init, hstart⟩ hrun
  rw [Nat.zero_add] at hend
  rw [hend.2.eq_zero_iff, Machine.total_eq_zero_iff hrun]
  simp only [uncounted_eq_zero_iff]

end Accounting

/-- A REQ for two bytes of the asset, answered with META and packet 0. -/
def twoBytesSent : List Act := clientSends (smallReq 2) 0 ++ serverSends [0] ++ serverSends [0]

/-- Then the counters are right, and no step sent old bytes. -/
theorem balanced_iff_two : ∃ s, Machine.run (Sys.step smallConfig) (Sys.init smallConfig) twoBytesSent = some s ∧
    s.session.Balanced ∧
      Machine.Along (Sys.step smallConfig) (Sys.init smallConfig) twoBytesSent fun t a => ¬ t.ExtendsPacket0 a := by
  obtain ⟨s, hrun, hbytes⟩ := exists_run_of_any smallConfig twoBytesSent
    (P := fun s => s.session.metrics.dataBytes = 2 && s.session.metrics.resentBytes = 0 && s.session.nextSum = 2)
    (by decide +kernel)
  simp only [Bool.and_eq_true, decide_eq_true_eq] at hbytes
  have hbalanced : s.session.Balanced := by
    rw [Session.Balanced, hbytes.1.1, hbytes.1.2, hbytes.2]
    norm_num
  exact ⟨s, hrun, hbalanced,
    (balanced_iff smallConfig twoBytesSent s hrun (by simp [twoBytesSent, clientSends, serverSends])).mp hbalanced⟩

/-- The REQ is repeated for all five bytes: the second packet 0 sends two of them
    again. -/
theorem not_balanced : ¬ ∀ (cfg : Config) (acts : List Act) (s : Sys),
    Machine.run (Sys.step cfg) (Sys.init cfg) acts = some s → (∀ a ∈ acts, ∀ now, a ≠ .evictIdle now) →
    s.session.Balanced := by
  intro h
  obtain ⟨s, hrun, hbytes⟩ := exists_run_of_any smallConfig
    (twoBytesSent ++ clientSends (smallReq 5) 1 ++ serverSends [0] ++ serverSends [0])
    (P := fun s => s.session.metrics.dataBytes = 7 && s.session.metrics.resentBytes = 0 && s.session.nextSum = 5)
    (by decide +kernel)
  simp only [Bool.and_eq_true, decide_eq_true_eq] at hbytes
  have hbalanced := h _ _ s hrun (by simp [twoBytesSent, clientSends, serverSends])
  rw [Session.Balanced, hbytes.1.1, hbytes.1.2, hbytes.2] at hbalanced
  norm_num at hbalanced

end Http4.Sender
