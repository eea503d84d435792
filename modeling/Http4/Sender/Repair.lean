import Http4.Sender.Queue
import Http4.Sender.Sent

/-!
# Repair requests

A RESEND is clipped to `next`, which the send loop raises only when it records
what it handed over. A RESEND that arrives in between, for bytes of the datagram
in flight, is clipped as if they had not been sent yet.

Main results:

* `repair_kept`: when a RESEND does not meet such a datagram, every byte it asks
  for leaves again before `pick` runs out of work.
* `repair_lost`: when it does, the bytes may not.
-/

namespace Http4.Sender

open Wire (Packet)

/-! ## Bytes handed over -/

/-- Byte `x` of `id` was handed over on the way from `old` to `new`. -/
def Sys.HandedSince (old new : Sys) (id : UInt64) (x : ℕ) : Prop :=
  ∃ g ∈ new.handed.drop old.handed.length, ∃ d, dataIn g.packet = some d ∧ d.rpcId = id ∧
    d.offset.toNat ≤ x ∧ x < d.offset.toNat + d.payload.length

section Due

variable {cfg : Config} {s s' old : Sys} {p : ℕ} {r : Rpc} {id : UInt64} {a b x : ℕ}

theorem Effect.handed {act : Act} (heff : Effect cfg s act s') :
    ∃ more, s'.handed = s.handed ++ more := by
  cases heff with
  | sent => exact ⟨_, rfl⟩
  | offer | malformed | packet | nothing | pick | hold | check | refused | ended | recordReply
  | record | evictIdle => exact ⟨[], (List.append_nil _).symm⟩

theorem HandedSince.append {more : List Handed} (h : old.HandedSince s id x)
    (hmore : s'.handed = s.handed ++ more) : old.HandedSince s' id x := by
  obtain ⟨g, hg, hd⟩ := h
  refine ⟨g, ?_, hd⟩
  rw [hmore, List.drop_append]
  exact List.mem_append_left _ hg

/-- Byte `x` was handed over since `old`, or is queued, or was never sent. -/
def Due (old s : Sys) (p : ℕ) (r : Rpc) (x : ℕ) : Prop :=
  old.HandedSince s r.id x ∨ x ∈ s.session.queue p r ∨ s.session.unsent p r ≤ x

/-- The bytes that leave with a work have left. -/
theorem handedSince_of_leave {w : Work} {g : Handed} (hok : RpcOk cfg r) (hw : WorkOk r w)
    (hlen : old.handed.length ≤ s.handed.length) (hhanded : s'.handed = s.handed ++ [g])
    (hpacket : dataIn g.packet = w.data?) (hlo : w.off ≤ x) (hhi : x < w.off + w.len) :
    old.HandedSince s' r.id x := by
  cases hd : w.data? with
  | none =>
    simp only [Work.len, hd] at hhi
    simp only [Work.off, hd] at hlo hhi
    omega
  | some d =>
    obtain ⟨hc, -⟩ := hw.carries hok hd
    refine ⟨g, ?_, d, by rw [hpacket, hd], hc.rpcId, by rw [hc.offset]; exact hlo,
      by rw [hc.offset, hc.length]; exact hhi⟩
    rw [hhanded, List.drop_append_of_le_length hlen]
    exact List.mem_append_right _ (List.mem_singleton_self g)

/-- A byte that is due stays due: when it leaves the queue or the unsent bytes, it
    is handed over. -/
theorem Due.step {r' : Rpc} (hok : RpcOk cfg r) (h : Due old s p r x)
    (hlen : old.handed.length ≤ s.handed.length) (hid : r'.id = r.id)
    (hmore : ∃ more, s'.handed = s.handed ++ more) {act : Act} (hqueue : QueueStep act s s' p r r') :
    Due old s' p r' x := by
  obtain ⟨more, hmore⟩ := hmore
  rw [Due, hid]
  cases hqueue with
  | grow added _ hqueue hunsent =>
    rcases h with hhanded | hqueued | hnext
    · exact .inl (HandedSince.append hhanded hmore)
    · exact .inr (.inl (by rw [hqueue]; exact List.mem_append_left _ hqueued))
    · exact .inr (.inr (by rw [hunsent]; exact hnext))
  | leave w g hp hsame hhanded hpacket hqueue hunsent hunsent' hw =>
    rcases h with hdone | hqueued | hnext
    · exact .inl (HandedSince.append hdone hmore)
    · rw [hqueue, List.mem_append] at hqueued
      rcases hqueued with hleft | hqueued
      · unfold Work.resent at hleft
        split at hleft
        · rw [List.mem_range'_1] at hleft
          exact .inl (handedSince_of_leave hok hw hlen hhanded hpacket hleft.1 hleft.2)
        · cases hleft
      · exact .inr (.inl hqueued)
    · rw [hunsent] at hnext
      by_cases hx : r.nextAfter w ≤ x
      · exact .inr (.inr (by rw [hunsent']; exact hx))
      · obtain hx | ⟨-, hlo, hhi⟩ := (hw.lt_nextAfter_iff x).mp (not_le.mp hx)
        · omega
        · exact .inl (handedSince_of_leave hok hw hlen hhanded hpacket hlo hhi)

/-- All of `[a, b)` is due. -/
def AllDue (old : Sys) (p : ℕ) (id : UInt64) (a b : ℕ) (s : Sys) : Prop :=
  old.handed.length ≤ s.handed.length ∧
    ∃ r, s.session.heap[p]? = some r ∧ r.id = id ∧ ∀ x, a ≤ x → x < b → Due old s p r x

theorem AllDue.step {act : Act} (hinv : Inv cfg s.session) (h : AllDue old p id a b s)
    (heff : Effect cfg s act s') : AllDue old p id a b s' := by
  obtain ⟨hlen, r, hr, hid, hdue⟩ := h
  obtain ⟨r', hr', hid', hqueue⟩ := heff.queue hinv hr
  have hmore := heff.handed
  refine ⟨?_, r', hr', hid'.trans hid, fun x hlo hhi => ?_⟩
  · obtain ⟨more, hmore⟩ := hmore
    rw [hmore, List.length_append]
    omega
  · exact (hdue x hlo hhi).step (hinv.rpc p r hr) hlen hid' hmore hqueue

theorem AllDue.run {acts : List Act} (hinv : Inv cfg s.session) (h : AllDue old p id a b s)
    (hrun : Machine.run (Sys.step cfg) s acts = some s') : AllDue old p id a b s' := by
  have hboth : Inv cfg s'.session ∧ AllDue old p id a b s' :=
    Machine.run_invariant (P := fun s => Inv cfg s.session ∧ AllDue old p id a b s)
      (fun s act s' ⟨hinv, h⟩ hs => ⟨hinv.step hs, h.step hinv (hinv.effect hs)⟩) ⟨hinv, h⟩ hrun
  exact hboth.2

end Due

/-! ## RESEND -/

/-- A RESEND `q` handled in a run, for an RPC at `p` that is still live when `pick`
    reports no work. -/
structure Repair (cfg : Config) where
  before : List Act
  /-- The state in which the RESEND arrives. -/
  s : Sys
  datagram : Bytes
  now : ℤ
  got : GetResult
  q : Wire.Resend
  p : ℕ
  r : Rpc
  /-- The state in which it has been handled. -/
  handled : Sys
  after : List Act
  /-- The state in which there is no work. -/
  quiet : Sys
  order : List ℕ
  r' : Rpc
  hbefore : Machine.run (Sys.step cfg) (Sys.init cfg) before = some s
  hdecode : Wire.Go.decode datagram = .ok (.resend q)
  hlive : s.session.lookup q.rpcId = some p
  hr : s.session.heap[p]? = some r
  hstep : Sys.step cfg s (.receive datagram now got) = some handled
  hafter : Machine.run (Sys.step cfg) handled after = some quiet
  hlive' : quiet.session.lookup q.rpcId = some p
  hr' : quiet.session.heap[p]? = some r'
  hphase : quiet.session.phase = .idle
  hperm : order.Perm quiet.session.live
  hpick : quiet.session.pick order = .ok none

namespace Repair

variable {cfg : Config}

/-- Every granted byte of the range was handed over since. -/
def Kept (R : Repair cfg) : Prop :=
  ∀ x, R.q.start.toNat ≤ x → x < min R.q.stop.toNat R.r'.granted →
    R.handled.HandedSince R.quiet R.q.rpcId x

/-- No byte of the range past `next` is in a packet 0 or new data of this RPC that
    was handed over and is not recorded yet. -/
def RaceFree (R : Repair cfg) : Prop :=
  ∀ w, R.s.session.flying R.p = some w → w.kind = .workPacket0 ∨ w.kind = .workNew →
    ∀ x, R.q.start.toNat ≤ x → x < R.q.stop.toNat → R.r.next ≤ x →
      ¬ (w.off ≤ x ∧ x < w.off + w.len)

/-- Once the RESEND is handled, its range is due. -/
theorem allDue (R : Repair cfg) (h : R.RaceFree) :
    AllDue R.handled R.p R.q.rpcId R.q.start.toNat R.q.stop.toNat R.handled := by
  have hinv : Inv cfg R.s.session := inv_reachable ⟨R.before, R.hbefore⟩
  obtain ⟨r₀, hr₀, hid⟩ := hinv.map.lookup R.hlive
  rw [R.hr, Option.some.injEq] at hr₀
  subst hr₀
  obtain ⟨-, m, hm, hhandled⟩ := step_receive R.hdecode R.hstep
  -- what the RESEND does to the RPC
  have hheap : R.handled.session.heap[R.p]? =
      some (R.r.resend R.q.start.toNat R.q.stop.toNat R.now) := by
    have hlookup : Session.lookup { R.s.session with metrics := m } R.q.rpcId = some R.p := R.hlive
    rw [hhandled]
    simp only [Session.handle, hlookup, Session.heap_update, if_pos, R.hr, Option.map_some]
  have hphase : R.handled.session.phase = R.s.session.phase := by
    rw [hhandled]
    exact (sameLoop_handle cfg { R.s.session with metrics := m } R.now R.got (.resend R.q)).phase
  obtain ⟨hqueue, hunsent⟩ := queue_touch (u := R.handled.session)
    (fun w hw => (hinv.flying R.hr hw).1) (Touch.resend R.r R.q rfl hid : Touch _ R.now R.r _) hphase
    (spanBytes_resend R.r _ _ R.now)
  refine ⟨le_refl _, _, hheap, hid, fun x hlo hhi => ?_⟩
  have hnext := (hinv.rpc R.p R.r R.hr).next_le
  by_cases hx : x < R.r.next
  · -- sent before: it is queued
    refine .inr (.inl ?_)
    rw [hqueue, List.mem_append, List.mem_range'_1]
    exact .inr ⟨hlo, by omega⟩
  · -- not sent before, nor in the datagram in flight
    refine .inr (.inr ?_)
    rw [hunsent, Session.unsent]
    cases hw : R.s.session.flying R.p with
    | none => exact not_lt.mp hx
    | some w =>
      obtain ⟨hok, -⟩ := hinv.flying R.hr hw
      by_contra hlt
      rcases (hok.lt_nextAfter_iff x).mp (not_le.mp hlt) with hx' | ⟨hkind, hin⟩
      · exact hx hx'
      · exact h w hw hkind x hlo hhi (not_lt.mp hx) hin

end Repair

/-- **No repair request is lost**, unless it meets new bytes in flight: every
    granted byte of the range leaves again before `pick` reports no work. -/
theorem repair_kept (cfg : Config) (R : Repair cfg) (h : R.RaceFree) : R.Kept := by
  have hhandled : Machine.Reachable (Sys.step cfg) (Sys.init cfg) R.handled :=
    Machine.Reachable.next ⟨R.before, R.hbefore⟩ R.hstep
  have hinv : Inv cfg R.quiet.session := inv_reachable (hhandled.run R.hafter)
  obtain ⟨-, r, hr, hid, hdue⟩ := (R.allDue h).run (inv_reachable hhandled) R.hafter
  rw [R.hr', Option.some.injEq] at hr
  subst hr
  -- nothing is queued or unsent when there is no work
  have hmem : R.p ∈ R.order :=
    R.hperm.mem_iff.mpr (List.mem_map_of_mem (f := Prod.snd) (mem_of_lookup R.hlive'))
  obtain ⟨t, ht, hnone⟩ := (pick_eq_none R.hpick).2 R.p hmem
  rw [R.hr', Option.some.injEq] at ht
  subst ht
  obtain ⟨hnext, hresends, -⟩ := due_eq_none (hinv.rpc R.p R.r' R.hr') hnone
  have hflying : R.quiet.session.flying R.p = none :=
    flying_eq_none_of_phase (by simp [R.hphase]) R.p
  intro x hlo hhi
  rcases hdue x hlo (by omega) with hdone | hqueued | hunsent
  · rwa [hid] at hdone
  · simp [Session.queue, hflying, hresends] at hqueued
  · rw [Session.unsent, hflying] at hunsent
    simp only at hunsent
    omega

/-! ## Two runs -/

/-- A RESEND of all five bytes. -/
def smallResend : Wire.Resend := { rpcId := 7, start := 0, stop := 5 }

/-- A run with a RESEND in it, given by its actions. -/
theorem exists_repair (before after : List Act) (order : List ℕ) {P : Sys → Sys → Sys → Rpc → Bool}
    (hdecode : Wire.Go.decode (datagram (.resend smallResend)) = .ok (.resend smallResend))
    (h : ((Machine.run (Sys.step smallConfig) (Sys.init smallConfig) before).any fun s =>
      (Sys.step smallConfig s
        (.receive (datagram (.resend smallResend)) 0 (.found smallAsset))).any fun handled =>
      (Machine.run (Sys.step smallConfig) handled after).any fun quiet =>
      (s.session.heap[0]?).any fun _ => (quiet.session.heap[0]?).any fun r' =>
        decide (s.session.lookup 7 = some 0 ∧ quiet.session.lookup 7 = some 0 ∧
          quiet.session.phase = .idle ∧ order.Perm quiet.session.live ∧
          quiet.session.pick order = .ok none) && P s handled quiet r') = true) :
    ∃ R : Repair smallConfig, R.q = smallResend ∧ R.p = 0 ∧ P R.s R.handled R.quiet R.r' = true := by
  obtain ⟨s, hs, h⟩ := (Option.any_eq_true _ _).mp h
  obtain ⟨handled, hhandled, h⟩ := (Option.any_eq_true _ _).mp h
  obtain ⟨quiet, hquiet, h⟩ := (Option.any_eq_true _ _).mp h
  obtain ⟨r, hr, h⟩ := (Option.any_eq_true _ _).mp h
  obtain ⟨r', hr', h⟩ := (Option.any_eq_true _ _).mp h
  rw [Bool.and_eq_true, decide_eq_true_eq] at h
  obtain ⟨⟨hlive, hlive', hphase, hperm, hpick⟩, hP⟩ := h
  exact ⟨⟨before, s, _, 0, _, smallResend, 0, r, handled, after, quiet, order, r', hs, hdecode,
    hlive, hr, hhandled, hquiet, hlive', hr', hphase, hperm, hpick⟩, rfl, rfl, hP⟩

/-- Packet 0 is recorded before the RESEND arrives: all is sent again. -/
theorem repair_kept_small : ∃ R : Repair smallConfig, R.q = smallResend ∧ R.Kept := by
  obtain ⟨R, hq, hp, hP⟩ := exists_repair
    (clientSends (smallReq 5) 0 ++ serverSends [0] ++ serverSends [0] ++ [.offer (datagram (.resend smallResend))])
    (serverSends [0]) [0]
    (P := fun s _ _ _ => s.session.flying 0 = none) (by decide +kernel) (by decide +kernel)
  refine ⟨R, hq, repair_kept _ R fun w hw => ?_⟩
  rw [hp, of_decide_eq_true hP] at hw
  cases hw

/-- Packet 0 is handed over and not yet recorded when the RESEND arrives: none of
    the five bytes is sent again. -/
theorem repair_lost : ∃ R : Repair smallConfig, ¬ R.Kept := by
  obtain ⟨R, hq, -, hP⟩ := exists_repair
    (clientSends (smallReq 5) 0 ++ serverSends [0] ++
      [.pick [0], .check, .handOver .sent, .offer (datagram (.resend smallResend))])
    [.record] [0]
    (P := fun _ handled quiet r' =>
      decide (quiet.handed.length ≤ handled.handed.length ∧ r'.granted = 5))
    (by decide +kernel) (by decide +kernel)
  obtain ⟨hlen, hgranted⟩ := of_decide_eq_true hP
  refine ⟨R, fun hkept => ?_⟩
  obtain ⟨g, hg, -⟩ := hkept 0 (by rw [hq]; decide) (by rw [hq, hgranted]; decide)
  rw [List.drop_eq_nil_of_le hlen] at hg
  cases hg

end Http4.Sender
