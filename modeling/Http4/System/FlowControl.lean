import Http4.Client.Authority
import Http4.System.Integrity
import Http4.System.RoundTrip

/-!
# Flow control end to end

The session sends only what was granted, and the client counts as in flight what is
granted and has not arrived. Over a network that loses, duplicates, delays and reorders
datagrams the two agree: nothing arrives that the client had not granted, so its count is
never cut off at zero.

Main result:

* `World.within_grant`: in every run what has arrived lies within what is granted.
-/

namespace Http4.System

open Client
open Client.Http4Client (Authorised Bounded)
open Sender

namespace World

variable {cfg : Config} {opts : ClientOptions} {maxDatagramSize : ℕ} {w : World}

/-- **Every datagram that can reach the client brings authorised bytes.** -/
theorem authorised (hw : Machine.Reachable (step cfg) (init opts maxDatagramSize cfg) w) {r : Reply}
    (hr : r ∈ w.replies) : Authorised w.client (packetIn r.bytes) := by
  intro d hd
  have hcan : CanReply cfg (datagrams w.client.est.stamped) r.bytes := by
    obtain ⟨hcan, hsent⟩ := (linked_reachable hw).replies r hr
    exact hcan.mono fun b hb => (mem_sent_iff hw).mp (hsent b hb)
  obtain ⟨p, τ, g, hp, hg, hle⟩ := exists_authority_of_carried hd hcan
  refine ⟨p, ?_, g, hg, hle⟩
  rw [← (Http4Client.timely_reachable (client_reachable hw)).handed]
  exact List.mem_map_of_mem hp

/-- In every run the client is bounded. -/
theorem bounded (hw : Machine.Reachable (step cfg) (init opts maxDatagramSize cfg) w) : Bounded w.client := by
  let P (w : World) : Prop := Machine.Reachable (step cfg) (init opts maxDatagramSize cfg) w ∧ Bounded w.client
  obtain ⟨acts, hrun⟩ := hw
  refine (Machine.run_invariant (P := P) (fun w a w' ⟨hw, hbounded⟩ hstep => ⟨hw.next hstep, ?_⟩)
    ⟨⟨[], rfl⟩, Http4Client.bounded_connect opts maxDatagramSize⟩ hrun).2
  cases effect_of_step hstep with
  | client e c hc hbrings =>
    refine hbounded.step ?_ hc
    cases hevent : e.event with
    | datagram b alloc =>
      obtain ⟨r, hr, rfl⟩ := hbrings b alloc hevent
      exact authorised hw hr
    | request | readDone | readRejected | tick | streamStarted | read | pullSettled | cancel | close
    | sessionEnded => exact Http4Client.authorised_none
  | deliver | server => exact hbounded

/-- **What has arrived lies within what is granted**, in every run: a live transfer whose
    size is known has an entry in the scheduler, with that size and the bytes that have
    arrived, all of them below its grant. So the bytes in flight are exactly those granted
    less those that have arrived. -/
theorem within_grant (hw : Machine.Reachable (step cfg) (init opts maxDatagramSize cfg) w) :
    (∀ id t asm, w.client.objects.get? id = some t → t.live = true → t.asm = some asm →
      ∃ e, w.client.scheduler.rpcs.get? id = some e ∧ e.size = asm.size ∧ e.received = asm.received ∧
        asm.received ≤ asm.frontier ∧ (asm.frontier : ℚ) ≤ e.granted ∧ e.granted ≤ e.size) ∧
    w.client.scheduler.outstanding = w.client.scheduler.rpcs.sum fun e => e.granted - e.received := by
  have h := bounded hw
  have hentry (id : ℤ) (t : Transfer) (asm : Reassembly) (e : Entry) (ht : w.client.objects.get? id = some t)
      (hasm : t.asm = some asm) (he : w.client.scheduler.rpcs.get? id = some e) :
      e.size = asm.size ∧ e.received = asm.received ∧ asm.received ≤ asm.frontier ∧
        (asm.frontier : ℚ) ≤ e.granted ∧ e.granted ≤ e.size := by
    obtain ⟨hsize, hreceived, hgranted⟩ := h.inv.size_of_get? ht hasm he
    obtain ⟨-, contents, hrep⟩ := (h.inv.transfer id t ht).1.represents asm hasm
    exact ⟨hsize, hreceived, hrep.received_le_frontier, (h.entries id t e ht he).frontier asm hasm, hgranted⟩
  refine ⟨fun id t asm ht hlive hasm => ?_, ?_⟩
  · cases he : w.client.scheduler.rpcs.get? id with
    | some e => exact ⟨e, rfl, hentry id t asm e ht hasm he⟩
    | none =>
      have htied := (h.inv.transfer id t ht).2
      rw [he] at htied
      cases htied with
      | unscheduled hno =>
        rw [hlive, hasm] at hno
        rcases hno with hno | hno <;> cases hno
  · show (w.client.scheduler.rpcs.values.map Entry.outstanding).sum = (w.client.scheduler.rpcs.values.map _).sum
    refine congrArg List.sum (List.map_congr_left fun e he => ?_)
    obtain ⟨id, hid⟩ := OrderedMap.mem_values.mp he
    obtain ⟨t, asm, ht, hasm⟩ : ∃ t asm, w.client.objects.get? id = some t ∧ t.asm = some asm := by
      cases ht : w.client.objects.get? id with
      | none =>
        rw [h.inv.known id ht] at hid
        cases hid
      | some t =>
        have htied := (h.inv.transfer id t ht).2
        rw [hid] at htied
        cases htied with
        | scheduled _ hasm => exact ⟨t, _, rfl, hasm⟩
    obtain ⟨-, hreceived, hle, hfrontier, -⟩ := hentry id t asm e ht hasm hid
    unfold Entry.outstanding
    refine max_eq_right (sub_nonneg.mpr ?_)
    rw [hreceived]
    refine le_trans ?_ hfrontier
    exact_mod_cast hle

/-- Packet 0 has arrived, META has not. -/
theorem within_grant_packet0 : ∃ w t asm e,
    Machine.run (step smallConfig) (init {} 1200 smallConfig)
        (smallAnswer ++ [.client { event := .datagram smallData true }]) = some w ∧
      w.client.objects.get? 7 = some t ∧ t.asm = some asm ∧ asm.received = 5 ∧
      w.client.scheduler.rpcs.get? 7 = some e ∧ (asm.frontier : ℚ) ≤ e.granted := by
  have hany : (Machine.run (step smallConfig) (init {} 1200 smallConfig)
      (smallAnswer ++ [.client { event := .datagram smallData true }])).any fun w =>
      (w.client.objects.get? 7).any fun t => t.live ∧ t.asm.any fun asm => asm.received = 5 := by decide +kernel
  obtain ⟨w, hrun, hw⟩ := (Option.any_eq_true _ _).mp hany
  obtain ⟨t, ht, hw⟩ := (Option.any_eq_true _ _).mp hw
  obtain ⟨hlive, hw⟩ := of_decide_eq_true hw
  obtain ⟨asm, hasm, hreceived⟩ := (Option.any_eq_true _ _).mp hw
  obtain ⟨e, he, -, -, -, hle, -⟩ := (within_grant ⟨_, hrun⟩).1 7 t asm ht hlive hasm
  exact ⟨w, t, asm, e, hrun, ht, hasm, of_decide_eq_true hreceived, he, hle⟩

end World

end Http4.System
