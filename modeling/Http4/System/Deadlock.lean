import Http4.Client.Stuck
import Http4.System.FlowControl

/-!
# Silent deadlocks

The client and the session of `World`, with the datagrams that are under way. A client
is stuck when nothing is under way, the timer takes every transfer to be waiting, and an
incomplete transfer that nobody paused is granted nothing.

Main results:

* `Net.reachable`: what the two ends do is a run of `World`.
* `Net.stuck_iff`: a client is stuck exactly where bytes that were granted to paused
  transfers and got lost hold the budget back.
-/

namespace Http4.System

open Client
open Client.Http4Client (Waits Wants)
open Sender

/-! ## The network -/

/-- The two ends, and the datagrams under way to the session and to the client. -/
structure Net where
  world : World
  up : List Bytes
  down : List Bytes

/-- The steps of the ends and of the network. -/
inductive NetAct
  /-- What happens to the client, but for datagrams. -/
  | client (a : Http4Client.Step)
  /-- The session takes a step of its own. -/
  | server (a : Act)
  /-- The `i`-th datagram under way arrives, in any order. -/
  | toServer (i : ℕ) (now : ℤ) (got : GetResult)
  | toClient (i : ℕ) (alloc : Bool) (elapse : List ℚ≥0)
  | loseUp (i : ℕ)
  | loseDown (i : ℕ)
  | duplicateUp (i : ℕ)
  | duplicateDown (i : ℕ)

namespace Net

/-- The start of a session; HELLO is under way. -/
def init (opts : ClientOptions) (maxDatagramSize : ℕ) (cfg : Config) : Net :=
  let w := World.init opts maxDatagramSize cfg
  { world := w, up := w.sent, down := [] }

/-- What an end has sent in a step is under way after it. -/
def after (n : Net) (w : World) : Net :=
  { world := w, up := n.up ++ w.sent.drop n.world.sent.length
    down := n.down ++ (w.replies.drop n.world.replies.length).map Reply.bytes }

/-- One step. -/
def step (cfg : Config) (n : Net) : NetAct → Option Net
  | .client a =>
    match a.event with
    | .datagram _ _ => none
    | .request _ _ _ _ | .readDone | .readRejected | .tick | .streamStarted _ | .read _ | .pullSettled _ | .cancel _
    | .close | .sessionEnded => (World.step cfg n.world (.client a)).map n.after
  | .server a => (World.step cfg n.world (.server a)).map n.after
  | .toServer i now got =>
    n.up[i]?.bind fun b => (World.step cfg n.world (.deliver b now got)).map (Net.after { n with up := n.up.eraseIdx i })
  | .toClient i alloc elapse =>
    n.down[i]?.bind fun b =>
      (World.step cfg n.world (.client { event := .datagram b alloc, elapse := elapse })).map
        (Net.after { n with down := n.down.eraseIdx i })
  | .loseUp i => if i < n.up.length then some { n with up := n.up.eraseIdx i } else none
  | .loseDown i => if i < n.down.length then some { n with down := n.down.eraseIdx i } else none
  | .duplicateUp i => n.up[i]?.map fun b => { n with up := n.up ++ [b] }
  | .duplicateDown i => n.down[i]?.map fun b => { n with down := n.down ++ [b] }

/-- No datagram is under way. -/
def Quiet (n : Net) : Prop := n.up = [] ∧ n.down = []

/-- Nothing is under way, some unpaused transfer is incomplete, `grants(reserved())` would
    grant nothing, and the timer takes every transfer to be waiting. -/
def Stuck (n : Net) : Prop :=
  n.Quiet ∧ Wants n.world.client ∧ (n.world.client.budgeted.grants n.world.client.reserved).1 = [] ∧
    Waits n.world.client

/-- Where nothing is under way and everything waits, what paused transfers were granted and
    did not get leaves the first candidate its share of the budget. -/
def LeavesRoom (n : Net) : Prop := n.Quiet → Waits n.world.client → ¬ n.world.client.budgeted.HeldBack

instance : DecidablePred Quiet := fun n => inferInstanceAs (Decidable (n.up = [] ∧ n.down = []))

instance : DecidablePred LeavesRoom := fun n =>
  inferInstanceAs (Decidable (n.Quiet → Waits n.world.client → ¬ n.world.client.budgeted.HeldBack))

variable {cfg : Config} {opts : ClientOptions} {maxDatagramSize : ℕ} {n n' : Net} {a : NetAct}

/-! ## Runs -/

/-- A step of the network is a step of one end, or of none. -/
theorem world_of_step (h : step cfg n a = some n') :
    n'.world = n.world ∨ ∃ b, World.step cfg n.world b = some n'.world := by
  have hafter {m : Net} {o : Option World} {b : WorldAct} (ho : World.step cfg n.world b = o) (h : o.map m.after = some n') :
      n'.world = n.world ∨ ∃ b, World.step cfg n.world b = some n'.world := by
    obtain ⟨w, hw, rfl⟩ := Option.map_eq_some_iff.mp h
    exact .inr ⟨b, ho.trans hw⟩
  cases a with
  | client a =>
    rw [step] at h
    cases hevent : a.event with
    | datagram b alloc =>
      rw [hevent] at h
      cases h
    | request | readDone | readRejected | tick | streamStarted | read | pullSettled | cancel | close | sessionEnded =>
      rw [hevent] at h
      exact hafter rfl h
  | server a => exact hafter rfl h
  | toServer i now got =>
    obtain ⟨b, -, h⟩ := Option.bind_eq_some_iff.mp h
    exact hafter rfl h
  | toClient i alloc elapse =>
    obtain ⟨b, -, h⟩ := Option.bind_eq_some_iff.mp h
    exact hafter rfl h
  | loseUp | loseDown =>
    rw [step] at h
    split_ifs at h
    obtain rfl := Option.some.inj h
    exact .inl rfl
  | duplicateUp | duplicateDown =>
    obtain ⟨b, -, rfl⟩ := Option.map_eq_some_iff.mp h
    exact .inl rfl

/-- What the two ends do is a run of `World`. -/
theorem reachable (h : Machine.Reachable (step cfg) (init opts maxDatagramSize cfg) n) :
    Machine.Reachable (World.step cfg) (World.init opts maxDatagramSize cfg) n.world := by
  obtain ⟨acts, hrun⟩ := h
  refine Machine.run_invariant
    (P := fun n => Machine.Reachable (World.step cfg) (World.init opts maxDatagramSize cfg) n.world)
    (fun n a n' hn hstep => ?_) ⟨[], rfl⟩ hrun
  rcases world_of_step hstep with heq | ⟨b, hb⟩
  · rw [heq]
    exact hn
  · exact hn.next hb

/-- A client is stuck where paused transfers leave no room. -/
theorem stuck_iff (hopts : opts.PositiveWhole) (h : Machine.Reachable (step cfg) (init opts maxDatagramSize cfg) n) :
    n.Stuck ↔ ¬ n.LeavesRoom := by
  have hw := reachable h
  have hconfigured := Http4Client.configured_reachable (World.client_reachable hw)
  unfold Stuck LeavesRoom
  constructor
  · rintro ⟨hquiet, hwants, hnone, hwaits⟩ hroom
    exact hroom hquiet hwaits (((World.bounded hw).stalls_iff hconfigured hopts hwaits).mp ⟨hwants, hnone⟩)
  · intro hroom
    push Not at hroom
    obtain ⟨hquiet, hwaits, hheld⟩ := hroom
    obtain ⟨hwants, hnone⟩ := ((World.bounded hw).stalls_iff hconfigured hopts hwaits).mpr hheld
    exact ⟨hquiet, hwants, hnone, hwaits⟩

/-- **When no run of the client ends in a silent deadlock.** Under positive whole settings no
    state of a run is stuck if and only if in each of them paused transfers leave room. -/
theorem never_stuck_iff (hopts : opts.PositiveWhole) (acts : List NetAct) :
    (∀ before after n, acts = before ++ after →
      Machine.run (step cfg) (init opts maxDatagramSize cfg) before = some n → ¬ n.Stuck) ↔
    ∀ before after n, acts = before ++ after →
      Machine.run (step cfg) (init opts maxDatagramSize cfg) before = some n → n.LeavesRoom := by
  refine forall₂_congr fun before after => forall₃_congr fun n heq hrun => ?_
  rw [stuck_iff hopts ⟨before, hrun⟩, not_not]

/-! ## A deadlock -/

/-- A budget of 16 bytes, all of which a REQ may be answered with, and a stream that holds one. -/
def smallBudget : ClientOptions :=
  { budget := some 16, initialGrant := some 16, streamHighWaterMark := some 1, sessionSeq := some false }

/-- Three bytes in each DATA. -/
def threeBytes : Config := { smallConfig with initialMaxDatagram := 20 }

/-- An asset of forty bytes. -/
def longAsset : Asset :=
  { body := List.replicate 40 7, contentType := Wire.lit "text/plain", etag := Wire.lit "1", lastModified := none
    cacheControl := [] }

/-- The session sends META and six DATA. -/
def answer (order : List ℕ) : List NetAct := (List.replicate 7 (serverSends order)).flatten.map .server

/-- A stream that nobody reads gets its META and its first three bytes; the other thirteen
    that were granted are lost. -/
def tailLost : List NetAct :=
  [.client { event := .request 1 (Wire.Ts.jsLit "/a") true .normal }, .client { event := .streamStarted 1 },
   .client { event := .pullSettled 1 }, .toServer 0 0 (.found longAsset)] ++ answer [0] ++
    [.toClient 0 true [], .toClient 0 true []] ++ List.replicate 5 (.loseDown 0)

/-- A second request gets all that its REQ granted. -/
def thenSecond : List NetAct :=
  [.client { event := .request 2 (Wire.Ts.jsLit "/b") false .normal }, .toServer 0 0 (.found longAsset)] ++
    answer [0, 1] ++ List.replicate 7 (.toClient 0 true [])

/-- A minute later the timer looks. -/
def minuteLater : NetAct := .client { event := .tick, elapse := [60000] }

theorem positiveWhole_smallBudget : smallBudget.PositiveWhole := by
  unfold ClientOptions.PositiveWhole smallBudget
  simp only [List.forall_mem_cons, List.not_mem_nil, Option.some.injEq, reduceCtorEq]
  exact ⟨fun q hq => ⟨16, by decide, by rw [← hq]; norm_num⟩, by simp, by simp, by simp, by simp,
    fun q hq => ⟨16, by decide, by rw [← hq]; norm_num⟩, by simp, by simp, by simp,
    fun q hq => ⟨1, by decide, by rw [← hq]; norm_num⟩, by simp⟩

/-- Nobody has anything to send, the second request waits for a grant for ever, and the
    timer does nothing about it. -/
theorem stuck_tailLost : ∃ n n', smallBudget.PositiveWhole ∧
    Machine.run (step threeBytes) (init smallBudget 1200 threeBytes) (tailLost ++ thenSecond) = some n ∧ n.Stuck ∧
      (∀ r ∈ n.world.server.session.heap, r.due = none) ∧ n.world.server.session.pending = [] ∧
      step threeBytes n minuteLater = some n' ∧ n'.Stuck := by
  have hany : (Machine.run (step threeBytes) (init smallBudget 1200 threeBytes) (tailLost ++ thenSecond)).any fun n =>
      ¬ n.LeavesRoom ∧ (∀ r ∈ n.world.server.session.heap, r.due = none) ∧ n.world.server.session.pending = [] ∧
        (step threeBytes n minuteLater).any fun n' => ¬ n'.LeavesRoom := by decide +kernel
  obtain ⟨n, hrun, hn⟩ := (Option.any_eq_true _ _).mp hany
  obtain ⟨hroom, hdue, hpending, hn⟩ := of_decide_eq_true hn
  obtain ⟨n', hstep, hroom'⟩ := (Option.any_eq_true _ _).mp hn
  have hroom' := of_decide_eq_true hroom'
  have hrun' := Machine.run_concat_iff.mpr ⟨n, hrun, hstep⟩
  exact ⟨n, n', positiveWhole_smallBudget, hrun, (stuck_iff positiveWhole_smallBudget ⟨_, hrun⟩).mpr hroom, hdue, hpending,
    hstep, (stuck_iff positiveWhole_smallBudget ⟨_, hrun'⟩).mpr hroom'⟩

/-- Thirteen bytes are missing for ever, but there is nobody else to wait for them. -/
theorem never_stuck_tailLost : ∃ n,
    Machine.run (step threeBytes) (init smallBudget 1200 threeBytes) tailLost = some n ∧ n.Quiet ∧
      Waits n.world.client ∧ n.world.client.scheduler.withheld = 13 ∧ ¬ n.Stuck := by
  have hany : (Machine.run (step threeBytes) (init smallBudget 1200 threeBytes) tailLost).any fun n =>
      n.Quiet ∧ Waits n.world.client ∧ n.world.client.scheduler.withheld = 13 := by decide +kernel
  obtain ⟨n, hrun, hn⟩ := (Option.any_eq_true _ _).mp hany
  obtain ⟨hquiet, hwaits, hmissing⟩ := of_decide_eq_true hn
  have hall : ∀ k ∈ List.range (tailLost.length + 1),
      (Machine.run (step threeBytes) (init smallBudget 1200 threeBytes) (tailLost.take k)).all fun n => n.LeavesRoom := by
    decide +kernel
  have hnever := (never_stuck_iff positiveWhole_smallBudget tailLost).mpr fun before after m heq hm => by
    have hlen : before.length ∈ List.range (tailLost.length + 1) := by
      rw [List.mem_range, heq, List.length_append]
      omega
    have hroom := hall before.length hlen
    rw [heq, List.take_left, hm] at hroom
    exact of_decide_eq_true hroom
  exact ⟨n, hrun, hquiet, hwaits, hmissing, hnever tailLost [] n (List.append_nil _).symm hrun⟩

end Net

end Http4.System
