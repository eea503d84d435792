import Http4.Client.Readers

/-!
# The fetcher and what an abort leaves

Model of `client/src/fetcher.ts`: `outcome` and `abortable` of `Http4Fetcher`
(lines 198–251) over the session. A call waits for the promise of its transfer, and
an abort ends the wait but not the transfer.

The request's URL enters as what `pathToAssetId` and `classFor` make of it. The log
and the platform fetch are left out.

Main results:

* `Http4Fetcher.not_leaked`: when no aborted call leaves a paused transfer behind.
-/

namespace Http4.Client

open Routine Http4Client
open Wire.Ts (JsString jsLit)

/-! ## State -/

/-- What a call of `outcome` ends with: an `Http4Outcome`, or the signal's reason. -/
inductive Outcome
  | http4 (status : ℕ) (headers : List (JsString × JsString)) (body : Option Bytes) (stream : Bool)
      (length : Option ℕ)
  | fallback (e : Failure)
  | aborted
  deriving DecidableEq

/-- A call of `outcome` that waits for a transfer, or has waited. -/
structure Call where
  head : Bool
  result : Option Outcome := none
  deriving DecidableEq

/-- `ErrorCode.NOT_FOUND`. -/
def errorNotFound : ℤ := 0x01

/-- `metaHeaders` (lines 106–110). -/
def metaHeaders (fields : List (JsString × JsString)) (length : ℕ) : List (JsString × JsString) :=
  fields ++ [(jsLit "content-length", jsLit (toString length))]

/-- The outcome of a transfer that ends before the call is aborted (lines 207–222). -/
def Call.outcome (call : Call) : Settlement → Outcome
  | .stream size headers => .http4 200 (metaHeaders headers size) none true (some size)
  | .response body headers =>
    .http4 200 (metaHeaders headers body.length) (if call.head then none else some body) false none
  | .rejected (.server assetId code) =>
    if code = errorNotFound then .http4 404 [] none false none else .fallback (.server assetId code)
  | .rejected e => .fallback e

/-- Whether the caller has the body stream. -/
def Call.delivered (call : Call) : Bool :=
  match call.result with
  | some (.http4 _ _ _ stream _) => stream
  | _ => false

/-- `class Http4Fetcher` with a session. -/
structure Http4Fetcher where
  client : Http4Client
  /-- `opts.stream`. -/
  stream : Option Bool
  /-- The calls that a transfer was started for, by its rpc_id. -/
  calls : OrderedMap ℤ Call
  deriving DecidableEq

namespace Http4Fetcher

/-! ## The machine -/

/-- A fetcher over a session that `connect` opened. -/
def new (opts : ClientOptions) (maxDatagramSize : ℕ) (stream : Option Bool) : Http4Fetcher :=
  { client := connect opts maxDatagramSize, stream := stream, calls := .empty }

/-- What happens to a fetcher and its session. -/
inductive Event
  /-- A call of `outcome`; `assetId` is what `pathToAssetId` returns, and `aborted`
      whether the signal is. -/
  | outcome (id : ℤ) (assetId : Option JsString) (head : Bool) (cls : PriorityClass) (aborted : Bool)
  /-- The signal of a call fires. -/
  | abort (id : ℤ)
  /-- The promise of a call's transfer has settled. -/
  | settled (id : ℤ)
  /-- Something else happens to the session. -/
  | session (e : Http4Client.Event)

/-- An event with what its calls of `performance.now()` add to the clock. -/
structure Step where
  event : Event
  elapse : List ℚ≥0 := []

/-- The caller of a transfer's stream has it, if the event is a reader's. -/
def hasReader (s : Http4Fetcher) : Http4Client.Event → Prop
  | .read id | .cancel id => (s.calls.get? id).any Call.delivered
  | .request _ _ _ _ => False
  | _ => True

instance (s : Http4Fetcher) (e : Http4Client.Event) : Decidable (s.hasReader e) :=
  match e with
  | .read id | .cancel id => inferInstanceAs (Decidable ((s.calls.get? id).any Call.delivered = true))
  | .request _ _ _ _ => inferInstanceAs (Decidable False)
  | .datagram _ _ | .readDone | .readRejected | .tick | .streamStarted _ | .pullSettled _ | .close
  | .sessionEnded => inferInstanceAs (Decidable True)

/-- The result of a call of `abortable`, which takes the first one. -/
def setResult (s : Http4Fetcher) (id : ℤ) (o : Outcome) : Http4Fetcher :=
  { s with calls := s.calls.modify id fun call => { call with result := call.result.or (some o) } }

/-- `outcome` (lines 198–210) once the path and the session are there. -/
def start (s : Http4Fetcher) (id : ℤ) (assetId : JsString) (head : Bool) (cls : PriorityClass)
    (elapse : List ℚ≥0) : Option Http4Fetcher := do
  let streaming := s.stream.getD true && !head
  let client ← s.client.step { event := .request id assetId streaming cls, elapse := elapse }
  return { s with
    client := client
    calls := if (client.objects.get? id).isSome then s.calls.set id { head := head } else s.calls }

/-- One step. -/
def step (s : Http4Fetcher) (a : Step) : Option Http4Fetcher :=
  match a.event with
  | .outcome id assetId head cls aborted =>
    match assetId with
    | none => some s
    | some assetId => if s.client.isOpen ∧ ¬ aborted then s.start id assetId head cls a.elapse else some s
  | .abort id => if (s.calls.get? id).isSome then some (s.setResult id .aborted) else none
  | .settled id => do
    let call ← s.calls.get? id
    let t ← s.client.objects.get? id
    let x ← t.settlements.head?
    return s.setResult id (call.outcome x)
  | .session e =>
    if s.hasReader e then
      (s.client.step { event := e, elapse := a.elapse }).map fun client => { s with client := client }
    else none

end Http4Fetcher

/-! ## Room in the stream -/

section Room

variable {st st' : StreamState} {asm : Reassembly}

/-- What the queue holds. -/
def ReadableStream.queued (s : ReadableStream) : ℕ := (s.queue.map List.length).sum

/-- The queue has room for more once the bytes have been flushed that DATA makes
    contiguous. -/
def StreamState.HasRoom (st : StreamState) (asm : Reassembly) : Prop :=
  st.body.phase = .readable ∧
    ((st.body.queued + if st.Flushes asm then asm.contiguous - st.emitted else 0 : ℕ) : ℚ) < st.body.highWaterMark

instance (st : StreamState) (asm : Reassembly) : Decidable (st.HasRoom asm) := by
  unfold StreamState.HasRoom
  infer_instance

theorem queued_enqueue_le (s : ReadableStream) (chunk : Bytes) :
    (s.enqueue chunk).queued ≤ s.queued + chunk.length := by
  rw [ReadableStream.enqueue]
  split_ifs
  · exact Nat.le_add_right _ _
  · simp [ReadableStream.queued]

theorem length_sub_le (b : Bytes) (i j : ℕ) : (Bytes.sub b i j).length ≤ j - i := by
  rw [Bytes.sub]
  exact List.length_take_le _ _

theorem paused_callPull (h : st.paused = false) (failed : Bool) : (st.callPull failed).paused = false := by
  rw [StreamState.callPull]
  split_ifs
  · exact h
  · rfl
  · exact h

theorem paused_pause (h : st.paused = false) (hroom : 0 < st.body.desiredSize) : st.pause.paused = false := by
  rw [StreamState.pause, if_neg fun hbehind => absurd hbehind.1 (not_le.mpr hroom)]
  exact h

theorem paused_flush (h : st.paused = false) (hroom : st.HasRoom asm) (failed : Bool) :
    (st.flush failed asm).paused = false := by
  obtain ⟨hphase, hlt⟩ := hroom
  rw [StreamState.flush]
  split_ifs at hlt ⊢ with hflush
  · have hpaused : (st.enqueued asm).paused = false := h
    refine paused_pause (paused_callPull hpaused failed) ?_
    have hqueued := (queued_enqueue_le st.body (Bytes.sub asm.bytes st.emitted asm.contiguous)).trans
      (Nat.add_le_add_left (length_sub_le _ _ _) _)
    have hqueued : (((st.enqueued asm).body.queued : ℕ) : ℚ) < st.body.highWaterMark :=
      (Nat.cast_le.mpr hqueued).trans_lt hlt
    obtain ⟨_, _, _, _, heq⟩ := (st.enqueued asm).callPull_eq failed
    rw [heq, ReadableStream.desiredSize]
    have hphase' : (st.enqueued asm).body.phase = .readable := by
      rw [StreamState.enqueued, ReadableStream.enqueue]
      split_ifs <;> exact hphase
    dsimp only
    rw [hphase']
    refine sub_pos.mpr ?_
    rw [show (st.enqueued asm).body.highWaterMark = st.body.highWaterMark from st.body.enqueue_highWaterMark _]
    exact hqueued
  · refine paused_pause h ?_
    rw [ReadableStream.desiredSize, hphase]
    exact sub_pos.mpr hlt

theorem Http4Client.StreamTurn.paused_eq_false (h : StreamTurn .calm st st') (hpaused : st.paused = false) :
    st'.paused = false := by
  cases h with
  | enqueued failed | started failed | read failed | pulledAgain failed =>
    refine paused_callPull ?_ failed
    exact hpaused
  | paused hfalse => exact hfalse.elim
  | skipped | ended | shut | errored | pullRejected | pullDone | cancelled => exact hpaused

end Room

namespace Http4Fetcher

/-! ## Aborted calls -/

section Aborted

variable {s s' : Http4Fetcher} {id : ℤ}

/-- The call of a transfer was aborted before it had its outcome. -/
def Aborted (s : Http4Fetcher) (id : ℤ) : Prop := ∃ call, s.calls.get? id = some call ∧ call.result = some .aborted

/-- The DATA that a packet carries. -/
def carriedData : Option Wire.Ts.Packet → Option Wire.Ts.Data
  | some (.data d) => some d
  | some (.dataSeq p) => some p.toData
  | _ => none

theorem carried_iff {inc : Option Wire.Ts.Packet} {d : Wire.Ts.Data} : Carried inc d ↔ d ∈ carriedData inc := by
  constructor
  · rintro (rfl | ⟨p, rfl, rfl⟩) <;> rfl
  · intro h
    unfold carriedData at h
    split at h
    · exact .inl (congrArg (some ∘ Wire.Ts.Packet.data) (Option.some.inj h))
    · exact .inr ⟨_, rfl, Option.some.inj h⟩
    · cases h

/-- The call of a transfer has no outcome yet. -/
def Waiting (s : Http4Fetcher) (id : ℤ) : Prop := ∃ call, s.calls.get? id = some call ∧ call.result = none

/-- An abort that ends a wait comes while the transfer is not paused, and DATA of a
    transfer whose call was aborted leaves room in its stream. -/
def LeavesRoom (s : Http4Fetcher) (a : Step) : Prop :=
  match a.event with
  | .abort id => s.Waiting id → ∀ st, s.client.streamOf id = some (true, st) → st.paused = false
  | .session e => ∀ d st asm, Carried e.packet d → s.Aborted d.rpcId →
      s.client.streamOf d.rpcId = some (true, st) → s.client.stored d = some asm → st.HasRoom asm
  | .outcome _ _ _ _ _ | .settled _ => True

instance (s : Http4Fetcher) (id : ℤ) : Decidable (s.Aborted id) :=
  decidable_of_iff (∃ call ∈ s.calls.get? id, call.result = some .aborted) Iff.rfl

instance (s : Http4Fetcher) (id : ℤ) : Decidable (s.Waiting id) :=
  decidable_of_iff (∃ call ∈ s.calls.get? id, call.result = none) Iff.rfl

/-- The stream leaves room for the DATA, if it is one. -/
theorem leavesRoom_session_iff {s : Http4Fetcher} {e : Http4Client.Event} (elapse : List ℚ≥0) :
    (∀ d ∈ carriedData e.packet, s.Aborted d.rpcId → ∀ x ∈ s.client.streamOf d.rpcId, x.1 = true →
      ∀ asm ∈ s.client.stored d, x.2.HasRoom asm) ↔ s.LeavesRoom { event := .session e, elapse := elapse } := by
  constructor
  · intro h d st asm hd habort hst hstored
    exact h d (carried_iff.mp hd) habort (true, st) hst rfl asm hstored
  · rintro h d hd habort ⟨live, st⟩ hst rfl asm hstored
    exact h d st asm (carried_iff.mpr hd) habort hst hstored

instance (s : Http4Fetcher) (a : Step) : Decidable (s.LeavesRoom a) :=
  match a with
  | { event := .abort id, elapse := _ } =>
    decidable_of_iff (s.Waiting id → ∀ x ∈ s.client.streamOf id, x.1 = true → x.2.paused = false)
      ⟨fun h hwaiting st hst => h hwaiting (true, st) hst rfl, fun h hwaiting ⟨live, st⟩ hst hlive =>
        h hwaiting st (by rw [← show live = true from hlive]; exact hst)⟩
  | { event := .session e, elapse := elapse } => decidable_of_iff _ (leavesRoom_session_iff elapse)
  | { event := .outcome _ _ _ _ _, elapse := _ } | { event := .settled _, elapse := _ } => .isTrue trivial

/-- No aborted call has left a paused transfer behind. -/
def Clean (s : Http4Fetcher) : Prop :=
  ∀ id st, s.Aborted id → s.client.streamOf id = some (true, st) → st.paused = false

theorem Clean.session {a : Http4Client.Step} {c : Http4Client} (h : s.Clean) (hstep : s.client.step a = some c)
    (hroom : ∀ d st asm, Carried a.event.packet d → s.Aborted d.rpcId →
      s.client.streamOf d.rpcId = some (true, st) → s.client.stored d = some asm → st.HasRoom asm) : { s with client := c }.Clean := by
  have hcalm {m m' : Http4Client} (hm : { s with client := m }.Clean) (hcalm : Calm m m') :
      { s with client := m' }.Clean := by
    intro id st habort hst
    refine hcalm.preserves (P := fun id live st => s.Aborted id → live = true → st.paused = false)
      (fun _ _ _ => rfl) (fun _ _ _ _ h hturn habort hlive => hturn.paused_eq_false (h habort hlive))
      (fun _ _ _ _ _ _ _ _ hlive => by cases hlive) (fun id live st hst habort hlive => ?_) id true st hst habort rfl
    subst hlive
    exact hm id st habort hst
  obtain ⟨m, hturns, rfl | ⟨d, asm, hd, hstored, hflush⟩⟩ := step_delivers hstep
  · exact hcalm h hturns
  · refine hcalm (fun id st habort hst => ?_) hturns
    obtain ⟨st₀, failed, hst₀, -, -, hstream⟩ := hflush.streamOf
    change m.streamOf id = some (true, st) at hst
    rw [hstream] at hst
    split_ifs at hst with hid
    · obtain ⟨-, rfl⟩ := Prod.mk.inj (Option.some.inj hst)
      subst hid
      exact paused_flush (h _ st₀ habort hst₀) (hroom d st₀ asm hd habort hst₀ hstored) failed
    · exact h id st habort hst

theorem outcome_ne_aborted (call : Call) (x : Settlement) : call.outcome x ≠ .aborted := by
  cases x with
  | response | stream => exact Outcome.noConfusion
  | rejected e =>
    cases e with
    | server assetId code =>
      rw [Call.outcome]
      split_ifs <;> exact Outcome.noConfusion
    | clientClosed | sessionClosed | assetIdTooLong | totalSizeChanged | range | noProgress | thrown =>
      exact Outcome.noConfusion

theorem aborted_setResult {o : Outcome} {id' : ℤ} (h : (s.setResult id o).Aborted id') :
    s.Aborted id' ∨ id' = id ∧ o = .aborted ∧ s.Waiting id := by
  obtain ⟨call, hcall, hresult⟩ := h
  change (s.calls.modify id _).get? id' = some call at hcall
  rw [OrderedMap.get?_modify] at hcall
  split_ifs at hcall with hid
  · obtain ⟨call₀, hcall₀, rfl⟩ := Option.map_eq_some_iff.mp hcall
    change call₀.result.or (some o) = some .aborted at hresult
    cases hresult₀ : call₀.result with
    | none =>
      rw [hresult₀] at hresult
      exact .inr ⟨hid, Option.some.inj hresult, call₀, hid ▸ hcall₀, hresult₀⟩
    | some o₀ =>
      rw [hresult₀] at hresult
      exact .inl ⟨call₀, hcall₀, hresult₀.trans hresult⟩
  · exact .inl ⟨call, hcall, hresult⟩

/-- A call that has just begun is not aborted. -/
theorem aborted_start {assetId : JsString} {head : Bool} {cls : PriorityClass} {elapse : List ℚ≥0}
    (h : s.start id assetId head cls elapse = some s') : ∃ c,
      s.client.step { event := .request id assetId (s.stream.getD true && !head) cls, elapse := elapse } = some c ∧
        s'.client = c ∧ ∀ id', s'.Aborted id' → s.Aborted id' := by
  obtain ⟨c, hc, heq⟩ := Option.bind_eq_some_iff.mp h
  obtain rfl := Option.some.inj heq
  refine ⟨c, hc, rfl, fun id' habort => ?_⟩
  obtain ⟨call, hcall, hresult⟩ := habort
  change (if _ then s.calls.set id _ else s.calls).get? id' = some call at hcall
  split_ifs at hcall
  · rw [OrderedMap.get?_set] at hcall
    split_ifs at hcall
    · obtain rfl := Option.some.inj hcall
      cases hresult
    · exact ⟨call, hcall, hresult⟩
  · exact ⟨call, hcall, hresult⟩

theorem Clean.step {a : Step} (h : s.Clean) (hroom : s.LeavesRoom a) (hstep : s.step a = some s') : s'.Clean := by
  rw [Http4Fetcher.step] at hstep
  rw [LeavesRoom] at hroom
  cases hevent : a.event with
  | outcome id assetId head cls aborted =>
    rw [hevent] at hstep
    dsimp only at hstep
    have hsame (heq : some s = some s') : s'.Clean := Option.some.inj heq ▸ h
    cases assetId with
    | none => exact hsame hstep
    | some assetId =>
      dsimp only at hstep
      split_ifs at hstep
      · obtain ⟨c, hc, hclient, hless⟩ := aborted_start hstep
        have hclean := h.session hc fun d _ _ hd _ _ _ => (not_brings_none ⟨d, hd, rfl⟩).elim
        intro id' st habort hst
        rw [hclient] at hst
        exact hclean id' st (hless id' habort) hst
      · exact hsame hstep
  | abort id =>
    rw [hevent] at hstep hroom
    dsimp only at hstep hroom
    split_ifs at hstep
    obtain rfl := Option.some.inj hstep
    intro id' st habort hst
    rcases aborted_setResult habort with habort | ⟨rfl, -, hwaiting⟩
    · exact h id' st habort hst
    · exact hroom hwaiting st hst
  | settled id =>
    rw [hevent] at hstep
    obtain ⟨call, -, hstep⟩ := Option.bind_eq_some_iff.mp hstep
    obtain ⟨t, -, hstep⟩ := Option.bind_eq_some_iff.mp hstep
    obtain ⟨x, -, hstep⟩ := Option.bind_eq_some_iff.mp hstep
    obtain rfl := Option.some.inj hstep
    intro id' st habort hst
    rcases aborted_setResult habort with habort | ⟨-, hout, -⟩
    · exact h id' st habort hst
    · exact absurd hout (outcome_ne_aborted call x)
  | session e =>
    rw [hevent] at hstep hroom
    dsimp only at hstep hroom
    split_ifs at hstep
    obtain ⟨c, hc, rfl⟩ := Option.map_eq_some_iff.mp hstep
    exact h.session hc hroom

/-- **An aborted call leaves no paused transfer behind**, in any state of a run whose
    aborts and DATA leave room. -/
theorem not_leaked {opts : ClientOptions} {maxDatagramSize : ℕ} {stream : Option Bool} {as : List Step}
    (hrun : Machine.run Http4Fetcher.step (new opts maxDatagramSize stream) as = some s)
    (hroom : Machine.Along Http4Fetcher.step (new opts maxDatagramSize stream) as LeavesRoom) {t : Transfer}
    {call : Call} (ht : s.client.objects.get? id = some t) (hlive : t.live = true)
    (hcall : s.calls.get? id = some call) (haborted : call.result = some .aborted) : t.paused = false := by
  have hnew : (new opts maxDatagramSize stream).Clean := by
    rintro id st ⟨call, hcall, -⟩ -
    cases hcall
  have hclean : s.Clean := Machine.run_along (fun _ _ _ hroom h hstep => h.step hroom hstep) hroom hnew hrun
  rw [Transfer.paused]
  cases hst : t.stream with
  | none => rfl
  | some st =>
    exact hclean id st ⟨call, hcall, haborted⟩ (streamOf_eq_some_iff.mpr ⟨t, ht, hlive, hst⟩)

/-- A call for a stream, aborted before anything arrives; then META and two bytes of ten. -/
def abortedAtOnce : List Step :=
  [{ event := .outcome 1 (some (jsLit "a")) false .normal false }, { event := .abort 1 },
    { event := .session (.streamStarted 1) },
    { event := .session (.datagram [6, 0, 0, 0, 0, 0, 0, 0, 1, 0] true) },
    { event := .session (.datagram [2, 0, 0, 0, 0, 0, 0, 0, 1, 0, 0, 0, 10, 0, 0, 0, 0, 7, 7] true) }]

/-- With room for three bytes its transfer is not paused. -/
theorem not_leaked_atOnce : ∃ s t,
    Machine.run Http4Fetcher.step (new { streamHighWaterMark := some 3 } 1200 none) abortedAtOnce = some s ∧
      s.client.objects.get? 1 = some t ∧ t.live = true ∧ (t.asm.map Reassembly.received = some 2) ∧
      t.paused = false := by
  have hany : (Machine.run Http4Fetcher.step (new { streamHighWaterMark := some 3 } 1200 none) abortedAtOnce).any
      fun s => ((s.client.objects.get? 1).any fun t => t.live ∧ t.asm.map Reassembly.received = some 2) ∧
        (s.calls.get? 1).any fun call => call.result = some .aborted := by decide +kernel
  obtain ⟨s, hrun, hs⟩ := (Option.any_eq_true _ _).mp hany
  obtain ⟨hobject, hcalls⟩ := of_decide_eq_true hs
  obtain ⟨t, ht, hstate⟩ := (Option.any_eq_true _ _).mp hobject
  obtain ⟨call, hcall, haborted⟩ := (Option.any_eq_true _ _).mp hcalls
  obtain ⟨hlive, htwo⟩ := of_decide_eq_true hstate
  have hroom : Machine.Along Http4Fetcher.step (new { streamHighWaterMark := some 3 } 1200 none) abortedAtOnce
      LeavesRoom := by decide +kernel
  exact ⟨s, t, hrun, ht, hlive, htwo, not_leaked hrun hroom ht hlive hcall (of_decide_eq_true haborted)⟩

/-- With room for one byte, two bytes that arrive after it pause it. -/
theorem aborted_leaks : ¬ ∀ opts maxDatagramSize stream s,
    Machine.Reachable Http4Fetcher.step (new opts maxDatagramSize stream) s →
      ∀ id t call, s.client.objects.get? id = some t → t.live = true → s.calls.get? id = some call →
        call.result = some .aborted → t.paused = false := by
  intro h
  have hany : (Machine.run Http4Fetcher.step (new { streamHighWaterMark := some 1 } 1200 none)
      abortedAtOnce).any fun s => ((s.client.objects.get? 1).any fun t => t.live ∧ t.paused = true) ∧
        (s.calls.get? 1).any fun call => call.result = some .aborted := by decide +kernel
  obtain ⟨s, hrun, hs⟩ := (Option.any_eq_true _ _).mp hany
  obtain ⟨hobject, hcalls⟩ := of_decide_eq_true hs
  obtain ⟨t, ht, hstate⟩ := (Option.any_eq_true _ _).mp hobject
  obtain ⟨call, hcall, haborted⟩ := (Option.any_eq_true _ _).mp hcalls
  obtain ⟨hlive, hpaused⟩ := of_decide_eq_true hstate
  rw [h _ 1200 none s ⟨_, hrun⟩ 1 t call ht hlive hcall (of_decide_eq_true haborted)] at hpaused
  cases hpaused

end Aborted

end Http4Fetcher

end Http4.Client
