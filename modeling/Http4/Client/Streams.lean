import Http4.Client.Held

/-!
# What the code does to streams

A stream changes in turns: what a reader, a packet or the platform does to it
together with the call of `pull` that the platform makes of it. `StreamTurn` lists
them, and every function of `Transport.lean` is a sequence of turns for each stream.

Main results:

* `exec_callPullIfNeeded`: what a call of `pull` leaves.
* `turns_code`: the code of an event as turns.
* `stream_invariant`: what turns preserve holds of every stream of every run.
-/

namespace Http4.Client

open Routine Http4Client

/-! ## Turns -/

namespace ReadableStream

variable (s : ReadableStream)

@[simp] theorem enqueue_highWaterMark (chunk : Bytes) : (s.enqueue chunk).highWaterMark = s.highWaterMark := by
  rw [enqueue]
  split_ifs <;> rfl

@[simp] theorem read_highWaterMark : s.read.highWaterMark = s.highWaterMark := by
  rw [read]
  split
  · rfl
  · split_ifs <;> rfl
  · rfl
  · rfl

@[simp] theorem close_highWaterMark : s.close.highWaterMark = s.highWaterMark := by
  rw [close]
  split_ifs <;> rfl

@[simp] theorem error_highWaterMark : s.error.highWaterMark = s.highWaterMark := by
  rw [error]
  split_ifs <;> rfl

end ReadableStream

/-- What `callPullIfNeeded` makes of a stream; `failed` says whether `pull` threw. -/
def StreamState.callPull (failed : Bool) (st : StreamState) : StreamState :=
  if st.body.shouldPull then
    if st.body.pulling then { st with body := { st.body with pullAgain := true } }
    else
      { st with paused := false
                body := { st.body with pulling := true, pullFailed := failed || st.body.pullFailed } }
  else st

/-- What a call of `pull` leaves alone. -/
theorem StreamState.callPull_eq (failed : Bool) (st : StreamState) :
    ∃ paused pulling pullAgain pullFailed, st.callPull failed =
      { st with paused := paused
                body := { st.body with pulling := pulling, pullAgain := pullAgain, pullFailed := pullFailed } } := by
  rw [callPull]
  split_ifs
  · exact ⟨_, _, _, _, rfl⟩
  · exact ⟨_, _, _, _, rfl⟩
  · exact ⟨_, _, _, _, rfl⟩

@[simp] theorem StreamState.callPull_closed (failed : Bool) (st : StreamState) :
    (st.callPull failed).closed = st.closed := by
  obtain ⟨_, _, _, _, heq⟩ := st.callPull_eq failed
  rw [heq]

@[simp] theorem StreamState.callPull_emitted (failed : Bool) (st : StreamState) :
    (st.callPull failed).emitted = st.emitted := by
  obtain ⟨_, _, _, _, heq⟩ := st.callPull_eq failed
  rw [heq]

@[simp] theorem StreamState.callPull_reads (failed : Bool) (st : StreamState) :
    (st.callPull failed).body.reads = st.body.reads := by
  obtain ⟨_, _, _, _, heq⟩ := st.callPull_eq failed
  rw [heq]

@[simp] theorem StreamState.callPull_started (failed : Bool) (st : StreamState) :
    (st.callPull failed).body.started = st.body.started := by
  obtain ⟨_, _, _, _, heq⟩ := st.callPull_eq failed
  rw [heq]

@[simp] theorem StreamState.callPull_highWaterMark (failed : Bool) (st : StreamState) :
    (st.callPull failed).body.highWaterMark = st.body.highWaterMark := by
  obtain ⟨_, _, _, _, heq⟩ := st.callPull_eq failed
  rw [heq]

namespace Http4Client

/-- The packet handled is DATA of the transfer. -/
def Brings (inc : Option Wire.Ts.Packet) (id : ℤ) : Prop := ∃ d, Carried inc d ∧ d.rpcId = id

/-- What may happen to a stream. -/
structure Leave where
  pause : Prop
  cancel : Prop

/-- Anything may happen. -/
def Leave.any : Leave := ⟨True, True⟩

/-- Anything but a pause. -/
def Leave.calm : Leave := ⟨False, True⟩

/-- The same, and a pause. -/
def Leave.pausing (F : Leave) : Leave := ⟨True, F.cancel⟩

/-- One thing that happens to the stream of a transfer; `F` says what may. -/
inductive StreamTurn (F : Leave) (st : StreamState) : StreamState → Prop
  | enqueued (failed : Bool) (upTo : ℕ) (chunk : Bytes) (hopen : st.closed = false)
      (hbody : st.body.canEnqueue = true) :
      StreamTurn F st (StreamState.callPull failed
        { st with emitted := upTo, chunks := st.chunks ++ [chunk], body := st.body.enqueue chunk })
  | skipped (upTo : ℕ) (hbody : st.body.canEnqueue = false) :
      StreamTurn F st { st with emitted := upTo }
  | paused (hF : F.pause) (hopen : st.closed = false) (hbehind : st.body.desiredSize ≤ 0) :
      StreamTurn F st { st with paused := true }
  | ended (hbody : st.body.canEnqueue = true) :
      StreamTurn F st { st with closed := true, body := st.body.close }
  | shut (hbody : st.body.canEnqueue = false) : StreamTurn F st { st with closed := true }
  | errored : StreamTurn F st { st with closed := true, body := st.body.error }
  | started (failed : Bool) :
      StreamTurn F st
        (StreamState.callPull failed { st with body := { st.body with started := true } })
  | read (failed : Bool) (hphase : st.body.phase = .readable) :
      StreamTurn F st (StreamState.callPull failed { st with body := st.body.read })
  | pullRejected :
      StreamTurn F st { st with body := { st.body.error with pulling := false, pullFailed := false } }
  | pullDone (hagain : st.body.pullAgain = false) :
      StreamTurn F st { st with body := { st.body with pulling := false, pullAgain := false } }
  | pulledAgain (failed : Bool) (hagain : st.body.pullAgain = true) :
      StreamTurn F st
        (StreamState.callPull failed { st with body := { st.body with pulling := false, pullAgain := false } })
  | cancelled (hF : F.cancel) : StreamTurn F st { st with body := st.body.cancel, closed := true }

/-- One thing that happens to a transfer with a stream, as far as the stream knows.
    A transfer that leaves `this.transfers` has a stream that takes nothing more. -/
inductive Turn (F : Leave) (highWaterMark : ℚ) :
    Option (Bool × StreamState) → Option (Bool × StreamState) → Prop
  | opened : Turn F highWaterMark none (some (true, { body := { highWaterMark := highWaterMark } }))
  | stream {live : Bool} {st st' : StreamState} (h : StreamTurn F st st') :
      Turn F highWaterMark (some (live, st)) (some (live, st'))
  | finished {live : Bool} {st st' : StreamState} (h : Relation.ReflTransGen (StreamTurn F.pausing) st st')
      (hend : st'.closed = true ∨ st'.body.canEnqueue = false) :
      Turn F highWaterMark (some (live, st)) (some (false, st'))

/-- The stream of a transfer, and whether `this.transfers` holds the transfer. -/
def streamOf (c : Http4Client) (id : ℤ) : Option (Bool × StreamState) :=
  (c.held.2 id).bind fun x => x.stream.map fun st => (x.live, st)

/-- Turns of the streams lead from one state to the other; `F` says what may happen to
    which. -/
structure Turns (F : ℤ → Leave) (c c' : Http4Client) : Prop where
  opts : c'.opts = c.opts
  turns : ∀ id, Relation.ReflTransGen (Turn (F id) c.opts.highWaterMark) (c.streamOf id) (c'.streamOf id)

variable {F : ℤ → Leave} {c c' : Http4Client} {id : ℤ}

instance : Std.Refl (Turns F) := ⟨fun _ => ⟨rfl, fun _ => .refl⟩⟩

instance : IsTrans Http4Client (Turns F) := ⟨fun _ _ _ h h' =>
  ⟨h'.opts.trans h.opts, fun id => (h.turns id).trans (h.opts ▸ h'.turns id)⟩⟩

theorem streamOf_eq_some_iff {live : Bool} {st : StreamState} :
    c.streamOf id = some (live, st) ↔
      ∃ t, c.objects.get? id = some t ∧ t.live = live ∧ t.stream = some st := by
  rw [streamOf, Option.bind_eq_some_iff]
  constructor
  · rintro ⟨x, hx, hst⟩
    obtain ⟨t, ht, rfl⟩ := held_eq_some_iff.mp hx
    obtain ⟨st', hst', heq⟩ := Option.map_eq_some_iff.mp hst
    obtain ⟨rfl, rfl⟩ := Prod.mk.inj heq
    exact ⟨t, ht, rfl, hst'⟩
  · rintro ⟨t, ht, rfl, hst⟩
    refine ⟨_, held_of_get? ht, ?_⟩
    change t.stream.map _ = _
    rw [hst]
    rfl

theorem Turns.of_held (h : c'.held = c.held) : Turns F c c' := by
  obtain ⟨hopts, hheld⟩ := Prod.ext_iff.mp h
  refine ⟨hopts, fun id => ?_⟩
  rw [streamOf, streamOf, hheld]

/-- A change to one transfer, for which it is a turn. -/
theorem Turns.of_update {f : Held → Held}
    (h : c'.held = (c.held.1, Function.update c.held.2 id ((c.held.2 id).map f)))
    (hturn : ∀ t, c.objects.get? id = some t → Relation.ReflTransGen (Turn (F id) c.opts.highWaterMark)
      (t.stream.map fun st => (t.live, st)) ((f t.held).stream.map fun st => ((f t.held).live, st))) :
    Turns F c c' := by
  obtain ⟨hopts, hheld⟩ := Prod.ext_iff.mp h
  dsimp only at hopts hheld
  refine ⟨hopts, fun id' => ?_⟩
  rw [streamOf, streamOf, hheld]
  by_cases hid : id' = id
  · rw [hid, Function.update_self]
    cases ht : c.objects.get? id with
    | none =>
      have hnone : c.held.2 id = none := Option.map_eq_none_iff.mpr ht
      rw [hnone]
      exact .refl
    | some t =>
      rw [held_of_get? ht]
      exact hturn t ht
  · rw [Function.update_of_ne hid]

theorem Turns.of_setStream {f : StreamState → StreamState} (h : c'.held = (c.setStream id f).held)
    (hturn : ∀ t st, c.objects.get? id = some t → t.stream = some st → StreamTurn (F id) st (f st)) :
    Turns F c c' := by
  refine .of_update (h.trans (held_setStream id f)) fun t ht => ?_
  change Relation.ReflTransGen _ _ ((t.stream.map f).map fun st => (t.live, st))
  cases hst : t.stream with
  | none => exact .refl
  | some st => exact .single (.stream (hturn t st ht hst))

/-- What may happen under one may under the other. -/
structure Leave.Le (P Q : Leave) : Prop where
  pause : P.pause → Q.pause
  cancel : P.cancel → Q.cancel

theorem Leave.le_any (P : Leave) : P.Le .any := ⟨fun _ => trivial, fun _ => trivial⟩

theorem Leave.le_pausing (P : Leave) : P.Le P.pausing := ⟨fun _ => trivial, fun h => h⟩

theorem Leave.Le.pausing {P Q : Leave} (h : P.Le Q) : P.pausing.Le Q.pausing := ⟨fun h => h, h.cancel⟩

theorem StreamTurn.mono {P Q : Leave} {st st' : StreamState} (hPQ : P.Le Q) (h : StreamTurn P st st') :
    StreamTurn Q st st' := by
  cases h with
  | enqueued failed upTo chunk hopen hbody => exact .enqueued failed upTo chunk hopen hbody
  | skipped upTo hbody => exact .skipped upTo hbody
  | paused hP hopen hbehind => exact .paused (hPQ.pause hP) hopen hbehind
  | ended hbody => exact .ended hbody
  | shut hbody => exact .shut hbody
  | errored => exact .errored
  | started failed => exact .started failed
  | read failed hphase => exact .read failed hphase
  | pullRejected => exact .pullRejected
  | pullDone hagain => exact .pullDone hagain
  | pulledAgain failed hagain => exact .pulledAgain failed hagain
  | cancelled hP => exact .cancelled (hPQ.cancel hP)

theorem Turn.mono {P Q : Leave} {highWaterMark : ℚ} (hPQ : P.Le Q) :
    ∀ o o', Turn P highWaterMark o o' → Turn Q highWaterMark o o' := by
  rintro o o' (_ | hstream | ⟨h, hend⟩)
  · exact .opened
  · exact .stream (hstream.mono hPQ)
  · exact .finished (Relation.ReflTransGen.mono (fun _ _ => StreamTurn.mono hPQ.pausing) _ _ h) hend

theorem Turns.mono {G : ℤ → Leave} (h : Turns F c c') (hFG : ∀ id, (F id).Le (G id)) : Turns G c c' :=
  ⟨h.opts, fun id => Relation.ReflTransGen.mono (Turn.mono (hFG id)) _ _ (h.turns id)⟩

/-- What becomes of a stream that is there. -/
theorem Turns.reach (h : Turns F c c') {live : Bool} {st : StreamState} (hst : c.streamOf id = some (live, st)) :
    ∃ live' st', c'.streamOf id = some (live', st') ∧ (live = false → live' = false) ∧
      Relation.ReflTransGen (StreamTurn (F id).pausing) st st' := by
  have hturns := h.turns id
  generalize c'.streamOf id = o at hturns
  induction hturns with
  | refl => exact ⟨live, st, hst, fun h => h, .refl⟩
  | tail _ hstep ih =>
    obtain ⟨live₁, st₁, rfl, hlive, hreach⟩ := ih
    cases hstep with
    | stream hstream => exact ⟨live₁, _, rfl, hlive, hreach.tail (hstream.mono (Leave.le_pausing _))⟩
    | finished hfinish => exact ⟨false, _, rfl, fun _ => rfl, hreach.trans hfinish⟩

end Http4Client

/-! ## The functions -/

section Functions

variable {F : ℤ → Leave} {c : Http4Client} {id : ℤ} {now : ℚ}

theorem turns_of_keeps {α : Type} {m : Js α} (h : Follows (Keeps held) m c) : Follows (Turns F) m c :=
  h.mono fun _ _ => Turns.of_held

/-- A change to the streams of the transfers that have the stream `st`. -/
theorem setStream_eq {t : Transfer} {st : StreamState} (ht : c.objects.get? id = some t)
    (hst : t.stream = some st) {f g : StreamState → StreamState} (h : f st = g st) :
    c.setStream id f = c.setStream id g := by
  refine setStream_congr fun t' st' ht' hst' => ?_
  obtain ⟨rfl, rfl⟩ := eq_of_stream ht hst ht' hst'
  exact h

theorem held_exec_pull (id : ℤ) :
    (exec (pull id) c).2.held = (c.setStream id fun st => { st with paused := false }).held := by
  have hfixed (h : ∀ t st, c.objects.get? id = some t → t.stream = some st → st.paused = false) :
      (c.setStream id fun st => { st with paused := false }) = c := by
    refine setStream_of_fixed fun t st ht hst => ?_
    rw [← h t st ht hst]
  cases ht : c.objects.get? id with
  | none =>
    have hnot (t : Transfer) (h : c.objects.get? id = some t) : False := by
      rw [ht] at h
      cases h
    rw [hfixed fun t _ h => (hnot t h).elim, pull, exec_withTransfer_of_none ht]
  | some t =>
    rw [pull, exec_withTransfer ht]
    by_cases hpaused : t.stream.any StreamState.paused = true
    · rw [if_pos hpaused, exec_modify_bind]
      exact keeps_held_pumpGrants
    · rw [if_neg hpaused, hfixed fun t' st ht' hst => ?_, exec_pure]
      obtain rfl := Option.some.inj (ht.symm.trans ht')
      rw [hst] at hpaused
      exact Bool.eq_false_of_not_eq_true hpaused

/-- **What a call of `pull` leaves.** -/
theorem exec_callPullIfNeeded (id : ℤ) :
    ∃ failed s, exec (callPullIfNeeded id) c = (.ok (), s) ∧
      s.held = (c.setStream id (StreamState.callPull failed)).held := by
  cases ht : c.objects.get? id with
  | none =>
    refine ⟨false, c, exec_withTransfer_of_none ht _, ?_⟩
    rw [setStream, setTransfer_of_none ht]
  | some t =>
    rw [callPullIfNeeded, exec_withTransfer ht]
    cases hst : t.stream with
    | none =>
      refine ⟨false, c, rfl, ?_⟩
      rw [setStream_of_fixed fun t' st ht' hst' => ?_]
      obtain rfl := Option.some.inj (ht.symm.trans ht')
      rw [hst] at hst'
      cases hst'
    | some st =>
      dsimp only
      by_cases hpull : st.body.shouldPull = true
      · rw [if_pos hpull]
        by_cases hbusy : st.body.pulling = true
        · refine ⟨false, _, by rw [if_pos hbusy, exec_modify], congrArg held (setStream_eq ht hst ?_)⟩
          rw [StreamState.callPull, if_pos hpull, if_pos hbusy]
        · rw [if_neg hbusy, exec_modify_bind, exec_tryCatch]
          -- `pull` runs with `pulling` set, and a throw leaves its mark after it
          let c₁ := c.setStream id fun st => { st with body := { st.body with pulling := true } }
          have hheld : (exec (pull id) c₁).2.held = _ := held_exec_pull id
          rcases hexec : exec (pull id) c₁ with ⟨r, s⟩
          rw [hexec] at hheld
          cases r with
          | ok _ =>
            refine ⟨false, s, rfl, ?_⟩
            rw [hheld, setStream_setStream]
            refine congrArg held (setStream_eq ht hst ?_)
            rw [StreamState.callPull, if_pos hpull, if_neg hbusy, Bool.false_or]
          | error e =>
            refine ⟨true, _, rfl, ?_⟩
            rw [held_setStream_congr hheld, held_setStream_congr (setStream_setStream _ _), setStream_setStream]
            refine congrArg held (setStream_eq ht hst ?_)
            rw [StreamState.callPull, if_pos hpull, if_neg hbusy, Bool.true_or]
      · refine ⟨false, c, by rw [if_neg hpull, exec_pure], ?_⟩
        rw [setStream_of_fixed fun t' st' ht' hst' => ?_]
        obtain ⟨rfl, rfl⟩ := eq_of_stream ht hst ht' hst'
        rw [StreamState.callPull, if_neg hpull]

/-- What a change to a stream leaves of the transfer. -/
theorem exists_of_setStream {s : Http4Client} {t : Transfer} {st : StreamState} {f : StreamState → StreamState}
    (h : s.held = (c.setStream id f).held) (ht : c.objects.get? id = some t) (hst : t.stream = some st) :
    ∃ t', s.objects.get? id = some t' ∧ t'.live = t.live ∧ t'.asm = t.asm ∧ t'.headers = t.headers ∧
      t'.stream = some (f st) := by
  have hheld : s.held.2 id = some (t.held.setStream f) := by
    rw [h, held_setStream]
    dsimp only
    rw [Function.update_self, held_of_get? ht, Option.map_some]
  obtain ⟨t', ht', heq⟩ := held_eq_some_iff.mp hheld
  obtain ⟨hlive, hasm, hheaders, hstream⟩ := Held.mk.inj heq
  refine ⟨t', ht', hlive, hasm, hheaders, hstream.trans ?_⟩
  change t.stream.map f = _
  rw [hst, Option.map_some]

/-- A change to a stream and a call of `pull`. -/
theorem turns_callPull {f : StreamState → StreamState}
    (hturn : ∀ failed t st, c.objects.get? id = some t → t.stream = some st →
      StreamTurn (F id) st ((f st).callPull failed)) :
    Turns F c (exec (callPullIfNeeded id) (c.setStream id f)).2 := by
  obtain ⟨failed, s, hexec, hheld⟩ := exec_callPullIfNeeded (c := c.setStream id f) id
  rw [hexec]
  exact .of_setStream (hheld.trans (setStream_setStream _ _)) (hturn failed)

/-! ### Flushing -/

/-- Whether `flushStream` enqueues. -/
def StreamState.Flushes (st : StreamState) (asm : Reassembly) : Prop :=
  0 < asm.contiguous - st.emitted ∧
    (st.emitted = 0 ∨ asm.contiguous - st.emitted ≥ streamChunk ∨ asm.complete)

theorem StreamState.flushes_iff {st : StreamState} {asm : Reassembly} :
    st.Flushes asm ↔ 0 < asm.contiguous - st.emitted ∧
      (st.emitted = 0 ∨ asm.contiguous - st.emitted ≥ streamChunk ∨ asm.complete) := Iff.rfl

instance (st : StreamState) (asm : Reassembly) : Decidable (st.Flushes asm) := by
  unfold StreamState.Flushes
  infer_instance

/-- What `flushStream` has enqueued. -/
def StreamState.enqueued (st : StreamState) (asm : Reassembly) : StreamState :=
  { st with emitted := asm.contiguous
            chunks := st.chunks ++ [Bytes.sub asm.bytes st.emitted asm.contiguous]
            body := st.body.enqueue (Bytes.sub asm.bytes st.emitted asm.contiguous) }

/-- What the end of `flushStream` makes of a stream. -/
def StreamState.pause (st : StreamState) : StreamState :=
  if st.body.desiredSize ≤ 0 ∧ ¬ st.paused then { st with paused := true } else st

/-- What `flushStream` makes of an open stream when it returns. -/
def StreamState.flush (failed : Bool) (asm : Reassembly) (st : StreamState) : StreamState :=
  (if st.Flushes asm then (st.enqueued asm).callPull failed else st).pause

section Flush

variable {t : Transfer} {st : StreamState} {asm : Reassembly}

theorem exec_pauseIfBehind (id : ℤ) :
    ∃ s, exec (pauseIfBehind id) c = (.ok (), s) ∧ s.held = (c.setStream id StreamState.pause).held := by
  cases ht : c.objects.get? id with
  | none =>
    refine ⟨c, exec_withTransfer_of_none ht _, ?_⟩
    rw [setStream, setTransfer_of_none ht]
  | some t =>
    rw [pauseIfBehind, exec_withTransfer ht]
    cases hst : t.stream with
    | none =>
      refine ⟨c, rfl, ?_⟩
      rw [setStream_of_fixed fun t' st ht' hst' => ?_]
      obtain rfl := Option.some.inj (ht.symm.trans ht')
      rw [hst] at hst'
      cases hst'
    | some st =>
      dsimp only
      by_cases hbehind : st.body.desiredSize ≤ 0 ∧ ¬ st.paused
      · refine ⟨_, by rw [if_pos hbehind]; exact exec_modify _ _, ?_⟩
        change (c.setStream id fun st => { st with paused := true }).held = _
        refine congrArg held (setStream_eq ht hst ?_)
        rw [StreamState.pause, if_pos hbehind]
      · refine ⟨c, by rw [if_neg hbehind, exec_pure], ?_⟩
        rw [setStream_of_fixed fun t' st' ht' hst' => ?_]
        obtain ⟨rfl, rfl⟩ := eq_of_stream ht hst ht' hst'
        rw [StreamState.pause, if_neg hbehind]

theorem exec_enqueue (ht : c.objects.get? id = some t) (hst : t.stream = some st)
    (hbody : st.body.canEnqueue = true) :
    ∃ failed s, exec (enqueue id asm.contiguous (Bytes.sub asm.bytes st.emitted asm.contiguous) st) c =
        (.ok (), s) ∧ s.held = (c.setStream id fun st => (st.enqueued asm).callPull failed).held := by
  rw [enqueue, if_pos hbody, exec_modify_bind]
  obtain ⟨failed, s, hexec, hheld⟩ := exec_callPullIfNeeded (c := c.setStream id fun st => _) id
  refine ⟨failed, s, hexec, hheld.trans ((setStream_setStream _ _).trans ?_)⟩
  exact congrArg held (setStream_eq ht hst rfl)

/-- **What `flushStream` does to an open stream.** -/
theorem exec_flushStream (ht : c.objects.get? id = some t) (hst : t.stream = some st)
    (hasm : t.asm = some asm) (hopen : st.closed = false) :
    (st.Flushes asm ∧ st.body.canEnqueue = false ∧ exec (flushStream id) c =
      (.error .invalidState, c.setStream id fun st => { st with emitted := asm.contiguous })) ∨
    ((st.Flushes asm → st.body.canEnqueue = true) ∧ ∃ failed s, exec (flushStream id) c = (.ok (), s) ∧
      s.held = (c.setStream id (StreamState.flush failed asm)).held) := by
  rw [flushStream, exec_withTransfer ht, hst, hasm]
  dsimp only
  rw [if_neg (by rw [hopen]; exact Bool.false_ne_true)]
  by_cases hflush : st.Flushes asm
  · cases hbody : st.body.canEnqueue with
    | false =>
      refine .inl ⟨hflush, rfl, ?_⟩
      rw [if_pos (StreamState.flushes_iff.mp hflush), exec_bind, enqueue, if_neg (by rw [hbody]; exact Bool.false_ne_true)]
      rfl
    | true =>
      refine .inr ⟨fun _ => rfl, ?_⟩
      obtain ⟨failed, s, hexec, hheld⟩ := exec_enqueue ht hst hbody
      obtain ⟨u, hexec', hheld'⟩ := exec_pauseIfBehind (c := s) id
      refine ⟨failed, u, ?_, ?_⟩
      · rw [if_pos (StreamState.flushes_iff.mp hflush), exec_bind, hexec]
        exact hexec'
      · rw [hheld', held_setStream_congr hheld, setStream_setStream]
        refine congrArg held (setStream_eq ht hst ?_)
        rw [StreamState.flush, if_pos hflush]
  · refine .inr ⟨fun h => absurd h hflush, false, ?_⟩
    obtain ⟨u, hexec', hheld'⟩ := exec_pauseIfBehind (c := c) id
    refine ⟨u, ?_, hheld'.trans (congrArg held (setStream_eq ht hst ?_))⟩
    · rw [if_neg (mt StreamState.flushes_iff.mpr hflush)]
      exact hexec'
    · rw [StreamState.flush, if_neg hflush]

/-- It does nothing else. -/
theorem exec_flushStream_of_closed (h : ∀ t st asm, c.objects.get? id = some t → t.stream = some st →
    t.asm = some asm → st.closed = true) : exec (flushStream id) c = (.ok (), c) := by
  rw [flushStream, withTransfer, exec_get_bind]
  cases ht : c.objects.get? id with
  | none => rfl
  | some t =>
    dsimp only
    cases hst : t.stream with
    | none => rfl
    | some st =>
      cases hasm : t.asm with
      | none => rfl
      | some asm =>
        dsimp only
        rw [if_pos (h t st asm ht hst hasm), exec_pure]

theorem turns_flush (ht : c.objects.get? id = some t) (hst : t.stream = some st) (hopen : st.closed = false)
    (hF : (F id).pause) {failed : Bool} (hbody : st.Flushes asm → st.body.canEnqueue = true)
    {s : Http4Client} (hheld : s.held = (c.setStream id (StreamState.flush failed asm)).held) :
    Turns F c s := by
  refine .of_update (hheld.trans (held_setStream id _)) fun t' ht' => ?_
  obtain rfl := Option.some.inj (ht.symm.trans ht')
  change Relation.ReflTransGen _ _ ((t.stream.map _).map fun st => (t.live, st))
  rw [hst, Option.map_some, Option.map_some, Option.map_some, StreamState.flush]
  -- what is enqueued first, then the pause
  let st₁ := if st.Flushes asm then (st.enqueued asm).callPull failed else st
  have hfirst : Relation.ReflTransGen (Turn (F id) c.opts.highWaterMark) (some (t.live, st)) (some (t.live, st₁)) := by
    change Relation.ReflTransGen _ _ (some (t.live, if st.Flushes asm then _ else _))
    split_ifs with hflush
    · exact .single (.stream (.enqueued failed _ _ hopen (hbody hflush)))
    · exact .refl
  have hopen₁ : st₁.closed = false := by
    change (if st.Flushes asm then _ else _ : StreamState).closed = false
    split_ifs
    · exact (StreamState.callPull_closed _ _).trans hopen
    · exact hopen
  refine hfirst.trans ?_
  change Relation.ReflTransGen _ _ (some (t.live, st₁.pause))
  rw [StreamState.pause]
  split_ifs with hbehind
  · exact .single (.stream (.paused hF hopen₁ hbehind.1))
  · exact .refl

theorem turns_flushStream (hF : (c.streamOf id).isSome → (F id).pause) :
    Follows (Turns F) (flushStream id) c := by
  rw [Follows]
  by_cases h : ∀ t st asm, c.objects.get? id = some t → t.stream = some st → t.asm = some asm → st.closed = true
  · rw [exec_flushStream_of_closed h]
    exact refl_of _ _
  · push Not at h
    obtain ⟨t, st, asm, ht, hst, hasm, hopen⟩ := h
    have hopen := Bool.eq_false_of_not_eq_true hopen
    obtain ⟨-, hbody, hexec⟩ | ⟨hbody, failed, s, hexec, hheld⟩ := exec_flushStream ht hst hasm hopen
    · rw [hexec]
      refine .of_setStream rfl fun t' st' ht' hst' => ?_
      obtain ⟨rfl, rfl⟩ := eq_of_stream ht hst ht' hst'
      exact .skipped _ hbody
    · rw [hexec]
      have hstream : c.streamOf id = some (t.live, st) := streamOf_eq_some_iff.mpr ⟨t, ht, rfl, hst⟩
      exact turns_flush ht hst hopen (hF (by rw [hstream]; rfl)) hbody hheld

end Flush

/-! ### The end of a transfer -/

theorem turns_endStream (err : Option Failure) : Follows (Turns F) (endStream id err) c := by
  refine follows_withTransfer fun t ht => ?_
  cases hst : t.stream with
  | none => exact Follows.pure _
  | some st =>
    refine Follows.ite (fun _ => Follows.pure _) fun _ => ?_
    have hset {f : StreamState → StreamState} (h : StreamTurn (F id) st (f st)) :
        Turns F c (c.setStream id f) := by
      refine .of_setStream rfl fun t' st' ht' hst' => ?_
      obtain ⟨rfl, rfl⟩ := eq_of_stream ht hst ht' hst'
      exact h
    cases err with
    | some e => exact Follows.modify (hset .errored)
    | none =>
      dsimp only
      split_ifs with hbody
      · exact Follows.modify (hset (.ended hbody))
      · exact Follows.modify_bind (hset (.shut (Bool.eq_false_of_not_eq_true hbody))) (Follows.throw _)

/-- The streams that the transfer has are closed. -/
def Http4Client.Closed (id : ℤ) (c : Http4Client) : Prop :=
  ∀ live st, c.streamOf id = some (live, st) → st.closed = true

theorem streamOf_congr {s : Http4Client} (h : s.held = c.held) : s.streamOf id = c.streamOf id := by
  rw [streamOf, streamOf, h]

theorem Http4Client.Closed.of_held {s : Http4Client} (h : Closed id c) (hs : s.held = c.held) : Closed id s :=
  fun live st hst => h live st (by rwa [streamOf_congr hs] at hst)

theorem closed_setStream {f : StreamState → StreamState} (hf : ∀ st, (f st).closed = true) :
    Closed id (c.setStream id f) := by
  intro live st hst
  obtain ⟨t, ht, -, hstream⟩ := streamOf_eq_some_iff.mp hst
  change (c.objects.modify id _).get? id = some t at ht
  rw [OrderedMap.get?_modify, if_pos rfl] at ht
  obtain ⟨t', -, rfl⟩ := Option.map_eq_some_iff.mp ht
  obtain ⟨st', -, rfl⟩ := Option.map_eq_some_iff.mp hstream
  exact hf st'

/-- It is closed even if closing throws. -/
theorem closed_endStream (err : Option Failure) : Closed id (exec (endStream id err) c).2 := by
  have hstays (hclosed : ∀ t st, c.objects.get? id = some t → t.stream = some st → st.closed = true) :
      Closed id c := by
    intro live st hst
    obtain ⟨t, ht, -, hstream⟩ := streamOf_eq_some_iff.mp hst
    exact hclosed t st ht hstream
  cases ht : c.objects.get? id with
  | none =>
    rw [endStream, exec_withTransfer_of_none ht]
    exact hstays fun t _ ht' => by rw [ht] at ht'; cases ht'
  | some t =>
    rw [endStream, exec_withTransfer ht]
    cases hst : t.stream with
    | none =>
      refine hstays fun t' st ht' hst' => ?_
      obtain rfl := Option.some.inj (ht.symm.trans ht')
      rw [hst] at hst'
      cases hst'
    | some st =>
      dsimp only
      by_cases hclosed : st.closed = true
      · rw [if_pos hclosed]
        refine hstays fun t' st' ht' hst' => ?_
        obtain ⟨rfl, rfl⟩ := eq_of_stream ht hst ht' hst'
        exact hclosed
      · rw [if_neg hclosed]
        cases err with
        | some e => exact closed_setStream fun _ => rfl
        | none =>
          dsimp only
          split_ifs
          · exact closed_setStream fun _ => rfl
          · exact closed_setStream fun _ => rfl

/-- The end of `finish`, once the transfer has left `this.transfers`. -/
def finishRest (id : ℤ) (err : Option Failure) : Js Unit := do
  (if err.isNone then flushStream id else pure ())
  endStream id err
  settle id err
  pumpGrants

theorem exec_finish (err : Option Failure) :
    exec (finish id err) c = exec (finishRest id err)
      { c.setTransfer id fun t => { t with live := false } with scheduler := c.scheduler.remove id } := rfl

theorem turns_finishRest (hF : (c.streamOf id).isSome → (F id).pause) (err : Option Failure) :
    Follows (Turns F) (finishRest id err) c := by
  refine Follows.bind (Follows.ite (fun _ => turns_flushStream hF) fun _ => Follows.pure _) fun _ _ _ => ?_
  refine Follows.bind (turns_endStream err) fun _ _ _ => ?_
  exact Follows.bind (turns_of_keeps (keeps_held_settle err)) fun _ _ _ => turns_of_keeps keeps_held_pumpGrants

theorem keeps_held_afterEnd (err : Option Failure) :
    Follows (Keeps held) (do settle id err; pumpGrants) c :=
  Follows.bind (keeps_held_settle err) fun _ _ _ => keeps_held_pumpGrants

/-- A flush throws only where the stream takes nothing. -/
theorem canEnqueue_of_flushStream {e : Thrown} {s : Http4Client}
    (hexec : exec (flushStream id) c = (.error e, s)) {live : Bool} {st : StreamState}
    (hst : s.streamOf id = some (live, st)) : st.body.canEnqueue = false := by
  by_cases h : ∀ t st asm, c.objects.get? id = some t → t.stream = some st → t.asm = some asm → st.closed = true
  · rw [exec_flushStream_of_closed h] at hexec
    cases hexec
  · push Not at h
    obtain ⟨t, st₀, asm, ht, hst₀, hasm, hopen⟩ := h
    obtain ⟨-, hbody, hexec'⟩ | ⟨-, failed, s', hexec', -⟩ :=
      exec_flushStream ht hst₀ hasm (Bool.eq_false_of_not_eq_true hopen)
    · rw [hexec'] at hexec
      cases hexec
      obtain ⟨t', ht', -, -, -, hstream⟩ := exists_of_setStream rfl ht hst₀
      obtain ⟨u, hu, -, hstream'⟩ := streamOf_eq_some_iff.mp hst
      obtain rfl := Option.some.inj (ht'.symm.trans hu)
      obtain rfl := Option.some.inj (hstream.symm.trans hstream')
      exact hbody
    · rw [hexec'] at hexec
      cases hexec

/-- A finished transfer has a stream that takes nothing more. -/
theorem ended_finishRest (err : Option Failure) {live : Bool} {st : StreamState}
    (hst : (exec (finishRest id err) c).2.streamOf id = some (live, st)) :
    st.closed = true ∨ st.body.canEnqueue = false := by
  rw [finishRest, exec_bind] at hst
  rcases hexec : exec (if err.isNone then flushStream id else pure () : Js Unit) c with ⟨r, s⟩
  rw [hexec] at hst
  cases r with
  | error e =>
    split_ifs at hexec
    · exact .inr (canEnqueue_of_flushStream hexec hst)
    · cases hexec
  | ok _ =>
    dsimp only at hst
    rw [exec_bind] at hst
    have hclosed : Closed id (exec (endStream id err) s).2 := closed_endStream err
    rcases hexec' : exec (endStream id err) s with ⟨r, u⟩
    rw [hexec'] at hst hclosed
    cases r with
    | error e => exact .inl (hclosed live st hst)
    | ok _ => exact .inl (hclosed.of_held (keeps_held_afterEnd err) live st hst)

/-- The state once the transfer has left `this.transfers`. -/
theorem streamOf_removed (id' : ℤ) (r : SrptScheduler) :
    { c.setTransfer id fun t => { t with live := false } with scheduler := r }.streamOf id' =
      if id' = id then (c.streamOf id).map fun x => (false, x.2) else c.streamOf id' := by
  change (((c.objects.modify id _).get? id').map Transfer.held).bind _ = _
  rw [OrderedMap.get?_modify]
  split_ifs with hid
  · rw [hid]
    change _ = (((c.objects.get? id).map Transfer.held).bind _).map _
    cases c.objects.get? id with
    | none => rfl
    | some t =>
      change t.stream.map _ = (t.stream.map _).map _
      rw [Option.map_map]
      rfl
  · rfl

theorem turns_finish (err : Option Failure) : Follows (Turns F) (finish id err) c := by
  rw [Follows, exec_finish]
  let c₁ : Http4Client :=
    { c.setTransfer id fun t => { t with live := false } with scheduler := c.scheduler.remove id }
  have hstream (id' : ℤ) : c₁.streamOf id' =
      if id' = id then (c.streamOf id).map fun x => (false, x.2) else c.streamOf id' := streamOf_removed id' _
  have hself := hstream id
  rw [if_pos rfl] at hself
  -- the flush at the end may pause the transfer, which is gone by then
  let G (id' : ℤ) : Leave := ⟨(F id').pause ∨ id' = id ∧ (c₁.streamOf id).isSome, (F id').cancel⟩
  have hturns : Turns G c₁ (exec (finishRest id err) c₁).2 := turns_finishRest (fun h => Or.inr ⟨rfl, h⟩) err
  refine ⟨hturns.opts, fun id' => ?_⟩
  by_cases hid : id' = id
  · rw [hid]
    cases hc : c.streamOf id with
    | none =>
      rw [hc, Option.map_none] at hself
      have hnone := hturns.turns id
      rw [hself] at hnone
      have hle : (G id).Le (F id) := by
        refine ⟨fun h => Or.resolve_right h fun h => ?_, fun h => h⟩
        rw [hself] at h
        cases h.2
      exact Relation.ReflTransGen.mono (Turn.mono hle) _ _ hnone
    | some x =>
      rw [hc, Option.map_some] at hself
      obtain ⟨live', st', hst', hlive, hreach⟩ := hturns.reach hself
      obtain rfl := hlive rfl
      change Relation.ReflTransGen _ _ ((exec (finishRest id err) c₁).2.streamOf id)
      rw [hst']
      exact .single (.finished hreach (ended_finishRest err hst'))
  · have hsame := hturns.turns id'
    rw [hstream, if_neg hid] at hsame
    have hle : (G id').Le (F id') := ⟨fun h => Or.resolve_right h fun h => hid h.1, fun h => h⟩
    exact Relation.ReflTransGen.mono (Turn.mono hle) _ _ hsame

theorem turns_cancelStream (hF : (F id).cancel) : Follows (Turns F) (cancelStream id) c := by
  let f (st : StreamState) : StreamState := { st with body := st.body.cancel, closed := true }
  let c₁ := c.setStream id f
  let c₂ : Http4Client :=
    { c₁.setTransfer id fun t => { t with live := false } with scheduler := c₁.scheduler.remove id }
  have hkeep : (exec (cancelStream id) c).2.held = c₂.held := by
    have hpump : Follows (Keeps held) (tryCatch pumpGrants fun _ => pure ()) c₂ :=
      Follows.tryCatch keeps_held_pumpGrants fun _ _ _ => Follows.pure _
    exact hpump
  have hheld : c₂.held = (c.held.1, Function.update c.held.2 id ((c.held.2 id).map fun x =>
      { x with live := false, stream := x.stream.map f })) := by
    change (c₁.setTransfer id fun t => { t with live := false }).held = _
    rw [held_setTransfer (c := c₁) (g := fun x => { x with live := false }) id fun _ => rfl]
    change ((c.setStream id f).held.1, _) = _
    rw [held_setStream]
    dsimp only
    rw [Function.update_idem, Function.update_self, Option.map_map]
    rfl
  refine .of_update (hkeep.trans hheld) fun t _ => ?_
  change Relation.ReflTransGen _ _ ((t.stream.map f).map fun st => (false, st))
  cases t.stream with
  | none => exact .refl
  | some st => exact .single (.finished (.single (.cancelled hF)) (.inl rfl))

/-! ### The other functions -/

theorem turns_failAll (err : Failure) : Follows (Turns F) (failAll err) c := by
  refine Follows.get_bind (Follows.bind (Follows.forM fun id _ _ => turns_finish _) fun _ _ _ => ?_)
  exact Follows.modify (.of_held rfl)

theorem turns_recover (granted : ℚ) : Follows (Turns F) (recover id granted now) c := by
  have hset {c : Http4Client} (f : Progress → Progress) : Turns F c (c.setProgress id f) :=
    .of_held (held_setProgress id f)
  refine follows_withTransfer fun t _ => Follows.get_bind (Follows.modify_bind (hset _) ?_)
  refine Follows.ite (fun _ => turns_finish _) fun _ => ?_
  refine Follows.modify_bind (.of_held held_backoff) (Follows.modify_bind (hset _) ?_)
  exact Follows.bind (turns_of_keeps keeps_held_resendReq) fun _ _ _ =>
    turns_of_keeps (keeps_held_resendGrant granted)

theorem turns_tickTransfer : Follows (Turns F) (tickTransfer now id) c := by
  refine Follows.bind (follows_withTransfer fun t _ => ?_) fun _ s _ =>
    follows_withTransfer fun t _ => Follows.get_bind ?_
  · exact Follows.ite (fun _ => turns_of_keeps keeps_held_detectLoss) fun _ => Follows.pure _
  · refine Follows.ite (fun _ => Follows.modify (.of_held (held_setProgress id _))) fun _ => ?_
    refine Follows.bind (turns_of_keeps (keeps_held_tailProbe _)) fun _ _ _ => ?_
    refine follows_withTransfer fun t _ => Follows.get_bind ?_
    exact Follows.ite (fun _ => turns_recover _) fun _ => Follows.pure _

theorem turns_tick : Follows (Turns F) tick c := by
  refine Follows.bind (turns_of_keeps keeps_held_performanceNow) fun now s _ =>
    Follows.get_bind (Follows.bind ?_ fun _ s _ => Follows.get_bind ?_)
  · exact Follows.ite (fun _ => turns_of_keeps keeps_held_detectSeqLoss) fun _ => Follows.pure _
  · refine Follows.bind (Follows.forM fun _ _ _ => turns_tickTransfer) fun _ s _ => Follows.modify ?_
    split_ifs
    · exact .of_held rfl
    · exact refl_of _ _

theorem turns_handleMeta (m : Wire.Ts.Meta) : Follows (Turns F) (handleMeta id m) c := by
  refine follows_withTransfer fun t _ => ?_
  cases t.headers with
  | some _ => exact Follows.pure _
  | none =>
    refine Follows.bind (turns_of_keeps keeps_held_performanceNow) fun now s _ => Follows.modify_bind ?_ ?_
    · exact .of_update (f := fun x => { x with headers := some m.fields }) (held_setTransfer id fun _ => rfl) fun _ _ => .refl
    · refine Follows.bind (turns_of_keeps keeps_held_maybeStart) fun _ _ _ => follows_withTransfer fun t _ => ?_
      exact Follows.ite (fun _ => turns_finish _) fun _ => Follows.pure _

theorem turns_afterData (hF : (F id).pause) : Follows (Turns F) (afterData id) c := by
  refine Follows.bind (turns_of_keeps keeps_held_maybeStart) fun _ s _ =>
    Follows.bind (turns_flushStream fun _ => hF) fun _ u _ => follows_withTransfer fun t _ => ?_
  refine Follows.ite (fun _ => turns_finish _) fun _ => ?_
  refine Follows.bind (turns_of_keeps keeps_held_performanceNow) fun _ _ _ => ?_
  exact Follows.ite (fun _ => turns_of_keeps keeps_held_detectLoss) fun _ => Follows.pure _

/-- A reassembly that a transfer gets is no turn. -/
theorem turns_setAsm {s : Http4Client} (id : ℤ) (asm : Reassembly)
    (h : s.held = (c.held.1, Function.update c.held.2 id ((c.held.2 id).map (Held.setAsm asm)))) :
    Turns F c s :=
  .of_update h fun _ _ => .refl

theorem turns_storeData (hF : (F id).pause) (d : Wire.Ts.Data) :
    Follows (Turns F) (storeData id d) c := by
  refine follows_withTransfer fun t ht => ?_
  cases t.asm with
  | none => exact Follows.pure _
  | some asm =>
    dsimp only
    cases asm.add d.offset d.payload with
    | error e => exact turns_finish _
    | ok r =>
      refine Follows.modify_bind (turns_setAsm id r.2 ?_) (turns_afterData hF)
      rw [held_noteDelivered, held_sampleProbe, held_store]

theorem turns_handleData (hF : (F id).pause) (alloc : Bool) (d : Wire.Ts.Data) :
    Follows (Turns F) (handleData alloc id d) c := by
  refine follows_withTransfer fun t ht => ?_
  cases t.asm with
  | none =>
    refine Follows.ite (fun _ => ?_) fun _ => Follows.throw _
    exact Follows.modify_bind (turns_setAsm id _ (held_learnSize _ _ _)) (turns_storeData hF d)
  | some asm => exact Follows.ite (fun _ => turns_finish _) fun _ => turns_storeData hF d

theorem turns_handlePacket {p : Wire.Ts.Packet} (hF : ∀ d, p = .data d → (F d.rpcId).pause) (alloc : Bool) :
    Follows (Turns F) (handlePacket alloc p) c := by
  refine follows_withTransfer fun t ht => Follows.ite (fun _ => Follows.pure _) fun _ => ?_
  cases p with
  | metaData m => exact Follows.bind (turns_of_keeps (keeps_held_noteReply t)) fun _ _ _ => turns_handleMeta m
  | data d =>
    exact Follows.bind (turns_of_keeps (keeps_held_noteReply t)) fun _ _ _ =>
      turns_handleData (hF d rfl) alloc d
  | error p => exact turns_finish _
  | req | grant | resend | hello | dataSeq | resendSeq => exact Follows.pure _

theorem turns_handle {p : Wire.Ts.Packet} (hF : ∀ id, Brings (some p) id → (F id).pause) (alloc : Bool) :
    Follows (Turns F) (handle alloc p) c := by
  cases p with
  | dataSeq p =>
    refine Follows.bind (turns_of_keeps (keeps_held_noteSeq p)) fun _ _ _ => turns_handlePacket (fun d hd => ?_) alloc
    exact hF _ ⟨d, .inr ⟨p, rfl, Wire.Ts.Packet.data.inj hd⟩, rfl⟩
  | req | data | grant | resend | error | metaData | hello | resendSeq =>
    exact turns_handlePacket (fun d hd => hF _ ⟨d, .inl (congrArg some hd), rfl⟩) alloc

theorem turns_readDatagram {b : Bytes} (hF : ∀ id, Brings (packetIn b) id → (F id).pause) (alloc : Bool) :
    Follows (Turns F) (readDatagram alloc b) c := by
  rw [packetIn] at hF
  rw [readDatagram]
  cases hb : Wire.Ts.decode b with
  | error e =>
    cases e with
    | malformed => exact Follows.pure _
    | outOfRange => exact Follows.throw _
  | ok p =>
    rw [hb] at hF
    exact Follows.bind (turns_handle hF alloc) fun _ _ _ => turns_of_keeps keeps_held_pumpGrants

theorem turns_readLoopCatch (e : Thrown) : Follows (Turns F) (readLoopCatch e) c :=
  Follows.modify_bind (.of_held rfl) (turns_failAll _)

theorem turns_start (hfresh : c.objects.get? id = none) (assetId : Wire.Ts.JsString) (streaming : Bool)
    (cls : PriorityClass) : Follows (Turns F) (start id assetId streaming cls) c := by
  refine Follows.get_bind (Follows.ite (fun _ => Follows.pure _) fun _ => ?_)
  dsimp only
  cases (Outgoing.req id c.nextInitialGrant assetId).encode with
  | none => exact Follows.throw _
  | some b =>
    refine Follows.ite (fun _ => Follows.pure _) fun _ => Follows.modify_bind ⟨rfl, fun id' => ?_⟩ ?_
    · change Relation.ReflTransGen _ (((c.objects.get? id').map Transfer.held).bind _)
        ((((c.objects.set id _).get? id').map Transfer.held).bind _)
      rw [OrderedMap.get?_set]
      split_ifs with hid
      · rw [hid, hfresh]
        cases streaming with
        | true => exact .single .opened
        | false => exact .refl
      · exact .refl
    · have hhello {c : Http4Client} : Follows (Turns F) sendHello c :=
        turns_of_keeps (keeps_sendHello held (fun _ _ => rfl) fun _ _ => rfl)
      exact Follows.bind hhello fun _ _ _ =>
        Follows.bind (turns_of_keeps (keeps_held_send _)) fun _ _ _ => Follows.pure _

theorem turns_readStream : Follows (Turns F) (readStream id) c := by
  refine Follows.get_bind ?_
  by_cases hphase : c.hasStream id fun s => s.phase = .readable
  · obtain ⟨t, st, ht, hst, hphase'⟩ := known_of_hasStream hphase
    simp only [if_pos hphase]
    refine turns_callPull fun failed t' st' ht' hst' => ?_
    obtain ⟨rfl, rfl⟩ := eq_of_stream ht hst ht' hst'
    exact .read failed (of_decide_eq_true hphase')
  · simp only [if_neg hphase]
    refine Follows.modify_bind ?_ (Follows.pure _)
    rw [setBody, setStream_of_fixed fun t st ht hst => ?_]
    · exact refl_of _ _
    · have hnot : st.body.phase ≠ .readable := fun h => hphase (by simp [hasStream, ht, hst, h])
      have hread : st.body.read = st.body := by
        rw [ReadableStream.read]
        split
        · contradiction
        · contradiction
        · rfl
        · rfl
      rw [hread]

theorem turns_pullDone : Follows (Turns F) (pullDone id) c := by
  refine Follows.get_bind (Follows.ite (fun _ => Follows.modify ?_) fun _ => ?_)
  · exact .of_setStream rfl fun _ _ _ _ => .pullRejected
  · by_cases hagain : c.hasStream id ReadableStream.pullAgain
    · obtain ⟨t, st, ht, hst, hagain'⟩ := known_of_hasStream hagain
      simp only [if_pos hagain]
      refine turns_callPull fun failed t' st' ht' hst' => ?_
      obtain ⟨rfl, rfl⟩ := eq_of_stream ht hst ht' hst'
      exact .pulledAgain failed hagain'
    · simp only [if_neg hagain]
      refine Follows.modify_bind (.of_setStream rfl fun t st ht hst => .pullDone ?_) (Follows.pure _)
      refine Bool.eq_false_of_not_eq_true fun h => hagain ?_
      simp [hasStream, ht, hst, h]

end Functions

/-! ## Steps and runs -/

namespace Http4Client

variable {F : ℤ → Leave} {c c' : Http4Client} {opts : ClientOptions} {maxDatagramSize : ℕ}

/-- What an event may do to streams: DATA pauses them, and their readers cancel them. -/
def Event.leave (e : Event) (id : ℤ) : Leave := ⟨Brings e.packet id, e = .cancel id⟩

/-- The code of an event, as turns. -/
theorem turns_code {e : Event} (h : c.Enabled e) : Follows (Turns e.leave) (code e) c := by
  cases e with
  | request id assetId streaming cls =>
    exact Follows.bind (turns_start h.2.2 assetId streaming cls) fun _ _ _ => Follows.pure _
  | datagram b alloc =>
    exact Follows.tryCatch (turns_readDatagram (fun _ h => h) alloc) fun e _ _ => turns_readLoopCatch e
  | readDone => exact Follows.modify (.of_held rfl)
  | readRejected => exact turns_readLoopCatch _
  | tick => exact turns_tick
  | streamStarted id => exact turns_callPull fun failed _ _ _ _ => .started failed
  | read id => exact turns_readStream
  | pullSettled id => exact turns_pullDone
  | cancel id => exact turns_cancelStream rfl
  | close => exact Follows.modify (.of_held rfl)
  | sessionEnded => exact Follows.modify_bind (.of_held rfl) (turns_failAll _)

theorem step_turns {a : Step} (h : c.step a = some c') : Turns a.event.leave c c' := by
  rw [step] at h
  split_ifs at h with henabled
  obtain rfl := Option.some.inj h
  have helapse : Turns a.event.leave c { c with est := { c.est with elapse := a.elapse } } := .of_held rfl
  exact trans_of _ helapse (turns_code (enabled_elapse henabled a.elapse))

theorem connect_turns : Turns F (.new opts maxDatagramSize) (connect opts maxDatagramSize) :=
  turns_of_keeps (keeps_sendHello held (fun _ _ => rfl) fun _ _ => rfl)

/-- What turns preserve of the streams. -/
theorem Turns.preserves {P : ℤ → Bool → StreamState → Prop}
    (hopen : ∀ id, P id true { body := { highWaterMark := c.opts.highWaterMark } })
    (hturn : ∀ id live st st', P id live st → StreamTurn (F id) st st' → P id live st')
    (hfinish : ∀ id live st st', P id live st →
      Relation.ReflTransGen (StreamTurn (F id).pausing) st st' →
      st'.closed = true ∨ st'.body.canEnqueue = false → P id false st') (h : Turns F c c')
    (hc : ∀ id live st, c.streamOf id = some (live, st) → P id live st) :
    ∀ id live st, c'.streamOf id = some (live, st) → P id live st := by
  intro id
  have hturns := h.turns id
  generalize c'.streamOf id = o at hturns
  induction hturns with
  | refl => exact hc id
  | tail _ hstep ih =>
    intro live st heq
    cases hstep with
    | opened =>
      obtain ⟨rfl, rfl⟩ := Prod.mk.inj (Option.some.inj heq)
      exact hopen id
    | @stream live' st₁ st₂ hstream =>
      obtain ⟨rfl, rfl⟩ := Prod.mk.inj (Option.some.inj heq)
      exact hturn id live' st₁ st₂ (ih live' st₁ rfl) hstream
    | @finished live' st₁ st₂ hreach hend =>
      obtain ⟨rfl, rfl⟩ := Prod.mk.inj (Option.some.inj heq)
      exact hfinish id live' st₁ st₂ (ih live' st₁ rfl) hreach hend

/-- The same of one stream that is there. -/
theorem Turns.stream {P : StreamState → Prop} {id : ℤ} {live : Bool} {st : StreamState}
    (hturn : ∀ st st', P st → StreamTurn .any st st' → P st') (h : Turns F c c')
    (hst : c.streamOf id = some (live, st)) (hP : P st) :
    ∃ live' st', c'.streamOf id = some (live', st') ∧ P st' := by
  obtain ⟨live', st', hst', -, hreach⟩ := h.reach hst
  refine ⟨live', st', hst', ?_⟩
  clear hst'
  induction hreach with
  | refl => exact hP
  | tail _ hstep ih => exact hturn _ _ ih (hstep.mono (Leave.le_any _))

/-- A stream keeps its high-water mark. -/
theorem StreamTurn.highWaterMark {Q : Leave} {st st' : StreamState} (h : StreamTurn Q st st') :
    st'.body.highWaterMark = st.body.highWaterMark := by
  cases h with
  | enqueued failed _ chunk =>
    rw [StreamState.callPull_highWaterMark]
    exact st.body.enqueue_highWaterMark chunk
  | started failed => exact StreamState.callPull_highWaterMark _ _
  | read failed =>
    rw [StreamState.callPull_highWaterMark]
    exact st.body.read_highWaterMark
  | pulledAgain failed => exact StreamState.callPull_highWaterMark _ _
  | skipped | paused | shut | pullDone | cancelled => rfl
  | ended => exact st.body.close_highWaterMark
  | errored | pullRejected => exact st.body.error_highWaterMark

/-- What the client has closed stays closed. -/
theorem StreamTurn.closed {Q : Leave} {st st' : StreamState} (h : StreamTurn Q st st')
    (hclosed : st.closed = true) : st'.closed = true := by
  cases h with
  | enqueued _ _ _ hopen => rw [hclosed] at hopen; cases hopen
  | started failed | read failed | pulledAgain failed => exact (StreamState.callPull_closed _ _).trans hclosed
  | skipped | paused | pullRejected | pullDone => exact hclosed
  | ended | shut | errored | cancelled => rfl

theorem opts_reachable (h : Machine.Reachable Http4Client.step (connect opts maxDatagramSize) c) :
    c.opts = opts := by
  obtain ⟨as, hrun⟩ := h
  refine Machine.run_invariant (P := fun c => c.opts = opts) (fun s a s' hs hstep => ?_) ?_ hrun
  · exact (step_turns hstep).opts.trans hs
  · exact (connect_turns (F := fun _ => .calm)).opts

/-- **What turns preserve** holds of every stream in every state of every run. -/
theorem stream_invariant {P : ℤ → Bool → StreamState → Prop}
    (hopen : ∀ id, P id true { body := { highWaterMark := opts.highWaterMark } })
    (hturn : ∀ id live st st', P id live st → StreamTurn .any st st' → P id live st')
    (hfinish : ∀ id live st st', P id live st → Relation.ReflTransGen (StreamTurn .any) st st' →
      st'.closed = true ∨ st'.body.canEnqueue = false → P id false st')
    (h : Machine.Reachable Http4Client.step (connect opts maxDatagramSize) c) {id : ℤ} {live : Bool}
    {st : StreamState} (hst : c.streamOf id = some (live, st)) : P id live st := by
  obtain ⟨as, hrun⟩ := h
  let Q (c : Http4Client) : Prop :=
    c.opts = opts ∧ ∀ id live st, c.streamOf id = some (live, st) → P id live st
  have hturns {F : ℤ → Leave} {s s' : Http4Client} (hs : Q s) (h : Turns F s s') : Q s' := by
    refine ⟨h.opts.trans hs.1, h.preserves (hs.1 ▸ hopen) (fun id live st st' hP hturn' => ?_)
      (fun id live st st' hP hreach => ?_) hs.2⟩
    · exact hturn id live st st' hP (hturn'.mono (Leave.le_any _))
    · exact hfinish id live st st' hP (Relation.ReflTransGen.mono (fun _ _ => StreamTurn.mono (Leave.le_any _)) _ _ hreach)
  have hnew : Q (.new opts maxDatagramSize) := ⟨rfl, fun _ _ _ h => by cases h⟩
  exact (Machine.run_invariant (P := Q) (fun _ _ _ hs hstep => hturns hs (step_turns hstep))
    (hturns (F := fun _ => .calm) hnew connect_turns) hrun).2 id live st hst

end Http4Client

end Http4.Client
