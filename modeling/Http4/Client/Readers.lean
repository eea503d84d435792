import Http4.Client.Delivery
import Http4.Client.Invariant

/-!
# What a waiting reader gets

`flushStream` gathers `STREAM_CHUNK` bytes before it enqueues them, and pauses a
transfer whose queue has no room. The comments say that a reader that has caught up
waits for neither.

Main results:

* `streamOk_reachable`: a reader waits only on an open stream with an empty queue.
* `waiting_flushed_iff`: when a reader that waits has every byte that arrived.
* `not_wedged`: when no reader waits on a paused transfer.
-/

namespace Http4.Client

open Routine Http4Client

/-! ## The platform's stream -/

namespace ReadableStream

variable {s : ReadableStream}

/-- Reads wait only for a chunk that may come, and a stream that closes has one left. -/
structure Ok (s : ReadableStream) : Prop where
  reads : 0 < s.reads → s.queue = [] ∧ s.phase = .readable
  closing : s.closeRequested = true → s.phase = .readable → s.queue ≠ []

theorem Ok.canEnqueue (h : s.Ok) (hreads : 0 < s.reads) : s.canEnqueue = true := by
  obtain ⟨hqueue, hphase⟩ := h.reads hreads
  by_contra hnot
  rcases canEnqueue_eq_false_iff.mp (Bool.eq_false_of_not_eq_true hnot) with hne | hclose
  · exact hne hphase
  · exact h.closing hclose hphase hqueue

theorem Ok.congr {s' : ReadableStream} (h : s.Ok) (hqueue : s'.queue = s.queue) (hreads : s'.reads = s.reads)
    (hphase : s'.phase = s.phase) (hclose : s'.closeRequested = s.closeRequested) : s'.Ok :=
  ⟨by rw [hreads, hqueue, hphase]; exact h.reads, by rw [hclose, hphase, hqueue]; exact h.closing⟩

theorem Ok.enqueue (h : s.Ok) (chunk : Bytes) : (s.enqueue chunk).Ok := by
  rw [ReadableStream.enqueue]
  split_ifs with hreads
  · exact ⟨fun _ => h.reads hreads, h.closing⟩
  · exact ⟨fun h' => absurd h' hreads, fun _ _ => by simp⟩

theorem Ok.close (h : s.Ok) : s.close.Ok := by
  rw [ReadableStream.close]
  split_ifs with hqueue
  · exact ⟨fun h' => absurd h' (lt_irrefl 0), fun _ h' => by cases h'⟩
  · exact ⟨h.reads, fun _ _ => hqueue⟩

theorem Ok.error (h : s.Ok) : s.error.Ok := by
  rw [ReadableStream.error]
  split_ifs
  · exact ⟨fun h' => absurd h' (lt_irrefl 0), fun _ h' => by cases h'⟩
  · exact h

theorem Ok.cancel (s : ReadableStream) : s.cancel.Ok :=
  ⟨fun h' => absurd h' (lt_irrefl 0), fun _ h' => by cases h'⟩

theorem Ok.read (h : s.Ok) : s.read.Ok := by
  rw [ReadableStream.read]
  split
  · next hphase hqueue => exact ⟨fun _ => ⟨hqueue, hphase⟩, fun hclose _ => h.closing hclose hphase⟩
  · next chunk queue hphase hqueue =>
    have hreads : ¬ 0 < s.reads := fun h' => by
      rw [(h.reads h').1] at hqueue
      cases hqueue
    split_ifs with hlast
    · exact ⟨fun h' => absurd h' (lt_irrefl 0), fun _ h' => by cases h'⟩
    · refine ⟨fun h' => absurd h' hreads, fun hclose _ hempty => hlast ?_⟩
      change s.closeRequested = true at hclose
      change queue = [] at hempty
      rw [hclose, hempty]
      rfl
  · exact h
  · exact h

theorem canEnqueue_error (s : ReadableStream) : s.error.canEnqueue = false := by
  refine canEnqueue_eq_false_iff.mpr (.inl ?_)
  rw [error]
  split_ifs with hphase
  · exact StreamPhase.noConfusion
  · exact hphase

theorem canEnqueue_close (s : ReadableStream) : s.close.canEnqueue = false := by
  refine canEnqueue_eq_false_iff.mpr (.inr ?_)
  rw [close]
  split_ifs <;> rfl

theorem canEnqueue_read (h : s.canEnqueue = false) : s.read.canEnqueue = false := by
  rw [canEnqueue_eq_false_iff] at h ⊢
  rw [read]
  split
  · exact h
  · split_ifs
    · exact .inl StreamPhase.noConfusion
    · exact h
  · exact h
  · exact h

/-- Where a read waits there is room. -/
theorem Ok.desiredSize (h : s.Ok) (hreads : 0 < s.reads) : s.desiredSize = s.highWaterMark := by
  obtain ⟨hqueue, hphase⟩ := h.reads hreads
  rw [ReadableStream.desiredSize, hphase, hqueue]
  simp

end ReadableStream

/-! ## Streams of transfers -/

/-- The platform's side of a stream is in order, and a stream the client has closed
    takes nothing more. -/
structure StreamOk (st : StreamState) : Prop where
  body : st.body.Ok
  closed : st.closed = true → st.body.canEnqueue = false

section Streams

variable {Q : Leave} {st st' : StreamState}

theorem StreamOk.reads_eq_zero (h : StreamOk st) (hend : st.closed = true ∨ st.body.canEnqueue = false) :
    st.body.reads = 0 := by
  by_contra hreads
  have hbody := h.body.canEnqueue (Nat.pos_of_ne_zero hreads)
  rcases hend with hclosed | hend
  · rw [h.closed hclosed] at hbody
    cases hbody
  · rw [hend] at hbody
    cases hbody

theorem StreamOk.open_of_reads (h : StreamOk st) (hreads : 0 < st.body.reads) : st.closed = false := by
  by_contra hclosed
  have := h.closed (Bool.eq_true_of_not_eq_false hclosed)
  rw [h.body.canEnqueue hreads] at this
  cases this

theorem StreamOk.callPull (h : StreamOk st) (failed : Bool) : StreamOk (st.callPull failed) := by
  obtain ⟨_, _, _, _, heq⟩ := st.callPull_eq failed
  rw [heq]
  exact ⟨h.body.congr rfl rfl rfl rfl, h.closed⟩

theorem StreamOk.turn (h : StreamOk st) (hturn : StreamTurn Q st st') : StreamOk st' := by
  cases hturn with
  | enqueued failed upTo chunk hopen hbody =>
    refine StreamOk.callPull ⟨h.body.enqueue chunk, fun hclosed => ?_⟩ failed
    rw [hopen] at hclosed
    cases hclosed
  | skipped | paused => exact ⟨h.body, h.closed⟩
  | ended => exact ⟨h.body.close, fun _ => st.body.canEnqueue_close⟩
  | shut hbody => exact ⟨h.body, fun _ => hbody⟩
  | errored => exact ⟨h.body.error, fun _ => st.body.canEnqueue_error⟩
  | started failed =>
    refine StreamOk.callPull ?_ failed
    exact ⟨h.body.congr rfl rfl rfl rfl, h.closed⟩
  | read failed =>
    refine StreamOk.callPull ?_ failed
    exact ⟨h.body.read, fun hclosed => ReadableStream.canEnqueue_read (h.closed hclosed)⟩
  | pullRejected => exact ⟨h.body.error.congr rfl rfl rfl rfl, fun _ => st.body.canEnqueue_error⟩
  | pullDone => exact ⟨h.body.congr rfl rfl rfl rfl, h.closed⟩
  | pulledAgain failed =>
    refine StreamOk.callPull ?_ failed
    exact ⟨h.body.congr rfl rfl rfl rfl, h.closed⟩
  | cancelled => exact ⟨.cancel st.body, fun _ => rfl⟩

theorem StreamOk.reach (h : StreamOk st) (hreach : Relation.ReflTransGen (StreamTurn Q) st st') : StreamOk st' := by
  induction hreach with
  | refl => exact h
  | tail _ hturn ih => exact ih.turn hturn

end Streams

section Reachable

variable {opts : ClientOptions} {maxDatagramSize : ℕ} {c c' : Http4Client}

theorem streamOk_new (highWaterMark : ℚ) : StreamOk { body := { highWaterMark := highWaterMark } } :=
  ⟨⟨fun h => absurd h (lt_irrefl 0), fun h => by cases h⟩, fun h => by cases h⟩

/-- What the code does keeps the streams in order. -/
theorem Http4Client.Turns.streamOk {F : ℤ → Leave} (h : Turns F c c')
    (hc : ∀ id live st, c.streamOf id = some (live, st) → StreamOk st) :
    ∀ id live st, c'.streamOf id = some (live, st) → StreamOk st :=
  h.preserves (P := fun _ _ st => StreamOk st) (fun _ => streamOk_new _) (fun _ _ _ _ h hturn => h.turn hturn)
    (fun _ _ _ _ h hreach _ => h.reach hreach) hc

/-- **A reader waits only on an open stream with an empty queue**, in every state of
    every run. -/
theorem streamOk_reachable (h : Machine.Reachable Http4Client.step (connect opts maxDatagramSize) c) {id : ℤ}
    {live : Bool} {st : StreamState} (hst : c.streamOf id = some (live, st)) : StreamOk st :=
  stream_invariant (P := fun _ _ st => StreamOk st) (fun _ => streamOk_new _)
    (fun _ _ _ _ h hturn => h.turn hturn) (fun _ _ _ _ h hreach _ => h.reach hreach) h hst

end Reachable

/-! ## Coalescing -/

section Coalescing

variable {inc : Option Wire.Ts.Packet} {c c' : Http4Client} {id : ℤ}

namespace Reassembly

/-- The gap-free prefix only grows. -/
theorem Represents.contiguous_le {s s' : Reassembly} {w : Contents} (h : Represents s w) {offset fresh : ℤ}
    {payload : Bytes} (hadd : s.add offset payload = .ok (fresh, s')) : s.contiguous ≤ s'.contiguous := by
  obtain ⟨-, -, -, -, h'⟩ := h.of_add hadd
  refine h'.contiguous.2 fun k hk => ?_
  rw [Contents.dom_put]
  exact .inl (h.contiguous.1 hk)

end Reassembly

/-- The end of the gap-free prefix. -/
def Transfer.contiguous (t : Transfer) : ℕ := (t.asm.map Reassembly.contiguous).getD 0

/-- What a stream that takes more has been given is part of the gap-free prefix. -/
def EmittedOk (t : Transfer) : Prop :=
  ∀ st, t.stream = some st → st.body.canEnqueue = true → st.emitted ≤ t.contiguous

theorem EmittedOk.stream {t : Transfer} {st st' : StreamState} (h : EmittedOk t) (hst : t.stream = some st)
    (hchange : StreamChange c t st st') : EmittedOk { t with stream := some st' } := by
  intro st₁ heq hbody
  obtain rfl := Option.some.inj heq
  have hold := h st hst
  cases hchange with
  | body hsame =>
    rw [hsame.emitted]
    refine hold ?_
    by_contra hnot
    have hnot := ReadableStream.canEnqueue_eq_false_iff.mp (Bool.eq_false_of_not_eq_true hnot)
    refine absurd hbody (Bool.eq_false_iff.mp (ReadableStream.canEnqueue_eq_false_iff.mpr ?_))
    rw [hsame.closeRequested]
    rcases hsame.phase with heq | ⟨hclose, -⟩
    · rwa [heq]
    · exact .inr hclose
  | pullFailed => exact hold hbody
  | pullRejected => exact absurd hbody (Bool.eq_false_iff.mp st.body.canEnqueue_error)
  | enqueue asm hasm =>
    change asm.contiguous ≤ (t.asm.map Reassembly.contiguous).getD 0
    rw [hasm]
    rfl
  | skip n hbody' => exact absurd hbody (Bool.eq_false_iff.mp hbody')
  | close => exact absurd hbody (Bool.eq_false_iff.mp st.body.canEnqueue_close)
  | error => exact absurd hbody (Bool.eq_false_iff.mp st.body.canEnqueue_error)
  | drop hbody' => exact absurd hbody (Bool.eq_false_iff.mp hbody')
  | cancel => exact absurd hbody (Bool.eq_false_iff.mp rfl)

theorem EmittedOk.change {t t' : Transfer} {s : SrptScheduler} (h : EmittedOk t) (hok : TransferOk t)
    (hchange : Change inc c id t t' s) : EmittedOk t' := by
  cases hchange with
  | progress | headers | claim | remove | settle => exact h
  | learn d _ _ _ hasm =>
    intro st hst hbody
    have hle := h st hst hbody
    rw [Transfer.contiguous, hasm] at hle
    exact hle.trans (Nat.zero_le _)
  | store d asm asm' fresh _ _ _ hasm _ hadd =>
    intro st hst hbody
    obtain ⟨-, w, hw⟩ := hok.represents asm hasm
    have hle := h st hst hbody
    rw [Transfer.contiguous, hasm] at hle
    exact le_trans hle (hw.contiguous_le hadd)
  | stream st st' hst hchange => exact h.stream hst hchange
  | pause asm st _ hst | unpause st hst =>
    intro st₁ heq hbody
    obtain rfl := Option.some.inj heq
    exact h st hst hbody

theorem emittedOk_reachable {opts : ClientOptions} {maxDatagramSize : ℕ}
    (h : Machine.Reachable Http4Client.step (connect opts maxDatagramSize) c) {t : Transfer}
    (ht : c.objects.get? id = some t) : EmittedOk t := by
  let P (c : Http4Client) : Prop := Inv c ∧ ∀ id t, c.objects.get? id = some t → EmittedOk t
  have hP : P c := by
    refine invariant_of_moves (P := P) ⟨inv_new opts maxDatagramSize, fun _ _ h => by cases h⟩ ?_ ?_ h
    · rintro inc s s' hdec ⟨hinv, hs⟩ hm
      refine ⟨hinv.move hdec hm, fun id t' ht' => ?_⟩
      obtain ⟨t, ht, rfl | ⟨s, hchange⟩⟩ | ⟨-, -, hfresh⟩ := hm.origin ht'
      · exact hs id t' ht
      · exact (hs id t ht).change (hinv.transfer id t ht).1 hchange
      · intro st hst _
        obtain ⟨highWaterMark, rfl⟩ := hfresh st hst
        exact Nat.zero_le _
    · rintro s s' ⟨hinv, hs⟩ hf
      refine ⟨hinv.flag hf, ?_⟩
      cases hf <;> exact hs
  exact hP.2 id t ht

/-- Bytes that arrived wait for more, although a reader waits for them. -/
def StreamState.Withholds (st : StreamState) (asm : Reassembly) : Prop :=
  0 < st.body.reads ∧ st.emitted ≠ 0 ∧ 0 < asm.contiguous - st.emitted ∧
    asm.contiguous - st.emitted < streamChunk ∧ asm.complete = false

instance (st : StreamState) (asm : Reassembly) : Decidable (st.Withholds asm) := by
  unfold StreamState.Withholds
  infer_instance

@[simp] theorem StreamState.pause_emitted (st : StreamState) : st.pause.emitted = st.emitted := by
  rw [pause]
  split_ifs <;> rfl

@[simp] theorem StreamState.pause_body (st : StreamState) : st.pause.body = st.body := by
  rw [pause]
  split_ifs <;> rfl

/-- A flush that leaves bytes behind is one that withholds them. -/
theorem flush_caughtUp_iff {st : StreamState} {asm : Reassembly} (hok : StreamOk st)
    (hle : st.body.canEnqueue = true → st.emitted ≤ asm.contiguous) (failed : Bool) :
    (0 < (st.flush failed asm).body.reads → (st.flush failed asm).emitted = asm.contiguous) ↔
      ¬ st.Withholds asm := by
  rw [StreamState.flush, StreamState.pause_emitted, StreamState.pause_body]
  by_cases hflush : st.Flushes asm
  · rw [if_pos hflush, StreamState.callPull_emitted]
    refine ⟨fun _ hwith => ?_, fun _ _ => rfl⟩
    obtain ⟨-, hne, -, hlt, hcomplete⟩ := hwith
    rcases hflush.2 with hzero | hge | hdone
    · exact hne hzero
    · exact absurd hlt (not_lt.mpr hge)
    · rw [hcomplete] at hdone
      cases hdone
  · rw [if_neg hflush]
    constructor
    · rintro hall ⟨hreads, -, hpending, -⟩
      have := hall hreads
      omega
    · intro hnot hreads
      have hle := hle (hok.body.canEnqueue hreads)
      by_contra hne
      have hpending : 0 < asm.contiguous - st.emitted := by omega
      refine hnot ⟨hreads, fun hzero => hflush ⟨hpending, .inl hzero⟩, hpending, ?_, ?_⟩
      · exact not_le.mp fun hge => hflush ⟨hpending, .inr (.inl hge)⟩
      · exact Bool.eq_false_of_not_eq_true fun hdone => hflush ⟨hpending, .inr (.inr hdone)⟩

/-- A reader that waits has been given all of the gap-free prefix. -/
def CaughtUp (c : Http4Client) (id : ℤ) : Prop :=
  ∀ t st asm, c.objects.get? id = some t → t.stream = some st → t.asm = some asm → 0 < st.body.reads →
    st.emitted = asm.contiguous

theorem caughtUp_of_closed (hclosed : Closed id c)
    (hok : ∀ live st, c.streamOf id = some (live, st) → StreamOk st) : CaughtUp c id := by
  intro t st asm ht hst _ hreads
  have hstream : c.streamOf id = some (t.live, st) := streamOf_eq_some_iff.mpr ⟨t, ht, rfl, hst⟩
  have hopen := (hok t.live st hstream).open_of_reads hreads
  rw [hclosed t.live st hstream] at hopen
  cases hopen

/-- What the packet leaves is at least what was there. -/
theorem contiguous_le_of_stored {t : Transfer} {d : Wire.Ts.Data} {asm : Reassembly} (hok : TransferOk t)
    (h : t.held.stored d = some asm) : t.contiguous ≤ asm.contiguous := by
  have hheld : t.held.asm = t.asm := rfl
  rw [Held.stored, hheld] at h
  rw [Transfer.contiguous]
  cases hasm : t.asm with
  | none => exact Nat.zero_le _
  | some asm₀ =>
    rw [hasm] at h
    dsimp only at h
    split_ifs at h
    obtain ⟨-, w, hw⟩ := hok.represents asm₀ hasm
    cases hadd : asm₀.add d.offset d.payload with
    | error e => rw [hadd] at h; cases h
    | ok r =>
      rw [hadd] at h
      obtain rfl := Option.some.inj h
      exact hw.contiguous_le hadd

variable {opts : ClientOptions} {maxDatagramSize : ℕ}

/-- **When a waiting reader has what has arrived.** After DATA of a live transfer
    has been handled, a reader that waits has been given all of the gap-free prefix,
    exactly if the packet did not leave fewer than `STREAM_CHUNK` bytes behind while
    the reader waited. -/
theorem waiting_flushed_iff (h : Machine.Reachable Http4Client.step (connect opts maxDatagramSize) c)
    {p : Wire.Ts.Packet} {d : Wire.Ts.Data} (hd : Carried (some p) d) (alloc : Bool) (elapse : List ℚ≥0)
    {t : Transfer} {st : StreamState} (ht : c.objects.get? d.rpcId = some t) (hlive : t.live = true)
    (hst : t.stream = some st)
    (hok : (exec (handle alloc p) { c with est := { c.est with elapse := elapse } }).1 = .ok ()) :
    CaughtUp (exec (handle alloc p) { c with est := { c.est with elapse := elapse } }).2 d.rpcId ↔
      ∀ asm, c.stored d = some asm → ¬ st.Withholds asm := by
  let c₁ : Http4Client := { c with est := { c.est with elapse := elapse } }
  have hstream : c.streamOf d.rpcId = some (true, st) := streamOf_eq_some_iff.mpr ⟨t, ht, hlive, hst⟩
  have hstored : c.stored d = t.held.stored d := by rw [Http4Client.stored, held_of_get? ht]; rfl
  have hinv := inv_reachable h
  have hstreamOk := streamOk_reachable h hstream
  have hdelivers := delivers_handle (c := c₁) hd alloc
  have hturns := turns_handle (F := fun _ => .any) (c := c₁) (p := p) (fun _ _ => trivial) alloc
  change (exec (handle alloc p) c₁).1 = .ok () at hok
  change CaughtUp (exec (handle alloc p) c₁).2 d.rpcId ↔ _
  rw [Follows] at hturns
  rcases hexec : exec (handle alloc p) c₁ with ⟨r, s⟩
  rw [hexec] at hdelivers hturns hok
  obtain rfl : r = .ok () := hok
  have hsok := hturns.streamOk (fun _ _ _ => streamOk_reachable h) d.rpcId
  cases hdelivers with
  | calm hcalm hended =>
    cases hopen : st.closed with
    | false =>
      obtain ⟨hnone, hclosed⟩ := hended rfl st hstream hopen
      refine ⟨fun _ asm h' => ?_, fun _ => caughtUp_of_closed hclosed hsok⟩
      rw [show c.stored d = none from hnone] at h'
      cases h'
    | true =>
      have hclosed : Closed d.rpcId s := by
        intro live st' hst'
        obtain ⟨live₁, st₁, h₁, hclosed⟩ := hcalm.stream (P := fun st => st.closed = true)
          (fun _ _ h hturn => hturn.closed h) hstream hopen
        obtain ⟨-, rfl⟩ := Prod.mk.inj (Option.some.inj (h₁.symm.trans hst'))
        exact hclosed
      refine ⟨fun _ asm _ hwith => ?_, fun _ => caughtUp_of_closed hclosed hsok⟩
      rw [hstreamOk.open_of_reads hwith.1] at hopen
      cases hopen
  | @flushed _ _ m asm hflush ho _ hend =>
    obtain ⟨x, st', failed, hx, -, hst', -, -, hm⟩ := hflush
    obtain ⟨t', ht', rfl⟩ := held_eq_some_iff.mp hx
    obtain rfl := Option.some.inj (ht.symm.trans ht')
    obtain rfl := Option.some.inj (hst.symm.trans hst')
    have ho : c.stored d = some asm := ho
    have hiff := flush_caughtUp_iff hstreamOk (fun hbody =>
      (emittedOk_reachable h ht st hst hbody).trans
        (contiguous_le_of_stored (hinv.transfer _ t ht).1 (hstored ▸ ho))) failed
    rcases hend rfl with hheld | ⟨hcomplete, hclosed⟩
    · -- the transfer goes on, with the flushed stream
      have hs : s.held.2 d.rpcId = some { t.held with asm := some asm, stream := some (st.flush failed asm) } := by
        rw [hheld, hm]
        exact Function.update_self _ _ _
      obtain ⟨t₁, ht₁, heq⟩ := held_eq_some_iff.mp hs
      obtain ⟨-, hasm₁, -, hst₁⟩ := Held.mk.inj heq
      constructor
      · intro hall asm' h'
        obtain rfl := Option.some.inj (ho.symm.trans h')
        exact hiff.mp (hall t₁ _ asm ht₁ hst₁ hasm₁)
      · intro hnot t₂ st₂ asm₂ ht₂ hst₂ hasm₂
        obtain rfl := Option.some.inj (ht₁.symm.trans ht₂)
        obtain rfl := Option.some.inj (hst₁.symm.trans hst₂)
        obtain rfl := Option.some.inj (hasm₁.symm.trans hasm₂)
        exact hiff.mpr (hnot asm ho)
    · refine ⟨fun _ asm' h' hwith => ?_, fun _ => caughtUp_of_closed hclosed hsok⟩
      obtain rfl := Option.some.inj (ho.symm.trans h')
      have hnot := hwith.2.2.2.2
      rw [hcomplete] at hnot
      cases hnot

/-- A stream whose reader has taken the first two bytes of ten and waits for more. -/
def oneReadWaits : List Step :=
  [{ event := .request 1 (Wire.Ts.jsLit "a") true .normal },
   { event := .streamStarted 1 },
   { event := .datagram [6, 0, 0, 0, 0, 0, 0, 0, 1, 0] true },
   { event := .datagram [2, 0, 0, 0, 0, 0, 0, 0, 1, 0, 0, 0, 10, 0, 0, 0, 0, 7, 7] true },
   { event := .read 1 }, { event := .read 1 }, { event := .pullSettled 1 }]

/-- Two more bytes, from an offset on. -/
def twoAt (offset : ℤ) : Wire.Ts.Data := { rpcId := 1, totalSize := 10, offset := offset, payload := [7, 7] }

/-- Two bytes after a gap leave nothing behind. -/
theorem waiting_flushed_iff_gap : ∃ c, Machine.run Http4Client.step (connect {} 1200) oneReadWaits = some c ∧
    CaughtUp (exec (handle true (.data (twoAt 5))) { c with est := { c.est with elapse := [] } }).2 1 := by
  have hany : (Machine.run Http4Client.step (connect {} 1200) oneReadWaits).any fun c =>
      (exec (handle true (.data (twoAt 5))) { c with est := { c.est with elapse := [] } }).1 = .ok () ∧
      (c.objects.get? 1).any fun t => t.live ∧ t.stream.any fun st =>
        (c.stored (twoAt 5)).all fun asm => ¬ st.Withholds asm := by decide +kernel
  obtain ⟨c, hrun, hc⟩ := (Option.any_eq_true _ _).mp hany
  obtain ⟨hok, hobject⟩ := of_decide_eq_true hc
  obtain ⟨t, ht, hobject⟩ := (Option.any_eq_true _ _).mp hobject
  obtain ⟨hlive, hstream⟩ := of_decide_eq_true hobject
  obtain ⟨st, hst, hall⟩ := (Option.any_eq_true _ _).mp hstream
  refine ⟨c, hrun, ?_⟩
  refine (waiting_flushed_iff ⟨_, hrun⟩ (.inl rfl) true [] ht hlive hst hok).mpr fun asm hasm => ?_
  exact of_decide_eq_true ((Option.all_eq_true _ _).mp hall asm hasm)

/-- Two bytes where the first two end stay behind. -/
theorem twoAt_withheld : ¬ ∀ opts maxDatagramSize c,
    Machine.Reachable Http4Client.step (connect opts maxDatagramSize) c →
      ∀ p d, Carried (some p) d → ∀ alloc elapse t, c.objects.get? d.rpcId = some t → t.live = true →
        t.stream.isSome →
          (exec (handle alloc p) { c with est := { c.est with elapse := elapse } }).1 = .ok () →
            CaughtUp (exec (handle alloc p) { c with est := { c.est with elapse := elapse } }).2 d.rpcId := by
  intro h
  have hany : (Machine.run Http4Client.step (connect {} 1200) oneReadWaits).any fun c =>
      ((c.objects.get? 1).any fun t => t.live ∧ t.stream.isSome) ∧
      (exec (handle true (.data (twoAt 2))) { c with est := { c.est with elapse := [] } }).1 = .ok () ∧
      ((exec (handle true (.data (twoAt 2))) { c with est := { c.est with elapse := [] } }).2.objects.get? 1).any
        fun t => t.stream.any fun st => t.asm.any fun asm => 0 < st.body.reads ∧ st.emitted ≠ asm.contiguous := by
    decide +kernel
  obtain ⟨c, hrun, hc⟩ := (Option.any_eq_true _ _).mp hany
  obtain ⟨hbefore, hok, hafter⟩ := of_decide_eq_true hc
  obtain ⟨t, ht, hlive⟩ := (Option.any_eq_true _ _).mp hbefore
  obtain ⟨t', ht', hstream⟩ := (Option.any_eq_true _ _).mp hafter
  obtain ⟨st, hst, hasm⟩ := (Option.any_eq_true _ _).mp hstream
  obtain ⟨asm, hasm, hreads⟩ := (Option.any_eq_true _ _).mp hasm
  obtain ⟨hreads, hne⟩ := of_decide_eq_true hreads
  obtain ⟨hlive, hstream⟩ := of_decide_eq_true hlive
  exact hne (h {} 1200 c ⟨_, hrun⟩ (.data (twoAt 2)) (twoAt 2) (.inl rfl) true [] t ht hlive hstream hok
    t' st asm ht' hst hasm hreads)

end Coalescing

/-! ## Backpressure -/

section Backpressure

variable {c c' : Http4Client} {id : ℤ} {st st' : StreamState}

/-- If a reader waits on a paused transfer, a call of `pull` is to come. -/
def StreamState.Owed (st : StreamState) : Prop :=
  0 < st.body.reads → st.paused = true →
    st.body.started = false ∨ st.body.pulling = true ∧ st.body.pullAgain = true

/-- The platform has called `pull`, or it will. -/
theorem StreamOk.owed_callPull (h : StreamOk st) (failed : Bool) : (st.callPull failed).Owed := by
  intro hreads hpaused
  rw [StreamState.callPull_reads] at hreads
  have hbody := h.body.canEnqueue hreads
  rw [StreamState.callPull] at hpaused ⊢
  split_ifs at hpaused ⊢ with hpull hbusy
  · exact .inr ⟨hbusy, rfl⟩
  · -- nothing but the start of the stream keeps `pull` from being called
    refine .inl (Bool.eq_false_of_not_eq_true fun hstarted => hpull ?_)
    rw [ReadableStream.shouldPull, hbody, hstarted, decide_eq_true hreads]
    rfl

theorem StreamState.owed_of_reads (h : st.body.reads = 0) : st.Owed := fun hreads => by
  rw [h] at hreads
  exact absurd hreads (lt_irrefl 0)

/-- What pauses no transfer leaves a call of `pull` to come. -/
theorem StreamState.Owed.turn (hok : StreamOk st) (h : st.Owed) (hturn : StreamTurn .calm st st') : st'.Owed := by
  have hok' := hok.turn hturn
  cases hturn with
  | enqueued failed upTo chunk hopen =>
    refine StreamOk.owed_callPull ⟨hok.body.enqueue chunk, fun hclosed => ?_⟩ failed
    rw [hopen] at hclosed
    cases hclosed
  | skipped => exact h
  | paused hfalse => exact hfalse.elim
  | ended => exact owed_of_reads (hok'.reads_eq_zero (.inl rfl))
  | shut => exact owed_of_reads (hok'.reads_eq_zero (.inl rfl))
  | errored => exact owed_of_reads (hok'.reads_eq_zero (.inl rfl))
  | started failed =>
    refine StreamOk.owed_callPull ?_ failed
    exact ⟨hok.body.congr rfl rfl rfl rfl, hok.closed⟩
  | read failed =>
    refine StreamOk.owed_callPull ?_ failed
    exact ⟨hok.body.read, fun hclosed => ReadableStream.canEnqueue_read (hok.closed hclosed)⟩
  | pullRejected => exact owed_of_reads (hok'.reads_eq_zero (.inr st.body.canEnqueue_error))
  | pullDone hagain =>
    intro hreads hpaused
    refine .inl ((h hreads hpaused).resolve_right fun ⟨_, hagain'⟩ => ?_)
    rw [hagain] at hagain'
    cases hagain'
  | pulledAgain failed =>
    refine StreamOk.owed_callPull ?_ failed
    exact ⟨hok.body.congr rfl rfl rfl rfl, hok.closed⟩
  | cancelled => exact owed_of_reads rfl

/-- DATA that leaves the reassembly `asm` serves every read that waits, or `pull` is
    called after it. -/
def StreamState.Spares (st : StreamState) (asm : Reassembly) : Prop :=
  st.body.reads ≤ (if st.Flushes asm then 1 else 0) ∨ st.body.started = false ∨
    st.body.pulling = true ∧ (st.Flushes asm ∨ st.body.pullAgain = true)

instance (st : StreamState) (asm : Reassembly) : Decidable (st.Spares asm) := by
  unfold StreamState.Spares
  infer_instance

/-- What a flush has enqueued. -/
theorem StreamOk.enqueued {asm : Reassembly} (h : StreamOk st) (hopen : st.closed = false) :
    StreamOk (st.enqueued asm) := by
  refine ⟨h.body.enqueue _, fun hclosed => ?_⟩
  rw [show (st.enqueued asm).closed = st.closed from rfl, hopen] at hclosed
  cases hclosed

theorem StreamOk.flush {asm : Reassembly} (h : StreamOk st) (hopen : st.closed = false) (failed : Bool) :
    StreamOk (st.flush failed asm) := by
  have hpause {st : StreamState} (h : StreamOk st) : StreamOk st.pause := by
    rw [StreamState.pause]
    split_ifs
    · exact ⟨h.body, h.closed⟩
    · exact h
  rw [StreamState.flush]
  split_ifs
  · exact hpause ((h.enqueued hopen).callPull failed)
  · exact hpause h

theorem flush_highWaterMark {asm : Reassembly} (failed : Bool) :
    (st.flush failed asm).body.highWaterMark = st.body.highWaterMark := by
  rw [StreamState.flush, StreamState.pause_body]
  split_ifs
  · rw [StreamState.callPull_highWaterMark]
    exact st.body.enqueue_highWaterMark _
  · rfl

/-- A chunk serves one read. -/
theorem reads_enqueued {asm : Reassembly} (h : 0 < (st.enqueued asm).body.reads) :
    (st.enqueued asm).body.reads + 1 = st.body.reads ∧
      (st.enqueued asm).body.started = st.body.started ∧ (st.enqueued asm).body.pulling = st.body.pulling := by
  rw [StreamState.enqueued, ReadableStream.enqueue] at h ⊢
  split_ifs at h ⊢ with hreads
  · exact ⟨Nat.succ_pred_eq_of_pos hreads, rfl, rfl⟩
  · exact absurd h hreads

/-- A call of `pull` that finds another one unsettled is put off. -/
theorem StreamOk.pullAgain_callPull (h : StreamOk st) (hreads : 0 < st.body.reads)
    (hpulling : st.body.pulling = true) (failed : Bool) :
    st.body.started = false ∨
      (st.callPull failed).body.pulling = true ∧ (st.callPull failed).body.pullAgain = true := by
  cases hstarted : st.body.started with
  | false => exact .inl rfl
  | true =>
    have hpull : st.body.shouldPull = true := by
      rw [ReadableStream.shouldPull, h.body.canEnqueue hreads, hstarted, decide_eq_true hreads]
      rfl
    rw [StreamState.callPull, if_pos hpull, if_pos hpulling]
    exact .inr ⟨hpulling, rfl⟩

theorem StreamOk.owed_flush {asm : Reassembly} (hok : StreamOk st) (h : st.Owed) (hopen : st.closed = false)
    (hspares : 0 < st.body.highWaterMark ∨ st.Spares asm) (failed : Bool) : (st.flush failed asm).Owed := by
  rw [StreamState.flush]
  by_cases hflush : st.Flushes asm
  · rw [if_pos hflush]
    have hok' : StreamOk (st.enqueued asm) := hok.enqueued hopen
    rw [StreamState.pause]
    split_ifs with hbehind
    · intro hreads _
      change 0 < ((st.enqueued asm).callPull failed).body.reads at hreads
      change ((st.enqueued asm).callPull failed).body.started = false ∨ _
      rw [(hok'.callPull failed).body.desiredSize hreads, StreamState.callPull_highWaterMark] at hbehind
      rw [StreamState.callPull_reads] at hreads
      obtain ⟨hone, hstarted', hpulling'⟩ := reads_enqueued hreads
      rw [StreamState.callPull_started]
      rcases hspares with hmark | hle | hstarted | ⟨hpulling, -⟩
      · have hmark' : (st.enqueued asm).body.highWaterMark = st.body.highWaterMark :=
          ReadableStream.enqueue_highWaterMark _ _
        rw [hmark'] at hbehind
        exact absurd hbehind.1 (not_le.mpr hmark)
      · rw [if_pos hflush] at hle
        omega
      · exact .inl (hstarted'.trans hstarted)
      · exact hok'.pullAgain_callPull hreads (hpulling'.trans hpulling) failed
    · exact hok'.owed_callPull failed
  · rw [if_neg hflush, StreamState.pause]
    split_ifs with hbehind
    · intro hreads _
      change 0 < st.body.reads at hreads
      rw [hok.body.desiredSize hreads] at hbehind
      rcases hspares with hmark | hle | hstarted | ⟨hpulling, hagain⟩
      · exact absurd hbehind.1 (not_le.mpr hmark)
      · rw [if_neg hflush] at hle
        omega
      · exact .inl hstarted
      · exact .inr ⟨hpulling, hagain.resolve_left hflush⟩
    · exact h

namespace Http4Client

/-- There is room for a byte at least, or the DATA that a step brings spares the
    stream it flushes. -/
def Spares (c : Http4Client) (a : Step) : Prop :=
  0 < c.opts.highWaterMark ∨ ∀ d st asm, Carried a.event.packet d → c.streamOf d.rpcId = some (true, st) →
    c.stored d = some asm → st.Spares asm

/-- A stream in order, whose reader does not wait in vain. -/
structure Served (highWaterMark : ℚ) (st : StreamState) : Prop where
  ok : StreamOk st
  owed : st.Owed
  highWaterMark : st.body.highWaterMark = highWaterMark

/-- What holds of every stream as long as the steps spare them. -/
def Serves (c : Http4Client) : Prop :=
  ∀ id live st, c.streamOf id = some (live, st) → Served c.opts.highWaterMark st

theorem highWaterMark_reach {Q : Leave} (h : Relation.ReflTransGen (StreamTurn Q) st st') :
    st'.body.highWaterMark = st.body.highWaterMark := by
  induction h with
  | refl => rfl
  | tail _ hturn ih => exact hturn.highWaterMark.trans ih

theorem Serves.calm (h : Serves c) (hcalm : Calm c c') : Serves c' := by
  rw [Serves, hcalm.opts]
  refine hcalm.preserves (P := fun _ _ st => Served c.opts.highWaterMark st) (fun _ => ?_)
    (fun _ _ st st' h hturn => ?_) (fun _ _ st st' h hreach hend => ?_) h
  · exact ⟨streamOk_new _, StreamState.owed_of_reads rfl, rfl⟩
  · exact ⟨h.ok.turn hturn, h.owed.turn h.ok hturn, hturn.highWaterMark.trans h.highWaterMark⟩
  · have hok := h.ok.reach hreach
    exact ⟨hok, StreamState.owed_of_reads (hok.reads_eq_zero hend),
      (highWaterMark_reach hreach).trans h.highWaterMark⟩

theorem Serves.flushesTo {asm : Reassembly} {m : Http4Client} (h : Serves c) (hflush : FlushesTo id asm c m)
    (hspares : ∀ st, c.streamOf id = some (true, st) → 0 < c.opts.highWaterMark ∨ st.Spares asm) : Serves m := by
  obtain ⟨st, failed, hst, hopen, hopts, hstream⟩ := hflush.streamOf
  intro id' live st' hst'
  rw [hopts]
  rw [hstream] at hst'
  split_ifs at hst' with hid
  · obtain ⟨rfl, rfl⟩ := Prod.mk.inj (Option.some.inj hst')
    have hserved := h id true st hst
    refine ⟨hserved.ok.flush hopen failed, hserved.ok.owed_flush hserved.owed hopen ?_ failed, ?_⟩
    · rw [hserved.highWaterMark]
      exact hspares st hst
    · rw [flush_highWaterMark]
      exact hserved.highWaterMark
  · exact h id' live st' hst'

theorem Serves.step {a : Step} (h : Serves c) (hspares : c.Spares a) (hstep : c.step a = some c') : Serves c' := by
  obtain ⟨m, hcalm, rfl | ⟨d, asm, hd, hstored, hflush⟩⟩ := step_delivers hstep
  · exact h.calm hcalm
  · refine (h.flushesTo hflush fun st hst => ?_).calm hcalm
    exact hspares.imp_right fun hall => hall d st asm hd hst hstored

variable {opts : ClientOptions} {maxDatagramSize : ℕ}

theorem serves_connect (opts : ClientOptions) (maxDatagramSize : ℕ) : Serves (connect opts maxDatagramSize) := by
  have hnew : Serves (.new opts maxDatagramSize) := fun _ _ _ h => by cases h
  exact hnew.calm connect_turns

/-- **No reader waits on a paused transfer** once no call of `pull` is left, in any
    state of a run whose steps spare the streams they flush. -/
theorem not_wedged {as : List Step} (hrun : Machine.run Http4Client.step (connect opts maxDatagramSize) as = some c)
    (hspares : Machine.Along Http4Client.step (connect opts maxDatagramSize) as Spares) {t : Transfer}
    (ht : c.objects.get? id = some t) (hst : t.stream = some st) (hreads : 0 < st.body.reads)
    (hstarted : st.body.started = true) (hpulling : st.body.pulling = false) :
    st.paused = false ∧ ∀ e, c.scheduler.rpcs.get? id = some e → e.paused = false := by
  have hserves : Serves c := Machine.run_along (fun _ _ _ hspares h hstep => h.step hspares hstep) hspares
    (serves_connect opts maxDatagramSize) hrun
  have hpaused : st.paused = false := by
    by_contra hpaused
    have hstream : c.streamOf id = some (t.live, st) := streamOf_eq_some_iff.mpr ⟨t, ht, rfl, hst⟩
    rcases (hserves id t.live st hstream).owed hreads (Bool.eq_true_of_not_eq_false hpaused) with h | ⟨h, -⟩
    · rw [hstarted] at h
      cases h
    · rw [hpulling] at h
      cases h
  refine ⟨hpaused, fun e he => ?_⟩
  have htied := ((inv_reachable ⟨as, hrun⟩).transfer id t ht).2
  rw [he] at htied
  cases htied with
  | scheduled _ _ _ _ paused =>
    rw [paused, Transfer.paused, hst]
    exact hpaused

/-- With room for a byte every run does. -/
theorem along_spares (h : 0 < opts.highWaterMark) (as : List Step) :
    Machine.Along Http4Client.step (connect opts maxDatagramSize) as Spares := by
  intro before a after s _ hrun
  refine .inl ?_
  rw [opts_reachable ⟨before, hrun⟩]
  exact h

/-- The next two bytes arrive. -/
def twoMore : Step := { event := .datagram [2, 0, 0, 0, 0, 0, 0, 0, 1, 0, 0, 0, 10, 0, 0, 0, 2, 7, 7] true }

/-- With the default high-water mark, two bytes that arrive for a waiting reader. -/
theorem not_wedged_default : ∃ c st,
    Machine.run Http4Client.step (connect {} 1200) (oneReadWaits ++ [{ event := .pullSettled 1 }, twoMore]) =
        some c ∧
      c.streamOf 1 = some (true, st) ∧ 0 < st.body.reads ∧ st.paused = false := by
  have hany : (Machine.run Http4Client.step (connect {} 1200)
      (oneReadWaits ++ [{ event := .pullSettled 1 }, twoMore])).any fun c =>
      (c.objects.get? 1).any fun t => t.live ∧ t.stream.any fun st =>
        0 < st.body.reads ∧ st.body.started = true ∧ st.body.pulling = false := by decide +kernel
  obtain ⟨c, hrun, hobject⟩ := (Option.any_eq_true _ _).mp hany
  obtain ⟨t, ht, hobject⟩ := (Option.any_eq_true _ _).mp hobject
  obtain ⟨hlive, hstream⟩ := of_decide_eq_true hobject
  obtain ⟨st, hst, hbody⟩ := (Option.any_eq_true _ _).mp hstream
  obtain ⟨hreads, hstarted, hpulling⟩ := of_decide_eq_true hbody
  refine ⟨c, st, hrun, streamOf_eq_some_iff.mpr ⟨t, ht, hlive, hst⟩, hreads, ?_⟩
  exact (not_wedged hrun (along_spares (by decide +kernel) _) ht hst hreads hstarted hpulling).1

/-- A config with no room for a byte. -/
def withHighWaterMark (highWaterMark : ℚ) : JsObject := fun key =>
  if key = "streamHighWaterMark" then .number highWaterMark else .other

/-- With a high-water mark of 0 they pause the transfer. -/
theorem zero_highWaterMark_wedges : ¬ ∀ raw maxDatagramSize c,
    Machine.Reachable Http4Client.step (connect (tuningOptions raw) maxDatagramSize) c →
      ∀ id t st, c.objects.get? id = some t → t.stream = some st → 0 < st.body.reads →
        st.body.started = true → st.body.pulling = false → st.paused = false := by
  intro h
  have hany : (Machine.run Http4Client.step (connect (tuningOptions (some (withHighWaterMark 0))) 1200)
      (oneReadWaits ++ [twoMore])).any fun c =>
      (c.objects.get? 1).any fun t => t.stream.any fun st =>
        0 < st.body.reads ∧ st.body.started = true ∧ st.body.pulling = false ∧ st.paused = true := by
    decide +kernel
  obtain ⟨c, hrun, hobject⟩ := (Option.any_eq_true _ _).mp hany
  obtain ⟨t, ht, hstream⟩ := (Option.any_eq_true _ _).mp hobject
  obtain ⟨st, hst, hbody⟩ := (Option.any_eq_true _ _).mp hstream
  obtain ⟨hreads, hstarted, hpulling, hpaused⟩ := of_decide_eq_true hbody
  rw [h _ 1200 c ⟨_, hrun⟩ 1 t st ht hst hreads hstarted hpulling] at hpaused
  cases hpaused

end Http4Client

end Backpressure

end Http4.Client
