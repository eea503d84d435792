import Http4.Client.Transport
import Http4.Wire.Agreement

/-!
# What the client's code can do

`Move` lists every single change that the code of `Transport.lean` makes to a
client, with the condition under which it makes it. `Code.lean` shows that each of
its functions is a sequence of moves.

Main results:

* `Move.object`: what a move makes of one transfer.
* `Closing.move`, `Flushed.move`, …: facts about a transfer that no move undoes.
-/

namespace Http4.Client

open Wire.Ts (JsString)

/-! ## Moves -/

theorem ReadableStream.canEnqueue_eq_false_iff {s : ReadableStream} :
    s.canEnqueue = false ↔ s.phase ≠ .readable ∨ s.closeRequested = true := by
  simp [ReadableStream.canEnqueue, imp_iff_not_or]

/-- A transfer has every byte and its META. -/
def Transfer.Complete (t : Transfer) : Prop :=
  (∃ asm, t.asm = some asm ∧ asm.complete = true) ∧ t.headers.isSome

/-- The settlements that a transfer may get. -/
inductive Settles (t : Transfer) : Settlement → Prop
  | response {asm : Reassembly} {headers : List (JsString × JsString)} (hstream : t.stream = none)
      (hasm : t.asm = some asm) (hcomplete : asm.complete = true) (hheaders : t.headers = some headers) :
      Settles t (.response asm.bytes headers)
  | stream {st : StreamState} {asm : Reassembly} {headers : List (JsString × JsString)}
      (hstream : t.stream = some st) (hasm : t.asm = some asm) (hheaders : t.headers = some headers) :
      Settles t (.stream asm.size headers)
  | rejected (e : Failure) : Settles t (.rejected e)

/-- What is true of a transfer when it is rejected for want of progress: it has left
    `this.transfers`, after more attempts to recover than the options allow. -/
def Transfer.Stalled (limit : ℚ) (t : Transfer) : Failure → Prop
  | .noProgress assetId attempts got => t.live = false ∧ assetId = t.assetId ∧ attempts = limit ∧
      limit < t.progress.recoveries ∧ got = t.asm.map fun asm => (asm.received, asm.size)
  | .clientClosed | .sessionClosed | .assetIdTooLong _ _ | .server _ _ | .totalSizeChanged _ _ | .range _
  | .thrown _ => True

/-- Only the platform's side of a stream changed, and not its end. -/
structure SameStream (st st' : StreamState) : Prop where
  emitted : st'.emitted = st.emitted
  paused : st'.paused = st.paused
  closed : st'.closed = st.closed
  chunks : st'.chunks = st.chunks
  closeRequested : st'.body.closeRequested = st.body.closeRequested
  phase : st'.body.phase = st.body.phase ∨ st.body.closeRequested = true ∧ st'.body.phase = .closed
  pullFailed : st'.body.pullFailed = st.body.pullFailed

namespace Http4Client

/-- The packet handled carries this DATA. -/
def Carried (inc : Option Wire.Ts.Packet) (d : Wire.Ts.Data) : Prop :=
  inc = some (.data d) ∨ ∃ s : Wire.Ts.DataSeq, inc = some (.dataSeq s) ∧ s.toData = d

/-- The packet handled is one that `decode` returns. -/
def Decoded (inc : Option Wire.Ts.Packet) : Prop := ∀ p, inc = some p → ∃ b, Wire.Ts.decode b = .ok p

theorem exists_ofGo {b : Bytes} {p : Wire.Ts.Packet} (h : Wire.Ts.decode b = .ok p) :
    ∃ q, p = Wire.Ts.ofGo q := by
  rw [Wire.Ts.decode_eq_map] at h
  cases hgo : Wire.Go.decode b with
  | error e => rw [hgo] at h; cases h
  | ok q => rw [hgo] at h; exact ⟨q, (Except.ok.inj h).symm⟩

/-- The fields of a DATA that was decoded are unsigned. -/
theorem Decoded.data {inc : Option Wire.Ts.Packet} (h : Decoded inc) {d : Wire.Ts.Data} (hd : Carried inc d) :
    0 ≤ d.totalSize ∧ d.totalSize < 2 ^ 32 ∧ 0 ≤ d.offset := by
  have hnat (n : UInt32) : ((n.toNat : ℕ) : ℤ) < 2 ^ 32 := by exact_mod_cast n.toNat_lt
  rcases hd with hd | ⟨s, hs, rfl⟩
  · obtain ⟨b, hb⟩ := h _ hd
    obtain ⟨q, hq⟩ := exists_ofGo hb
    cases q <;> cases hq
    exact ⟨Int.natCast_nonneg _, hnat _, Int.natCast_nonneg _⟩
  · obtain ⟨b, hb⟩ := h _ hs
    obtain ⟨q, hq⟩ := exists_ofGo hb
    cases q <;> cases hq
    exact ⟨Int.natCast_nonneg _, hnat _, Int.natCast_nonneg _⟩

/-- A sequence number that was decoded is unsigned. -/
theorem Decoded.seq {inc : Option Wire.Ts.Packet} (h : Decoded inc) {s : Wire.Ts.DataSeq}
    (hs : inc = some (.dataSeq s)) : 0 ≤ s.seq ∧ s.seq < 2 ^ 32 := by
  obtain ⟨b, hb⟩ := h _ hs
  obtain ⟨q, hq⟩ := exists_ofGo hb
  cases q <;> cases hq
  have hlt (n : UInt32) : ((n.toNat : ℕ) : ℤ) < 2 ^ 32 := by exact_mod_cast n.toNat_lt
  exact ⟨Int.natCast_nonneg _, hlt _⟩

/-- A packet handed to `send` was one that `encode` rejects. -/
def Broken (c : Http4Client) : Prop := ∃ p ∈ c.handed, p.encode = none

/-- The packets that may be handed to `send` in a state. -/
inductive Allowed (c : Http4Client) : Outgoing → Prop
  | hello : Allowed c (.hello 0 1)
  | req {id : ℤ} {t : Transfer} (ht : c.objects.get? id = some t) :
      Allowed c (.req id t.initialGrant t.assetId)
  | grant {id : ℤ} {g : ℚ} {priority : ℕ} (hg : (c.scheduler.granted id).getD 0 = g)
      (hknown : (c.scheduler.granted id).isSome ∨ (c.objects.get? id).isSome) (hpriority : priority ≤ 7) :
      Allowed c (.grant id g priority)
  | resend {id : ℤ} {t : Transfer} {repair : RepairTracker} {p : Pending}
      (ht : c.objects.get? id = some t) (hrepair : t.repair = some repair) (hp : p ∈ repair.pending) :
      Allowed c (.resend id p.range)
  | resendSeq {r : Range ℤ} (hr : r.start < r.stop) (hnumbers : ∀ n ∈ numbers r, c.seq.claimed.has n) :
      Allowed c (.resendSeq 0 r)

/-- The gaps that a repair tracker is asked about. -/
inductive Asked (c : Http4Client) (id : ℤ) (asm : Reassembly) : List (Range ℚ) → Prop
  | early (gaps : List (Range ℚ))
      (h : gaps.Sublist (asm.gaps (lossLimit asm ((c.scheduler.granted id).getD asm.size)
        c.opts.reorderLimit c.est.payloadSeen))) (hearly : c.opts.resendsEarly = true) : Asked c id asm gaps
  | probe (h : asm.frontier < (c.scheduler.granted id).getD 0) :
      Asked c id asm [tailRange asm ((c.scheduler.granted id).getD 0) c.est.payloadSeen]
  | stall : Asked c id asm (recoverGaps asm ((c.scheduler.granted id).getD 0) c.est.payloadSeen)

/-- A change to a transfer's stream. -/
inductive StreamChange (c : Http4Client) (t : Transfer) (st : StreamState) : StreamState → Prop
  | body {st' : StreamState} (h : SameStream st st') : StreamChange c t st st'
  | pullFailed (h : c.Broken) :
      StreamChange c t st { st with body := { st.body with pullFailed := true } }
  | pullRejected (h : st.body.pullFailed = true) :
      StreamChange c t st { st with body := { st.body.error with pulling := false, pullFailed := false } }
  | enqueue (asm : Reassembly) (hasm : t.asm = some asm) (hopen : st.closed = false)
      (hbody : st.body.canEnqueue = true) :
      StreamChange c t st
        { st with emitted := asm.contiguous
                  chunks := st.chunks ++ [Bytes.sub asm.bytes st.emitted asm.contiguous]
                  body := st.body.enqueue (Bytes.sub asm.bytes st.emitted asm.contiguous) }
  | skip (n : ℕ) (hbody : st.body.canEnqueue = false) : StreamChange c t st { st with emitted := n }
  | close (asm : Reassembly) (hdone : t.Complete) (hasm : t.asm = some asm)
      (hall : asm.contiguous ≤ st.emitted) (hbody : st.body.canEnqueue = true) :
      StreamChange c t st { st with closed := true, body := st.body.close }
  | error : StreamChange c t st { st with closed := true, body := st.body.error }
  | drop (hbody : st.body.canEnqueue = false) : StreamChange c t st { st with closed := true }
  | cancel : StreamChange c t st { st with body := st.body.cancel, closed := true }

/-- A change to a transfer, and the scheduler after it. -/
inductive Change (inc : Option Wire.Ts.Packet) (c : Http4Client) (id : ℤ) (t : Transfer) :
    Transfer → SrptScheduler → Prop
  | progress (p : Progress) (hp : t.live = false → t.progress.recoveries ≤ p.recoveries) :
      Change inc c id t { t with progress := p } c.scheduler
  | learn (d : Wire.Ts.Data) (hinc : Carried inc d) (hid : d.rpcId = id) (hlive : t.live = true)
      (hasm : t.asm = none) :
      Change inc c id t { t with asm := some (.new d.totalSize.toNat), repair := some .new }
        (c.scheduler.add id d.totalSize t.initialGrant 0 t.cls)
  | store (d : Wire.Ts.Data) (asm asm' : Reassembly) (fresh : ℤ) (hinc : Carried inc d) (hid : d.rpcId = id)
      (hlive : t.live = true) (hasm : t.asm = some asm) (hsize : d.totalSize = asm.size)
      (hadd : asm.add d.offset d.payload = .ok (fresh, asm')) :
      Change inc c id t { t with asm := some asm' } (c.scheduler.onData id fresh)
  | headers (m : Wire.Ts.Meta) (p : Progress) (hinc : inc = some (.metaData m)) (hid : m.rpcId = id)
      (hlive : t.live = true) (hnone : t.headers = none) :
      Change inc c id t { t with headers := some m.fields, progress := p } c.scheduler
  | claim (asm : Reassembly) (repair before : RepairTracker) (gaps : List (Range ℚ)) (now delayMs : ℚ)
      (hasm : t.asm = some asm) (hrepair : t.repair = some repair)
      (hbefore : before.pending = repair.pending) (hgaps : Asked c id asm gaps) :
      Change inc c id t { t with repair := some (before.claim asm gaps now delayMs).2 } c.scheduler
  | stream (st st' : StreamState) (hst : t.stream = some st) (h : StreamChange c t st st') :
      Change inc c id t { t with stream := some st' } c.scheduler
  | pause (asm : Reassembly) (st : StreamState) (hasm : t.asm = some asm) (hst : t.stream = some st) :
      Change inc c id t { t with stream := some { st with paused := true } } (c.scheduler.setPaused id true)
  | unpause (st : StreamState) (hst : t.stream = some st) :
      Change inc c id t { t with stream := some { st with paused := false } }
        (c.scheduler.setPaused id false)
  | remove : Change inc c id t { t with live := false } (c.scheduler.remove id)
  | settle (x : Settlement) (hnot : t.settled = false) (hx : Settles t x)
      (hstalled : ∀ e, x = .rejected e → t.Stalled c.opts.recoveryLimit e) :
      Change inc c id t { t with settled := true, settlements := t.settlements ++ [x] } c.scheduler

/-- One change that the code makes while it handles `inc`, if that is a packet. -/
inductive Move (inc : Option Wire.Ts.Packet) (c : Http4Client) : Http4Client → Prop
  | estimate (e : Estimates) : Move inc c { c with est := e }
  | ticker (b : Bool) : Move inc c { c with ticker := b }
  | budget (b : BudgetController) (h : c.budget.Moves b) : Move inc c (c.setBudget b)
  | hand (p : Outgoing) (h : Allowed c p) : Move inc c { c with handed := c.handed ++ [p] }
  | arrive (p : Wire.Ts.DataSeq) (now : ℚ) (loc : Option SeqHint) (h : inc = some (.dataSeq p)) :
      Move inc c { c with seq := (c.seq.arrive p.seq now loc).2 }
  | detect (now allowance windowMs : ℚ) (tailWindowMs : WithTop ℚ) :
      Move inc c { c with seq := (c.seq.detect now allowance windowMs tailWindowMs seqMaxRange).2 }
  | repeats (now delayMs : ℚ) (repaired : SeqHint → Bool) :
      Move inc c { c with seq := (c.seq.repeats now delayMs seqResendTries repaired seqMaxRange).2 }
  | register (id : ℤ) (assetId : JsString) (cls : PriorityClass) (stream : Option StreamState)
      (progress : Progress) (hfresh : c.objects.get? id = none) (hopen : c.isOpen = true)
      (hencode : (Outgoing.req id c.nextInitialGrant assetId).encode.isSome)
      (hstream : ∀ st, stream = some st → ∃ h, st = { body := { highWaterMark := h } }) :
      Move inc c { c with
        objects := c.objects.set id
          { assetId := assetId, cls := cls, initialGrant := c.nextInitialGrant, stream := stream
            progress := progress } }
  | change (id : ℤ) (t t' : Transfer) (s : SrptScheduler) (ht : c.objects.get? id = some t)
      (h : Change inc c id t t' s) :
      Move inc c { c.setTransfer id fun _ => t' with scheduler := s }
  | pump :
      Move inc c { c with
        scheduler := ((c.scheduler.setBudget c.budget.budget).grants c.reserved).2 }

/-- Some moves lead from one state to the other. -/
abbrev Reaches (inc : Option Wire.Ts.Packet) : Http4Client → Http4Client → Prop :=
  Relation.ReflTransGen (Move inc)

section Moves

variable {inc : Option Wire.Ts.Packet} {c c' : Http4Client}

theorem Move.reaches (h : Move inc c c') : Reaches inc c c' := .single h

theorem setTransfer_of_none {id : ℤ} (h : c.objects.get? id = none) (f : Transfer → Transfer) :
    c.setTransfer id f = c := by
  rw [setTransfer, OrderedMap.modify_of_none h]

theorem setTransfer_of_some {id : ℤ} {t : Transfer} (h : c.objects.get? id = some t)
    (f : Transfer → Transfer) : c.setTransfer id f = c.setTransfer id fun _ => f t := by
  rw [setTransfer, setTransfer, OrderedMap.modify_congr h]

/-- A change to a transfer, if there is one, that leaves the scheduler as it is. -/
theorem reaches_setTransfer {id : ℤ} {f : Transfer → Transfer}
    (h : ∀ t, c.objects.get? id = some t → f t = t ∨ Change inc c id t (f t) c.scheduler) :
    Reaches inc c (c.setTransfer id f) := by
  cases ht : c.objects.get? id with
  | none => rw [setTransfer_of_none ht]
  | some t =>
    rcases h t ht with heq | hchange
    · rw [setTransfer, OrderedMap.modify_of_fixed ht heq]
    · rw [setTransfer_of_some ht]
      exact (Move.change id t _ _ ht hchange).reaches

theorem reaches_setProgress {id : ℤ} {f : Progress → Progress} (hf : ∀ p, p.recoveries ≤ (f p).recoveries) :
    Reaches inc c (c.setProgress id f) :=
  reaches_setTransfer fun t _ => .inr (.progress _ fun _ => hf t.progress)

theorem reaches_setStream {id : ℤ} {f : StreamState → StreamState}
    (h : ∀ t st, c.objects.get? id = some t → t.stream = some st → StreamChange c t st (f st)) :
    Reaches inc c (c.setStream id f) := by
  refine reaches_setTransfer fun t ht => ?_
  cases hst : t.stream with
  | none => exact .inl (by rw [Option.map_none, ← hst])
  | some st => exact .inr (.stream st (f st) hst (h t st ht hst))

/-- What a move makes of a transfer. -/
theorem Move.object (h : Move inc c c') {id : ℤ} {t : Transfer} (ht : c.objects.get? id = some t) :
    ∃ t', c'.objects.get? id = some t' ∧ (t' = t ∨ ∃ s, Change inc c id t t' s) := by
  cases h with
  | estimate | ticker | budget | hand | arrive | detect | repeats | pump => exact ⟨t, ht, .inl rfl⟩
  | register id' _ _ _ _ hfresh =>
    have hne : id ≠ id' := fun heq => by rw [heq, hfresh] at ht; cases ht
    exact ⟨t, by rw [OrderedMap.get?_set, if_neg hne]; exact ht, .inl rfl⟩
  | change id' t₀ t' s ht₀ hchange =>
    by_cases heq : id = id'
    · subst heq
      obtain rfl := Option.some.inj (ht.symm.trans ht₀)
      refine ⟨t', ?_, .inr ⟨s, hchange⟩⟩
      change (c.objects.modify id _).get? id = _
      rw [OrderedMap.get?_modify, if_pos rfl, ht]
      rfl
    · refine ⟨t, ?_, .inl rfl⟩
      change (c.objects.modify id' _).get? id = _
      rw [OrderedMap.get?_modify, if_neg heq]
      exact ht

/-- Where a transfer comes from. -/
theorem Move.origin (h : Move inc c c') {id : ℤ} {t' : Transfer} (ht' : c'.objects.get? id = some t') :
    (∃ t, c.objects.get? id = some t ∧ (t' = t ∨ ∃ s, Change inc c id t t' s)) ∨
      t'.asm = none ∧ t'.settlements = [] ∧
        ∀ st, t'.stream = some st → ∃ h, st = { body := { highWaterMark := h } } := by
  cases ht : c.objects.get? id with
  | some t =>
    obtain ⟨t'', ht'', hchange⟩ := h.object ht
    obtain rfl := Option.some.inj (ht'.symm.trans ht'')
    exact .inl ⟨t, rfl, hchange⟩
  | none =>
    cases h with
    | estimate | ticker | budget | hand | arrive | detect | repeats | pump =>
      have hnone : none = some t' := ht.symm.trans ht'
      cases hnone
    | register id' _ _ _ _ _ _ _ hstream =>
      rw [OrderedMap.get?_set] at ht'
      split_ifs at ht'
      · obtain rfl := Option.some.inj ht'
        exact .inr ⟨rfl, rfl, hstream⟩
      · rw [ht] at ht'
        cases ht'
    | change id' t₀ t₁ s ht₀ hchange =>
      have hne : id ≠ id' := fun heq => by rw [heq, ht₀] at ht; cases ht
      change (c.objects.modify id' _).get? id = _ at ht'
      rw [OrderedMap.get?_modify, if_neg hne, ht] at ht'
      cases ht'

/-- The transfer is there. -/
def Known (id : ℤ) (c : Http4Client) : Prop := ∃ t, c.objects.get? id = some t

/-- The size of the transfer is known. -/
def Sized (id : ℤ) (c : Http4Client) : Prop :=
  ∃ t asm, c.objects.get? id = some t ∧ t.asm = some asm

/-- The transfer has left `this.transfers` with everything it waited for. -/
def Closing (id : ℤ) (c : Http4Client) : Prop :=
  ∃ t, c.objects.get? id = some t ∧ t.live = false ∧ t.Complete

/-- It has also handed its stream all it has, unless the stream takes nothing more. -/
def Flushed (id : ℤ) (c : Http4Client) : Prop :=
  ∃ t, c.objects.get? id = some t ∧ t.live = false ∧ ∀ st asm, t.stream = some st → t.asm = some asm →
    st.closed = true ∨ st.body.canEnqueue = false ∨ asm.contiguous ≤ st.emitted

/-- The transfer may be rejected with the error. -/
def Due (id : ℤ) (e : Failure) (c : Http4Client) : Prop :=
  ∃ t, c.objects.get? id = some t ∧ t.Stalled c.opts.recoveryLimit e

theorem Move.opts (h : Move inc c c') : c'.opts = c.opts := by
  cases h <;> rfl

/-- Nothing changes of a transfer that has left but its times, its stream and the
    settlement. -/
theorem Change.stalled {id : ℤ} {t t' : Transfer} {s : SrptScheduler} (h : Change inc c id t t' s) {limit : ℚ}
    {e : Failure} (hstalled : t.Stalled limit e) : t'.Stalled limit e := by
  cases e with
  | noProgress assetId attempts got =>
    obtain ⟨hlive, hname, hattempts, hlimit, hgot⟩ := hstalled
    cases h with
    | learn _ _ _ h | store _ _ _ _ _ _ h | headers _ _ _ _ h => rw [hlive] at h; cases h
    | progress p hp => exact ⟨hlive, hname, hattempts, hlimit.trans_le (Nat.cast_le.mpr (hp hlive)), hgot⟩
    | remove => exact ⟨rfl, hname, hattempts, hlimit, hgot⟩
    | claim | stream | pause | unpause | settle => exact ⟨hlive, hname, hattempts, hlimit, hgot⟩
  | clientClosed | sessionClosed | assetIdTooLong | server | totalSizeChanged | range | thrown => trivial

theorem Due.move {id : ℤ} {e : Failure} (h : Due id e c) (hm : Move inc c c') : Due id e c' := by
  obtain ⟨t, ht, hstalled⟩ := h
  obtain ⟨t', ht', rfl | ⟨s, hchange⟩⟩ := hm.object ht
  · exact ⟨t', ht', hm.opts ▸ hstalled⟩
  · exact ⟨t', ht', hm.opts ▸ hchange.stalled hstalled⟩

theorem Known.move {id : ℤ} (h : Known id c) (hm : Move inc c c') : Known id c' := by
  obtain ⟨t, ht⟩ := h
  obtain ⟨t', ht', -⟩ := hm.object ht
  exact ⟨t', ht'⟩

theorem Sized.move {id : ℤ} (h : Sized id c) (hm : Move inc c c') : Sized id c' := by
  obtain ⟨t, asm, ht, hasm⟩ := h
  obtain ⟨t', ht', rfl | ⟨s, hchange⟩⟩ := hm.object ht
  · exact ⟨t', asm, ht', hasm⟩
  · cases hchange with
    | learn _ _ _ _ hnone => rw [hnone] at hasm; cases hasm
    | store _ _ asm' => exact ⟨_, asm', ht', rfl⟩
    | progress | headers | claim | stream | pause | unpause | remove | settle =>
      exact ⟨_, asm, ht', hasm⟩

/-- The META of the transfer has arrived. -/
def Headed (id : ℤ) (c : Http4Client) : Prop := ∃ t, c.objects.get? id = some t ∧ t.headers.isSome

theorem Headed.move {id : ℤ} (h : Headed id c) (hm : Move inc c c') : Headed id c' := by
  obtain ⟨t, ht, hheaders⟩ := h
  obtain ⟨t', ht', rfl | ⟨s, hchange⟩⟩ := hm.object ht
  · exact ⟨t', ht', hheaders⟩
  · cases hchange with
    | headers => exact ⟨_, ht', rfl⟩
    | learn | store | progress | claim | stream | pause | unpause | remove | settle =>
      exact ⟨_, ht', hheaders⟩

theorem Closing.move {id : ℤ} (h : Closing id c) (hm : Move inc c c') : Closing id c' := by
  obtain ⟨t, ht, hlive, hdone⟩ := h
  obtain ⟨t', ht', rfl | ⟨s, hchange⟩⟩ := hm.object ht
  · exact ⟨t', ht', hlive, hdone⟩
  · cases hchange with
    | learn _ _ _ h | store _ _ _ _ _ _ h | headers _ _ _ _ h => rw [hlive] at h; cases h
    | remove => exact ⟨_, ht', rfl, hdone⟩
    | progress | claim | stream | pause | unpause | settle => exact ⟨_, ht', hlive, hdone⟩

theorem StreamChange.flushed {t : Transfer} {st st' : StreamState} {asm : Reassembly}
    (hasm : t.asm = some asm) (h : StreamChange c t st st')
    (hst : st.closed = true ∨ st.body.canEnqueue = false ∨ asm.contiguous ≤ st.emitted) :
    st'.closed = true ∨ st'.body.canEnqueue = false ∨ asm.contiguous ≤ st'.emitted := by
  cases h with
  | body hsame =>
    rw [hsame.closed, hsame.emitted]
    refine hst.imp_right (Or.imp_left fun h => ?_)
    rw [ReadableStream.canEnqueue_eq_false_iff] at h ⊢
    rw [hsame.closeRequested]
    rcases hsame.phase with heq | ⟨hclose, -⟩
    · rwa [heq]
    · exact .inr hclose
  | pullFailed => exact hst
  | pullRejected =>
    refine hst.imp_right fun _ => .inl (ReadableStream.canEnqueue_eq_false_iff.mpr (.inl ?_))
    change st.body.error.phase ≠ .readable
    rw [ReadableStream.error]
    split_ifs with hphase
    · exact StreamPhase.noConfusion
    · exact hphase
  | enqueue asm' hasm' =>
    obtain rfl := Option.some.inj (hasm.symm.trans hasm')
    exact .inr (.inr le_rfl)
  | skip n hbody => exact .inr (.inl hbody)
  | close | error | drop | cancel => exact .inl rfl

theorem Flushed.move {id : ℤ} (h : Flushed id c) (hm : Move inc c c') : Flushed id c' := by
  obtain ⟨t, ht, hlive, hall⟩ := h
  obtain ⟨t', ht', rfl | ⟨s, hchange⟩⟩ := hm.object ht
  · exact ⟨t', ht', hlive, hall⟩
  · refine ⟨t', ht', ?_⟩
    cases hchange with
    | learn _ _ _ h | store _ _ _ _ _ _ h | headers _ _ _ _ h => rw [hlive] at h; cases h
    | remove => exact ⟨rfl, hall⟩
    | progress | claim | settle => exact ⟨hlive, hall⟩
    | stream st st' hst h =>
      refine ⟨hlive, fun _ asm heq hasm => ?_⟩
      obtain rfl := Option.some.inj heq
      exact h.flushed (t := t) hasm (hall st asm hst hasm)
    | pause _ st _ hst | unpause st hst =>
      refine ⟨hlive, fun _ asm heq hasm => ?_⟩
      obtain rfl := Option.some.inj heq
      exact hall st asm hst hasm

/-- What every move preserves, a sequence of moves preserves. -/
theorem Reaches.preserves {P : Http4Client → Prop} (hmove : ∀ c c', P c → Move inc c c' → P c')
    (h : Reaches inc c c') (hc : P c) : P c' := by
  induction h with
  | refl => exact hc
  | tail _ hm ih => exact hmove _ _ ih hm

end Moves

end Http4Client

end Http4.Client
