import Http4.Client.ReadLoop
import Http4.Client.Settled

/-!
# What a dead read loop leaves open

`isOpen` asks whether `close` was called or the session ended. That the read loop has
ended, because the last read was done or handling a packet threw, closes nothing.

Main results:

* `Http4Client.closed_when_dead_iff`: in which runs a dead read loop leaves nothing open
  and nobody waiting.
-/

namespace Http4.Client

open Routine Http4Client

/-! ## Steps that end the loop -/

namespace Http4Client

/-- The transfer waits for the DATA that its buffer is allocated for. -/
def lacksBuffer (c : Http4Client) (id : ℤ) : Bool := (c.objects.get? id).any fun t => t.live && t.asm.isNone

/-- Whether handling the datagram allocates a buffer. -/
def allocates (c : Http4Client) (b : Bytes) : Bool :=
  match packetIn b with
  | some (.data p) => c.lacksBuffer p.rpcId
  | some (.dataSeq p) => c.lacksBuffer p.rpcId
  | _ => false

/-- A step that ends the read loop finds the session closed, and nothing waiting that it
    does not settle. -/
def EndsClosed (c : Http4Client) (a : Step) : Prop :=
  match a.event with
  | .readDone => c.isOpen = false ∧ ∀ e ∈ c.objects.entries, e.2.live = true → e.2.settled = true
  | .readRejected => c.isOpen = false
  | .datagram b alloc => alloc = true ∨ c.isOpen = false ∨ c.allocates b = false
  | .request _ _ _ _ | .tick | .streamStarted _ | .read _ | .pullSettled _ | .cancel _ | .close | .sessionEnded => True

instance (c : Http4Client) (a : Step) : Decidable (c.EndsClosed a) := by
  unfold EndsClosed
  cases a.event <;> infer_instance

/-- The session is closed and every promise settled. -/
def Over (c : Http4Client) : Prop :=
  c.isOpen = false ∧ ∀ id t, c.objects.get? id = some t → t.settled = true

/-- Once the read loop has ended, the session is closed and every promise settled. -/
def ClosedWhenDead (c : Http4Client) : Prop := c.reading = false → Over c

end Http4Client

/-! ## Buffers that cannot be allocated -/

section Functions

variable {c : Http4Client} {id : ℤ} {b : Bytes}

theorem lacksBuffer_eq_true_iff : c.lacksBuffer id = true ↔
    ∃ t, c.objects.get? id = some t ∧ t.live = true ∧ t.asm = none := by
  unfold lacksBuffer
  rw [Option.any_eq_true]
  simp only [Bool.and_eq_true, Option.isNone_iff_eq_none]

theorem lacksBuffer_of_held {c' : Http4Client} (h : c'.held = c.held) : c'.lacksBuffer id = c.lacksBuffer id := by
  have hmap (c : Http4Client) : c.lacksBuffer id = (c.held.2 id).any fun x => x.live && x.asm.isNone := by
    show _ = ((c.objects.get? id).map Transfer.held).any _
    rw [Option.any_map]
    rfl
  rw [hmap, hmap, h]

/-- `handle` on DATA for a transfer that is there. -/
theorem exec_handlePacket_data {alloc : Bool} {p : Wire.Ts.Data} {t : Transfer}
    (ht : c.objects.get? p.rpcId = some t) (hlive : t.live = true) :
    exec (handlePacket alloc (.data p)) c =
      exec (noteReply p.rpcId t >>= fun _ => handleData alloc p.rpcId p) c := by
  refine (exec_withTransfer ht _).trans ?_
  rw [if_neg (not_not.mpr hlive)]

/-- Without memory for the buffer, the DATA that needs it makes `handle` throw. -/
theorem exec_handlePacket_of_lacksBuffer {p : Wire.Ts.Data} (h : c.lacksBuffer p.rpcId = true) :
    ∃ e s, exec (handlePacket false (.data p)) c = (.error e, s) := by
  obtain ⟨t, ht, hlive, -⟩ := lacksBuffer_eq_true_iff.mp h
  rw [exec_handlePacket_data ht hlive, exec_bind]
  rcases hreply : exec (noteReply p.rpcId t) c with ⟨r, s⟩
  have hkeep := held_of_exec (keeps_held_noteReply t) hreply
  cases r with
  | error e => exact ⟨e, s, rfl⟩
  | ok u =>
    obtain ⟨t', ht', -, hasm⟩ := lacksBuffer_eq_true_iff.mp ((lacksBuffer_of_held hkeep).trans h)
    refine ⟨.allocation p.totalSize, s, (exec_withTransfer ht' _).trans ?_⟩
    rw [hasm]
    rfl

/-- Where no buffer is needed, memory does not matter. -/
theorem exec_handleData_of_not {p : Wire.Ts.Data} (h : c.lacksBuffer p.rpcId = false)
    (hlive : ∀ t, c.objects.get? p.rpcId = some t → t.live = true) :
    exec (handleData false p.rpcId p) c = exec (handleData true p.rpcId p) c := by
  unfold handleData
  cases ht : c.objects.get? p.rpcId with
  | none => rw [exec_withTransfer_of_none ht, exec_withTransfer_of_none ht]
  | some t =>
    rw [exec_withTransfer ht, exec_withTransfer ht]
    cases hasm : t.asm with
    | some asm => rfl
    | none =>
      rw [lacksBuffer_eq_true_iff.mpr ⟨t, ht, hlive t ht, hasm⟩] at h
      cases h

theorem exec_handlePacket_of_not {p : Wire.Ts.Data} (h : c.lacksBuffer p.rpcId = false) :
    exec (handlePacket false (.data p)) c = exec (handlePacket true (.data p)) c := by
  cases ht : c.objects.get? p.rpcId with
  | none =>
    exact (exec_withTransfer_of_none ht _).trans (exec_withTransfer_of_none ht _).symm
  | some t =>
    by_cases hlive : t.live = true
    · rw [exec_handlePacket_data ht hlive, exec_handlePacket_data ht hlive, exec_bind, exec_bind]
      rcases hreply : exec (noteReply p.rpcId t) c with ⟨r, s⟩
      have hkeep := held_of_exec (keeps_held_noteReply t) hreply
      cases r with
      | error e => rfl
      | ok u =>
        refine exec_handleData_of_not ((lacksBuffer_of_held hkeep).trans h) fun t' ht' => ?_
        have hheld : some t'.held = some t.held :=
          (held_of_get? ht').symm.trans ((congrFun (congrArg Prod.snd hkeep) _).trans (held_of_get? ht))
        exact (congrArg Held.live (Option.some.inj hheld)).trans hlive
    · refine (exec_withTransfer ht _).trans (Eq.trans ?_ (exec_withTransfer ht _).symm)
      rw [if_pos hlive, if_pos hlive]

/-- `handle` of a datagram that needs no buffer. -/
theorem exec_readDatagram_of_not (h : c.allocates b = false) :
    exec (readDatagram false b) c = exec (readDatagram true b) c := by
  have hhandle (p : Wire.Ts.Packet) (hp : packetIn b = some p) :
      exec (handle false p) c = exec (handle true p) c := by
    rw [allocates, hp] at h
    cases p with
    | data p => exact exec_handlePacket_of_not h
    | dataSeq p =>
      show exec (noteSeq p >>= fun _ => _) c = exec (noteSeq p >>= fun _ => _) c
      rw [exec_bind, exec_bind]
      rcases hnote : exec (noteSeq p) c with ⟨r, s⟩
      have hkeep := held_of_exec (keeps_held_noteSeq p) hnote
      cases r with
      | error e => rfl
      | ok u => exact exec_handlePacket_of_not ((lacksBuffer_of_held hkeep).trans h)
    | req | grant | resend | error | metaData | hello | resendSeq => rfl
  unfold readDatagram
  rw [packetIn] at hhandle
  cases hb : Wire.Ts.decode b with
  | error e => cases e <;> rfl
  | ok p =>
    rw [hb] at hhandle
    dsimp only
    rw [exec_bind, exec_bind, hhandle p rfl]

/-- Without memory, a datagram that needs a buffer makes `handle` throw. -/
theorem exec_readDatagram_of_allocates (h : c.allocates b = true) :
    ∃ e s, exec (readDatagram false b) c = (.error e, s) := by
  have hhandle (p : Wire.Ts.Packet) (hp : packetIn b = some p) : ∃ e s, exec (handle false p) c = (.error e, s) := by
    rw [allocates, hp] at h
    cases p with
    | data p => exact exec_handlePacket_of_lacksBuffer h
    | dataSeq p =>
      show ∃ e s, exec (noteSeq p >>= fun _ => handlePacket false (.data p.toData)) c = (.error e, s)
      rw [exec_bind]
      rcases hnote : exec (noteSeq p) c with ⟨r, s⟩
      have hkeep := held_of_exec (keeps_held_noteSeq p) hnote
      cases r with
      | error e => exact ⟨e, s, rfl⟩
      | ok u => exact exec_handlePacket_of_lacksBuffer ((lacksBuffer_of_held hkeep).trans h)
    | req | grant | resend | error | metaData | hello | resendSeq => cases h
  unfold readDatagram
  cases hb : Wire.Ts.decode b with
  | error e =>
    rw [allocates, packetIn, hb] at h
    cases h
  | ok p =>
    obtain ⟨e, s, hexec⟩ := hhandle p (by rw [packetIn, hb]; rfl)
    refine ⟨e, s, ?_⟩
    dsimp only
    rw [exec_bind, hexec]

end Functions

/-! ## Runs -/

namespace Http4Client

variable {opts : ClientOptions} {maxDatagramSize : ℕ} {c c' : Http4Client} {a : Step}

/-- Moves do not close a session. -/
theorem Reaches.isOpen {i : Option Wire.Ts.Packet} (h : Reaches i c c') : c'.isOpen = c.isOpen := by
  refine h.preserves (P := fun s => s.isOpen = c.isOpen) (fun s s' hs hm => ?_) rfl
  cases hm with
  | estimate | ticker | budget | hand | arrive | detect | repeats | register | change | pump => exact hs

theorem Over.move {inc : Option Wire.Ts.Packet} (h : Over c) (hm : Move inc c c') : Over c' := by
  refine ⟨(Reaches.isOpen hm.reaches).trans h.1, fun id t' ht' => ?_⟩
  cases ht : c.objects.get? id with
  | some t =>
    obtain ⟨t'', ht'', hsettled⟩ := SettledAt.move ⟨t, ht, h.2 id t ht⟩ hm
    obtain rfl := Option.some.inj (ht'.symm.trans ht'')
    exact hsettled
  | none =>
    cases hm with
    | register _ _ _ _ _ _ hopen =>
      rw [h.1] at hopen
      cases hopen
    | estimate | ticker | budget | hand | arrive | detect | repeats | pump =>
      have hnone : none = some t' := ht.symm.trans ht'
      cases hnone
    | change id' t₀ t₁ s ht₀ hchange =>
      have hne : id ≠ id' := fun heq => by rw [heq, ht₀] at ht; cases ht
      change (c.objects.modify id' _).get? id = _ at ht'
      rw [OrderedMap.get?_modify, if_neg hne, ht] at ht'
      cases ht'

theorem Over.flag (h : Over c) (hf : Flag c c') : Over c' := by
  obtain ⟨hopen, hsettled⟩ := h
  cases hf with
  | stopReading => exact ⟨hopen, hsettled⟩
  | close => exact ⟨rfl, hsettled⟩
  | endSession => exact ⟨Bool.and_false _, hsettled⟩

/-- Where nothing is left in `this.transfers`, every promise is settled. -/
theorem Settled.of_lives (h : Settled c) (hlives : ∀ id, c.lives id ≠ some true) {id : ℤ} {t : Transfer}
    (ht : c.objects.get? id = some t) : t.settled = true :=
  h id t ht (Bool.eq_false_of_not_eq_true fun hlive => hlives id ((lives_of_get? ht).trans (congrArg some hlive)))

/-- Where a datagram that needs no buffer, or that has one, ends the loop, a packet could
    not be encoded. -/
theorem broken_of_datagram {b : Bytes} {alloc : Bool}
    (hreach : Machine.Reachable Http4Client.step (connect opts maxDatagramSize) c) (hevent : a.event = .datagram b alloc)
    (hstep : c.step a = some c') (hreading : c'.reading = false) (hbuffer : alloc = true ∨ c.allocates b = false) :
    c'.Broken := by
  -- the same step with memory
  have hstep' : c.step { a with event := .datagram b true } = some c' := by
    rcases hbuffer with rfl | hnot
    · rw [← hevent]
      exact hstep
    · cases alloc with
      | true =>
        rw [← hevent]
        exact hstep
      | false =>
        rw [step, hevent] at hstep
        rw [← hstep, step]
        refine if_congr Iff.rfl (congrArg some ?_) rfl
        have hnot' : Http4Client.allocates { c with est := { c.est with elapse := a.elapse } } b = false := hnot
        show (exec (tryCatch (readDatagram true b) readLoopCatch) _).2 = (exec (tryCatch (readDatagram false b) readLoopCatch) _).2
        rw [exec_tryCatch, exec_tryCatch, exec_readDatagram_of_not hnot']
  rcases reading_of_datagram hreach rfl hstep' with h | h | h
  · rw [hreading] at h
    cases h
  · cases h
  · exact h

theorem isOpen_readLoopCatch (e : Thrown) : (exec (readLoopCatch e) c).2.isOpen = c.isOpen :=
  Reaches.isOpen (i := none) (c := { c with reading := false }) (follows_failAll (.thrown e) fun _ _ => trivial)

/-- What the network and the platform do to the read loop does not close the session. -/
def Event.reads : Event → Bool
  | .datagram _ _ | .readDone | .readRejected => true
  | .request _ _ _ _ | .tick | .streamStarted _ | .read _ | .pullSettled _ | .cancel _ | .close | .sessionEnded => false

theorem isOpen_of_reads (hreads : a.event.reads = true) (hstep : c.step a = some c') : c'.isOpen = c.isOpen := by
  rw [step] at hstep
  split_ifs at hstep
  obtain rfl := Option.some.inj hstep
  revert hreads
  cases a.event with
  | readDone => exact fun _ => rfl
  | readRejected => exact fun _ => isOpen_readLoopCatch _
  | datagram b alloc =>
    intro _
    unfold code
    rw [exec_tryCatch]
    have hreaches := follows_readDatagram (c := { c with est := { c.est with elapse := a.elapse } }) alloc b
    rw [Follows] at hreaches
    rcases hexec : exec (readDatagram alloc b) { c with est := { c.est with elapse := a.elapse } } with ⟨r, s⟩
    rw [hexec] at hreaches
    have hsame := Reaches.isOpen hreaches
    have hopen : s.isOpen = c.isOpen := hsame
    cases r with
    | ok u => exact hopen
    | error e => exact (isOpen_readLoopCatch e).trans hopen
  | request | tick | streamStarted | read | pullSettled | cancel | close | sessionEnded => exact fun h => by cases h

/-- After a step that meets the condition, a loop that has ended left nothing to wait for. -/
theorem ClosedWhenDead.step (h : ClosedWhenDead c) (hopts : opts.Accepted) (hwhole : opts.SendsWhole)
    (hreach : Machine.Reachable Http4Client.step (connect opts maxDatagramSize) c) (hsettled : Settled c')
    (hends : c.EndsClosed a) (hstep : c.step a = some c') : ClosedWhenDead c' := by
  intro hreading'
  cases hreading : c.reading with
  | false => exact Walk.preserves (fun _ _ => Over.move) (fun _ _ => Over.flag) (step_walk hstep) (h hreading)
  | true =>
    have hencoded : ¬ c'.Broken := by
      rintro ⟨p, hp, hnone⟩
      have hsome := ((sound_reachable hopts hwhole (hreach.next hstep)).handed p hp).1
      rw [hnone] at hsome
      cases hsome
    rw [EndsClosed] at hends
    cases hevent : a.event with
    | readDone =>
      rw [hevent] at hends
      refine ⟨(isOpen_of_reads (by rw [hevent]; rfl) hstep).trans hends.1, fun id t ht => ?_⟩
      by_cases hlive : t.live = true
      · rw [Http4Client.step, hevent] at hstep
        split_ifs at hstep
        obtain rfl := Option.some.inj hstep
        exact hends.2 _ (OrderedMap.get?_eq_some_iff.mp ht) hlive
      · exact hsettled id t ht (Bool.eq_false_of_not_eq_true hlive)
    | readRejected =>
      rw [hevent] at hends
      refine ⟨(isOpen_of_reads (by rw [hevent]; rfl) hstep).trans hends, fun id t => hsettled.of_lives ?_⟩
      rw [Http4Client.step, hevent] at hstep
      split_ifs at hstep
      obtain rfl := Option.some.inj hstep
      exact (exec_failAll _).resolve_left hencoded
    | datagram b alloc =>
      rw [hevent] at hends
      have hclosed : c.isOpen = false := by
        rcases hends with h | h | h
        · exact absurd (broken_of_datagram hreach hevent hstep hreading' (.inl h)) hencoded
        · exact h
        · exact absurd (broken_of_datagram hreach hevent hstep hreading' (.inr h)) hencoded
      refine ⟨(isOpen_of_reads (by rw [hevent]; rfl) hstep).trans hclosed, fun id t => hsettled.of_lives ?_⟩
      rcases step_datagram hreach hevent hstep with ⟨s, -, -, hread⟩ | ⟨e, s, hexec, rfl, -⟩
      · rw [hreading'] at hread
        cases hread
      · exact (exec_failAll _).resolve_left hencoded
    | request | tick | streamStarted | read | pullSettled | cancel | close | sessionEnded =>
      have hsame : c'.reading = c.reading :=
        reading_of_quiet hstep (by rw [hevent]; exact id) fun b alloc heq => by rw [hevent] at heq; cases heq
      rw [hsame, hreading] at hreading'
      cases hreading'

/-- A step that leaves nothing to wait for met the condition. -/
theorem ClosedWhenDead.endsClosed (h : ClosedWhenDead c') (hstep : c.step a = some c') : c.EndsClosed a := by
  rw [EndsClosed]
  cases hevent : a.event with
  | readDone =>
    have hopen := isOpen_of_reads (by rw [hevent]; rfl) hstep
    rw [Http4Client.step, hevent] at hstep
    split_ifs at hstep
    obtain rfl := Option.some.inj hstep
    obtain ⟨hclosed, hsettled⟩ := h rfl
    exact ⟨hopen.symm.trans hclosed, fun e he _ => hsettled e.1 e.2 (OrderedMap.get?_eq_some_iff.mpr he)⟩
  | readRejected =>
    have hopen := isOpen_of_reads (by rw [hevent]; rfl) hstep
    rw [Http4Client.step, hevent] at hstep
    split_ifs at hstep
    obtain rfl := Option.some.inj hstep
    refine hopen.symm.trans (h ?_).1
    exact (Reaches.flags (i := none) (s := { c with est := { c.est with elapse := a.elapse }, reading := false })
      (follows_failAll (.thrown .readRejected) fun _ _ => trivial)).1
  | datagram b alloc =>
    have hopen := isOpen_of_reads (by rw [hevent]; rfl) hstep
    cases halloc : alloc with
    | true => exact .inl rfl
    | false =>
      cases hneeds : c.allocates b with
      | false => exact .inr (.inr hneeds)
      | true =>
        refine .inr (.inl (hopen.symm.trans (h ?_).1))
        rw [Http4Client.step, hevent, halloc] at hstep
        split_ifs at hstep
        obtain rfl := Option.some.inj hstep
        have hneeds' : Http4Client.allocates { c with est := { c.est with elapse := a.elapse } } b = true := hneeds
        obtain ⟨e, s, hexec⟩ := exec_readDatagram_of_allocates hneeds'
        unfold code
        rw [exec_tryCatch, hexec]
        exact (Reaches.flags (i := none) (s := { s with reading := false })
          (follows_failAll (.thrown e) fun _ _ => trivial)).1
  | request | tick | streamStarted | read | pullSettled | cancel | close | sessionEnded => trivial

/-- **When a dead read loop has closed the session.** Under settings whose packets can be
    encoded, `isOpen` is false and nothing waits in every state of a run whose read loop
    has ended, if and only if each step of the run that ends it finds the session closed. -/
theorem closed_when_dead_iff (hopts : opts.Accepted) (hwhole : opts.SendsWhole) {as : List Step}
    (hrun : Machine.run Http4Client.step (connect opts maxDatagramSize) as = some c)
    (hcancel : Machine.Along Http4Client.step (connect opts maxDatagramSize) as HasStream) :
    (∀ before after s, as = before ++ after →
      Machine.run Http4Client.step (connect opts maxDatagramSize) before = some s → ClosedWhenDead s) ↔
      Machine.Along Http4Client.step (connect opts maxDatagramSize) as EndsClosed := by
  constructor
  · intro hall before a after t heq ht
    obtain ⟨u, hu, hrest⟩ := Machine.run_append_iff.mp (heq ▸ hrun)
    obtain rfl := Option.some.inj (ht.symm.trans hu)
    obtain ⟨t', hstep, -⟩ := Machine.run_cons_iff.mp hrest
    refine ClosedWhenDead.endsClosed (hall (before ++ [a]) after t' ?_ ?_) hstep
    · rw [heq, List.append_assoc, List.singleton_append]
    · exact Machine.run_concat_iff.mpr ⟨t, ht, hstep⟩
  · intro hends before after s heq hs
    let P (s : Http4Client) : Prop :=
      Machine.Reachable Http4Client.step (connect opts maxDatagramSize) s ∧ Settled s ∧ ClosedWhenDead s
    let C (s : Http4Client) (a : Step) : Prop := s.HasStream a ∧ s.EndsClosed a
    have hC : Machine.Along Http4Client.step (connect opts maxDatagramSize) as C :=
      fun before a after t heq ht => ⟨hcancel before a after t heq ht, hends before a after t heq ht⟩
    have hP : P s := by
      refine Machine.run_along (P := P) (C := C) (fun s a s' ⟨hreader, ha⟩ ⟨hreach, hsettled, hclosed⟩ hstep => ?_)
        (Machine.along_left (heq ▸ hC)) ⟨⟨[], rfl⟩, ?_, fun hreading => ?_⟩ hs
      · have hsettled' := hsettled.tidy (step_tidy hstep hreader)
        exact ⟨hreach.next hstep, hsettled', hclosed.step hopts hwhole hreach hsettled' ha hstep⟩
      · have hnone : Machine.Along Http4Client.step (connect opts maxDatagramSize) [] HasStream :=
          Machine.along_of_mem fun _ h => absurd h List.not_mem_nil
        exact settled_run rfl hnone
      · have hreads : (connect opts maxDatagramSize).reading = true :=
          keeps_sendHello Http4Client.reading (fun _ _ => rfl) fun _ _ => rfl
        rw [hreading] at hreads
        cases hreads
    exact hP.2.2

/-- A request, and its first DATA with no memory for a buffer of `2 ^ 32 - 1` bytes. -/
def noMemory : List Step :=
  [{ event := .request 1 (Wire.Ts.jsLit "a") false .normal },
   { event := .datagram [2, 0, 0, 0, 0, 0, 0, 0, 1, 255, 255, 255, 255, 0, 0, 0, 0, 7] false }]

/-- The loop is dead, the session open, and the next request waits for an answer. -/
theorem dead_and_open : ∃ c c' t, Machine.run Http4Client.step (connect {} 1200) noMemory = some c ∧
    c.reading = false ∧ c.isOpen = true ∧ ¬ ClosedWhenDead c ∧
    c.step { event := .request 2 (Wire.Ts.jsLit "b") false .normal } = some c' ∧
    c'.objects.get? 2 = some t ∧ t.live = true ∧ t.settled = false := by
  have hany : (Machine.run Http4Client.step (connect {} 1200) noMemory).any fun c =>
      c.reading = false ∧ c.isOpen = true ∧
      (c.step { event := .request 2 (Wire.Ts.jsLit "b") false .normal }).any fun c' =>
        (c'.objects.get? 2).any fun t => t.live ∧ t.settled = false := by decide +kernel
  obtain ⟨c, hrun, hc⟩ := (Option.any_eq_true _ _).mp hany
  obtain ⟨hreading, hopen, hc⟩ := of_decide_eq_true hc
  obtain ⟨c', hstep, hc⟩ := (Option.any_eq_true _ _).mp hc
  obtain ⟨t, ht, hc⟩ := (Option.any_eq_true _ _).mp hc
  obtain ⟨hlive, hsettled⟩ := of_decide_eq_true hc
  refine ⟨c, c', t, hrun, hreading, hopen, fun h => ?_, hstep, ht, hlive, hsettled⟩
  rw [(h hreading).1] at hopen
  cases hopen

/-- The session ends while a stream waits for bytes, and then the loop. -/
def endsThenStops : List Step := oneReadWaits ++ [{ event := .sessionEnded }, { event := .readDone }]

/-- A loop that ends after its session. -/
theorem closed_when_dead_oneReadWaits : ∃ c t,
    Machine.run Http4Client.step (connect {} 1200) endsThenStops = some c ∧ c.reading = false ∧
      c.objects.get? 1 = some t ∧ ClosedWhenDead c := by
  have hany : (Machine.run Http4Client.step (connect {} 1200) endsThenStops).any fun c =>
      c.reading = false ∧ (c.objects.get? 1).isSome := by decide +kernel
  obtain ⟨c, hrun, hc⟩ := (Option.any_eq_true _ _).mp hany
  obtain ⟨hreading, hsome⟩ := of_decide_eq_true hc
  obtain ⟨t, ht⟩ := Option.isSome_iff_exists.mp hsome
  have hcancel : Machine.Along Http4Client.step (connect {} 1200) endsThenStops HasStream := by
    refine Machine.along_of_mem fun a ha c id hevent => ?_
    unfold endsThenStops oneReadWaits at ha
    simp only [List.cons_append, List.nil_append, List.mem_cons, List.not_mem_nil, or_false] at ha
    rcases ha with rfl | rfl | rfl | rfl | rfl | rfl | rfl | rfl | rfl <;> cases hevent
  have hwhole : ClientOptions.SendsWhole {} :=
    .inr ⟨.inr ⟨⟨128 * 1024, by decide +kernel⟩, .inl ⟨16 * 1024 * 1024, by decide +kernel⟩⟩,
      .inr (.inl ⟨3, by decide +kernel⟩)⟩
  have hends : Machine.Along Http4Client.step (connect {} 1200) endsThenStops EndsClosed := by decide +kernel
  exact ⟨c, t, hrun, hreading, ht,
    (closed_when_dead_iff (accepted_tuningOptions none) hwhole hrun hcancel).mpr hends _ [] c
      (List.append_nil _).symm hrun⟩

end Http4Client

end Http4.Client
