import Http4.Client.Encodable
import Http4.Client.Held
import Http4.Wire.GoRoundTrip

/-!
# What ends the read loop

An exception while one datagram is handled ends the read loop, and with it the session.
The code throws in four places: `encode`, `new Uint8Array`, a stream's controller and
`decode`. The last two cannot be reached by any datagram.

Main results:

* `Unbroken.move`: a stream that its transfer has not closed takes what it is given.
* `blames_readDatagram`: what handling a datagram throws.
* `Http4Client.reads_on`: no datagram ends the loop if the settings are whole.
-/

namespace Http4.Client

open Routine Http4Client

/-! ## Streams that take what they are given -/

/-- The stream takes chunks until its transfer closes it. -/
structure StreamState.Ready (st : StreamState) : Prop where
  pullFailed : st.body.pullFailed = false
  canEnqueue : st.closed = false → st.body.canEnqueue = true

section Ready

variable {c : Http4Client} {t : Transfer} {st st' : StreamState}

theorem ready_new (highWaterMark : ℚ) : StreamState.Ready { body := { highWaterMark := highWaterMark } } :=
  ⟨rfl, fun _ => rfl⟩

theorem pullFailed_error (s : ReadableStream) : s.error.pullFailed = s.pullFailed := by
  unfold ReadableStream.error
  split_ifs <;> rfl

theorem pullFailed_close (s : ReadableStream) : s.close.pullFailed = s.pullFailed := by
  unfold ReadableStream.close
  split_ifs <;> rfl

theorem pullFailed_enqueue (s : ReadableStream) (chunk : Bytes) : (s.enqueue chunk).pullFailed = s.pullFailed := by
  unfold ReadableStream.enqueue
  split_ifs <;> rfl

theorem canEnqueue_enqueue (s : ReadableStream) (chunk : Bytes) : (s.enqueue chunk).canEnqueue = s.canEnqueue := by
  unfold ReadableStream.enqueue
  split_ifs <;> rfl

/-- Only a `pull` that fails keeps a stream from taking chunks. -/
theorem StreamState.Ready.change (h : st.Ready) (hsound : ¬ c.Broken) (hchange : StreamChange c t st st') :
    st'.Ready := by
  cases hchange with
  | body hsame =>
    refine ⟨hsame.pullFailed.trans h.pullFailed, fun hclosed => ?_⟩
    have hcan := h.canEnqueue (hsame.closed ▸ hclosed)
    unfold ReadableStream.canEnqueue at hcan ⊢
    rw [Bool.and_eq_true, Bool.not_eq_true'] at hcan
    rw [hsame.closeRequested]
    rcases hsame.phase with hphase | ⟨hclose, -⟩
    · rw [hphase, hcan.1, hcan.2]
      rfl
    · rw [hcan.2] at hclose
      cases hclose
  | pullFailed hbroken => exact absurd hbroken hsound
  | pullRejected hfailed =>
    rw [h.pullFailed] at hfailed
    cases hfailed
  | enqueue asm hasm hopen hbody =>
    refine ⟨(pullFailed_enqueue _ _).trans h.pullFailed, fun _ => ?_⟩
    show (st.body.enqueue _).canEnqueue = true
    rw [canEnqueue_enqueue, hbody]
  | skip n hbody =>
    refine ⟨h.pullFailed, fun hclosed => ?_⟩
    rw [h.canEnqueue hclosed] at hbody
    cases hbody
  | close => exact ⟨(pullFailed_close _).trans h.pullFailed, fun hclosed => by cases hclosed⟩
  | error => exact ⟨(pullFailed_error _).trans h.pullFailed, fun hclosed => by cases hclosed⟩
  | drop hbody => exact ⟨h.pullFailed, fun hclosed => by cases hclosed⟩
  | cancel => exact ⟨h.pullFailed, fun hclosed => by cases hclosed⟩

end Ready

namespace Http4Client

/-- Every stream takes what its transfer gives it, unless a packet could not be encoded. -/
def Unbroken (c : Http4Client) : Prop :=
  c.Broken ∨ ∀ id t st, c.objects.get? id = some t → t.stream = some st → st.Ready

section Unbroken

variable {inc : Option Wire.Ts.Packet} {c c' : Http4Client}

theorem Broken.move (h : Broken c) (hm : Move inc c c') : Broken c' := by
  cases hm with
  | hand p hp =>
    obtain ⟨q, hq, hnone⟩ := h
    exact ⟨q, List.mem_append_left _ hq, hnone⟩
  | estimate | ticker | budget | arrive | detect | repeats | register | change | pump => exact h

theorem Change.ready {id : ℤ} {t t' : Transfer} {s : SrptScheduler} (hsound : ¬ c.Broken)
    (hready : ∀ st, t.stream = some st → st.Ready) (h : Change inc c id t t' s) :
    ∀ st, t'.stream = some st → st.Ready := by
  intro st' hst'
  cases h with
  | progress | learn | store | headers | claim | remove | settle => exact hready st' hst'
  | stream st st₁ hst hchange =>
    obtain rfl := Option.some.inj hst'
    exact (hready st hst).change hsound hchange
  | pause asm st hasm hst | unpause st hst =>
    obtain rfl := Option.some.inj hst'
    exact ⟨(hready st hst).pullFailed, (hready st hst).canEnqueue⟩

theorem Unbroken.move (h : Unbroken c) (hm : Move inc c c') : Unbroken c' := by
  by_cases hbroken : c.Broken
  · exact .inl (hbroken.move hm)
  have hready := h.resolve_left hbroken
  refine .inr fun id t' st ht' hst => ?_
  rcases hm.origin ht' with ⟨t, ht, rfl | ⟨s, hchange⟩⟩ | ⟨-, -, hnew⟩
  · exact hready id t' st ht hst
  · exact hchange.ready hbroken (hready id t · ht) st hst
  · obtain ⟨highWaterMark, rfl⟩ := hnew st hst
    exact ready_new highWaterMark

theorem Unbroken.flag (h : Unbroken c) (hf : Flag c c') : Unbroken c' := by
  cases hf with
  | stopReading | close | endSession => exact h

/-- In every run. -/
theorem unbroken_reachable {opts : ClientOptions} {maxDatagramSize : ℕ}
    (h : Machine.Reachable Http4Client.step (connect opts maxDatagramSize) c) : Unbroken c :=
  invariant_of_moves (P := Unbroken) (.inr fun id t st ht => by cases ht) (fun _ _ _ _ h hm => h.move hm)
    (fun _ _ h hf => h.flag hf) h

theorem Unbroken.reaches {i : Option Wire.Ts.Packet} (h : Unbroken c) (hr : Reaches i c c') : Unbroken c' :=
  hr.preserves (fun _ _ => Unbroken.move) h

theorem Unbroken.of_exec {i : Option Wire.Ts.Packet} {α : Type} {m : Js α} {a : α} (h : Unbroken c)
    (hm : Follows (Reaches i) m c) (hexec : exec m c = (.ok a, c')) : Unbroken c' :=
  preserves_of_exec (fun _ _ => Unbroken.move) hm hexec h

end Unbroken

end Http4Client

/-! ## What the functions throw -/

/-- Only after a packet that could not be encoded. -/
abbrev Encodes {α : Type} (m : Js α) (c : Http4Client) : Prop := Blames (fun _ s => s.Broken) m c

section Functions

variable {inc : Option Wire.Ts.Packet} {c : Http4Client} {id : ℤ} {now : ℚ}

theorem blames_callPullIfNeeded {E : Thrown → Http4Client → Prop} : Blames E (callPullIfNeeded id) c := by
  refine blames_withTransfer fun t _ => ?_
  cases t.stream with
  | none => exact Blames.pure _
  | some st =>
    refine Blames.ite (fun _ => Blames.ite (fun _ => Blames.modify _) fun _ => ?_) fun _ => Blames.pure _
    exact Blames.modify_bind (Blames.tryCatch fun _ _ _ => Blames.modify _)

theorem blames_pauseIfBehind {E : Thrown → Http4Client → Prop} : Blames E (pauseIfBehind id) c := by
  refine blames_withTransfer fun t _ => ?_
  cases t.stream with
  | none => exact Blames.pure _
  | some st => exact Blames.ite (fun _ => Blames.modify _) fun _ => Blames.pure _

theorem encodes_flushStream (h : Unbroken c) : Encodes (flushStream id) c := by
  refine blames_withTransfer fun t ht => ?_
  cases hst : t.stream with
  | none => exact Blames.pure _
  | some st =>
    cases t.asm with
    | none => exact Blames.pure _
    | some asm =>
      refine Blames.ite (fun _ => Blames.pure _) fun hopen => Blames.bind ?_ fun _ _ _ => blames_pauseIfBehind
      refine Blames.ite (fun _ => Blames.ite (fun _ => ?_) fun hshut => ?_) fun _ => Blames.pure _
      · exact Blames.modify_bind blames_callPullIfNeeded
      · -- the stream takes nothing more, though its transfer has not closed it
        refine Blames.modify_bind (Blames.throw (h.resolve_right fun hready => hshut ?_))
        exact (hready id t st ht hst).canEnqueue (Bool.eq_false_of_not_eq_true hopen)

theorem encodes_endStream (h : Unbroken c) (err : Option Failure) : Encodes (endStream id err) c := by
  refine blames_withTransfer fun t ht => ?_
  cases hst : t.stream with
  | none => exact Blames.pure _
  | some st =>
    refine Blames.ite (fun _ => Blames.pure _) fun hopen => ?_
    cases err with
    | some e => exact Blames.modify _
    | none =>
      refine Blames.ite (fun _ => Blames.modify _) fun hshut => ?_
      refine Blames.modify_bind (Blames.throw (h.resolve_right fun hready => hshut ?_))
      exact (hready id t st ht hst).canEnqueue (Bool.eq_false_of_not_eq_true hopen)

theorem blames_settle {E : Thrown → Http4Client → Prop} (err : Option Failure) : Blames E (settle id err) c :=
  blames_withTransfer fun _ _ => Blames.ite (fun _ => Blames.pure _) fun _ => Blames.modify _

theorem encodes_finish {err : Option Failure} (h : Unbroken c) (hknown : Known id c) : Encodes (finish id err) c := by
  refine Blames.bind (Blames.modify _) fun _ s hexec => ?_
  have hs : Unbroken s := h.of_exec (i := none) (follows_remove hknown) hexec
  have hflush : Follows (Reaches none) (if err.isNone then flushStream id else pure () : Js Unit) s :=
    Follows.ite (fun _ => follows_flushStream) fun _ => Follows.pure _
  refine Blames.bind (Blames.ite (fun _ => encodes_flushStream hs) fun _ => Blames.pure _) fun _ u hexec' => ?_
  refine Blames.bind (encodes_endStream (hs.of_exec hflush hexec') err) fun _ _ _ => ?_
  exact Blames.bind (blames_settle err) fun _ _ _ => blames_pumpGrants

theorem blames_maybeStart {E : Thrown → Http4Client → Prop} : Blames E (maybeStart id) c := by
  refine blames_withTransfer fun t _ => ?_
  cases t.stream with
  | none => exact Blames.pure _
  | some st =>
    cases t.asm with
    | none => exact Blames.pure _
    | some asm =>
      cases t.headers with
      | none => exact Blames.pure _
      | some headers => exact Blames.ite (fun _ => Blames.pure _) fun _ => Blames.modify _

theorem encodes_sendResends (r : List (Range ℚ) × RepairTracker) : Encodes (sendResends id r) c :=
  Blames.modify_bind (Blames.forM_of (I := fun _ => True) trivial fun _ _ _ _ => ⟨blames_send, trivial⟩)

theorem encodes_detectLoss : Encodes (detectLoss id now) c := by
  refine Blames.modify_bind (Blames.get_bind (blames_withTransfer fun t _ => ?_))
  cases t.asm with
  | none => exact Blames.pure _
  | some asm =>
    cases t.repair with
    | none => exact Blames.pure _
    | some repair =>
      refine Blames.ite (fun _ => Blames.pure _) fun _ => ?_
      exact Blames.ite (fun _ => Blames.pure _) fun _ => encodes_sendResends _

theorem encodes_detectSeqLoss : Encodes (detectSeqLoss now) c := by
  have hsend {c : Http4Client} (rs : List (Range ℤ)) : Encodes (sendResendSeqs rs) c :=
    Blames.forM_of (I := fun _ => True) trivial fun _ _ _ _ => ⟨blames_send, trivial⟩
  refine Blames.modify_bind (Blames.get_bind (Blames.ite (fun _ => Blames.pure _) fun _ => ?_))
  refine Blames.modify_bind (Blames.bind (hsend _) fun _ _ _ => Blames.get_bind ?_)
  exact Blames.modify_bind (hsend _)

theorem encodes_noteSeq (p : Wire.Ts.DataSeq) : Encodes (noteSeq p) c := by
  refine Blames.bind blames_performanceNow fun now s _ => Blames.get_bind (Blames.modify_bind ?_)
  refine Blames.bind (Blames.ite (fun _ => Blames.modify _) fun _ => Blames.pure _) fun _ _ _ => Blames.get_bind ?_
  exact Blames.ite (fun _ => encodes_detectSeqLoss) fun _ => Blames.pure _

theorem blames_noteReply {E : Thrown → Http4Client → Prop} (t : Transfer) : Blames E (noteReply id t) c :=
  Blames.ite (fun _ => Blames.pure _) fun _ =>
    Blames.modify_bind (Blames.ite (fun _ => Blames.pure _) fun _ => Blames.modify _)

theorem encodes_handleMeta {m : Wire.Ts.Meta} (h : Unbroken c) (hinc : inc = some (.metaData m)) (hid : m.rpcId = id)
    (hlive : ∀ t, c.objects.get? id = some t → t.live = true) : Encodes (handleMeta id m) c := by
  refine blames_withTransfer fun t ht => ?_
  cases hheaders : t.headers with
  | some _ => exact Blames.pure _
  | none =>
    refine Blames.bind blames_performanceNow fun now s hexec => ?_
    have hs : Unbroken s := h.of_exec (i := inc) follows_performanceNow hexec
    cases hexec
    refine Blames.modify_bind (Blames.bind blames_maybeStart fun _ u hexec => blames_withTransfer fun t' ht' => ?_)
    have hset : Unbroken (c.advance.setTransfer id fun t =>
        { t with headers := some m.fields, progress := { t.progress with lastProgress := c.now, recoveries := 0 } }) := by
      refine hs.reaches (i := inc) (reaches_setTransfer fun t' ht' => .inr ?_)
      obtain rfl := Option.some.inj (ht.symm.trans ht')
      exact .headers m _ hinc hid (hlive t ht) hheaders
    have hu : Unbroken u := hset.of_exec (i := inc) (follows_maybeStart id) hexec
    exact Blames.ite (fun _ => encodes_finish hu ⟨t', ht'⟩) fun _ => Blames.pure _

theorem encodes_afterData (h : Unbroken c) : Encodes (afterData id) c := by
  refine Blames.bind blames_maybeStart fun _ s hexec => ?_
  have hs : Unbroken s := h.of_exec (i := none) (follows_maybeStart id) hexec
  refine Blames.bind (encodes_flushStream hs) fun _ u hexec' => blames_withTransfer fun t ht => ?_
  have hu : Unbroken u := hs.of_exec (i := none) follows_flushStream hexec'
  refine Blames.ite (fun _ => encodes_finish hu ⟨t, ht⟩) fun _ => ?_
  exact Blames.bind blames_performanceNow fun _ _ _ => Blames.ite (fun _ => encodes_detectLoss) fun _ => Blames.pure _

theorem encodes_storeData {d : Wire.Ts.Data} (h : Unbroken c) (hinc : Carried inc d) (hid : d.rpcId = id)
    (hlive : ∀ t, c.objects.get? id = some t → t.live = true)
    (hsize : ∀ t asm, c.objects.get? id = some t → t.asm = some asm → d.totalSize = asm.size) :
    Encodes (storeData id d) c := by
  refine blames_withTransfer fun t ht => ?_
  cases hasm : t.asm with
  | none => exact Blames.pure _
  | some asm =>
    dsimp only
    cases hadd : asm.add d.offset d.payload with
    | error e => exact encodes_finish h ⟨t, ht⟩
    | ok r =>
      refine Blames.modify_bind (encodes_afterData (h.reaches (i := inc) ?_))
      exact reaches_delivered hinc hid ht (hlive t ht) hasm (hsize t asm ht hasm) hadd

/-- What a routine throws that may allocate a buffer. -/
abbrev Allocates {α : Type} (alloc : Bool) (m : Js α) (c : Http4Client) : Prop :=
  Blames (fun e s => s.Broken ∨ alloc = false ∧ ∃ size, e = .allocation size) m c

theorem allocates_of_encodes {α : Type} {alloc : Bool} {m : Js α} (h : Encodes m c) : Allocates alloc m c :=
  fun e s hexec => .inl (h e s hexec)

theorem allocates_handleData (hdec : Decoded inc) {alloc : Bool} {d : Wire.Ts.Data} (h : Unbroken c)
    (hinc : Carried inc d) (hid : d.rpcId = id) (hlive : ∀ t, c.objects.get? id = some t → t.live = true) :
    Allocates alloc (handleData alloc id d) c := by
  refine blames_withTransfer fun t ht => ?_
  cases hasm : t.asm with
  | none =>
    refine Blames.ite (fun _ => Blames.modify_bind (allocates_of_encodes ?_)) fun halloc => ?_
    · have hget (t' : Transfer) (ht' : (c.learnSize id d.totalSize t).objects.get? id = some t') :
          t' = { t with asm := some (.new d.totalSize.toNat), repair := some .new } := by
        change (c.objects.modify id _).get? id = _ at ht'
        rw [OrderedMap.get?_modify, if_pos rfl, ht] at ht'
        exact (Option.some.inj ht').symm
      refine encodes_storeData (Reaches.preserves (fun _ _ => Unbroken.move)
        (reaches_learnSize hinc hid ht (hlive t ht) hasm) h) hinc hid (fun t' ht' => ?_) fun t' asm ht' hasm' => ?_
      · rw [hget t' ht']
        exact hlive t ht
      · rw [hget t' ht'] at hasm'
        obtain rfl := Option.some.inj hasm'
        exact (Int.toNat_of_nonneg (hdec.data hinc).1).symm
    · exact Blames.throw (.inr ⟨Bool.eq_false_of_not_eq_true halloc, _, rfl⟩)
  | some asm =>
    refine Blames.ite (fun _ => allocates_of_encodes (encodes_finish h ⟨t, ht⟩)) fun hsize => allocates_of_encodes ?_
    refine encodes_storeData h hinc hid hlive fun t' asm' ht' hasm' => ?_
    obtain rfl := Option.some.inj (ht.symm.trans ht')
    obtain rfl := Option.some.inj (hasm.symm.trans hasm')
    exact not_not.mp hsize

theorem allocates_handlePacket (hdec : Decoded inc) {alloc : Bool} {p : Wire.Ts.Packet} (h : Unbroken c)
    (hdata : ∀ d, p = .data d → Carried inc d) (hmeta : ∀ m, p = .metaData m → inc = some (.metaData m)) :
    Allocates alloc (handlePacket alloc p) c := by
  refine blames_withTransfer fun t ht => Blames.ite (fun _ => Blames.pure _) fun hlive => ?_
  have hreply {s : Http4Client} {a : Unit} (hexec : exec (noteReply p.rpcId t) c = (.ok a, s)) :
      Unbroken s ∧ ∀ t', s.objects.get? p.rpcId = some t' → t'.live = true :=
    ⟨h.of_exec (i := inc) (follows_noteReply t) hexec,
      fun t' ht' => (exists_of_noteReply ht hexec ht').1.trans (not_not.mp hlive)⟩
  cases p with
  | metaData m =>
    refine Blames.bind (blames_noteReply t) fun _ s hexec => allocates_of_encodes ?_
    exact encodes_handleMeta (hreply hexec).1 (hmeta m rfl) rfl (hreply hexec).2
  | data d =>
    refine Blames.bind (blames_noteReply t) fun _ s hexec => ?_
    exact allocates_handleData hdec (hreply hexec).1 (hdata d rfl) rfl (hreply hexec).2
  | error p => exact allocates_of_encodes (encodes_finish h ⟨t, ht⟩)
  | req | grant | resend | hello | dataSeq | resendSeq => exact Blames.pure _

theorem allocates_handle {alloc : Bool} {p : Wire.Ts.Packet} (hdec : Decoded (some p)) (h : Unbroken c) :
    Allocates alloc (handle alloc p) c := by
  have hplain {q : Wire.Ts.Packet} (hq : some p = some q) : Allocates alloc (handlePacket alloc q) c :=
    allocates_handlePacket hdec h (fun d hd => .inl (hd ▸ hq)) fun m hm => hm ▸ hq
  cases p with
  | dataSeq p =>
    refine Blames.bind (allocates_of_encodes (encodes_noteSeq p)) fun _ s hexec => ?_
    have hs : Unbroken s := h.of_exec (follows_noteSeq rfl) hexec
    refine allocates_handlePacket hdec hs (fun d hd => .inr ⟨p, rfl, ?_⟩) fun m hm => by cases hm
    exact Wire.Ts.Packet.data.inj hd
  | req | data | grant | resend | error | metaData | hello | resendSeq => exact hplain rfl

/-- `decode` reads nothing past the end of a datagram. -/
theorem decode_ne_outOfRange (b : Bytes) : Wire.Ts.decode b ≠ .error .outOfRange := by
  rw [Wire.Ts.decode_eq_map]
  intro h
  cases hgo : Wire.Go.decode b with
  | ok p =>
    rw [hgo] at h
    cases h
  | error e =>
    rw [hgo] at h
    have herr : e = .outOfRange := Except.error.inj h
    exact Wire.Go.decode_ne_outOfRange b (herr ▸ hgo)

/-- **What handling a datagram throws**, whatever the datagram. -/
theorem allocates_readDatagram (h : Unbroken c) (alloc : Bool) (b : Bytes) :
    Allocates alloc (readDatagram alloc b) c := by
  have hdec := decoded_packetIn b
  rw [packetIn] at hdec
  unfold readDatagram
  cases hb : Wire.Ts.decode b with
  | error e =>
    cases e with
    | malformed => exact Blames.pure _
    | outOfRange => exact absurd hb (decode_ne_outOfRange b)
  | ok p =>
    rw [hb] at hdec
    exact Blames.bind (allocates_handle hdec h) fun _ _ _ => allocates_of_encodes blames_pumpGrants

end Functions

/-! ## Runs -/

namespace Http4Client

variable {opts : ClientOptions} {maxDatagramSize : ℕ} {c c' : Http4Client} {a : Step} {b : Bytes} {alloc : Bool}

/-- Moves leave the flags alone. -/
theorem Reaches.flags {i : Option Wire.Ts.Packet} {s s' : Http4Client} (h : Reaches i s s') :
    s'.reading = s.reading ∧ s'.sessionClosed = s.sessionClosed := by
  refine h.preserves (P := fun u => u.reading = s.reading ∧ u.sessionClosed = s.sessionClosed)
    (fun u u' hu hm => ?_) ⟨rfl, rfl⟩
  cases hm with
  | estimate | ticker | budget | hand | arrive | detect | repeats | register | change | pump => exact hu

/-- What handling a datagram leads to, and what it throws. -/
theorem step_datagram (hreach : Machine.Reachable Http4Client.step (connect opts maxDatagramSize) c)
    (hevent : a.event = .datagram b alloc) (hstep : c.step a = some c') :
    (∃ s, exec (readDatagram alloc b) { c with est := { c.est with elapse := a.elapse } } = (.ok (), s) ∧ c' = s ∧
      c'.reading = true) ∨
    ∃ e s, exec (readDatagram alloc b) { c with est := { c.est with elapse := a.elapse } } = (.error e, s) ∧
      c' = (exec (readLoopCatch e) s).2 ∧ (s.Broken ∨ alloc = false ∧ ∃ size, e = .allocation size) := by
  rw [step] at hstep
  split_ifs at hstep with henabled
  obtain rfl := Option.some.inj hstep
  rw [hevent] at henabled ⊢
  have hsound : Unbroken { c with est := { c.est with elapse := a.elapse } } := by
    rcases unbroken_reachable hreach with h | h
    · exact .inl h
    · exact .inr h
  unfold code
  rw [exec_tryCatch]
  rcases hexec : exec (readDatagram alloc b) { c with est := { c.est with elapse := a.elapse } } with ⟨r, s⟩
  cases r with
  | error e => exact .inr ⟨e, s, rfl, rfl, allocates_readDatagram hsound alloc b e s hexec⟩
  | ok u =>
    refine .inl ⟨s, rfl, rfl, ?_⟩
    have hreading : c.reading = true := henabled
    have hsame := (Reaches.flags (follows_readDatagram (c := { c with est := { c.est with elapse := a.elapse } }) alloc b)).1
    rw [hexec] at hsame
    exact hsame.trans hreading

theorem Broken.flag (h : Broken c) (hf : Flag c c') : Broken c' := by
  cases hf with
  | stopReading | close | endSession => exact h

/-- A datagram that ends the read loop comes with an allocation that fails, or a packet
    that cannot be encoded. -/
theorem reading_of_datagram (hreach : Machine.Reachable Http4Client.step (connect opts maxDatagramSize) c)
    (hevent : a.event = .datagram b alloc) (hstep : c.step a = some c') :
    c'.reading = true ∨ alloc = false ∨ c'.Broken := by
  rcases step_datagram hreach hevent hstep with ⟨s, -, -, hreading⟩ | ⟨e, s, -, rfl, hbroken | ⟨halloc, -⟩⟩
  · exact .inl hreading
  · refine .inr (.inr ?_)
    have hwalk : Follows (Walk none) (readLoopCatch e) s := follows_readLoopCatch e
    exact Walk.preserves (fun _ _ => Broken.move) (fun _ _ => Broken.flag) hwalk hbroken
  · exact .inr (.inl halloc)

/-- The events that end the read loop, or leave it to the platform whether they do. -/
def Event.Quits : Event → Prop
  | .readDone | .readRejected => True
  | .datagram _ alloc => alloc = false
  | .request _ _ _ _ | .tick | .streamStarted _ | .read _ | .pullSettled _ | .cancel _ | .close | .sessionEnded => False

/-- The other events leave the read loop alone. -/
theorem reading_of_quiet (hstep : c.step a = some c') (hquits : ¬ a.event.Quits)
    (hdatagram : ∀ b alloc, a.event ≠ .datagram b alloc) : c'.reading = c.reading := by
  have hreaches {s : Http4Client} {m : Js Unit} (h : Follows (Reaches none) m s) :
      (exec m s).2.reading = s.reading := (Reaches.flags h).1
  rw [step] at hstep
  split_ifs at hstep with henabled
  obtain rfl := Option.some.inj hstep
  have henabled' := enabled_elapse henabled a.elapse
  revert henabled' hquits hdatagram
  cases a.event with
  | readDone | readRejected => exact fun hquits _ _ => absurd trivial hquits
  | datagram b alloc => exact fun _ hdatagram _ => absurd rfl (hdatagram b alloc)
  | close => exact fun _ _ _ => rfl
  | sessionEnded =>
    exact fun _ _ _ => hreaches (s := { c with est := { c.est with elapse := a.elapse }, sessionClosed := true })
      (follows_failAll .sessionClosed fun _ _ => trivial)
  | request | tick | streamStarted | read | pullSettled | cancel =>
    exact fun _ _ henabled' => hreaches (follows_code_of_quiet henabled' rfl)

/-- **No datagram ends the read loop.** Under settings whose packets can be encoded, the
    loop of every run reads on, whatever bytes arrive, until the platform ends it or
    cannot allocate a buffer. -/
theorem reads_on (hopts : opts.Accepted) (hwhole : opts.SendsWhole) {as : List Step}
    (hrun : Machine.run Http4Client.step (connect opts maxDatagramSize) as = some c)
    (has : ∀ a ∈ as, ¬ a.event.Quits) : c.reading = true := by
  let P (c : Http4Client) : Prop :=
    Machine.Reachable Http4Client.step (connect opts maxDatagramSize) c ∧ c.reading = true
  have hP : P c := by
    refine Machine.run_while (P := P) (fun c a c' ha ⟨hreach, hreading⟩ hstep => ⟨hreach.next hstep, ?_⟩) has
      ⟨⟨[], rfl⟩, ?_⟩ hrun
    · by_cases hdatagram : ∃ b alloc, a.event = .datagram b alloc
      · obtain ⟨b, alloc, hevent⟩ := hdatagram
        rcases reading_of_datagram hreach hevent hstep with hreads | halloc | ⟨p, hp, hnone⟩
        · exact hreads
        · rw [hevent] at ha
          exact absurd halloc ha
        · have hsome := ((sound_reachable hopts hwhole (hreach.next hstep)).handed p hp).1
          rw [hnone] at hsome
          cases hsome
      · exact (reading_of_quiet hstep ha fun b alloc h => hdatagram ⟨b, alloc, h⟩).trans hreading
    · exact keeps_sendHello Http4Client.reading (fun _ _ => rfl) fun _ _ => rfl
  exact hP.2

/-- DATA whose total_size changes, a REQ, and bytes that are no packet. -/
def hostile : List Step :=
  [{ event := .datagram [2, 0, 0, 0, 0, 0, 0, 0, 1, 0, 0, 0, 9, 0, 0, 0, 0, 7] true },
   { event := .datagram [1, 0, 0, 0, 0, 0, 0, 0, 1, 0, 0, 0, 0, 97] true },
   { event := .datagram [255, 255] true }, { event := .datagram [] true }]

/-- A transfer of three bytes, and packets of no honest server. -/
theorem reads_on_hostile : ∃ c t,
    Machine.run Http4Client.step (connect {} 1200) (threeBytes ++ hostile) = some c ∧
      c.objects.get? 1 = some t ∧ Settlement.rejected (.totalSizeChanged 3 9) ∈ t.settlements ∧ c.reading = true := by
  have hany : (Machine.run Http4Client.step (connect {} 1200) (threeBytes ++ hostile)).any fun c =>
      (c.objects.get? 1).any fun t => Settlement.rejected (.totalSizeChanged 3 9) ∈ t.settlements := by decide +kernel
  obtain ⟨c, hrun, hc⟩ := (Option.any_eq_true _ _).mp hany
  obtain ⟨t, ht, hmem⟩ := (Option.any_eq_true _ _).mp hc
  have hquits : ∀ a ∈ threeBytes ++ hostile, ¬ a.event.Quits := by
    unfold threeBytes hostile Event.Quits
    simp
  have hwhole : ClientOptions.SendsWhole {} :=
    .inr ⟨.inr ⟨⟨128 * 1024, by decide +kernel⟩, .inl ⟨16 * 1024 * 1024, by decide +kernel⟩⟩,
      .inr (.inl ⟨3, by decide +kernel⟩)⟩
  exact ⟨c, t, hrun, ht, of_decide_eq_true hmem, reads_on (accepted_tuningOptions none) hwhole hrun hquits⟩

end Http4Client

end Http4.Client
