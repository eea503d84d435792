import Http4.Data.Ring
import Http4.Sender.Effect

/-!
# Session sequence numbers

The send loop reads `nextSeq` at the hand-over, outside the lock, and raises it
when it records. In between, the datagram in flight already has the number.

Main results:

* `Numbered.step`: the invariant of the numbering and of the ring.
* `numbering`: DATA_SEQ packets carry 0, 1, 2, … in the order they leave, and
  the ring finds exactly the last `seqRingSize` numbers recorded.
-/

namespace Http4.Sender

open Wire (Packet)

/-! ## What the receive loop does to the numbering -/

/-- A HELLO that offers SESSION_SEQ. -/
def offersSeq : Packet → Bool
  | .hello p => decide (p.caps &&& Wire.Go.capSessionSeq ≠ 0)
  | _ => false

theorem seqOn_handle (cfg : Config) (s : Session) (now : ℤ) (got : GetResult) (pkt : Packet) :
    (s.handle cfg now got pkt).seqOn = (s.seqOn || (!cfg.noSeq && offersSeq pkt)) := by
  have hno : s.seqOn = (s.seqOn || (!cfg.noSeq && false)) := by simp
  cases pkt with
  | req q =>
    simp only [Session.handle]
    cases s.lookup q.rpcId with
    | some t => exact hno
    | none => cases got <;> exact hno
  | grant q | resend q =>
    simp only [Session.handle]
    cases s.lookup q.rpcId <;> exact hno
  | hello q =>
    by_cases h : ¬ cfg.noSeq = true ∧ q.caps &&& Wire.Go.capSessionSeq ≠ 0 ∧ ¬ s.seqOn = true
    · refine (congrArg Session.seqOn (if_pos h)).trans ?_
      obtain ⟨hcfg, hcaps, -⟩ := h
      simp [hcfg, hcaps, offersSeq]
    · refine (congrArg Session.seqOn (if_neg h)).trans ?_
      rw [not_and_or, not_and_or, not_not, not_not, not_not] at h
      rcases h with h | h | h <;> simp [h, offersSeq, Session.count]
  | resendSeq q =>
    simp only [Session.handle]
    split_ifs
    · exact (Session.resendSeqs_frame (s.count _) _ now).2.2.trans hno
    · exact hno
  | data q | dataSeq q | error q | metaData q => exact hno

/-- A ring entry, and the same one perhaps marked as sent again. -/
structure SeqEntry.Marked (e e' : SeqEntry) : Prop where
  seq : e'.seq = e.seq
  valid : e'.valid = e.valid
  rpc : e'.rpc = e.rpc
  off : e'.off = e.off
  n : e'.n = e.n
  resent : e.resent = true → e'.resent = true

theorem SeqEntry.Marked.refl (e : SeqEntry) : e.Marked e := ⟨rfl, rfl, rfl, rfl, rfl, id⟩

theorem SeqEntry.Marked.trans {e e' e'' : SeqEntry} (h : e.Marked e') (h' : e'.Marked e'') :
    e.Marked e'' :=
  ⟨h'.seq.trans h.seq, h'.valid.trans h.valid, h'.rpc.trans h.rpc, h'.off.trans h.off,
    h'.n.trans h.n, fun hr => h'.resent (h.resent hr)⟩

theorem marked_resendSeq (s : Session) (seq : ℕ) (now : ℤ) (i : ℕ) :
    (s.ring i).Marked ((s.resendSeq seq now).ring i) := by
  rcases s.resendSeq_cases seq now with ⟨-, hring, -⟩ | ⟨-, -, hring, -⟩
  · rw [hring]
    exact .refl _
  · rw [hring]
    by_cases hi : i = seq % seqRingSize
    · rw [hi, Function.update_self]
      exact ⟨rfl, rfl, rfl, rfl, rfl, fun _ => rfl⟩
    · rw [Function.update_of_ne hi]
      exact .refl _

theorem marked_resendSeqs (s : Session) (seqs : List ℕ) (now : ℤ) (i : ℕ) :
    (s.ring i).Marked ((s.resendSeqs seqs now).ring i) := by
  induction seqs generalizing s with
  | nil => exact .refl _
  | cons seq seqs ih => exact (marked_resendSeq s seq now i).trans (ih _)

/-- What handling a packet does to the ring: nothing, but for a RESEND_SEQ, which
    names its numbers, and the HELLO that turns the numbering on, which starts
    with an empty ring. -/
theorem ring_handle_cases (cfg : Config) (s : Session) (now : ℤ) (got : GetResult) (pkt : Packet) :
    ((s.handle cfg now got pkt).ring = s.ring ∧ (∀ q, pkt = .resendSeq q → s.seqOn = false)) ∨
    (s.seqOn = false ∧ (s.handle cfg now got pkt).ring = (fun _ => SeqEntry.zero) ∧
      ∃ q, pkt = .hello q) ∨
    ∃ q, pkt = .resendSeq q ∧ s.seqOn = true ∧ ∃ m : Metrics, s.handle cfg now got pkt =
      Session.resendSeqs { s with metrics := m } (Session.seqRange q.start q.stop) now := by
  cases pkt with
  | req q =>
    refine .inl ⟨?_, by simp⟩
    simp only [Session.handle]
    cases s.lookup q.rpcId with
    | some t => rfl
    | none => cases got <;> rfl
  | grant q | resend q =>
    refine .inl ⟨?_, by simp⟩
    simp only [Session.handle]
    cases s.lookup q.rpcId <;> rfl
  | hello q =>
    simp only [Session.handle]
    split_ifs with h
    · exact .inr (.inl ⟨by simpa [Session.count] using h.2.2, rfl, q, rfl⟩)
    · exact .inl ⟨rfl, by simp⟩
  | resendSeq q =>
    by_cases hon : s.seqOn = true
    · exact .inr (.inr ⟨q, rfl, hon, { s.metrics with seqResends := s.metrics.seqResends + 1 },
        if_neg (not_not.mpr hon)⟩)
    · refine .inl ⟨(congrArg Session.ring (if_pos hon)).trans ?_, fun _ _ => by simpa using hon⟩
      rfl
  | data q | dataSeq q | error q | metaData q => exact .inl ⟨rfl, by simp⟩

/-- Seen from one slot, handling a packet at most marks the entry, unless it empties
    the ring. -/
theorem ring_handle (cfg : Config) (s : Session) (now : ℤ) (got : GetResult) (pkt : Packet) :
    (∀ i, (s.ring i).Marked ((s.handle cfg now got pkt).ring i)) ∨
      (s.seqOn = false ∧ (s.handle cfg now got pkt).ring = fun _ => SeqEntry.zero) := by
  rcases ring_handle_cases cfg s now got pkt with ⟨hring, -⟩ | ⟨hoff, hring, -⟩ | ⟨q, -, -, m, heq⟩
  · rw [hring]
    exact .inl fun i => .refl _
  · exact .inr ⟨hoff, hring⟩
  · rw [heq]
    exact .inl (marked_resendSeqs { s with metrics := m } _ now)

/-! ## The invariant -/

/-- The number a ring entry was stored under. -/
def SeqEntry.key (e : SeqEntry) : Option ℕ := if e.valid then some e.seq else none

theorem holds_iff (s : Session) (j : ℕ) :
    s.holds j = true ↔ Ring.Holds seqRingSize SeqEntry.key s.ring j := by
  simp only [Session.holds, Session.entry, Ring.Holds, SeqEntry.key]
  cases (s.ring (j % seqRingSize)).valid <;> simp

/-- The DATA_SEQ in a packet. -/
def dataSeqIn : Packet → Option Wire.DataSeq
  | .dataSeq d => some d
  | _ => none

/-- The DATA_SEQ packets that left, in order. -/
def Sys.numbers (s : Sys) : List Wire.DataSeq := s.handed.filterMap fun g => dataSeqIn g.packet

/-- The ring entry `e` says what the DATA_SEQ number `j` carried. -/
def Carried (numbers : List Wire.DataSeq) (j : ℕ) (e : SeqEntry) : Prop :=
  ∃ d, numbers[j]? = some d ∧ e.rpc = d.rpcId ∧ e.off = d.offset.toNat ∧ e.n = d.payload.length

/-- Whether a DATA_SEQ has left and is not recorded yet. -/
def Session.inFlight (s : Session) : ℕ := match s.phase with
  | .handed w _ => if w.seq then 1 else 0
  | _ => 0

/-- The invariant of the numbering. -/
structure Numbered (cfg : Config) (s : Sys) : Prop where
  seqOn : s.session.seqOn = (!cfg.noSeq && s.handled.any offersSeq)
  unused : s.session.seqOn = false → s.session.nextSeq = 0
  limit : s.session.nextSeq ≤ 2 ^ 32
  busy : ∀ w, s.session.busy = some w → w.seq = true →
    s.session.seqOn = true ∧ s.session.nextSeq < 2 ^ 32
  numbers : s.numbers.map (fun d => d.seq.toNat) = List.range s.numbers.length
  length : s.numbers.length = s.session.nextSeq + s.session.inFlight
  flight : ∀ w seq, s.session.phase = .handed w seq → w.seq = true →
    seq = s.session.nextSeq ∧
      ∃ d front, w.data? = some d ∧ s.numbers = front ++ [{ d with seq := UInt32.ofNat seq }]
  ring : Ring.Window seqRingSize SeqEntry.key (Carried s.numbers) s.session.ring s.session.nextSeq
  recorded : s.recorded.countP Work.seq = s.session.nextSeq

theorem numbered_init (cfg : Config) : Numbered cfg (Sys.init cfg) where
  seqOn := by simp [Sys.init, Session.init]
  unused _ := rfl
  limit := Nat.zero_le _
  busy := by simp [Sys.init, Session.init, Session.busy]
  numbers := rfl
  length := rfl
  flight := by simp [Sys.init, Session.init]
  ring := Ring.Window.empty fun _ => rfl
  recorded := rfl

section Numbered

variable {cfg : Config} {s s' : Sys}

theorem numbers_congr (h : s'.handed = s.handed) : s'.numbers = s.numbers := by
  rw [Sys.numbers, h, Sys.numbers]

/-- The invariant when only the place of the send loop and the fields it does not
    speak of change, and nothing is in flight before or after. -/
theorem Numbered.congr (h : Numbered cfg s) (hhanded : s'.handed = s.handed)
    (hhandled : s'.handled = s.handled) (hflight : s.session.inFlight = 0)
    (hphase : ∀ w seq, s'.session.phase ≠ .handed w seq)
    (hseqOn : s'.session.seqOn = s.session.seqOn) (hnext : s'.session.nextSeq = s.session.nextSeq)
    (hring : s'.session.ring = s.session.ring)
    (hbusy : ∀ w, s'.session.busy = some w → w.seq = true →
      s.session.seqOn = true ∧ s.session.nextSeq < 2 ^ 32)
    (hrecorded : s'.recorded.countP Work.seq = s.recorded.countP Work.seq) : Numbered cfg s' where
  seqOn := by rw [hseqOn, hhandled]; exact h.seqOn
  unused := by rw [hseqOn, hnext]; exact h.unused
  limit := hnext ▸ h.limit
  busy := by rw [hseqOn, hnext]; exact hbusy
  numbers := by rw [numbers_congr hhanded]; exact h.numbers
  length := by
    have hflight' : s'.session.inFlight = 0 := by
      unfold Session.inFlight
      split
      next w seq hw => exact absurd hw (hphase w seq)
      · rfl
    rw [numbers_congr hhanded, hnext, hflight', ← hflight]
    exact h.length
  flight := fun w seq hw => absurd hw (hphase w seq)
  ring := by rw [hring, hnext, numbers_congr hhanded]; exact h.ring
  recorded := by rw [hrecorded, hnext]; exact h.recorded

/-- The invariant after a packet of the client was handled. -/
theorem Numbered.handle (h : Numbered cfg s) {pkt : Packet} (hhanded : s'.handed = s.handed)
    (hhandled : s'.handled = s.handled ++ [pkt]) (hphase : s'.session.phase = s.session.phase)
    (hnext : s'.session.nextSeq = s.session.nextSeq)
    (hseqOn : s'.session.seqOn = (s.session.seqOn || (!cfg.noSeq && offersSeq pkt)))
    (hring : (∀ i, (s.session.ring i).Marked (s'.session.ring i)) ∨
      (s.session.seqOn = false ∧ s'.session.ring = fun _ => SeqEntry.zero))
    (hrecorded : s'.recorded = s.recorded) : Numbered cfg s' where
  seqOn := by
    rw [hseqOn, h.seqOn, hhandled, List.any_append, Bool.and_or_distrib_left]
    simp
  unused := by
    rw [hseqOn, hnext, Bool.or_eq_false_iff]
    exact fun hoff => h.unused hoff.1
  limit := hnext ▸ h.limit
  busy := by
    intro w hw hseq
    rw [Session.busy, hphase] at hw
    obtain ⟨hon, hlt⟩ := h.busy w hw hseq
    exact ⟨by rw [hseqOn, hon, Bool.true_or], hnext ▸ hlt⟩
  numbers := by rw [numbers_congr hhanded]; exact h.numbers
  length := by
    rw [numbers_congr hhanded, hnext, Session.inFlight, hphase]
    exact h.length
  flight := by
    rw [numbers_congr hhanded, hnext, hphase]
    exact h.flight
  ring := by
    rw [numbers_congr hhanded, hnext]
    rcases hring with hmark | ⟨hoff, hzero⟩
    · refine h.ring.congr (fun i => ?_) (fun i j _ _ hentry => ?_)
      · rw [SeqEntry.key, (hmark i).valid, (hmark i).seq, SeqEntry.key]
      · obtain ⟨d, hd, hrpc, hoff, hn⟩ := hentry
        exact ⟨d, hd, (hmark i).rpc.trans hrpc, (hmark i).off.trans hoff, (hmark i).n.trans hn⟩
    · rw [hzero, h.unused hoff]
      exact Ring.Window.empty fun _ => rfl
  recorded := by rw [hrecorded, hnext]; exact h.recorded

theorem seqNumber_of_lt {s : Session} (h : s.nextSeq < 2 ^ 32) : s.seqNumber = s.nextSeq :=
  u32_of_lt h

theorem useSeq_iff {s : Session} : s.useSeq = true ↔ s.seqOn = true ∧ s.nextSeq < 2 ^ 32 := by
  rw [Session.useSeq, Bool.and_eq_true, decide_eq_true_iff]
  exact and_congr_right fun _ => Nat.le_sub_one_iff_lt (show 0 < 2 ^ 32 by decide)

/-- What leaves for the work in hand: a DATA_SEQ with the next number, or no
    DATA_SEQ. -/
theorem out_cases (hinv : Inv cfg s.session) {w : Work} (hdoing : Doing s.session w) :
    (w.seq = true ∧ ∃ d, w.data? = some d ∧
      s.session.out w = .dataSeq { d with seq := UInt32.ofNat s.session.seqNumber }) ∨
    (w.seq = false ∧ s.session.out w = w.pkt ∧ dataSeqIn w.pkt = none) := by
  have hpkt : dataSeqIn w.pkt = none := by
    cases hdoing with
    | reply rest hpending hr hkind hseq =>
      obtain ⟨e, he⟩ := hinv.pending w.pkt (by rw [hpending]; exact List.mem_cons_self)
      rw [he]
      rfl
    | data p r hp hr hw hseq =>
      cases hw with
      | metaData _ h => rw [h]; rfl
      | packet0 _ _ _ h | resend _ _ _ _ _ h | new _ _ _ h | tailDup _ _ _ _ h => rw [h]; rfl
  have hdata : w.seq = true → w.data?.isSome := by
    cases hdoing with
    | reply rest hpending hr hkind hseq => rw [hseq]; exact fun h => absurd h Bool.false_ne_true
    | data p r hp hr hw hseq => exact hseq
  cases hseq : w.seq with
  | true =>
    obtain ⟨d, hd⟩ := Option.isSome_iff_exists.mp (hdata hseq)
    exact .inl ⟨rfl, d, hd, by simp only [Session.out, hd, hseq, if_true]⟩
  | false =>
    refine .inr ⟨rfl, ?_, hpkt⟩
    unfold Session.out
    split
    · simp only [hseq, Bool.false_eq_true, if_false]
    · rfl

theorem numbers_concat {g : Handed} (h : s'.handed = s.handed ++ [g]) :
    s'.numbers = s.numbers ++ (dataSeqIn g.packet).toList := by
  rw [Sys.numbers, h, List.filterMap_append, Sys.numbers]
  cases hd : dataSeqIn g.packet <;> simp [hd]

/-- The invariant after a datagram left. -/
theorem Numbered.sent (hinv : Inv cfg s.session) (h : Numbered cfg s) {w : Work} {g : Handed}
    (hphase : s.session.phase = .checked w) (hg : g.packet = s.session.out w)
    (hhanded : s'.handed = s.handed ++ [g]) (hhandled : s'.handled = s.handled)
    (hphase' : s'.session.phase = .handed w s.session.seqNumber)
    (hseqOn : s'.session.seqOn = s.session.seqOn) (hnext : s'.session.nextSeq = s.session.nextSeq)
    (hring : s'.session.ring = s.session.ring) (hrecorded : s'.recorded = s.recorded) :
    Numbered cfg s' := by
  have hbusy : s.session.busy = some w := by rw [Session.busy, hphase]
  have hrecorded' : s'.recorded.countP Work.seq = s'.session.nextSeq := by
    rw [hrecorded, hnext]
    exact h.recorded
  have hlength := h.length
  rw [Session.inFlight, hphase, Nat.add_zero] at hlength
  have hnumbers := numbers_concat hhanded
  rw [hg] at hnumbers
  have hbusy' : ∀ w', s'.session.busy = some w' → w'.seq = true →
      s'.session.seqOn = true ∧ s'.session.nextSeq < 2 ^ 32 := by
    intro w' hw'
    rw [Session.busy, hphase'] at hw'
    obtain rfl := Option.some.inj hw'
    rw [hseqOn, hnext]
    exact h.busy w hbusy
  rcases out_cases hinv (hinv.work w hbusy) with ⟨hseq, d, hd, hout⟩ | ⟨hseq, hout, hpkt⟩
  · obtain ⟨-, hlt⟩ := h.busy w hbusy hseq
    rw [seqNumber_of_lt hlt] at hout hphase'
    rw [hout] at hnumbers
    refine ⟨by rw [hseqOn, hhandled]; exact h.seqOn, by rw [hseqOn, hnext]; exact h.unused,
      hnext ▸ h.limit, hbusy', ?_, ?_, ?_, ?_, hrecorded'⟩
    · -- the new number is the next one
      have hnat : (UInt32.ofNat s.session.nextSeq).toNat = s.session.nextSeq :=
        UInt32.toNat_ofNat_of_lt' hlt
      rw [hnumbers, List.map_append, h.numbers, hlength]
      simp [dataSeqIn, hnat, hlength, List.range_succ]
    · rw [hnumbers, hnext, Session.inFlight, hphase']
      simp [dataSeqIn, hlength, hseq]
    · intro w' seq hw' _
      rw [hphase'] at hw'
      obtain ⟨rfl, rfl⟩ := Phase.handed.inj hw'
      exact ⟨hnext.symm, d, s.numbers, hd, hnumbers⟩
    · rw [hring, hnext]
      refine h.ring.congr (fun _ => rfl) (fun i j hj _ hentry => ?_)
      obtain ⟨e, he, hrest⟩ := hentry
      refine ⟨e, ?_, hrest⟩
      rw [hnumbers, List.getElem?_append_left (by omega)]
      exact he
  · rw [hout, hpkt, Option.toList_none, List.append_nil] at hnumbers
    refine ⟨by rw [hseqOn, hhandled]; exact h.seqOn, by rw [hseqOn, hnext]; exact h.unused,
      hnext ▸ h.limit, hbusy', by rw [hnumbers]; exact h.numbers, ?_, ?_, ?_, hrecorded'⟩
    · rw [hnumbers, hnext, Session.inFlight, hphase']
      simp [hlength, hseq]
    · intro w' seq hw' hyes
      rw [hphase'] at hw'
      obtain ⟨rfl, rfl⟩ := Phase.handed.inj hw'
      rw [hseq] at hyes
      cases hyes
    · rw [hring, hnext, hnumbers]
      exact h.ring

/-- The invariant after a datagram was recorded. -/
theorem Numbered.record (hinv : Inv cfg s.session) (h : Numbered cfg s) {w : Work} {seq p : ℕ}
    {r : Rpc} (hphase : s.session.phase = .handed w seq) (hr : s.session.heap[p]? = some r)
    (hw : WorkOk r w) (hhanded : s'.handed = s.handed) (hhandled : s'.handled = s.handled)
    (hphase' : s'.session.phase = .idle) (hseqOn : s'.session.seqOn = s.session.seqOn)
    (hnext : s'.session.nextSeq = if w.seq then s.session.nextSeq + 1 else s.session.nextSeq)
    (hring : s'.session.ring = if w.seq then
        Function.update s.session.ring (seq % seqRingSize)
          { seq := seq, valid := true, resent := false, rpc := r.id, off := w.off, n := w.len }
      else s.session.ring) (hrecorded : s'.recorded = s.recorded ++ [w]) : Numbered cfg s' := by
  have hbusy : s.session.busy = some w := by rw [Session.busy, hphase]
  have hidle (w' : Work) (seq' : ℕ) : s'.session.phase ≠ .handed w' seq' := by
    rw [hphase']
    exact fun heq => by cases heq
  have hnone (w' : Work) : s'.session.busy ≠ some w' := by
    rw [Session.busy, hphase']
    exact fun heq => by cases heq
  have hcount := h.recorded
  cases hseq : w.seq with
  | false =>
    simp only [hseq, Bool.false_eq_true, if_false] at hnext hring
    exact h.congr hhanded hhandled (by simp [Session.inFlight, hphase, hseq]) hidle hseqOn hnext
      hring (fun w' hw' => absurd hw' (hnone w')) (by simp [hrecorded, hseq])
  | true =>
    simp only [hseq, if_true] at hnext hring
    obtain ⟨hon, hlt⟩ := h.busy w hbusy hseq
    obtain ⟨rfl, d, front, hd, hnumbers⟩ := h.flight w seq hphase hseq
    have hlength := h.length
    simp only [Session.inFlight, hphase, hseq, if_true] at hlength
    refine ⟨by rw [hseqOn, hhandled]; exact h.seqOn, ?_, by omega,
      fun w' hw' => absurd hw' (hnone w'), by rw [numbers_congr hhanded]; exact h.numbers, ?_,
      fun w' seq' hw' => absurd hw' (hidle w' seq'), ?_, by simp [hrecorded, hseq, hcount, hnext]⟩
    · rw [hseqOn, hon]
      exact fun hoff => by cases hoff
    · rw [numbers_congr hhanded, hnext, Session.inFlight, hphase', hlength]
      rfl
    · rw [hring, hnext, numbers_congr hhanded]
      refine h.ring.push (by decide) (by simp [SeqEntry.key]) ?_
      obtain ⟨hc, -⟩ := hw.carries (hinv.rpc p r hr) hd
      refine ⟨{ d with seq := UInt32.ofNat s.session.nextSeq }, ?_, hc.rpcId.symm, hc.offset.symm,
        hc.length.symm⟩
      rw [hnumbers, List.length_append, List.length_singleton] at hlength
      rw [hnumbers, List.getElem?_append_right (by omega), show s.session.nextSeq - front.length = 0
        by omega]
      rfl

/-- **Every step keeps the numbering.** -/
theorem Numbered.step {a : Act} (hinv : Inv cfg s.session) (h : Numbered cfg s)
    (heff : Effect cfg s a s') : Numbered cfg s' := by
  cases heff with
  | offer b => exact ⟨h.seqOn, h.unused, h.limit, h.busy, h.numbers, h.length, h.flight, h.ring, h.recorded⟩
  | malformed b now got e m hb hdecode hm =>
    exact ⟨h.seqOn, h.unused, h.limit, h.busy, h.numbers, h.length, h.flight, h.ring, h.recorded⟩
  | packet b now got pkt m hb hdecode hm =>
    have hsame := sameLoop_handle cfg { s.session with metrics := m } now got pkt
    exact h.handle rfl rfl hsame.phase hsame.nextSeq
      (seqOn_handle cfg { s.session with metrics := m } now got pkt)
      (ring_handle cfg { s.session with metrics := m } now got pkt) rfl
  | nothing => exact h
  | pick order w hphase hperm hsome hw =>
    refine h.congr rfl rfl (by rw [Session.inFlight, hphase]) (by simp) rfl rfl rfl ?_ rfl
    intro w' hw' hseq
    obtain rfl := Option.some.inj hw'
    cases hw with
    | reply rest hpending hr hkind hno =>
      rw [hno] at hseq
      cases hseq
    | data p r hempty horder hr hdue hok hfor =>
      rw [hfor.seq, Bool.and_eq_true] at hseq
      exact useSeq_iff.mp hseq.1
  | hold w hphase =>
    exact h.congr rfl rfl (by rw [Session.inFlight, hphase]) (by simp) rfl rfl rfl
      (by simp [Session.busy]) rfl
  | check w hphase =>
    refine h.congr rfl rfl (by rw [Session.inFlight, hphase]) (by simp) rfl rfl rfl ?_ rfl
    intro w' hw'
    obtain rfl := Option.some.inj hw'
    exact h.busy w (by rw [Session.busy, hphase])
  | sent w o m hphase ho hm => exact h.sent hinv hphase rfl rfl rfl rfl rfl rfl rfl rfl
  | refused w limit m hphase hm =>
    exact h.congr rfl rfl (by rw [Session.inFlight, hphase]) (by simp) rfl rfl rfl
      (by simp [Session.busy]) rfl
  | ended w o hphase =>
    exact h.congr rfl rfl (by rw [Session.inFlight, hphase]) (by simp) rfl rfl rfl
      (by simp [Session.busy]) rfl
  | recordReply w seq rest m hphase hpending hkind hr hseq hm =>
    exact h.congr rfl rfl (by simp [Session.inFlight, hphase, hseq]) (by simp) rfl rfl rfl
      (by simp [Session.busy]) (by simp [hseq])
  | record w seq p r r' m hphase hp hr hw hrec hseq hm =>
    exact h.record hinv hphase hr hw rfl rfl rfl rfl rfl rfl rfl
  | evictIdle now =>
    exact ⟨h.seqOn, h.unused, h.limit, h.busy, h.numbers, h.length, h.flight, h.ring, h.recorded⟩

theorem numbered_reachable (h : Machine.Reachable (Sys.step cfg) (Sys.init cfg) s) :
    Numbered cfg s :=
  reachable_induction (numbered_init cfg) (fun _ _ _ hinv hnum heff => hnum.step hinv heff) h

/-! ## Numbering -/

/-- A HELLO that turned the numbering on has been handled. -/
def Sys.Negotiated (cfg : Config) (s : Sys) : Prop :=
  cfg.noSeq = false ∧ ∃ pkt ∈ s.handled, offersSeq pkt = true

theorem Numbered.seqOn_iff (h : Numbered cfg s) : s.session.seqOn = true ↔ s.Negotiated cfg := by
  rw [h.seqOn, Sys.Negotiated]
  simp

/-- While the send loop is idle, `nextSeq` is how many DATA_SEQ packets left. -/
theorem Numbered.length_of_idle (h : Numbered cfg s) (hphase : s.session.phase = .idle) :
    s.numbers.length = s.session.nextSeq := by
  rw [h.length, Session.inFlight, hphase, Nat.add_zero]

theorem Numbered.length_le (h : Numbered cfg s) : s.numbers.length ≤ 2 ^ 32 := by
  have hlength := h.length
  have hlimit := h.limit
  unfold Session.inFlight at hlength
  split at hlength
  next w seq hphase =>
    split_ifs at hlength with hseq
    · obtain ⟨-, hlt⟩ := h.busy w (by rw [Session.busy, hphase]) hseq
      omega
    · omega
  · omega

/-- **Session numbering.** In every run the DATA_SEQ packets that left, lost or
    not, carry 0, 1, 2, … in the order they left, at most 2 ^ 32 of them and none
    before the numbering was negotiated. DATA picked is numbered iff it was, and
    numbers remain; what is numbered leaves as a DATA_SEQ with the next number.
    After `k` of them were recorded, the ring finds exactly the last 65536 numbers
    below `k`, and what they carried. -/
theorem numbering (cfg : Config) (acts : List Act) (s : Sys)
    (hrun : Machine.run (Sys.step cfg) (Sys.init cfg) acts = some s) :
    (s.numbers.map (fun d => d.seq.toNat) = List.range s.numbers.length ∧
      s.numbers.length ≤ 2 ^ 32 ∧ (s.numbers ≠ [] → s.Negotiated cfg)) ∧
    (∀ order w d, s.session.phase = .idle → order.Perm s.session.live →
      s.session.pick order = .ok (some w) → w.data? = some d →
      (w.seq = true ↔ s.Negotiated cfg ∧ s.numbers.length < 2 ^ 32)) ∧
    (∀ w d, s.session.phase = .checked w → w.data? = some d →
      s.session.out w =
        if w.seq then .dataSeq { d with seq := UInt32.ofNat s.numbers.length } else .data d) ∧
    (∀ j, s.session.holds j = true ↔
      j < s.recorded.countP Work.seq ∧ s.recorded.countP Work.seq ≤ j + 65536) ∧
    (∀ j, s.session.holds j = true → ∃ d, s.numbers[j]? = some d ∧
      (s.session.entry j).rpc = d.rpcId ∧ (s.session.entry j).off = d.offset.toNat ∧
      (s.session.entry j).n = d.payload.length) := by
  have hreach : Machine.Reachable (Sys.step cfg) (Sys.init cfg) s := ⟨acts, hrun⟩
  have hinv := inv_reachable hreach
  have hnum := numbered_reachable hreach
  refine ⟨⟨hnum.numbers, hnum.length_le, fun hne => ?_⟩, ?_, ?_, ?_, ?_⟩
  · -- a number that left was counted, or is in flight
    rw [← hnum.seqOn_iff]
    by_contra hoff
    have hzero := hnum.unused (by simpa using hoff)
    have hlength := hnum.length
    have hflight : s.session.inFlight = 0 := by
      unfold Session.inFlight
      split
      next w seq hphase =>
        split_ifs with hseq
        · exact absurd (hnum.busy w (by rw [Session.busy, hphase]) hseq).1 hoff
        · rfl
      · rfl
    rw [hzero, hflight] at hlength
    exact hne (List.eq_nil_of_length_eq_zero hlength)
  · intro order w d hphase hperm hpick hd
    rw [hnum.length_of_idle hphase, ← hnum.seqOn_iff, ← useSeq_iff]
    rcases hinv.pick hperm with hnone | ⟨w', hw', hpicked⟩
    · rw [hnone] at hpick
      cases hpick
    · rw [hw', Except.ok.injEq, Option.some.injEq] at hpick
      subst hpick
      cases hpicked with
      | reply rest hpending hr hkind hno =>
        rw [data?_eq_none_of_pending hinv hpending] at hd
        cases hd
      | data p r hempty horder hr hdue hok hfor =>
        rw [hfor.seq, hd, Option.isSome_some, Bool.and_true]
  · intro w d hphase hd
    have hbusy : s.session.busy = some w := by rw [Session.busy, hphase]
    have hlength := hnum.length
    rw [Session.inFlight, hphase, Nat.add_zero] at hlength
    cases hseq : w.seq with
    | true =>
      obtain ⟨-, hlt⟩ := hnum.busy w hbusy hseq
      simp only [Session.out, hd, hseq, if_true, seqNumber_of_lt hlt, hlength]
    | false =>
      simp only [Session.out, hd, hseq, Bool.false_eq_true, if_false, pkt_of_data? hd]
  · intro j
    rw [holds_iff, hnum.recorded]
    exact hnum.ring.holds_iff
  · intro j hj
    rw [holds_iff, hnum.ring.holds_iff] at hj
    exact (hnum.ring.kept j hj.1 hj.2).2

/-- A HELLO and a REQ: packet 0 leaves as number 0, and the ring finds it. -/
theorem numbering_small :
    ∃ s, Machine.run (Sys.step smallConfig) (Sys.init smallConfig)
        (clientSends (.hello { rpcId := 0, caps := 1 }) 0 ++ clientSends (smallReq 5) 0 ++
          serverSends [0] ++ serverSends [0]) = some s ∧
      s.numbers.map (fun d => d.seq.toNat) = [0] ∧ s.session.holds 0 = true ∧
      s.session.holds 1 = false := by
  obtain ⟨s, hrun, hP⟩ := exists_run_of_any smallConfig
    (clientSends (.hello { rpcId := 0, caps := 1 }) 0 ++ clientSends (smallReq 5) 0 ++
      serverSends [0] ++ serverSends [0])
    (P := fun s => s.numbers.length = 1 && s.recorded.countP Work.seq = 1) (by decide +kernel)
  obtain ⟨⟨hnumbers, -⟩, -, -, hholds, -⟩ := numbering _ _ s hrun
  simp only [Bool.and_eq_true, decide_eq_true_eq] at hP
  rw [hP.1] at hnumbers
  refine ⟨s, hrun, hnumbers, ?_, ?_⟩
  · rw [hholds, hP.2]
    decide
  · rw [Bool.eq_false_iff, ne_eq, hholds, hP.2]
    decide

end Numbered

end Http4.Sender
