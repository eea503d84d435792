import Http4.Sender.Drain
import Http4.Sender.Queue

/-!
# The tail duplicate

The packet that completes a small RPC is repeated once. The copy is queued when the
packet is recorded, and it is picked when nothing else is due. That it is handed over at
last follows from the backlog: the send loop gets through it as long as the connection
accepts what it gets.

Main results:

* `CopyOk.step`: the copies of an RPC, at every step.
* `copied_of_drained`: a send loop that has got through its backlog has made every copy.
* `tail_duplicate`: a copy is picked last, is made once, and repeats the packet that
  completed its RPC.
-/

namespace Http4.Sender

open Wire (Packet)

/-- The tail duplicates handed over for the RPC at `p`. -/
def Sys.copies (s : Sys) (p : ℕ) : List Work :=
  (s.handed.filter fun h => h.Is .workTailDup p).map Handed.work

/-- `w` sends new bytes of the RPC at `p`, up to its end. -/
def Work.Ends (w : Work) (p size : ℕ) : Prop :=
  w.r = some p ∧ (w.kind = .workPacket0 ∨ w.kind = .workNew) ∧ w.off + w.len = size

instance (w : Work) (p size : ℕ) : Decidable (w.Ends p size) := inferInstanceAs (Decidable (_ ∧ _))

/-- The packet that first completed the RPC at `p`. -/
def Sys.completer (s : Sys) (p size : ℕ) : Option Work := s.recorded.find? fun w => w.Ends p size

/-- The bytes that a work carries. -/
def Work.span (w : Work) : Span := { start := w.off, stop := w.off + w.len }

/-- The tail duplicate in flight for the RPC at `p`. -/
def Session.flyingCopy (s : Session) (p : ℕ) : List Work :=
  (s.flying p).toList.filter fun w => w.kind = .workTailDup

/-- What holds of an RPC and its copies. -/
structure CopyOk (cfg : Config) (s : Sys) (p : ℕ) (r : Rpc) : Prop where
  complete : 0 < r.size → ((s.completer p r.size).isSome ↔ r.next = r.size)
  unduped : r.tailDuped = false → r.tailDup = none ∧ s.copies p = []
  small : r.tailDuped = true → 0 < r.size ∧ (r.size : ℤ) ≤ cfg.tailDuplicate
  once : r.tailDuped = true → ∃ c, s.completer p r.size = some c ∧
    ((r.tailDup = some c.span ∧ s.copies p = s.session.flyingCopy p) ∨
      (r.tailDup = none ∧ ∃ w, s.copies p = [w] ∧ w.span = c.span))

/-- What holds of all of them. -/
structure Copies (cfg : Config) (s : Sys) : Prop where
  known : ∀ h ∈ s.handed, ∀ p, h.work.r = some p → p < s.session.heap.length
  recorded : ∀ w ∈ s.recorded, ∀ p, w.r = some p → p < s.session.heap.length
  rpc : ∀ (p : ℕ) (r : Rpc), s.session.heap[p]? = some r → CopyOk cfg s p r

section TailDuplicate

variable {cfg : Config} {s s' : Sys} {a : Act} {r r' : Rpc} {w : Work} {p : ℕ}

/-- An RPC is completed by recording a work exactly if the work ends it or it was
    complete before. -/
theorem WorkOk.nextAfter_eq_iff (hok : RpcOk cfg r) (hw : WorkOk r w) (hp : w.r = some p) :
    r.nextAfter w = r.size ↔ r.next = r.size ∨ w.Ends p r.size := by
  have hnext := hok.next_le
  have hgranted := hok.granted_le
  have hother (hkind : w.kind ≠ .workPacket0) (hkind' : w.kind ≠ .workNew) (heq : r.nextAfter w = r.next) :
      r.nextAfter w = r.size ↔ r.next = r.size ∨ w.Ends p r.size := by
    rw [heq]
    refine ⟨.inl, fun h => h.elim id fun hends => ?_⟩
    exact absurd hends.2.1 (not_or.mpr ⟨hkind, hkind'⟩)
  cases hw with
  | metaData hkind hpkt hlo hhi =>
    exact hother (by rw [hkind]; decide) (by rw [hkind]; decide) (by simp only [Rpc.nextAfter, hkind])
  | resend d n sp rest hkind hpkt hresends hd hn =>
    exact hother (by rw [hkind]; decide) (by rw [hkind]; decide) (by simp only [Rpc.nextAfter, hkind])
  | tailDup d n off hkind hpkt htail hd =>
    exact hother (by rw [hkind]; decide) (by rw [hkind]; decide) (by simp only [Rpc.nextAfter, hkind])
  | packet0 d n hkind hpkt hd hn hlo hhi =>
    have hoff : w.off = 0 := by simp only [Work.off, data?_of_pkt hpkt]; exact hd.offset
    have hlen : w.len = n := by simp only [Work.len, data?_of_pkt hpkt]; exact hd.length
    simp only [Rpc.nextAfter, Work.Ends, hkind, hp, hoff, hlen, true_and, true_or]
    omega
  | new d n hkind hpkt hd hn =>
    have hoff : w.off = r.next := by simp only [Work.off, data?_of_pkt hpkt]; exact hd.offset
    have hlen : w.len = n := by simp only [Work.len, data?_of_pkt hpkt]; exact hd.length
    simp only [Rpc.nextAfter, Work.Ends, hkind, hp, hoff, hlen, true_and, or_true]
    omega

/-- What completes a small RPC ends it. -/
theorem WorkOk.ends_of_completedBy (hok : RpcOk cfg r) (hw : WorkOk r w) (hp : w.r = some p)
    (h : r.CompletedBy cfg w) : w.Ends p r.size := by
  obtain ⟨-, -, hduped, hpos, hle, hnext⟩ := h
  rcases (hw.nextAfter_eq_iff hok hp).mp hnext with hwhole | hends
  · rw [hok.duped hpos hle hwhole] at hduped
    cases hduped
  · exact hends

/-- A tail duplicate carries what is queued. -/
theorem WorkOk.span_of_tailDup (hw : WorkOk r w) (hkind : w.kind = .workTailDup) : r.tailDup = some w.span := by
  cases hw with
  | tailDup d n off _ hpkt htail hd =>
    have hoff : w.off = off := by simp only [Work.off, data?_of_pkt hpkt]; exact hd.offset
    have hlen : w.len = n := by simp only [Work.len, data?_of_pkt hpkt]; exact hd.length
    rw [htail, Work.span, hoff, hlen]
  | metaData hkind' | packet0 _ _ hkind' | resend _ _ _ _ hkind' | new _ _ hkind' =>
    rw [hkind] at hkind'
    cases hkind'

/-! ## Steps -/

/-- An RPC with the same fields, where nothing is handed over or recorded. -/
theorem CopyOk.congr (h : CopyOk cfg s p r) (hsend : r.SameSend r') (hhanded : s'.handed = s.handed)
    (hrecorded : s'.recorded = s.recorded) (hflying : s'.session.flying p = s.session.flying p) :
    CopyOk cfg s' p r' := by
  have hcopies : s'.copies p = s.copies p := by rw [Sys.copies, hhanded, Sys.copies]
  have hcompleter : s'.completer p r'.size = s.completer p r.size := by
    rw [Sys.completer, hrecorded, hsend.size, Sys.completer]
  have hcopy : s'.session.flyingCopy p = s.session.flyingCopy p := by
    rw [Session.flyingCopy, hflying, Session.flyingCopy]
  constructor
  · rw [hcompleter, hsend.size, hsend.next]
    exact h.complete
  · rw [hsend.tailDuped, hsend.tailDup, hcopies]
    exact h.unduped
  · rw [hsend.tailDuped, hsend.size]
    exact h.small
  · rw [hsend.tailDuped, hsend.tailDup, hcopies, hcompleter, hcopy]
    exact h.once

theorem sameSend_refl (r : Rpc) : r.SameSend r := ⟨rfl, rfl, rfl, rfl, rfl, rfl, rfl, rfl, rfl⟩

/-- A new RPC, for which nothing was handed over or recorded. -/
theorem CopyOk.of_unknown (hhanded : ∀ h ∈ s.handed, h.work.r ≠ some p)
    (hrecorded : ∀ w ∈ s.recorded, w.r ≠ some p) (hnext : r.next = 0) (hduped : r.tailDuped = false)
    (hdup : r.tailDup = none) : CopyOk cfg s p r := by
  have hcompleter : s.completer p r.size = none := by
    rw [Sys.completer, List.find?_eq_none]
    intro w hw
    rw [decide_eq_true_eq]
    exact fun hends => hrecorded w hw hends.1
  have hcopies : s.copies p = [] := by
    rw [Sys.copies, List.map_eq_nil_iff, List.filter_eq_nil_iff]
    intro h hh
    rw [decide_eq_true_eq]
    exact fun his => hhanded h hh his.2
  refine ⟨fun hpos => ?_, fun _ => ⟨hdup, hcopies⟩, fun h => ?_, fun h => ?_⟩
  · rw [hcompleter, hnext]
    simp only [Option.isSome_none, Bool.false_eq_true, false_iff]
    omega
  · rw [hduped] at h
    cases h
  · rw [hduped] at h
    cases h

/-- Handing over a work. -/
theorem CopyOk.sent {g : Handed} (h : CopyOk cfg s p r) (hw : g.work.r = some p → WorkOk r g.work)
    (hnone : s.session.flying p = none) (hphase' : ∃ seq, s'.session.phase = .handed g.work seq)
    (hhanded : s'.handed = s.handed ++ [g]) (hrecorded : s'.recorded = s.recorded) : CopyOk cfg s' p r := by
  obtain ⟨seq, hphase'⟩ := hphase'
  have hflying : s'.session.flying p = if g.work.r = some p then some g.work else none := by
    rw [Session.flying, hphase']
  have hcompleter : s'.completer p r.size = s.completer p r.size := by
    rw [Sys.completer, hrecorded, Sys.completer]
  have hcopies : s'.copies p = s.copies p ++ if g.Is .workTailDup p then [g.work] else [] := by
    rw [Sys.copies, hhanded, List.filter_append, List.map_append, Sys.copies]
    by_cases his : g.Is .workTailDup p <;> simp [his]
  have hcopy : s'.session.flyingCopy p = if g.Is .workTailDup p then [g.work] else [] := by
    rw [Session.flyingCopy, hflying]
    by_cases hr : g.work.r = some p <;> by_cases hk : g.work.kind = .workTailDup <;> simp [Handed.Is, hr, hk]
  have hbefore : s.session.flyingCopy p = [] := by rw [Session.flyingCopy, hnone]; rfl
  -- a tail duplicate is only picked for an RPC that has one queued
  have htail (his : g.Is .workTailDup p) : r.tailDup = some g.work.span := (hw his.2).span_of_tailDup his.1
  refine ⟨by rw [hcompleter]; exact h.complete, fun hduped => ?_, h.small, fun hduped => ?_⟩
  · obtain ⟨hdup, hnil⟩ := h.unduped hduped
    have hnot : ¬ g.Is .workTailDup p := fun his => Option.some_ne_none _ ((htail his).symm.trans hdup)
    rw [hcopies, if_neg hnot, hnil]
    exact ⟨hdup, rfl⟩
  · obtain ⟨c, hc, hcase⟩ := h.once hduped
    refine ⟨c, hcompleter.trans hc, ?_⟩
    rcases hcase with ⟨hdup, hsame⟩ | ⟨hdup, w, hone, hspan⟩
    · rw [hcopies, hsame, hbefore, hcopy]
      exact .inl ⟨hdup, rfl⟩
    · have hnot : ¬ g.Is .workTailDup p := fun his => Option.some_ne_none _ ((htail his).symm.trans hdup)
      rw [hcopies, if_neg hnot, List.append_nil]
      exact .inr ⟨hdup, w, hone, hspan⟩

/-- What ends the RPC first, once another work is recorded. -/
theorem completer_concat (hrecorded : s'.recorded = s.recorded ++ [w]) (p size : ℕ) :
    s'.completer p size = (s.completer p size).or (if w.Ends p size then some w else none) := by
  rw [Sys.completer, hrecorded, List.find?_append, Sys.completer]
  by_cases h : w.Ends p size <;> simp [h]

/-- Recording a work of another RPC. -/
theorem CopyOk.recordOther (h : CopyOk cfg s p r) (hp : w.r ≠ some p) (hnone : s.session.flying p = none)
    (hnone' : s'.session.flying p = none) (hhanded : s'.handed = s.handed)
    (hrecorded : s'.recorded = s.recorded ++ [w]) : CopyOk cfg s' p r := by
  have hcompleter : s'.completer p r.size = s.completer p r.size := by
    rw [completer_concat hrecorded, if_neg fun hends => hp hends.1, Option.or_none]
  have hcopies : s'.copies p = s.copies p := by rw [Sys.copies, hhanded, Sys.copies]
  have hcopy : s'.session.flyingCopy p = s.session.flyingCopy p := by
    rw [Session.flyingCopy, hnone', Session.flyingCopy, hnone]
  refine ⟨by rw [hcompleter]; exact h.complete, by rw [hcopies]; exact h.unduped, h.small, ?_⟩
  rw [hcompleter, hcopies, hcopy]
  exact h.once

/-- Recording a work of the RPC. -/
theorem CopyOk.record (hok : RpcOk cfg r) (h : CopyOk cfg s p r) (hw : WorkOk r w) (hp : w.r = some p)
    (hflying : s.session.flying p = some w) (hflying' : s'.session.flying p = none)
    (hrec : Recorded cfg r w r') (hhanded : s'.handed = s.handed)
    (hrecorded : s'.recorded = s.recorded ++ [w]) : CopyOk cfg s' p r' := by
  have hcopies : s'.copies p = s.copies p := by rw [Sys.copies, hhanded, Sys.copies]
  have hcompleter := completer_concat hrecorded p r'.size
  have hcopy' : s'.session.flyingCopy p = [] := by rw [Session.flyingCopy, hflying']; rfl
  rw [hrec.size] at hcompleter
  refine ⟨fun hpos => ?_, fun hduped => ?_, fun hduped => ?_, fun hduped => ?_⟩
  · rw [hrec.size] at hpos ⊢
    rw [hcompleter, hrec.next, hw.nextAfter_eq_iff hok hp, ← h.complete hpos, Option.isSome_or, Bool.or_eq_true]
    refine or_congr_right ?_
    split_ifs with hends <;> simp [hends]
  · rw [hrec.tailDuped, Bool.or_eq_false_iff, decide_eq_false_iff_not] at hduped
    obtain ⟨hdup, hnil⟩ := h.unduped hduped.1
    rw [hrec.tailDup, Rpc.tailAfter, if_neg hduped.2, hdup, ite_self, hcopies]
    exact ⟨rfl, hnil⟩
  · rw [hrec.tailDuped, Bool.or_eq_true, decide_eq_true_eq] at hduped
    rw [hrec.size]
    exact hduped.elim h.small fun hdone => ⟨hdone.2.2.2.1, hdone.2.2.2.2.1⟩
  · rw [hrec.tailDuped, Bool.or_eq_true, decide_eq_true_eq] at hduped
    rw [hrec.size, hcompleter, hcopies, hcopy', hrec.tailDup, Rpc.tailAfter]
    by_cases hdone : r.CompletedBy cfg w
    · -- the work completes the RPC, so that nothing did before
      have hends := hw.ends_of_completedBy hok hp hdone
      obtain ⟨-, -, hno, hpos, hle, -⟩ := id hdone
      have hfirst : s.completer p r.size = none := by
        by_contra hsome
        have hwhole := (h.complete hpos).mp (Option.isSome_iff_ne_none.mpr hsome)
        rw [hok.duped hpos hle hwhole] at hno
        cases hno
      rw [if_pos hdone, hfirst, if_pos hends]
      exact ⟨w, rfl, .inl ⟨rfl, (h.unduped hno).2⟩⟩
    · obtain ⟨c, hc, hcase⟩ := h.once (hduped.resolve_right hdone)
      rw [if_neg hdone, hc, Option.some_or]
      refine ⟨c, rfl, ?_⟩
      by_cases htail : w.kind = .workTailDup
      · rw [if_pos htail]
        have hdup := hw.span_of_tailDup htail
        rcases hcase with ⟨hqueued, hsame⟩ | ⟨hnone, -⟩
        · refine .inr ⟨rfl, w, ?_, Option.some.inj (hdup.symm.trans hqueued)⟩
          rw [hsame, Session.flyingCopy, hflying]
          simp [htail]
        · rw [hnone] at hdup
          cases hdup
      · have hnil : s.session.flyingCopy p = [] := by
          rw [Session.flyingCopy, hflying]
          simp [htail]
        rw [if_neg htail]
        rcases hcase with ⟨hqueued, hsame⟩ | hmade
        · exact .inl ⟨hqueued, hsame.trans hnil⟩
        · exact .inr hmade

/-- **The copies, at every step.** -/
theorem Copies.step (hinv : Inv cfg s.session) (h : Copies cfg s) (heff : Effect cfg s a s') : Copies cfg s' := by
  have hsame {t : Sys} (hheap : t.session.heap = s.session.heap) (hhanded : t.handed = s.handed)
      (hrecorded : t.recorded = s.recorded) (hflying : ∀ p, t.session.flying p = s.session.flying p) :
      Copies cfg t := by
    refine ⟨by rw [hhanded, hheap]; exact h.known, by rw [hrecorded, hheap]; exact h.recorded, ?_⟩
    rw [hheap]
    exact fun p r hr => (h.rpc p r hr).congr (sameSend_refl r) hhanded hrecorded (hflying p)
  have hmove {t : Sys} (hheap : t.session.heap = s.session.heap) (hhanded : t.handed = s.handed)
      (hrecorded : t.recorded = s.recorded) (hphase : ∀ w seq, s.session.phase ≠ .handed w seq)
      (hphase' : ∀ w seq, t.session.phase ≠ .handed w seq) : Copies cfg t :=
    hsame hheap hhanded hrecorded fun p =>
      (flying_eq_none_of_phase hphase' p).trans (flying_eq_none_of_phase hphase p).symm
  cases heff with
  | offer | malformed | nothing | evictIdle => exact hsame rfl rfl rfl fun _ => rfl
  | pick order w hphase => exact hmove rfl rfl rfl (by simp [hphase]) (by simp)
  | hold w hphase | check w hphase => exact hmove rfl rfl rfl (by simp [hphase]) (by simp)
  | refused w limit m hphase | ended w o hphase => exact hmove rfl rfl rfl (by simp [hphase]) (by simp)
  | packet b now got pkt m hb hdecode hm =>
    have hmap : MapOk { s.session with metrics := m } := ⟨hinv.map.mem, hinv.map.nodup⟩
    have hlen {p : ℕ} (hp : p < s.session.heap.length) :
        p < (Session.handle cfg { s.session with metrics := m } now got pkt).heap.length := by
      obtain ⟨r, hr⟩ : ∃ r, s.session.heap[p]? = some r := ⟨_, List.getElem?_eq_getElem hp⟩
      obtain ⟨r', hr', -⟩ := exists_touch cfg now got pkt hmap hr
      exact (List.getElem?_eq_some_iff.mp hr').1
    have hphase := (sameLoop_handle cfg { s.session with metrics := m } now got pkt).phase
    refine ⟨fun g hg p hp => hlen (h.known g hg p hp), fun w hw p hp => hlen (h.recorded w hw p hp), ?_⟩
    intro p r' hr'
    rcases heap_handle hmap hr' with ⟨r, hr, ht⟩ | ⟨hp, q, asset, -, -, -, rfl⟩
    · exact (h.rpc p r hr).congr ht.sameSend rfl rfl (flying_congr hphase p)
    · refine CopyOk.of_unknown (fun g hg hgp => ?_) (fun w hw hwp => ?_) rfl rfl rfl
      · have hlt := h.known g hg p hgp
        simp only at hp
        omega
      · have hlt := h.recorded w hw p hwp
        simp only at hp
        omega
  | sent w o m hphase ho hm =>
    have hbusy : s.session.busy = some w := by rw [Session.busy, hphase]
    refine ⟨List.forall_mem_append.mpr ⟨h.known, List.forall_mem_singleton.mpr fun p hp => ?_⟩, h.recorded, ?_⟩
    · obtain ⟨r, hr, -⟩ := hinv.exists_workOk hbusy hp
      exact (List.getElem?_eq_some_iff.mp hr).1
    · intro p r hr
      refine (h.rpc p r hr).sent (fun hp => ?_) (flying_eq_none_of_phase (by simp [hphase]) p) ⟨_, rfl⟩ rfl rfl
      obtain ⟨r₁, hr₁, hok⟩ := hinv.exists_workOk hbusy hp
      obtain rfl := Option.some.inj (hr.symm.trans hr₁)
      exact hok
  | recordReply w seq rest m hphase hpending hkind hr hseq hm =>
    refine ⟨h.known, List.forall_mem_append.mpr ⟨h.recorded, ?_⟩, fun p r hrpc => ?_⟩
    · exact List.forall_mem_singleton.mpr fun p hp => by rw [hr] at hp; cases hp
    · have hp : w.r ≠ some p := by rw [hr]; exact (Option.some_ne_none p).symm
      have hnone : s.session.flying p = none := by
        rw [Session.flying, hphase]
        exact if_neg hp
      exact (h.rpc p r hrpc).recordOther hp hnone (flying_idle rfl p) rfl rfl
  | record w seq p r r' m hphase hp hr hw hrec hseq hm =>
    refine ⟨?_, ?_, ?_⟩
    · rw [List.length_set]
      exact h.known
    · rw [List.length_set]
      refine List.forall_mem_append.mpr ⟨h.recorded, List.forall_mem_singleton.mpr fun q hq => ?_⟩
      obtain rfl := Option.some.inj (hp.symm.trans hq)
      exact (List.getElem?_eq_some_iff.mp hr).1
    · intro q t ht
      by_cases hpq : p = q
      · subst hpq
        rw [heap_set_self hr, Option.some.injEq] at ht
        subst ht
        have hflying : s.session.flying p = some w := by
          rw [Session.flying, hphase]
          exact if_pos hp
        exact CopyOk.record (hinv.rpc p r hr) (h.rpc p r hr) hw hp hflying (flying_idle rfl p) hrec rfl rfl
      · rw [List.getElem?_set_ne hpq] at ht
        have hne : w.r ≠ some q := fun hq => hpq (Option.some.inj (hp.symm.trans hq))
        have hnone : s.session.flying q = none := by
          rw [Session.flying, hphase]
          exact if_neg hne
        exact (h.rpc q t ht).recordOther hne hnone (flying_idle rfl q) rfl rfl

theorem copies_reachable (h : Machine.Reachable (Sys.step cfg) (Sys.init cfg) s) : Copies cfg s := by
  refine reachable_induction (P := Copies cfg) ?_ (fun _ _ _ hinv h heff => h.step hinv heff) h
  refine ⟨by simp [Sys.init], by simp [Sys.init], ?_⟩
  simp [Sys.init, Session.init]

/-! ## Over a run -/

/-- A tail duplicate is only picked when nothing else is due. -/
theorem pick_tailDup (hinv : Inv cfg s.session) {order : List ℕ} (hperm : order.Perm s.session.live)
    (hpick : s.session.pick order = .ok (some w)) (hkind : w.kind = .workTailDup) :
    s.session.pending = [] ∧ ∀ p ∈ s.session.live, ∃ r, s.session.heap[p]? = some r ∧
      r.packet0Req ≤ r.metaSent ∧ r.packet0Req ≤ r.packet0Sent ∧ r.resends = [] ∧ r.granted ≤ r.next := by
  rcases hinv.pick hperm with hnone | ⟨w', hw', hpicked⟩
  · rw [hnone] at hpick
    cases hpick
  obtain rfl := Option.some.inj (Except.ok.inj (hpick.symm.trans hw'))
  cases hpicked with
  | reply rest hpending hr hcontrol =>
    rw [hkind] at hcontrol
    cases hcontrol
  | data q t hempty horder ht hdue hok hfor hleast =>
    refine ⟨hempty, fun p hp => ?_⟩
    obtain ⟨r, hr, hrank⟩ := hleast p (hperm.mem_iff.mpr hp)
    refine ⟨r, hr, ?_⟩
    rw [hkind] at hrank
    unfold Rpc.due at hrank
    split_ifs at hrank with h1 h2 h3 h4
    · exact absurd (hrank _ rfl) (by decide)
    · exact absurd (hrank _ rfl) (by decide)
    · exact absurd (hrank _ rfl) (by decide)
    · exact absurd (hrank _ rfl) (by decide)
    all_goals exact ⟨by omega, by omega, List.eq_nil_of_length_eq_zero (by omega), by omega⟩

/-- The copies of an RPC: one at most, and of the packet that completed it. -/
theorem CopyOk.copies_le (hinv : Inv cfg s.session) (h : CopyOk cfg s p r) (hr : s.session.heap[p]? = some r) :
    (s.copies p).length ≤ 1 ∧ ∀ w ∈ s.copies p, ∃ c, s.completer p r.size = some c ∧ w.span = c.span := by
  cases hduped : r.tailDuped with
  | false =>
    rw [(h.unduped hduped).2]
    simp
  | true =>
    obtain ⟨c, hc, ⟨hdup, hsame⟩ | ⟨hdup, w, hone, hspan⟩⟩ := h.once hduped
    · rw [hsame, Session.flyingCopy]
      cases hflying : s.session.flying p with
      | none => simp
      | some w =>
        refine ⟨(List.length_filter_le _ _).trans (le_refl _), fun w' hw' => ⟨c, hc, ?_⟩⟩
        obtain ⟨hmem, hkind⟩ := List.mem_filter.mp hw'
        obtain rfl := Option.some.inj (Option.mem_toList.mp hmem)
        have hspan := (hinv.flying hr hflying).1.span_of_tailDup (of_decide_eq_true hkind)
        exact Option.some.inj (hspan.symm.trans hdup)
    · rw [hone]
      exact ⟨le_refl _, fun w' hw' => ⟨c, hc, (List.mem_singleton.mp hw') ▸ hspan⟩⟩

/-- Once every byte of a small RPC was sent, its copy was handed over or is queued. -/
theorem CopyOk.queued_or_copied (h : CopyOk cfg s p r) (hduped : r.tailDuped = true) (hle : (s.copies p).length ≤ 1) :
    (s.copies p).length = 1 ∨ s.copies p = [] ∧ r.tailDup = (s.completer p r.size).map Work.span := by
  obtain ⟨c, hc, ⟨hdup, -⟩ | ⟨-, w, hone, -⟩⟩ := h.once hduped
  · rcases Nat.le_one_iff_eq_zero_or_eq_one.mp hle with hzero | hone
    · exact .inr ⟨List.eq_nil_of_length_eq_zero hzero, by rw [hc, hdup]; rfl⟩
    · exact .inl hone
  · exact .inl (by rw [hone]; rfl)

/-- Every live RPC of the size that is repeated has its copy, if all of it was sent. -/
def Sys.Copied (cfg : Config) (s : Sys) : Prop :=
  ∀ p ∈ s.session.live, ∀ r, s.session.heap[p]? = some r → 0 < r.size → (r.size : ℤ) ≤ cfg.tailDuplicate →
    r.next = r.size → (s.copies p).length = 1

/-- A session without work has made every copy. -/
theorem copied_of_pick (hinv : Inv cfg s.session) (hcopies : Copies cfg s) {order : List ℕ}
    (hperm : order.Perm s.session.live) (hnone : s.session.pick order = .ok none) : s.Copied cfg := by
  intro p hlive r hr hpos hsmall hwhole
  obtain ⟨r₁, hr₁, hdue⟩ := (pick_eq_none hnone).2 p (hperm.mem_iff.mpr hlive)
  obtain rfl := Option.some.inj (hr.symm.trans hr₁)
  obtain ⟨-, -, hdup, -, -⟩ := due_eq_none (hinv.rpc p r hr) hdue
  obtain ⟨c, hc, ⟨hqueued, -⟩ | ⟨-, w, hone, -⟩⟩ :=
    (hcopies.rpc p r hr).once ((hinv.rpc p r hr).duped hpos hsmall hwhole)
  · rw [hdup] at hqueued
    cases hqueued
  · rw [hone]
    rfl

/-- **The queued copies are handed over.** As long as the connection accepts what it gets,
    no packet arrives and nothing is evicted, every copy is made by the time that the
    send loop has recorded its backlog, and it can always go on until it has. -/
theorem copied_of_drained (hreach : Machine.Reachable (Sys.step cfg) (Sys.init cfg) s)
    (hidle : s.session.phase = .idle) (hlimit : s.session.maxDatagram ≤ 65535)
    (hnumbers : s.session.seqOn = true → s.session.nextSeq + s.session.backlog cfg ≤ maxUint32) {more : List Act}
    {t : Sys} (hleads : Leads cfg s more t) :
    (t.recorded.length = s.recorded.length + s.session.backlog cfg → t.Copied cfg) ∧
      ∃ rest u, Leads cfg t rest u ∧ u.Copied cfg := by
  obtain ⟨chunk, hchunk, hstart⟩ := draining_of_idle hreach hidle hlimit hnumbers
  have hdrained {more : List Act} {t : Sys} (hleads : Leads cfg s more t) (hzero : t.session.backlog cfg = 0) :
      t.Copied cfg := by
    have ht := hstart.leads hchunk hleads
    have hnone := (pick_eq_none_iff hchunk ht (List.Perm.refl _)).mpr hzero
    exact copied_of_pick ht.inv (copies_reachable (hreach.run hleads.2)) (List.Perm.refl _) hnone
  have ht := hstart.leads hchunk hleads
  constructor
  · intro hall
    have htotal := ht.total_eq
    exact hdrained hleads (by omega)
  · obtain ⟨rest, u, hrest, -, hzero⟩ := ht.exists_end hchunk
    exact ⟨rest, u, hrest, hdrained (hleads.trans hrest) hzero⟩

/-- **The tail duplicate is once and last.** In every run:

    * a tail duplicate is only picked when no reply waits and no live RPC has META,
      packet 0, a resend or new data due;
    * an RPC, whose completer is there once all its bytes were sent, has one copy at
      most, of the range of its completer, which ends at its size;
    * it has none if it is empty or larger than `TailDuplicate`;
    * else, once all its bytes were sent, its copy was handed over or is queued, and
      when `pick` reports no work the copy of a live RPC was handed over;
    * that comes about: from the top of the loop, as long as the connection accepts what
      it gets, no packet arrives, nothing is evicted and the sequence numbers last, the
      copies are made once the backlog is recorded, and the loop can go on to there. -/
theorem tail_duplicate (cfg : Config) (acts : List Act) (s : Sys)
    (hrun : Machine.run (Sys.step cfg) (Sys.init cfg) acts = some s) :
    (∀ order w, order.Perm s.session.live → s.session.pick order = .ok (some w) → w.kind = .workTailDup →
      s.session.pending = [] ∧ ∀ p ∈ s.session.live, ∃ r, s.session.heap[p]? = some r ∧
        r.packet0Req ≤ r.metaSent ∧ r.packet0Req ≤ r.packet0Sent ∧ r.resends = [] ∧ r.granted ≤ r.next) ∧
    (∀ p r, s.session.heap[p]? = some r →
      (0 < r.size → ((s.completer p r.size).isSome ↔ r.next = r.size)) ∧
      (s.copies p).length ≤ 1 ∧
      (∀ w ∈ s.copies p, ∃ c, s.completer p r.size = some c ∧ w.off = c.off ∧ w.len = c.len ∧
        w.off + w.len = r.size) ∧
      (¬ (0 < r.size ∧ (r.size : ℤ) ≤ cfg.tailDuplicate) → s.copies p = []) ∧
      (0 < r.size → (r.size : ℤ) ≤ cfg.tailDuplicate → r.next = r.size →
        ((s.copies p).length = 1 ∨ s.copies p = [] ∧ r.tailDup = (s.completer p r.size).map Work.span) ∧
        ∀ order, order.Perm s.session.live → s.session.phase = .idle → p ∈ s.session.live →
          s.session.pick order = .ok none → (s.copies p).length = 1)) ∧
    (s.session.phase = .idle → s.session.maxDatagram ≤ 65535 →
      (s.session.seqOn = true → s.session.nextSeq + s.session.backlog cfg ≤ maxUint32) →
      ∀ more t, (∀ a ∈ more, a.Sends) → Machine.run (Sys.step cfg) s more = some t →
        (t.recorded.length = s.recorded.length + s.session.backlog cfg → t.Copied cfg) ∧
        ∃ rest u, (∀ a ∈ rest, a.Sends) ∧ Machine.run (Sys.step cfg) t rest = some u ∧ u.Copied cfg) := by
  have hinv := inv_reachable ⟨acts, hrun⟩
  have hcopies := copies_reachable ⟨acts, hrun⟩
  refine ⟨fun order w hperm hpick hkind => pick_tailDup hinv hperm hpick hkind, fun p r hr => ?_,
    fun hidle hlimit hnumbers more t hsends hmore => ?_⟩
  · have h := hcopies.rpc p r hr
    obtain ⟨hle, hspan⟩ := h.copies_le hinv hr
    refine ⟨h.complete, hle, fun w hw => ?_, fun hlarge => ?_, fun hpos hsmall hwhole => ?_⟩
    · obtain ⟨c, hc, heq⟩ := hspan w hw
      have hends : c.Ends p r.size := by
        have := List.find?_some hc
        exact of_decide_eq_true this
      obtain ⟨hoff, hstop⟩ := Span.mk.inj heq
      exact ⟨c, hc, hoff, by omega, hstop.trans hends.2.2⟩
    · cases hduped : r.tailDuped with
      | false => exact (h.unduped hduped).2
      | true => exact absurd (h.small hduped) hlarge
    · refine ⟨h.queued_or_copied ((hinv.rpc p r hr).duped hpos hsmall hwhole) hle, ?_⟩
      intro order hperm hidle hlive hnone
      exact copied_of_pick hinv hcopies hperm hnone p hlive r hr hpos hsmall hwhole
  · obtain ⟨hdrained, rest, u, hrest, hu⟩ := copied_of_drained ⟨acts, hrun⟩ hidle hlimit hnumbers ⟨hsends, hmore⟩
    exact ⟨hdrained, rest, u, hrest.1, hrest.2, hu⟩

end TailDuplicate

/-- The asset is sent whole in packet 0, and once more: queued, then handed over. -/
theorem tail_duplicate_small : (∃ s r, Machine.run (Sys.step tailConfig) (Sys.init tailConfig)
      (clientSends (smallReq 5) 0 ++ serverSends [0] ++ serverSends [0] ++ serverSends [0]) = some s ∧
    s.session.heap[0]? = some r ∧ r.next = r.size ∧ (s.copies 0).length = 1) ∧
    ∃ s t, Machine.run (Sys.step tailConfig) (Sys.init tailConfig)
      (clientSends (smallReq 5) 0 ++ serverSends [0] ++ serverSends [0]) = some s ∧ s.copies 0 = [] ∧
    Machine.run (Sys.step tailConfig) s (serverSends [0]) = some t ∧ t.Copied tailConfig := by
  constructor
  · obtain ⟨s, hrun, hsent⟩ := exists_run_of_any tailConfig
      (clientSends (smallReq 5) 0 ++ serverSends [0] ++ serverSends [0] ++ serverSends [0])
      (P := fun s => s.session.heap[0]?.any fun r : Rpc =>
        decide (r.next = r.size) && decide (r.size = 5) && decide ([0].Perm s.session.live) &&
          decide (s.session.phase = .idle) && decide (s.session.pick [0] = .ok none)) (by decide +kernel)
    obtain ⟨r, hr, hsent⟩ := (Option.any_eq_true _ _).mp hsent
    simp only [Bool.and_eq_true, decide_eq_true_eq] at hsent
    obtain ⟨⟨⟨⟨hwhole, hsize⟩, hperm⟩, hidle⟩, hnone⟩ := hsent
    have hlive : 0 ∈ s.session.live := hperm.mem_iff.mp List.mem_cons_self
    have hcopy := ((tail_duplicate tailConfig _ s hrun).2.1 0 r hr).2.2.2.2 (by omega) (by rw [hsize]; decide) hwhole
    exact ⟨s, r, hrun, hr, hwhole, hcopy.2 [0] hperm hidle hlive hnone⟩
  · obtain ⟨s, hrun, hqueued⟩ := exists_run_of_any tailConfig
      (clientSends (smallReq 5) 0 ++ serverSends [0] ++ serverSends [0])
      (P := fun s => decide (s.session.phase = .idle) && decide (s.session.maxDatagram ≤ 65535) &&
        decide (s.session.seqOn = false) && decide (s.session.backlog tailConfig = 1) &&
        decide (s.recorded.length = 2) && decide (s.copies 0 = []) &&
        (Machine.run (Sys.step tailConfig) s (serverSends [0])).any fun t : Sys => decide (t.recorded.length = 3))
      (by decide +kernel)
    simp only [Bool.and_eq_true, decide_eq_true_eq] at hqueued
    obtain ⟨⟨⟨⟨⟨⟨hidle, hlimit⟩, hseq⟩, hleft⟩, htwo⟩, hnone⟩, hmore⟩ := hqueued
    obtain ⟨t, hmore, hthree⟩ := (Option.any_eq_true _ _).mp hmore
    have hthree := of_decide_eq_true hthree
    obtain ⟨hcopied, -⟩ := (tail_duplicate tailConfig _ s hrun).2.2 hidle hlimit (by rw [hseq]; simp) _ t
      (by simp [serverSends, Act.Sends]) hmore
    exact ⟨s, t, hrun, hnone, hmore, hcopied (by rw [hthree, htwo, hleft])⟩

end Http4.Sender
