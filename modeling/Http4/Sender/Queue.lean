import Http4.Sender.Grants

/-!
# The bytes queued for resend

A span is changed at both ends: the send loop takes bytes off the front of the
first one, the receive loop prolongs the last one, and the two can be the same.
Seen as a list of bytes, the queue only grows at its end and shrinks at its
front. While a resend is between its hand-over and its recording, the bytes it
carries are still in `resends`; `Session.queue` leaves them out.

Main results:

* `spanBytes_resend`, `spanBytes_resendSeq`: what a repair request adds.
* `Effect.queue`: what each step does to the queue of an RPC and to the bytes it
  has not sent yet.
-/

namespace Http4.Sender

open Wire (Packet)

/-! ## Bytes of spans -/

/-- The bytes of a span. -/
def Span.bytes (sp : Span) : List ℕ := List.range' sp.start (sp.stop - sp.start)

/-- The bytes of the spans, in order. -/
def spanBytes (l : List Span) : List ℕ := l.flatMap Span.bytes

@[simp] theorem spanBytes_nil : spanBytes [] = [] := rfl

@[simp] theorem spanBytes_cons (sp : Span) (l : List Span) :
    spanBytes (sp :: l) = sp.bytes ++ spanBytes l := List.flatMap_cons

@[simp] theorem spanBytes_append (l m : List Span) :
    spanBytes (l ++ m) = spanBytes l ++ spanBytes m := List.flatMap_append

/-- Cutting a span in two. -/
theorem range'_split {a m b : ℕ} (h : a ≤ m) (h' : m ≤ b) :
    List.range' a (b - a) = List.range' a (m - a) ++ List.range' m (b - m) := by
  have happend := List.range'_append_1 (s := a) (m := m - a) (n := b - m)
  rw [Nat.add_sub_cancel' h, show m - a + (b - m) = b - a by omega] at happend
  exact happend.symm

/-- A RESEND adds its range, clipped to what was granted and sent. -/
theorem spanBytes_resend (r : Rpc) (a b : ℕ) (now : ℤ) :
    spanBytes (r.resend a b now).resends =
      spanBytes r.resends ++ List.range' a (min b (min r.granted r.next) - a) := by
  rcases resends_resend r a b now with ⟨heq, hle⟩ | ⟨-, heq⟩
  · rw [heq, Nat.sub_eq_zero_of_le hle, List.range'_zero, List.append_nil]
  · rw [heq, spanBytes_append]
    simp [Span.bytes]

/-- A number that is named adds the bytes it carried, clipped alike; whether they
    become a span of their own or prolong the last one makes no difference. -/
theorem spanBytes_resendSeq {cfg : Config} {r : Rpc} (h : RpcOk cfg r) (off n : ℕ) (now : ℤ) :
    spanBytes (r.resendSeq off n now).resends = spanBytes r.resends ++
      List.range' off (min (u32Add off n) (min r.granted r.next) - off) := by
  rcases resends_resendSeq r off n now with ⟨heq, hle⟩ | ⟨-, heq⟩ | ⟨hlt, front, last, hr, hlast, heq⟩
  · rw [heq, Nat.sub_eq_zero_of_le hle, List.range'_zero, List.append_nil]
  · rw [heq, spanBytes_append]
    simp [Span.bytes]
  · obtain ⟨hne, -⟩ := h.spans last (by rw [hr]; simp)
    rw [heq, hr, spanBytes_append, spanBytes_append, List.append_assoc]
    simp only [spanBytes_cons, spanBytes_nil, List.append_nil, Span.bytes]
    rw [range'_split (show last.start ≤ off by omega) hlt.le, hlast]

/-- Taking `n` bytes of the first span. -/
theorem spanBytes_dropFront {n : ℕ} {sp : Span} {rest : List Span} (h : sp.start + n ≤ sp.stop) :
    spanBytes (sp :: rest) = List.range' sp.start n ++ spanBytes (dropFront n (sp :: rest)) := by
  have hsplit := range'_split (show sp.start ≤ sp.start + n by omega) h
  rw [Nat.add_sub_cancel_left] at hsplit
  rw [spanBytes_cons, Span.bytes, hsplit, dropFront, List.append_assoc]
  split_ifs with hend
  · rw [Nat.sub_eq_zero_of_le hend, List.range'_zero, List.nil_append]
  · rw [spanBytes_cons, Span.bytes]

/-! ## The queue of a session -/

/-- The work for the RPC at `p` that was handed over and is not recorded yet. -/
def Session.flying (s : Session) (p : ℕ) : Option Work := match s.phase with
  | .handed w _ => if w.r = some p then some w else none
  | _ => none

/-- The bytes still queued for resend, for the RPC `r` at `p`. -/
def Session.queue (s : Session) (p : ℕ) (r : Rpc) : List ℕ := match s.flying p with
  | some w => spanBytes (r.resendsAfter w)
  | none => spanBytes r.resends

/-- The first byte that was never handed over, for the RPC `r` at `p`. -/
def Session.unsent (s : Session) (p : ℕ) (r : Rpc) : ℕ := match s.flying p with
  | some w => r.nextAfter w
  | none => r.next

/-- A work of the kind for the RPC at `p` was handed over. -/
def Handed.Is (h : Handed) (kind : WorkKind) (p : ℕ) : Prop := h.work.kind = kind ∧ h.work.r = some p

instance (h : Handed) (kind : WorkKind) (p : ℕ) : Decidable (h.Is kind p) := inferInstanceAs (Decidable (_ ∧ _))

section Queue

variable {cfg : Config} {s s' : Sys} {r r' : Rpc}

/-- What a work takes off the queue: the bytes it carries if it is a resend. -/
def Work.resent (w : Work) : List ℕ := match w.kind with
  | .workResend => List.range' w.off w.len
  | _ => []

theorem WorkOk.resent_append {w : Work} (hw : WorkOk r w) :
    spanBytes r.resends = w.resent ++ spanBytes (r.resendsAfter w) := by
  cases hw with
  | resend d n sp rest hkind hpkt hresends hd hn =>
    have hoff : w.off = sp.start := by simp only [Work.off, data?_of_pkt hpkt]; exact hd.offset
    have hlen : w.len = n := by simp only [Work.len, data?_of_pkt hpkt]; exact hd.length
    simp only [Work.resent, Rpc.resendsAfter, hkind, hoff, hlen, hresends]
    exact spanBytes_dropFront hn
  | metaData hkind | packet0 _ _ hkind | new _ _ hkind | tailDup _ _ _ hkind =>
    simp only [Work.resent, Rpc.resendsAfter, hkind, List.nil_append]

/-- A touch adds bytes at the end of the queue. -/
theorem Touch.exists_more {pkt : Packet} {now : ℤ} (h : RpcOk cfg r) (ht : Touch pkt now r r') :
    ∃ more, spanBytes r'.resends = spanBytes r.resends ++ more := by
  have hself : ∃ more, spanBytes r.resends = spanBytes r.resends ++ more :=
    ⟨[], (List.append_nil _).symm⟩
  induction ht with
  | none | request | grant => exact hself
  | resend q => exact ⟨_, spanBytes_resend r q.start.toNat q.stop.toNat now⟩
  | resendSeq t off n ht ih =>
    obtain ⟨more, hmore⟩ := ih
    rw [spanBytes_resendSeq (h.touch ht) off n now, hmore, List.append_assoc]
    exact ⟨_, rfl⟩

/-- Whatever touches the RPC of a work leaves the bytes the work carries where
    they are, so what was added is behind what is left. -/
theorem Touch.resendsAfter {pkt : Packet} {now : ℤ} {w : Work} (hw : WorkOk r w)
    (ht : Touch pkt now r r') {more : List ℕ}
    (hmore : spanBytes r'.resends = spanBytes r.resends ++ more) :
    spanBytes (r'.resendsAfter w) = spanBytes (r.resendsAfter w) ++ more := by
  have hbefore := hw.resent_append
  have hafter := (hw.touch ht).resent_append
  rw [hmore, hbefore, List.append_assoc] at hafter
  exact (List.append_cancel_left hafter).symm

theorem Touch.nextAfter {pkt : Packet} {now : ℤ} (ht : Touch pkt now r r') (w : Work) :
    r'.nextAfter w = r.nextAfter w := by
  simp only [Rpc.nextAfter, ht.sameSend.next]

theorem flying_eq_none_of_phase {s : Session} (h : ∀ w seq, s.phase ≠ .handed w seq) (p : ℕ) :
    s.flying p = none := by
  unfold Session.flying
  split
  next w seq hphase => exact absurd hphase (h w seq)
  · rfl

/-- The work in flight for an RPC is good for it. -/
theorem Inv.flying {s : Session} (hinv : Inv cfg s) {p : ℕ} {w : Work} (hr : s.heap[p]? = some r)
    (hw : s.flying p = some w) : WorkOk r w ∧ w.r = some p := by
  unfold Session.flying at hw
  split at hw
  next w' seq hphase =>
    split_ifs at hw with hp
    obtain rfl := Option.some.inj hw
    exact ⟨hinv.workOk (by rw [Session.busy, hphase]) hp hr, hp⟩
  · cases hw

/-- The work in flight is for an RPC that is there. -/
theorem Inv.flying_of_length {s : Session} {p : ℕ} (hinv : Inv cfg s) (hp : s.heap.length ≤ p) : s.flying p = none := by
  cases hw : s.flying p with
  | none => rfl
  | some w =>
    unfold Session.flying at hw
    split at hw
    next w' seq hphase =>
      split_ifs at hw with hr
      obtain ⟨r, ht, -⟩ := hinv.exists_workOk (by rw [Session.busy, hphase]) hr
      have := (List.getElem?_eq_some_iff.mp ht).1
      omega
    · cases hw

theorem flying_congr {t t' : Session} (h : t'.phase = t.phase) (p : ℕ) : t'.flying p = t.flying p := by
  rw [Session.flying, h, Session.flying]

theorem flying_idle {t : Session} (h : t.phase = .idle) (p : ℕ) : t.flying p = none :=
  flying_eq_none_of_phase (by simp [h]) p

/-- What handling a packet does to a queue: it adds the same bytes as it adds to
    the spans. -/
theorem queue_touch {t u : Session} {p : ℕ} {pkt : Packet} {now : ℤ}
    (hflying : ∀ w, t.flying p = some w → WorkOk r w) (ht : Touch pkt now r r')
    (hphase : u.phase = t.phase) {more : List ℕ} (hmore : spanBytes r'.resends = spanBytes r.resends ++ more) :
    u.queue p r' = t.queue p r ++ more ∧ u.unsent p r' = t.unsent p r := by
  have hsame : u.flying p = t.flying p := by rw [Session.flying, hphase, Session.flying]
  cases hw : t.flying p with
  | none =>
    simp only [Session.queue, Session.unsent, hsame, hw]
    exact ⟨hmore, ht.sameSend.next⟩
  | some w =>
    simp only [Session.queue, Session.unsent, hsame, hw]
    exact ⟨ht.resendsAfter (hflying w hw) hmore, ht.nextAfter w⟩

/-- What a step does to the queue of one RPC and to its unsent bytes. -/
inductive QueueStep (a : Act) (s s' : Sys) (p : ℕ) (r r' : Rpc) : Prop
  /-- The receive loop may add bytes at the end. -/
  | grow (more : List ℕ) (hact : more = [] ∨ ∃ b now got, a = .receive b now got)
      (hqueue : s'.session.queue p r' = s.session.queue p r ++ more)
      (hunsent : s'.session.unsent p r' = s.session.unsent p r)
  /-- A work for this RPC leaves, and takes the bytes it carries off the front if it
      is a resend. -/
  | leave (w : Work) (g : Handed) (hp : w.r = some p) (hsame : r' = r)
      (hhanded : s'.handed = s.handed ++ [g]) (hpacket : dataIn g.packet = w.data?)
      (hqueue : s.session.queue p r = w.resent ++ s'.session.queue p r')
      (hunsent : s.session.unsent p r = r.next) (hunsent' : s'.session.unsent p r' = r.nextAfter w)
      (hw : WorkOk r w)

theorem QueueStep.refl_of {a : Act} {s s' : Sys} {p : ℕ} (hphase : ∀ w seq, s.session.phase ≠ .handed w seq)
    (hphase' : ∀ w seq, s'.session.phase ≠ .handed w seq) : QueueStep a s s' p r r := by
  refine .grow [] (.inl rfl) ?_ ?_
  · rw [Session.queue, Session.queue, flying_eq_none_of_phase hphase,
      flying_eq_none_of_phase hphase', List.append_nil]
  · rw [Session.unsent, Session.unsent, flying_eq_none_of_phase hphase,
      flying_eq_none_of_phase hphase']

theorem QueueStep.refl_of_phase {a : Act} {s s' : Sys} {p : ℕ}
    (hphase : s'.session.phase = s.session.phase) : QueueStep a s s' p r r := by
  have hflying : s'.session.flying p = s.session.flying p := by
    rw [Session.flying, hphase, Session.flying]
  refine .grow [] (.inl rfl) ?_ ?_
  · rw [Session.queue, Session.queue, hflying, List.append_nil]
  · rw [Session.unsent, Session.unsent, hflying]

/-- **What each step does to the queue of an RPC.** -/
theorem Effect.queue {a : Act} (hinv : Inv cfg s.session) (heff : Effect cfg s a s') {p : ℕ}
    (hr : s.session.heap[p]? = some r) :
    ∃ r', s'.session.heap[p]? = some r' ∧ r'.id = r.id ∧ QueueStep a s s' p r r' := by
  cases heff with
  | offer | malformed | nothing | evictIdle => exact ⟨r, hr, rfl, .refl_of_phase rfl⟩
  | packet b now got pkt m hb hdecode hm =>
    have hcount : Inv cfg { s.session with metrics := m } :=
      hinv.congr rfl rfl rfl hinv.work hinv.phase hm.ungrantedSent
    obtain ⟨r', hr', ht⟩ := exists_touch cfg now got pkt
      hcount.map hr
    obtain ⟨more, hmore⟩ := ht.exists_more (hinv.rpc p r hr)
    have hphase := (sameLoop_handle cfg { s.session with metrics := m } now got pkt).phase
    obtain ⟨hqueue, hunsent⟩ := queue_touch (fun w hw => (hcount.flying hr hw).1) ht hphase hmore
    exact ⟨r', hr', ht.id, .grow more (.inr ⟨b, now, got, rfl⟩) hqueue hunsent⟩
  | pick order w hphase | hold w hphase | check w hphase | refused w limit m hphase
  | ended w o hphase =>
    exact ⟨r, hr, rfl, .refl_of (by simp [hphase]) (by simp)⟩
  | recordReply w seq rest m hphase hpending hkind hnone =>
    refine ⟨r, hr, rfl, .grow [] (.inl rfl) ?_ ?_⟩ <;>
      simp [Session.queue, Session.unsent, Session.flying, hphase, hnone]
  | sent w o m hphase ho hm =>
    have hdoing := hinv.work w (by rw [Session.busy, hphase])
    refine ⟨r, hr, rfl, ?_⟩
    by_cases hp : w.r = some p
    · have hok : WorkOk r w := by
        cases hdoing with
        | reply _ _ hnone => rw [hp] at hnone; cases hnone
        | data q t hq ht hok =>
          rw [hp, Option.some.injEq] at hq
          subst hq
          rw [hr, Option.some.injEq] at ht
          exact ht ▸ hok
      refine .leave w _ hp rfl rfl (hinv.dataIn_out hdoing) ?_ ?_ ?_ hok
      · simp only [Session.queue, Session.flying, hphase, hp, if_true]
        exact hok.resent_append
      · simp only [Session.unsent, Session.flying, hphase]
      · simp only [Session.unsent, Session.flying, hp, if_true]
    · refine .grow [] (.inl rfl) ?_ ?_ <;>
        simp [Session.queue, Session.unsent, Session.flying, hphase, hp]
  | record w seq q t t' m hphase hq ht hw hrec hseq hm =>
    by_cases hpq : q = p
    · subst hpq
      rw [hr, Option.some.injEq] at ht
      subst ht
      refine ⟨t', heap_set_self hr, hrec.id, .grow [] (.inl rfl) ?_ ?_⟩
      · simp [Session.queue, Session.flying, hphase, hq, hrec.resends]
      · simp [Session.unsent, Session.flying, hphase, hq, hrec.next]
    · refine ⟨r, by rw [List.getElem?_set_ne hpq]; exact hr, rfl, .grow [] (.inl rfl) ?_ ?_⟩ <;>
        simp [Session.queue, Session.unsent, Session.flying, hphase, hq, hpq]

end Queue

end Http4.Sender
