import Http4.Sender.Queue
import Http4.Sender.Sent

/-!
# Repairs by number

A RESEND_SEQ names numbers one after the other. The first time a number is named
while the ring holds it, its entry is marked, and its bytes are queued if its RPC
is live then; from then on naming it does nothing.

Main results:

* `Answered.step`: the entries marked are those of the numbers named while the
  ring held them.
* `repair_once`: each number queues bytes at most once in a run, and then exactly
  those it carried, clipped to what is granted and sent.
-/

namespace Http4.Sender

open Wire (Packet)

/-! ## Naming one number -/

/-- Naming `j` does nothing any more, if the ring holds it at all. -/
structure Session.Spent (s : Session) (j : ℕ) : Prop where
  resent : s.holds j = true → (s.entry j).resent = true

/-- Naming `seq` queues bytes. -/
def Session.Repairs (s : Session) (seq : ℕ) (now : ℤ) : Prop :=
  (s.resendSeq seq now).heap.map Rpc.resends ≠ s.heap.map Rpc.resends

instance (s : Session) (seq : ℕ) (now : ℤ) : Decidable (s.Repairs seq now) :=
  inferInstanceAs (Decidable (¬ _ = _))

section Naming

variable {s : Session} {j k : ℕ} {now : ℤ}

theorem holds_resendSeq (s : Session) (k : ℕ) (now : ℤ) (j : ℕ) :
    (s.resendSeq k now).holds j = s.holds j := by
  have hmark := marked_resendSeq s k now (j % seqRingSize)
  simp only [Session.holds, Session.entry, hmark.valid, hmark.seq]

theorem holds_resendSeqs (s : Session) (seqs : List ℕ) (now : ℤ) (j : ℕ) :
    (s.resendSeqs seqs now).holds j = s.holds j := by
  have hmark := marked_resendSeqs s seqs now (j % seqRingSize)
  simp only [Session.holds, Session.entry, hmark.valid, hmark.seq]

/-- A number that is held has a slot of its own. -/
theorem eq_of_slot (hj : s.holds j = true) (hk : s.holds k = true)
    (h : j % seqRingSize = k % seqRingSize) : j = k := by
  simp only [Session.holds, Session.entry, Bool.and_eq_true, beq_iff_eq] at hj hk
  rw [h] at hj
  exact hj.2.symm.trans hk.2

/-- Naming another number leaves an entry alone. -/
theorem entry_resendSeq_of_ne (hj : s.holds j = true) (hne : k ≠ j) :
    (s.resendSeq k now).entry j = s.entry j := by
  rcases s.resendSeq_cases k now with ⟨-, hring, -⟩ | ⟨hk, -, hring, -⟩
  · rw [Session.entry, hring, Session.entry]
  · rw [Session.entry, hring, Function.update_of_ne, Session.entry]
    exact fun hslot => hne (eq_of_slot hj hk hslot).symm

theorem entry_resendSeqs_of_notMem {seqs : List ℕ} (hj : s.holds j = true) (hne : j ∉ seqs) :
    (s.resendSeqs seqs now).entry j = s.entry j := by
  induction seqs generalizing s with
  | nil => rfl
  | cons k seqs ih =>
    rw [List.mem_cons, not_or] at hne
    rw [Session.resendSeqs_cons, ih (by rw [holds_resendSeq]; exact hj) hne.2,
      entry_resendSeq_of_ne hj (Ne.symm hne.1)]

/-- A number is spent once it was named. -/
theorem spent_resendSeq_self (s : Session) (k : ℕ) (now : ℤ) : (s.resendSeq k now).Spent k := by
  refine ⟨fun hk => ?_⟩
  rw [holds_resendSeq] at hk
  rcases s.resendSeq_cases k now with ⟨hmiss, hring, -⟩ | ⟨-, -, hring, -⟩
  · rw [Session.entry, hring]
    exact hmiss.resolve_left (not_not.mpr hk)
  · rw [Session.entry, hring, Function.update_self]

theorem Session.Spent.resendSeq (h : s.Spent j) (k : ℕ) (now : ℤ) : (s.resendSeq k now).Spent j := by
  refine ⟨fun hj => ?_⟩
  rw [holds_resendSeq] at hj
  exact (marked_resendSeq s k now (j % seqRingSize)).resent (h.resent hj)

theorem Session.Spent.resendSeqs (h : s.Spent j) (seqs : List ℕ) (now : ℤ) :
    (s.resendSeqs seqs now).Spent j := by
  refine ⟨fun hj => ?_⟩
  rw [holds_resendSeqs] at hj
  exact (marked_resendSeqs s seqs now (j % seqRingSize)).resent (h.resent hj)

theorem spent_resendSeqs_of_mem {seqs : List ℕ} (h : j ∈ seqs) :
    (s.resendSeqs seqs now).Spent j := by
  induction seqs generalizing s with
  | nil => cases h
  | cons k seqs ih =>
    rw [Session.resendSeqs_cons]
    rcases List.mem_cons.mp h with rfl | h
    · exact (spent_resendSeq_self s j now).resendSeqs seqs now
    · exact ih h

/-- Naming a spent number changes no RPC. -/
theorem Session.Spent.heap (h : s.Spent j) (now : ℤ) : (s.resendSeq j now).heap = s.heap := by
  rcases s.resendSeq_cases j now with ⟨-, -, hheap⟩ | ⟨hj, hnot, -, -⟩
  · exact hheap
  · rw [h.resent hj] at hnot
    cases hnot

/-- The entries marked after several numbers were named. -/
theorem resent_resendSeqs {seqs : List ℕ} (hj : s.holds j = true) :
    ((s.resendSeqs seqs now).entry j).resent = true ↔ (s.entry j).resent = true ∨ j ∈ seqs := by
  by_cases hmem : j ∈ seqs
  · have hspent : (s.resendSeqs seqs now).Spent j := spent_resendSeqs_of_mem hmem
    simp only [hmem, or_true, iff_true]
    exact hspent.resent (by rw [holds_resendSeqs]; exact hj)
  · rw [entry_resendSeqs_of_notMem hj hmem]
    simp [hmem]

end Naming

/-! ## The numbers that queue bytes -/

/-- Of the numbers named in order, those that queue bytes. -/
def repairs (now : ℤ) : Session → List ℕ → List ℕ
  | _, [] => []
  | s, seq :: seqs =>
    (if s.Repairs seq now then [seq] else []) ++ repairs now (s.resendSeq seq now) seqs

/-- The numbers that queue bytes in a step. -/
def Sys.repairedBy (s : Sys) : Act → List ℕ
  | .receive b now _ =>
    match Wire.Go.decode b with
    | .ok (.resendSeq q) =>
      if s.session.seqOn then repairs now s.session (Session.seqRange q.start q.stop) else []
    | _ => []
  | _ => []

theorem repairs_nodup (now : ℤ) (s : Session) (seqs : List ℕ) :
    (repairs now s seqs).Nodup ∧ ∀ j ∈ repairs now s seqs, ¬ s.Spent j ∧ s.holds j = true ∧ j ∈ seqs := by
  induction seqs generalizing s with
  | nil => exact ⟨List.nodup_nil, by simp [repairs]⟩
  | cons k seqs ih =>
    obtain ⟨hnodup, hfresh⟩ := ih (s.resendSeq k now)
    have hrest : ∀ j ∈ repairs now (s.resendSeq k now) seqs,
        ¬ s.Spent j ∧ s.holds j = true ∧ j ∈ k :: seqs := by
      intro j hj
      obtain ⟨hspent, hheld, hmem⟩ := hfresh j hj
      rw [holds_resendSeq] at hheld
      exact ⟨fun h => hspent (h.resendSeq k now), hheld, List.mem_cons_of_mem k hmem⟩
    rw [repairs]
    split_ifs with hrep
    · refine ⟨List.nodup_cons.mpr ⟨fun hk => ?_, hnodup⟩, List.forall_mem_cons.mpr ⟨?_, hrest⟩⟩
      · exact (hfresh k hk).1 (spent_resendSeq_self s k now)
      · -- a number that is spent or not held queues nothing
        have hspent : ¬ s.Spent k := fun h => hrep (congrArg (List.map Rpc.resends) (h.heap now))
        refine ⟨hspent, ?_, List.mem_cons_self⟩
        by_contra hheld
        exact hspent ⟨fun h => absurd h hheld⟩
    · exact ⟨hnodup, hrest⟩

/-! ## The invariant -/

/-- The entries marked are those of the numbers named while the ring held them. -/
structure Answered (s : Sys) : Prop where
  lt : ∀ j ∈ s.answered, j < s.session.nextSeq
  resent_iff : ∀ j, s.session.holds j = true →
    ((s.session.entry j).resent = true ↔ j ∈ s.answered)

section Answered

variable {cfg : Config} {s s' : Sys}

theorem Answered.congr (h : Answered s) (hring : s'.session.ring = s.session.ring)
    (hnext : s'.session.nextSeq = s.session.nextSeq) (hanswered : s'.answered = s.answered) :
    Answered s' where
  lt := by rw [hanswered, hnext]; exact h.lt
  resent_iff := by
    intro j
    rw [Session.holds, Session.entry, hring, hanswered]
    exact h.resent_iff j

theorem Answered.spent (h : Answered s) {j : ℕ} (hj : j ∈ s.answered) : s.session.Spent j :=
  ⟨fun hheld => (h.resent_iff j hheld).mpr hj⟩

theorem Answered.packet (hnum : Numbered cfg s) (h : Answered s) {now : ℤ} {got : GetResult}
    {pkt : Packet} {m : Metrics}
    (hsession : s'.session = Session.handle cfg { s.session with metrics := m } now got pkt)
    (hanswered : s'.answered = s.answered ++ Sys.answers s.session pkt) : Answered s' := by
  have hnext : s'.session.nextSeq = s.session.nextSeq := by
    rw [hsession]
    exact (sameLoop_handle cfg { s.session with metrics := m } now got pkt).nextSeq
  rcases ring_handle_cases cfg { s.session with metrics := m } now got pkt with
    ⟨hring, hoff⟩ | ⟨hoff, hring, q, rfl⟩ | ⟨q, rfl, hon, m', heq⟩
  · have hnone : Sys.answers s.session pkt = [] := by
      unfold Sys.answers
      split
      next q =>
        have hoff := hoff q rfl
        simp only at hoff
        rw [hoff]
        rfl
      · rfl
    rw [hnone, List.append_nil] at hanswered
    exact h.congr (by rw [hsession]; exact hring) hnext hanswered
  · -- the ring is new, so nothing was numbered yet
    have hzero := hnum.unused hoff
    refine ⟨?_, ?_⟩
    · rw [hanswered, hnext]
      simp only [Sys.answers, List.append_nil]
      exact h.lt
    · intro j hj
      rw [Session.holds, Session.entry, hsession, hring] at hj
      cases hj
  · simp only at hon
    rw [heq] at hsession
    have hheld (j : ℕ) : s'.session.holds j = s.session.holds j := by
      rw [hsession]
      exact holds_resendSeqs { s.session with metrics := m' } _ now j
    simp only [Sys.answers, hon, if_true] at hanswered
    refine ⟨?_, fun j hj => ?_⟩
    · rw [hanswered, hnext]
      refine List.forall_mem_append.mpr ⟨h.lt, fun j hj => ?_⟩
      have hj := (List.mem_filter.mp hj).2
      rw [holds_iff, hnum.ring.holds_iff] at hj
      exact hj.1
    · rw [hheld] at hj
      rw [hsession, hanswered, List.mem_append, List.mem_filter, ← h.resent_iff j hj]
      have hresent : ((Session.resendSeqs { s.session with metrics := m' } (Session.seqRange q.start q.stop)
          now).entry j).resent = true ↔ (s.session.entry j).resent = true ∨ j ∈ Session.seqRange q.start q.stop :=
        resent_resendSeqs hj
      rw [hresent]
      simp only [hj, and_true]

theorem Answered.record (hnum : Numbered cfg s) (hnum' : Numbered cfg s') (h : Answered s) {w : Work}
    {e : SeqEntry} {seq : ℕ} (hseq' : w.seq = true → seq = s.session.nextSeq)
    (hring : s'.session.ring = if w.seq then
      Function.update s.session.ring (seq % seqRingSize) e else s.session.ring)
    (hresent : e.resent = false)
    (hnext : s'.session.nextSeq = if w.seq then s.session.nextSeq + 1 else s.session.nextSeq)
    (hanswered : s'.answered = s.answered) : Answered s' := by
  cases hseq : w.seq with
  | false =>
    simp only [hseq, Bool.false_eq_true, if_false] at hring hnext
    exact h.congr hring hnext hanswered
  | true =>
    simp only [hseq, if_true, hseq' hseq] at hring hnext
    refine ⟨?_, fun j hj => ?_⟩
    · rw [hanswered, hnext]
      exact fun j hj => (h.lt j hj).trans (Nat.lt_succ_self _)
    · have hin := hj
      rw [holds_iff, hnum'.ring.holds_iff, hnext] at hin
      rw [hanswered]
      by_cases hk : j = s.session.nextSeq
      · -- the new number was not named before
        subst hk
        rw [Session.entry, hring, Function.update_self, hresent]
        exact iff_of_false Bool.false_ne_true fun hmem => absurd (h.lt _ hmem) (lt_irrefl _)
      · have hheld : s.session.holds j = true := by
          rw [holds_iff, hnum.ring.holds_iff]
          omega
        have hslot : j % seqRingSize ≠ s.session.nextSeq % seqRingSize := by
          intro heq
          have hdvd := (Nat.modEq_iff_dvd' (show j ≤ s.session.nextSeq by omega)).mp heq
          exact absurd (Nat.le_of_dvd (by omega) hdvd) (by omega)
        rw [Session.entry, hring, Function.update_of_ne hslot]
        exact h.resent_iff j hheld

theorem Answered.step {a : Act} (hinv : Inv cfg s.session) (hnum : Numbered cfg s) (h : Answered s)
    (heff : Effect cfg s a s') : Answered s' := by
  have hnum' := hnum.step hinv heff
  cases heff with
  | packet b now got pkt m hb hdecode hm => exact h.packet hnum rfl rfl
  | record w seq p r r' m hphase hp hr hw hrec hseq hm =>
    exact h.record hnum hnum' (fun hon => (hnum.flight w seq hphase hon).1) rfl rfl rfl rfl
  | offer | malformed | pick | hold | check | sent | refused | ended | recordReply | evictIdle =>
    exact h.congr rfl rfl rfl
  | nothing => exact h

theorem answered_reachable (h : Machine.Reachable (Sys.step cfg) (Sys.init cfg) s) : Answered s := by
  have hboth : Numbered cfg s ∧ Answered s :=
    reachable_induction (P := fun s => Numbered cfg s ∧ Answered s)
      ⟨numbered_init cfg, by simp [Sys.init], by simp [Sys.init, Session.init, Session.holds,
        Session.entry, SeqEntry.zero]⟩
      (fun _ _ _ hinv ⟨hnum, h⟩ heff => ⟨hnum.step hinv heff, h.step hinv hnum heff⟩) h
  exact hboth.2

/-! ## At most once -/

theorem Effect.answered {a : Act} (heff : Effect cfg s a s') {j : ℕ} (hj : j ∈ s.answered) :
    j ∈ s'.answered := by
  cases heff with
  | packet => exact List.mem_append_left _ hj
  | offer | malformed | nothing | pick | hold | check | sent | refused | ended | recordReply
  | record | evictIdle => exact hj

/-- What queues bytes is named while the ring holds it. -/
theorem Effect.repairedBy {a : Act} (heff : Effect cfg s a s') {j : ℕ} (hj : j ∈ s.repairedBy a) :
    j ∈ s'.answered := by
  cases heff with
  | packet b now got pkt m hb hdecode hm =>
    simp only [Sys.repairedBy, hdecode] at hj
    split at hj
    next q heq =>
      rw [Except.ok.injEq] at heq
      subst heq
      split_ifs at hj with hon
      · obtain ⟨-, hheld, hmem⟩ := (repairs_nodup _ _ _).2 j hj
        refine List.mem_append_right _ ?_
        simp only [Sys.answers, hon, if_true]
        exact List.mem_filter.mpr ⟨hmem, hheld⟩
      · cases hj
    · cases hj
  | malformed b now got e m hb hdecode hm =>
    simp only [Sys.repairedBy, hdecode] at hj
    cases hj
  | offer | nothing | pick | hold | check | sent | refused | ended | recordReply | record
  | evictIdle => cases hj

theorem repairedBy_nodup (h : Answered s) (a : Act) :
    (s.repairedBy a).Nodup ∧ ∀ j ∈ s.repairedBy a, j ∉ s.answered := by
  have hnil : ([] : List ℕ).Nodup ∧ ∀ j ∈ ([] : List ℕ), j ∉ s.answered :=
    ⟨List.nodup_nil, by simp⟩
  unfold Sys.repairedBy
  split
  · split
    · split_ifs
      · obtain ⟨hnodup, hfresh⟩ := repairs_nodup _ s.session _
        exact ⟨hnodup, fun j hj hmem => (hfresh j hj).1 (h.spent hmem)⟩
      · exact hnil
    · exact hnil
  · exact hnil

/-- **In a run no number queues bytes twice.** -/
theorem repaired_nodup (cfg : Config) (acts : List Act) :
    (Machine.outputs (Sys.step cfg) Sys.repairedBy (Sys.init cfg) acts).Nodup := by
  have hall := @Machine.outputs_nodup _ _ (Sys.step cfg) _ Sys.repairedBy
    (fun s => Machine.Reachable (Sys.step cfg) (Sys.init cfg) s) (fun s j => j ∈ s.answered)
    (fun s a s' hs hstep => hs.next hstep)
    (fun s a s' j hs hstep hj => ((inv_reachable hs).effect hstep).answered hj)
    (fun s a hs => repairedBy_nodup (answered_reachable hs) a)
    (fun s a s' hs hstep j hj => ((inv_reachable hs).effect hstep).repairedBy hj)
    (Sys.init cfg) acts ⟨[], rfl⟩
  exact hall.1

/-! ## Exactly its bytes -/

/-- The session while a RESEND_SEQ is handled, when it has named `done`. -/
def Sys.naming (s : Sys) (m : Metrics) (done : List ℕ) (now : ℤ) : Session :=
  Session.resendSeqs { s.session with metrics := m } done now

/-- The first time a number is named while the ring holds it, exactly the bytes it
    carried are queued, clipped to what is granted and sent. -/
theorem queue_first (h : Machine.Reachable (Sys.step cfg) (Sys.init cfg) s) {m : Metrics} {now : ℤ}
    {done : List ℕ} {seq : ℕ} (hheld : s.session.holds seq = true) (hnew : seq ∉ s.answered)
    (hdone : seq ∉ done) {d : Wire.DataSeq} (hd : s.numbers[seq]? = some d) {p : ℕ} {r : Rpc}
    (hp : (s.naming m done now).lookup d.rpcId = some p)
    (hr : (s.naming m done now).heap[p]? = some r) :
    ∃ r', ((s.naming m done now).resendSeq seq now).heap[p]? = some r' ∧
      ((s.naming m done now).resendSeq seq now).queue p r' = (s.naming m done now).queue p r ++
        List.range' d.offset.toNat
          (min (d.offset.toNat + d.payload.length) (min r.granted r.next) - d.offset.toNat) ∧
      ∀ q, q ≠ p → ((s.naming m done now).resendSeq seq now).heap[q]? =
        (s.naming m done now).heap[q]? := by
  have hinv := inv_reachable h
  have hnum := numbered_reachable h
  have hwrap := (sentBelow_reachable h).numbers d (List.mem_of_getElem? hd)
  -- the entry of the number, which `done` does not change
  have hentry : (s.naming m done now).entry seq = s.session.entry seq :=
    entry_resendSeqs_of_notMem (s := { s.session with metrics := m }) hheld hdone
  have hresent : (s.session.entry seq).resent = false := by
    have hiff := (answered_reachable h).resent_iff seq hheld
    by_contra hne
    exact hnew (hiff.mp (by simpa using hne))
  have hheld' : (s.naming m done now).holds seq = true :=
    (holds_resendSeqs { s.session with metrics := m } done now seq).trans hheld
  obtain ⟨hrpc, hoff, hn⟩ : (s.session.entry seq).rpc = d.rpcId ∧
      (s.session.entry seq).off = d.offset.toNat ∧ (s.session.entry seq).n = d.payload.length := by
    have hin := hheld
    rw [holds_iff, hnum.ring.holds_iff] at hin
    obtain ⟨-, d', hd', hrest⟩ := hnum.ring.kept seq hin.1 hin.2
    rw [hd, Option.some.injEq] at hd'
    exact hd' ▸ hrest
  -- the RPC was only touched since the packet arrived
  obtain ⟨r₀, hr₀, htouch⟩ := heap_resendSeqs { s.session with metrics := m } done now
    (.hello { rpcId := 0, caps := 0 }) p r hr
  have hok := (hinv.rpc p r₀ hr₀).touch htouch
  have hphase : (s.naming m done now).phase = s.session.phase :=
    (Session.resendSeqs_sameLoop { s.session with metrics := m } done now).phase
  have hflying : ∀ w, (s.naming m done now).flying p = some w → WorkOk r w := by
    intro w hw
    rw [Session.flying, hphase] at hw
    exact (hinv.flying hr₀ hw).1.touch htouch
  have hheap : ((s.naming m done now).resendSeq seq now).heap =
      (s.naming m done now).heap.modify p
        fun r => r.resendSeq d.offset.toNat d.payload.length now := by
    rcases (s.naming m done now).resendSeq_cases seq now with ⟨hmiss, -⟩ | ⟨-, -, -, hheap⟩
    · rw [hentry, hresent] at hmiss
      exact absurd hheld' (hmiss.resolve_right Bool.false_ne_true)
    · rw [hheap, hentry, hrpc, hp, hoff, hn]
  refine ⟨r.resendSeq d.offset.toNat d.payload.length now, ?_, ?_, ?_⟩
  · rw [hheap, List.getElem?_modify_eq, hr]
    rfl
  · have hbytes := spanBytes_resendSeq hok d.offset.toNat d.payload.length now
    rw [u32Add_of_lt hwrap] at hbytes
    exact (queue_touch hflying
      (.resendSeq r r _ _ (.none r) : Touch (.hello { rpcId := 0, caps := 0 }) now r _)
      (Session.resendSeq_sameLoop _ seq now).phase hbytes).1
  · intro q hq
    rw [hheap, List.getElem?_modify_ne _ _ hq.symm]

/-- A number that was named before while the ring held it, or that the ring does
    not hold, changes no RPC. -/
theorem heap_again (h : Machine.Reachable (Sys.step cfg) (Sys.init cfg) s) {m : Metrics} {now : ℤ}
    {done : List ℕ} {seq : ℕ} (hold : seq ∈ s.answered ∨ seq ∈ done ∨ s.session.holds seq = false) :
    ((s.naming m done now).resendSeq seq now).heap = (s.naming m done now).heap := by
  have hspent : (s.naming m done now).Spent seq := by
    rcases hold with hans | hdone | hmiss
    · have hspent : Session.Spent { s.session with metrics := m } seq :=
        ⟨((answered_reachable h).spent hans).resent⟩
      exact hspent.resendSeqs done now
    · exact spent_resendSeqs_of_mem hdone
    · refine ⟨fun hheld => ?_⟩
      rw [Sys.naming, holds_resendSeqs] at hheld
      exact absurd (hmiss.symm.trans hheld) Bool.false_ne_true
  exact hspent.heap now

end Answered

/-! ## RESEND_SEQ -/

/-- **Repair by number.** In every run:
    1. no number queues bytes twice;
    2. a RESEND_SEQ names its numbers one after the other;
    3. the first time a number is named while the ring holds it, if its RPC is live
       exactly the bytes it carried, clipped to granted and next, are added to
       those still queued for that RPC, and no other RPC changes;
    4. naming it again, or a number the ring does not hold, changes no RPC;
    5. the send loop takes off a queue only the bytes that it hands over, and
       nothing but the receive loop adds any. -/
theorem repair_once (cfg : Config) (acts : List Act) (s : Sys)
    (hrun : Machine.run (Sys.step cfg) (Sys.init cfg) acts = some s) :
    (Machine.outputs (Sys.step cfg) Sys.repairedBy (Sys.init cfg) acts).Nodup ∧
    (∀ b now got q s', Wire.Go.decode b = .ok (.resendSeq q) → s.session.seqOn = true →
      Sys.step cfg s (.receive b now got) = some s' →
      ∃ m, s'.session = s.naming m (Session.seqRange q.start q.stop) now) ∧
    (∀ m now done seq d p r, s.session.holds seq = true → seq ∉ s.answered → seq ∉ done →
      s.numbers[seq]? = some d → (s.naming m done now).lookup d.rpcId = some p →
      (s.naming m done now).heap[p]? = some r →
      ∃ r', ((s.naming m done now).resendSeq seq now).heap[p]? = some r' ∧
        ((s.naming m done now).resendSeq seq now).queue p r' = (s.naming m done now).queue p r ++
          List.range' d.offset.toNat
            (min (d.offset.toNat + d.payload.length) (min r.granted r.next) - d.offset.toNat) ∧
        ∀ q, q ≠ p → ((s.naming m done now).resendSeq seq now).heap[q]? =
          (s.naming m done now).heap[q]?) ∧
    (∀ m now done seq, seq ∈ s.answered ∨ seq ∈ done ∨ s.session.holds seq = false →
      ((s.naming m done now).resendSeq seq now).heap = (s.naming m done now).heap) ∧
    (∀ a s' p r, Sys.step cfg s a = some s' → s.session.heap[p]? = some r →
      ∃ r', s'.session.heap[p]? = some r' ∧ r'.id = r.id ∧ QueueStep a s s' p r r') := by
  have hreach : Machine.Reachable (Sys.step cfg) (Sys.init cfg) s := ⟨acts, hrun⟩
  have hinv := inv_reachable hreach
  refine ⟨repaired_nodup cfg acts, ?_, ?_, ?_, ?_⟩
  · intro b now got q s' hdecode hon hstep
    obtain ⟨-, m, -, rfl⟩ := step_receive hdecode hstep
    exact ⟨_, if_neg (not_not.mpr hon)⟩
  · intro m now done seq d p r hheld hnew hdone hd hp hr
    exact queue_first hreach hheld hnew hdone hd hp hr
  · intro m now done seq hold
    exact heap_again hreach hold
  · intro a s' p r hstep hr
    exact (hinv.effect hstep).queue hinv hr

/-- The numbers a step names while the ring holds them and their RPC is live. -/
def Sys.namedLive (s : Sys) : Act → List ℕ
  | .receive b _ _ =>
    match Wire.Go.decode b with
    | .ok (.resendSeq q) =>
      if s.session.seqOn then (Session.seqRange q.start q.stop).filter fun j =>
        s.session.holds j && (s.session.lookup (s.session.entry j).rpc).isSome
      else []
    | _ => []
  | _ => []

/-- Had each number its bytes queued the first time it is named while the ring holds
    it and its RPC is live, whatever happened before. -/
def RepairsWhenLive (cfg : Config) : Prop :=
  ∀ acts s b now got q seq p r s', Machine.run (Sys.step cfg) (Sys.init cfg) acts = some s →
    Wire.Go.decode b = .ok (.resendSeq q) → Session.seqRange q.start q.stop = [seq] →
    s.session.seqOn = true → s.session.holds seq = true →
    s.session.lookup (s.session.entry seq).rpc = some p → s.session.heap[p]? = some r →
    seq ∉ Machine.outputs (Sys.step cfg) Sys.namedLive (Sys.init cfg) acts →
    Sys.step cfg s (.receive b now got) = some s' →
    ∃ r', s'.session.heap[p]? = some r' ∧ s'.session.queue p r' = s.session.queue p r ++
      List.range' (s.session.entry seq).off
        (min ((s.session.entry seq).off + (s.session.entry seq).n) (min r.granted r.next) -
          (s.session.entry seq).off)

/-- A RESEND_SEQ of the number 0. -/
def smallResendSeq : Wire.ResendSeq := { rpcId := 0, start := 0, stop := 1 }

/-- A HELLO and a REQ, META, and packet 0 as number 0. -/
def smallNumbered : List Act :=
  clientSends (.hello { rpcId := 0, caps := 1 }) 0 ++ clientSends (smallReq 5) 0 ++
    serverSends [0] ++ serverSends [0]

/-- Number 0 is named: its five bytes are queued. -/
theorem repair_once_small :
    ∃ s p r r', Machine.run (Sys.step smallConfig) (Sys.init smallConfig) smallNumbered = some s ∧
      (s.naming s.session.metrics [] 0).heap[p]? = some r ∧
      ((s.naming s.session.metrics [] 0).resendSeq 0 0).heap[p]? = some r' ∧
      ((s.naming s.session.metrics [] 0).resendSeq 0 0).queue p r' =
        (s.naming s.session.metrics [] 0).queue p r ++ [0, 1, 2, 3, 4] := by
  obtain ⟨s, hrun, hP⟩ := exists_run_of_any smallConfig smallNumbered
    (P := fun s => decide (s.session.holds 0 = true ∧ 0 ∉ s.answered) &&
      (s.numbers[0]?).any fun (d : Wire.DataSeq) => (s.session.heap[0]?).any fun (r : Rpc) =>
        decide (s.session.lookup d.rpcId = some 0 ∧ d.offset = 0 ∧ d.payload.length = 5 ∧
          r.granted = 5 ∧ r.next = 5)) (by decide +kernel)
  obtain ⟨hheld, hP⟩ := Bool.and_eq_true _ _ |>.mp hP
  obtain ⟨hheld, hnew⟩ := of_decide_eq_true hheld
  obtain ⟨d, hd, hP⟩ := (Option.any_eq_true _ _).mp hP
  obtain ⟨r, hr, hP⟩ := (Option.any_eq_true _ _).mp hP
  obtain ⟨hp, hoff, hlen, hgranted, hnext⟩ := of_decide_eq_true hP
  obtain ⟨-, -, hfirst, -⟩ := repair_once _ _ s hrun
  obtain ⟨r', hr', hqueue, -⟩ :=
    hfirst s.session.metrics 0 [] 0 d 0 r hheld hnew (by simp) hd hp hr
  rw [hoff, hlen, hgranted, hnext] at hqueue
  exact ⟨s, 0, r, r', hrun, hr, hr', hqueue⟩

/-- The RPC is evicted, number 0 is named, and the RPC is requested and answered
    again. -/
def smallReborn : List Act :=
  smallNumbered ++ [.evictIdle (10 ^ 12)] ++ clientSends (.resendSeq smallResendSeq) (10 ^ 12) ++
    clientSends (smallReq 5) (10 ^ 12) ++ serverSends [1] ++ serverSends [1]

/-- Number 0 is first named after its RPC was evicted. When the RPC is back under the
    same identifier and has sent its bytes again, naming the number does nothing. -/
theorem not_repairsWhenLive : ¬ RepairsWhenLive smallConfig := by
  intro hlive
  have hdecode : Wire.Go.decode (datagram (.resendSeq smallResendSeq)) =
      .ok (.resendSeq smallResendSeq) := by decide +kernel
  obtain ⟨s, hrun, hP⟩ := exists_run_of_any smallConfig
    smallReborn
    (P := fun s => decide (s.session.seqOn = true ∧ s.session.holds 0 = true ∧
        s.session.lookup (s.session.entry 0).rpc = some 1 ∧
        0 ∉ Machine.outputs (Sys.step smallConfig) Sys.namedLive (Sys.init smallConfig)
          smallReborn) &&
      (Sys.step smallConfig s
        (.receive (datagram (.resendSeq smallResendSeq)) (10 ^ 12) .notFound)).any fun (s' : Sys) =>
      (s.session.heap[1]?).any fun (r : Rpc) => (s'.session.heap[1]?).all fun (r' : Rpc) =>
        decide (s'.session.queue 1 r' ≠ s.session.queue 1 r ++ List.range' (s.session.entry 0).off
          (min ((s.session.entry 0).off + (s.session.entry 0).n) (min r.granted r.next) -
            (s.session.entry 0).off))) (by decide +kernel)
  obtain ⟨hstate, hP⟩ := Bool.and_eq_true _ _ |>.mp hP
  obtain ⟨hon, hheld, hp, hfirst⟩ := of_decide_eq_true hstate
  obtain ⟨s', hstep, hP⟩ := (Option.any_eq_true _ _).mp hP
  obtain ⟨r, hr, hP⟩ := (Option.any_eq_true _ _).mp hP
  obtain ⟨r', hr', hqueue⟩ := hlive _ s _ _ _ _ 0 1 r s' hrun hdecode rfl hon hheld hp hr hfirst hstep
  rw [hr', Option.all_some] at hP
  exact of_decide_eq_true hP hqueue

end Http4.Sender
