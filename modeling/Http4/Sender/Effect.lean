import Http4.Sender.Invariant

/-!
# The effect of each step

`Effect` lists what a step of the two loops changes, once, for states that meet
the invariant: there a step never panics, and a picked work is known to be good.
What holds of whole runs is proved by cases on it.

Main results:

* `Inv.effect`: every step has one of these effects.
* `Inv.step`, `inv_reachable`: the invariant holds in every reachable state.
-/

namespace Http4.Sender

open Wire (Packet)

/-- What `pick` chooses: the first reply that waits, or what a live RPC has due. -/
inductive Picked (s : Session) (order : List ℕ) (w : Work) : Prop
  | reply (rest : List Packet) (hpending : s.pending = w.pkt :: rest) (hr : w.r = none)
      (hkind : w.kind = .workControl) (hseq : w.seq = false)
  | data (p : ℕ) (r : Rpc) (hempty : s.pending = []) (horder : p ∈ order)
      (hr : s.heap[p]? = some r) (hdue : r.due = some w.kind) (hw : WorkOk r w)
      (hfor : WorkFor s p w.kind w)
      (hleast : ∀ q ∈ order, ∃ t, s.heap[q]? = some t ∧ ∀ k, t.due = some k → w.kind.rank ≤ k.rank)

/-- What a step changes. `m` stands for the counters afterwards. -/
inductive Effect (cfg : Config) (s : Sys) : Act → Sys → Prop
  | offer (b : Bytes) : Effect cfg s (.offer b) { s with offered := s.offered ++ [b] }
  | malformed (b : Bytes) (now : ℤ) (got : GetResult) (e : Wire.Fault) (m : Metrics)
      (hb : b ∈ s.offered) (hdecode : Wire.Go.decode b = .error e)
      (hm : s.session.metrics.Counts m 0 0) :
      Effect cfg s (.receive b now got) { s with session := { s.session with metrics := m } }
  | packet (b : Bytes) (now : ℤ) (got : GetResult) (pkt : Packet) (m : Metrics) (hb : b ∈ s.offered)
      (hdecode : Wire.Go.decode b = .ok pkt)
      (hm : s.session.metrics.Counts m 0 0) :
      Effect cfg s (.receive b now got)
        { s with
          session := Session.handle cfg { s.session with metrics := m } now got pkt
          handled := s.handled ++ [pkt]
          answered := s.answered ++ Sys.answers s.session pkt }
  | nothing (order : List ℕ) (hphase : s.session.phase = .idle) (hperm : order.Perm s.session.live)
      (hnone : s.session.pick order = .ok none) : Effect cfg s (.pick order) s
  | pick (order : List ℕ) (w : Work) (hphase : s.session.phase = .idle)
      (hperm : order.Perm s.session.live) (hsome : s.session.pick order = .ok (some w))
      (hw : Picked s.session order w) :
      Effect cfg s (.pick order) { s with session := { s.session with phase := .picked w } }
  | hold (w : Work) (hphase : s.session.phase = .picked w) :
      Effect cfg s .hold { s with session := { s.session with phase := .idle } }
  | check (w : Work) (hphase : s.session.phase = .picked w) :
      Effect cfg s .check { s with session := { s.session with phase := .checked w } }
  | sent (w : Work) (o : Session.Outcome) (m : Metrics) (hphase : s.session.phase = .checked w)
      (ho : o = .sent ∨ o = .dropped) (hm : s.session.metrics.Counts m 0 0) :
      Effect cfg s (.handOver o)
        { s with
          session := { s.session with phase := .handed w s.session.seqNumber, metrics := m }
          handed := s.handed ++
            [{ work := w, packet := s.session.out w, lost := decide (o = .dropped) }] }
  | refused (w : Work) (limit : ℤ) (m : Metrics) (hphase : s.session.phase = .checked w)
      (hm : s.session.metrics.Counts m 0 0) (hdata : w.data?.isSome) :
      Effect cfg s (.handOver (.tooLarge limit))
        { s with session := { s.session with
          phase := .idle, maxDatagram := limit - h3DatagramPrefixMax, metrics := m } }
  | ended (w : Work) (o : Session.Outcome) (hphase : s.session.phase = .checked w) :
      Effect cfg s (.handOver o) { s with session := { s.session with phase := .ended } }
  | recordReply (w : Work) (seq : ℕ) (rest : List Packet) (m : Metrics)
      (hphase : s.session.phase = .handed w seq) (hpending : s.session.pending = w.pkt :: rest)
      (hkind : w.kind = .workControl) (hr : w.r = none) (hseq : w.seq = false)
      (hm : s.session.metrics.Counts m 0 0) :
      Effect cfg s .record
        { s with
          session := { s.session with phase := .idle, pending := rest, metrics := m }
          recorded := s.recorded ++ [w] }
  | record (w : Work) (seq p : ℕ) (r r' : Rpc) (m : Metrics)
      (hphase : s.session.phase = .handed w seq) (hp : w.r = some p)
      (hr : s.session.heap[p]? = some r) (hw : WorkOk r w) (hrec : Recorded cfg r w r')
      (hseq : w.seq = true → w.data?.isSome)
      (hm : s.session.metrics.Counts m w.len (r.resentBytes w.kind w.len)) :
      Effect cfg s .record
        { s with
          session := { s.session with
            heap := s.session.heap.set p r'
            phase := .idle
            nextSeq := if w.seq then s.session.nextSeq + 1 else s.session.nextSeq
            ring := if w.seq then
                Function.update s.session.ring (seq % seqRingSize)
                  { seq := seq, valid := true, resent := false, rpc := r.id, off := w.off, n := w.len }
              else s.session.ring
            metrics := m }
          recorded := s.recorded ++ [w] }
  | evictIdle (now : ℤ) :
      Effect cfg s (.evictIdle now) { s with session := s.session.evictIdle cfg now }

section Effect

variable {cfg : Config} {s s' : Sys} {a : Act}

theorem data?_eq_none_of_pending (h : Inv cfg s.session) {w : Work} {rest : List Packet}
    (hpending : s.session.pending = w.pkt :: rest) : w.data? = none := by
  obtain ⟨e, he⟩ := h.pending w.pkt (by rw [hpending]; exact List.mem_cons_self)
  simp only [Work.data?, he]

/-- Picking never panics, and chooses as `Picked` says. -/
theorem Inv.pick (h : Inv cfg s.session) {order : List ℕ} (hperm : order.Perm s.session.live) :
    s.session.pick order = .ok none ∨
      ∃ w, s.session.pick order = .ok (some w) ∧ Picked s.session order w := by
  have hheap : ∀ p ∈ order, ∃ r, s.session.heap[p]? = some r := by
    intro p hp
    obtain ⟨e, he, rfl⟩ := List.mem_map.mp (hperm.mem_iff.mp hp)
    obtain ⟨r, hr, -⟩ := h.map.mem e he
    exact ⟨r, hr⟩
  have hwork : ∀ p ∈ order, ∀ r kind, s.session.heap[p]? = some r → r.due = some kind →
      ∃ w, s.session.workOf r p kind = .ok w := by
    intro p _ r kind hr hdue
    obtain ⟨w, hw, -⟩ := exists_workOf s.session (h.rpc p r hr) p hdue
    exact ⟨w, hw⟩
  obtain ⟨best, hbest⟩ := exists_pick hheap hwork
  cases best with
  | none => exact .inl hbest
  | some w =>
    refine .inr ⟨w, hbest, ?_⟩
    rcases pick_eq_some hbest with ⟨pkt, rest, hpending, rfl⟩ | ⟨hempty, r, p, kind, hp, hr, hdue, hw, hleast⟩
    · exact .reply rest hpending rfl rfl rfl
    · obtain ⟨w', hw', hok, hfor⟩ := exists_workOf s.session (h.rpc p r hr) p hdue
      rw [hw, Except.ok.injEq] at hw'
      subst hw'
      have hkind := hfor.kind
      subst hkind
      exact .data p r hempty hp hr hdue hok hfor hleast

/-- No picked work goes past the grant, so the check changes nothing. -/
theorem Inv.check (h : Inv cfg s.session) {w : Work} (hphase : s.session.phase = .picked w) :
    s.session.check w = { s.session with phase := .checked w } := by
  have hbusy : s.session.busy = some w := by rw [Session.busy, hphase]
  cases h.work w hbusy with
  | reply rest hpending hr hkind hseq =>
    simp only [Session.check, data?_eq_none_of_pending h hpending]
  | data p r hp hr hw hseq =>
    cases hd : w.data? with
    | none => simp only [Session.check, hd]
    | some d =>
      have hok := h.rpc p r hr
      obtain ⟨hc, hle⟩ := hw.carries hok hd
      have hlt := hok.size_lt
      have hgranted := hok.granted_le
      have hpast : Session.pastGrant d r.granted = 0 := by
        have hlen := hw.u32_len hd hok
        have hadd : u32Add d.offset.toNat (u32 d.payload.length) = w.off + w.len := by
          rw [hlen, hc.offset, hc.length, u32Add_of_lt (by omega)]
        simp only [Session.pastGrant, hadd]
        rw [if_neg (by omega)]
      simp only [Session.check, hd, hp, Session.rpc_eq_ok_iff.mpr hr, hpast, Nat.add_zero]

/-- A datagram that decodes is handled. -/
theorem step_receive {b : Bytes} {now : ℤ} {got : GetResult} {pkt : Packet}
    (hdecode : Wire.Go.decode b = .ok pkt) (hstep : Sys.step cfg s (.receive b now got) = some s') :
    b ∈ s.offered ∧ ∃ m : Metrics, s.session.metrics.Counts m 0 0 ∧
      s' = { s with
        session := Session.handle cfg { s.session with metrics := m } now got pkt
        handled := s.handled ++ [pkt]
        answered := s.answered ++ Sys.answers s.session pkt } := by
  simp only [Sys.step] at hstep
  split_ifs at hstep with hb
  simp only [hdecode, Session.receive, Option.some.injEq] at hstep
  exact ⟨hb, { s.session.metrics with packetsIn := s.session.metrics.packetsIn + 1 }, ⟨rfl, rfl, rfl⟩, hstep.symm⟩

/-- **Every step has one of the effects listed.** -/
theorem Inv.effect (h : Inv cfg s.session) (hstep : Sys.step cfg s a = some s') :
    Effect cfg s a s' := by
  cases a with
  | offer b =>
    obtain rfl := Option.some.inj hstep
    exact .offer b
  | receive b now got =>
    cases hdecode : Wire.Go.decode b with
    | error e =>
      simp only [Sys.step] at hstep
      split_ifs at hstep with hb
      simp only [hdecode, Session.receive, Option.some.injEq] at hstep
      subst hstep
      exact .malformed b now got e _ hb hdecode ⟨rfl, rfl, rfl⟩
    | ok pkt =>
      obtain ⟨hb, m, hm, rfl⟩ := step_receive hdecode hstep
      exact .packet b now got pkt m hb hdecode hm
  | pick order =>
    cases hphase : s.session.phase with
    | picked | checked | handed | ended | panicked => simp [Sys.step, hphase] at hstep
    | idle =>
      simp only [Sys.step, hphase] at hstep
      split_ifs at hstep with hperm
      rcases h.pick hperm with hnone | ⟨w, hw, hpicked⟩
      · simp only [hnone, Option.some.injEq] at hstep
        subst hstep
        exact .nothing order hphase hperm hnone
      · simp only [hw, Option.some.injEq] at hstep
        subst hstep
        exact .pick order w hphase hperm hw hpicked
  | hold =>
    cases hphase : s.session.phase with
    | idle | checked | handed | ended | panicked => simp [Sys.step, hphase] at hstep
    | picked w =>
      simp only [Sys.step, hphase] at hstep
      split_ifs at hstep
      obtain rfl := Option.some.inj hstep
      exact .hold w hphase
  | check =>
    cases hphase : s.session.phase with
    | idle | checked | handed | ended | panicked => simp [Sys.step, hphase] at hstep
    | picked w =>
      simp only [Sys.step, hphase, h.check hphase, Option.some.injEq] at hstep
      subst hstep
      exact .check w hphase
  | handOver o =>
    cases hphase : s.session.phase with
    | idle | picked | handed | ended | panicked => simp [Sys.step, hphase] at hstep
    | checked w =>
      simp only [Sys.step, hphase] at hstep
      cases hout : s.session.handOver cfg w o with
      | none => simp [hout] at hstep
      | some t =>
        simp only [hout] at hstep
        rcases handOver_cases hout with ⟨ht, ho, m, heq, hm⟩ | ⟨ht, hdata, limit, m, rfl, heq, hm⟩ | heq
        · simp only [ht, Option.some.injEq] at hstep
          subst hstep heq
          exact .sent w o m hphase ho hm
        · simp only [ht, Option.some.injEq] at hstep
          subst hstep heq
          exact .refused w limit m hphase hm hdata
        · rw [heq] at hstep
          simp only [Option.some.injEq] at hstep
          subst hstep
          exact .ended w o hphase
  | record =>
    cases hphase : s.session.phase with
    | idle | picked | checked | ended | panicked => simp [Sys.step, hphase] at hstep
    | handed w seq =>
      simp only [Sys.step, hphase, Option.some.injEq] at hstep
      have hbusy : s.session.busy = some w := by rw [Session.busy, hphase]
      cases h.work w hbusy with
      | reply rest hpending hr hkind hseq =>
        simp only [Session.record, hkind, hpending] at hstep
        subst hstep
        exact .recordReply w seq rest _ hphase hpending hkind hr hseq ⟨rfl, rfl, rfl⟩
      | data p r hp hr hw hseq =>
        obtain ⟨r', m, heq, hm, hrec⟩ := exists_record seq (h.rpc p r hr) hw hp hr hseq
        rw [heq] at hstep
        subst hstep
        exact .record w seq p r r' m hphase hp hr hw hrec hseq hm
  | evictIdle now =>
    obtain rfl := Option.some.inj hstep
    exact .evictIdle now

/-- An RPC after the one at `p` was replaced. -/
theorem heap_set_of {heap : List Rpc} {p q : ℕ} {t r' : Rpc}
    (h : (heap.set p r')[q]? = some t) : (p = q ∧ t = r') ∨ heap[q]? = some t := by
  rw [List.getElem?_set] at h
  split_ifs at h with hpq hlt
  · exact .inl ⟨hpq, (Option.some.inj h).symm⟩
  · exact .inr h

theorem heap_set_self {heap : List Rpc} {p : ℕ} {r r' : Rpc} (hr : heap[p]? = some r) :
    (heap.set p r')[p]? = some r' := by
  rw [List.getElem?_set_self (List.getElem?_eq_some_iff.mp hr).1]

/-- The sum over a list of which one entry was replaced. -/
theorem sum_map_set {α : Type*} {l : List α} {p : ℕ} {a : α} (f : α → ℕ) (b : α) (h : l[p]? = some a) :
    ((l.set p b).map f).sum + f a = (l.map f).sum + f b := by
  obtain ⟨hlt, rfl⟩ := List.getElem?_eq_some_iff.mp h
  have hself : ((l.set p l[p]).map f).sum = (l.map f).sum := by rw [List.set_getElem_self]
  rw [List.map_set, List.sum_set, List.length_map, if_pos hlt] at hself ⊢
  omega

theorem MapOk.evictIdle {s : Session} (h : MapOk s) (cfg : Config) (now : ℤ) :
    MapOk (s.evictIdle cfg now) where
  mem e he := h.mem e (List.mem_of_mem_filter he)
  nodup := h.nodup.sublist (List.filter_sublist.map Prod.fst)

theorem MapOk.set {s s' : Session} (h : MapOk s) {p : ℕ} {r r' : Rpc} (hr : s.heap[p]? = some r)
    (hid : r'.id = r.id) (hheap : s'.heap = s.heap.set p r') (hrpcs : s'.rpcs = s.rpcs) :
    MapOk s' where
  mem := by
    rw [hrpcs]
    intro e he
    obtain ⟨t, ht, hte⟩ := h.mem e he
    by_cases hpe : p = e.2
    · subst hpe
      rw [hr, Option.some.injEq] at ht
      exact ⟨r', by rw [hheap]; exact heap_set_self hr, hid.trans (ht ▸ hte)⟩
    · exact ⟨t, by rw [hheap, List.getElem?_set_ne hpe]; exact ht, hte⟩
  nodup := by
    rw [hrpcs]
    exact h.nodup

theorem Picked.doing {s : Session} {order : List ℕ} {w : Work} (h : Picked s order w) :
    Doing s w := by
  cases h with
  | reply rest hpending hr hkind hseq => exact .reply rest hpending hr hkind hseq
  | data p r _ _ hr _ hw hfor =>
    exact .data p r hfor.rpc hr hw (fun hseq => by rw [hfor.seq, Bool.and_eq_true] at hseq; exact hseq.2)

/-- **Every step keeps the invariant.** -/
theorem Inv.step (h : Inv cfg s.session) (hstep : Sys.step cfg s a = some s') :
    Inv cfg s'.session := by
  cases h.effect hstep with
  | offer b => exact h
  | malformed b now got e m hb hdecode hm => exact h.congr rfl rfl rfl h.work h.phase hm.ungrantedSent
  | packet b now got pkt m hb hdecode hm =>
    have hcount : Inv cfg { s.session with metrics := m } :=
      h.congr rfl rfl rfl h.work h.phase hm.ungrantedSent
    exact hcount.handle now got pkt
  | nothing => exact h
  | pick order w hphase hperm hsome hw =>
    refine h.congr rfl rfl rfl ?_ (by simp) rfl
    intro w' hw'
    obtain rfl := Option.some.inj hw'
    exact hw.doing
  | hold w hphase => exact h.congr rfl rfl rfl (by simp [Session.busy]) (by simp) rfl
  | check w hphase =>
    refine h.congr rfl rfl rfl ?_ (by simp) rfl
    intro w' hw'
    obtain rfl := Option.some.inj hw'
    exact h.work w (by rw [Session.busy, hphase])
  | sent w o m hphase ho hm =>
    refine h.congr rfl rfl rfl ?_ (by simp) hm.ungrantedSent
    intro w' hw'
    obtain rfl := Option.some.inj hw'
    exact h.work w (by rw [Session.busy, hphase])
  | refused w limit m hphase hm =>
    exact h.congr rfl rfl rfl (by simp [Session.busy]) (by simp) hm.ungrantedSent
  | ended w o hphase => exact h.congr rfl rfl rfl (by simp [Session.busy]) (by simp) rfl
  | recordReply w seq rest m hphase hpending hkind hr hseq hm =>
    refine ⟨⟨h.map.mem, h.map.nodup⟩, h.rpc, by simp [Session.busy], ?_, by simp, hm.ungrantedSent.trans h.ungranted⟩
    intro pkt hpkt
    exact h.pending pkt (by rw [hpending]; exact List.mem_cons_of_mem _ hpkt)
  | record w seq p r r' m hphase hp hr hw hrec hseq hm =>
    refine ⟨h.map.set hr hrec.id rfl rfl, ?_, by simp [Session.busy], h.pending, by simp,
      hm.ungrantedSent.trans h.ungranted⟩
    intro q t ht
    rcases heap_set_of ht with ⟨-, rfl⟩ | ht
    · exact hrec.ok
    · exact h.rpc q t ht
  | evictIdle now =>
    refine ⟨h.map.evictIdle cfg now, h.rpc, ?_, h.pending, h.phase, h.ungranted⟩
    intro w hw
    cases h.work w hw with
    | reply rest hp hr hkind hseq => exact .reply rest hp hr hkind hseq
    | data p r hp hr hw hseq => exact .data p r hp hr hw hseq

/-- The invariant holds in every reachable state. -/
theorem inv_reachable (h : Machine.Reachable (Sys.step cfg) (Sys.init cfg) s) :
    Inv cfg s.session := by
  obtain ⟨as, hrun⟩ := h
  exact Machine.run_invariant (P := fun s => Inv cfg s.session)
    (fun _ _ _ hinv hstep => hinv.step hstep) inv_init hrun

/-- An invariant of runs that also uses `Inv`. -/
theorem reachable_induction {P : Sys → Prop} (hinit : P (Sys.init cfg))
    (hstep : ∀ s a s', Inv cfg s.session → P s → Effect cfg s a s' → P s')
    (h : Machine.Reachable (Sys.step cfg) (Sys.init cfg) s) : P s := by
  obtain ⟨as, hrun⟩ := h
  have hboth : Inv cfg s.session ∧ P s :=
    Machine.run_invariant (P := fun s => Inv cfg s.session ∧ P s)
      (fun s a s' ⟨hinv, hP⟩ hs => ⟨hinv.step hs, hstep s a s' hinv hP (hinv.effect hs)⟩)
      ⟨inv_init, hinit⟩ hrun
  exact hboth.2

end Effect

/-! ## Small runs

Pieces of concrete runs, with one asset of five bytes. -/

/-- A session without loss injection and tail duplicates. -/
def smallConfig : Config :=
  { initialMaxDatagram := 1200, idleTimeout := 0, dropper := false, noSeq := false,
    tailDuplicate := 0 }

/-- `smallConfig`, with a copy of the tail of RPCs of up to five bytes. -/
def tailConfig : Config := { smallConfig with tailDuplicate := 5 }

/-- An asset of five bytes. -/
def smallAsset : Asset :=
  { body := Wire.lit "hello", contentType := Wire.lit "text/plain", etag := Wire.lit "1",
    lastModified := none, cacheControl := [] }

/-- The datagram of a packet; empty if there is none. -/
def datagram (pkt : Packet) : Bytes := match Wire.Go.marshal pkt with
  | .ok b => b
  | .error _ => []

/-- The client sends a packet and it arrives at `now`. -/
def clientSends (pkt : Packet) (now : ℤ) : List Act :=
  [.offer (datagram pkt), .receive (datagram pkt) now (.found smallAsset)]

/-- The send loop picks a packet, hands it over and records it. -/
def serverSends (order : List ℕ) : List Act := [.pick order, .check, .handOver .sent, .record]

/-- A REQ for the asset that grants `g` bytes. -/
def smallReq (g : UInt32) : Packet :=
  .req { rpcId := 7, initialGrant := g, assetId := Wire.lit "/a" }

theorem exists_run_of_any (cfg : Config) (acts : List Act) {P : Sys → Bool}
    (h : (Machine.run (Sys.step cfg) (Sys.init cfg) acts).any P = true) :
    ∃ s, Machine.run (Sys.step cfg) (Sys.init cfg) acts = some s ∧ P s = true :=
  (Option.any_eq_true _ _).mp h

end Http4.Sender
