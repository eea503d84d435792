import Http4.Sender.Session

/-!
# What each step of the sender does

One lemma for each function of the session, so that the invariants never unfold
it.

* `heap_handle`: what handling a packet does to an RPC is one of `Touch`; the
  send loop's place, its counters and the numbering are left alone.
* `pick_eq_none`, `pick_eq_some`: what it means that `pick` finds no work or
  some.
* `handOver_cases`, `record_eq`: the outcomes of a hand-over and its recording.
-/

namespace Http4.Sender

open Wire (Packet)

/-! ## Arithmetic that does not wrap -/

theorem u32_of_lt {n : ℕ} (h : n < 2 ^ 32) : u32 n = n := Nat.mod_eq_of_lt h

theorem u32Add_of_lt {a b : ℕ} (h : a + b < 2 ^ 32) : u32Add a b = a + b := Nat.mod_eq_of_lt h

theorem u32Sub_of_le {a b : ℕ} (hb : b ≤ a) (ha : a < 2 ^ 32) : u32Sub a b = a - b := by
  rw [u32Sub, show a + (2 ^ 32 - b) = a - b + 2 ^ 32 by omega, Nat.add_mod_right,
    Nat.mod_eq_of_lt (by omega)]

theorem u32Mul_of_lt {a b : ℕ} (h : a * b < 2 ^ 32) : u32Mul a b = a * b := Nat.mod_eq_of_lt h

/-! ## Counters -/

/-- From `m` to `m'` the counters say that `data` payload bytes were sent, `resent` of
    them again, and none past the grant. -/
structure Metrics.Counts (m m' : Metrics) (data resent : ℕ) : Prop where
  ungrantedSent : m'.ungrantedSent = m.ungrantedSent
  dataBytes : m'.dataBytes = m.dataBytes + data
  resentBytes : m'.resentBytes = m.resentBytes + resent

theorem Metrics.Counts.refl (m : Metrics) : m.Counts m 0 0 := ⟨rfl, rfl, rfl⟩

theorem Metrics.Counts.trans {m m' m'' : Metrics} (h : m.Counts m' 0 0) (h' : m'.Counts m'' 0 0) :
    m.Counts m'' 0 0 :=
  ⟨h'.ungrantedSent.trans h.ungrantedSent, h'.dataBytes.trans h.dataBytes,
    h'.resentBytes.trans h.resentBytes⟩

/-! ## Lookups and updates -/

namespace Session

theorem rpc_eq_ok_iff {s : Session} {p : ℕ} {r : Rpc} : s.rpc p = .ok r ↔ s.heap[p]? = some r := by
  unfold rpc
  split <;> simp_all

theorem heap_update (s : Session) (p : ℕ) (f : Rpc → Rpc) (q : ℕ) :
    (s.update p f).heap[q]? = if p = q then s.heap[q]?.map f else s.heap[q]? := by
  rw [update, List.getElem?_modify]
  split_ifs
  · rfl
  · simp

@[simp] theorem length_heap_update (s : Session) (p : ℕ) (f : Rpc → Rpc) :
    (s.update p f).heap.length = s.heap.length := List.length_modify ..

/-- The parts of the state that only the send loop writes. -/
structure SameLoop (s s' : Session) : Prop where
  phase : s'.phase = s.phase
  nextSeq : s'.nextSeq = s.nextSeq
  maxDatagram : s'.maxDatagram = s.maxDatagram
  counts : s.metrics.Counts s'.metrics 0 0

theorem SameLoop.refl (s : Session) : SameLoop s s := ⟨rfl, rfl, rfl, .refl _⟩

theorem SameLoop.trans {s t u : Session} (h : SameLoop s t) (h' : SameLoop t u) : SameLoop s u :=
  ⟨h'.phase.trans h.phase, h'.nextSeq.trans h.nextSeq, h'.maxDatagram.trans h.maxDatagram,
    h.counts.trans h'.counts⟩

/-! ## `resendSeq` -/

/-- What a number that is named changes: its ring entry, if the ring holds the
    number, is marked; if it was not yet and its RPC is live, the RPC gets the
    number's bytes queued. Nothing else but counters changes. -/
theorem resendSeq_cases (s : Session) (seq : ℕ) (now : ℤ) :
    ((¬ s.holds seq ∨ (s.entry seq).resent = true) ∧
      (s.resendSeq seq now).ring = s.ring ∧ (s.resendSeq seq now).heap = s.heap) ∨
    (s.holds seq ∧ (s.entry seq).resent = false ∧
      (s.resendSeq seq now).ring =
        Function.update s.ring (seq % seqRingSize) { s.entry seq with resent := true } ∧
      (s.resendSeq seq now).heap =
        match s.lookup (s.entry seq).rpc with
        | none => s.heap
        | some p => s.heap.modify p fun r => r.resendSeq (s.entry seq).off (s.entry seq).n now) := by
  have hholds : s.holds seq = true ↔ (s.entry seq).valid = true ∧ (s.entry seq).seq = seq := by
    simp [holds]
  by_cases hheld : s.holds seq = true
  swap
  · left
    have hmiss : ¬ (s.entry seq).valid ∨ (s.entry seq).seq ≠ seq := by
      rw [hholds, not_and_or] at hheld
      exact hheld
    refine ⟨.inl hheld, ?_, ?_⟩ <;> simp only [resendSeq, if_pos hmiss, count]
  have hhit : ¬ (¬ (s.entry seq).valid ∨ (s.entry seq).seq ≠ seq) := by
    rw [hholds] at hheld
    simp [hheld.1, hheld.2]
  by_cases hresent : (s.entry seq).resent = true
  · left
    refine ⟨.inr hresent, ?_, ?_⟩ <;>
      simp only [resendSeq, if_neg hhit, if_pos hresent, count]
  · right
    refine ⟨hheld, by simpa using hresent, ?_, ?_⟩
    · simp only [resendSeq, if_neg hhit, if_neg hresent]
      split <;> rfl
    · simp only [resendSeq, if_neg hhit, if_neg hresent]
      have hlookup : (s.setEntry seq { s.entry seq with resent := true }).lookup (s.entry seq).rpc =
          s.lookup (s.entry seq).rpc := rfl
      rw [hlookup]
      cases s.lookup (s.entry seq).rpc <;> rfl

theorem resendSeq_sameLoop (s : Session) (seq : ℕ) (now : ℤ) : SameLoop s (s.resendSeq seq now) := by
  simp only [resendSeq]
  split_ifs
  · exact ⟨rfl, rfl, rfl, ⟨rfl, rfl, rfl⟩⟩
  · exact ⟨rfl, rfl, rfl, ⟨rfl, rfl, rfl⟩⟩
  · split <;> exact ⟨rfl, rfl, rfl, ⟨rfl, rfl, rfl⟩⟩

/-- What `resendSeq` leaves alone besides. -/
theorem resendSeq_frame (s : Session) (seq : ℕ) (now : ℤ) :
    (s.resendSeq seq now).rpcs = s.rpcs ∧ (s.resendSeq seq now).pending = s.pending ∧
      (s.resendSeq seq now).seqOn = s.seqOn := by
  simp only [resendSeq]
  split_ifs
  · exact ⟨rfl, rfl, rfl⟩
  · exact ⟨rfl, rfl, rfl⟩
  · split <;> exact ⟨rfl, rfl, rfl⟩

/-- Naming several numbers in order, as one RESEND_SEQ does. -/
def resendSeqs (s : Session) (seqs : List ℕ) (now : ℤ) : Session :=
  seqs.foldl (fun s seq => s.resendSeq seq now) s

@[simp] theorem resendSeqs_cons (s : Session) (seq : ℕ) (seqs : List ℕ) (now : ℤ) :
    s.resendSeqs (seq :: seqs) now = (s.resendSeq seq now).resendSeqs seqs now := rfl

theorem resendSeqs_sameLoop (s : Session) (seqs : List ℕ) (now : ℤ) :
    SameLoop s (s.resendSeqs seqs now) := by
  induction seqs generalizing s with
  | nil => exact SameLoop.refl s
  | cons seq seqs ih => exact (resendSeq_sameLoop s seq now).trans (ih _)

theorem resendSeqs_frame (s : Session) (seqs : List ℕ) (now : ℤ) :
    (s.resendSeqs seqs now).rpcs = s.rpcs ∧ (s.resendSeqs seqs now).pending = s.pending ∧
      (s.resendSeqs seqs now).seqOn = s.seqOn := by
  induction seqs generalizing s with
  | nil => exact ⟨rfl, rfl, rfl⟩
  | cons seq seqs ih =>
    obtain ⟨h1, h2, h3⟩ := ih (s.resendSeq seq now)
    obtain ⟨g1, g2, g3⟩ := resendSeq_frame s seq now
    exact ⟨h1.trans g1, h2.trans g2, h3.trans g3⟩

theorem length_heap_resendSeq (s : Session) (seq : ℕ) (now : ℤ) :
    (s.resendSeq seq now).heap.length = s.heap.length := by
  rcases resendSeq_cases s seq now with ⟨-, -, hheap⟩ | ⟨-, -, -, hheap⟩
  · rw [hheap]
  · rw [hheap]
    split
    · rfl
    · exact List.length_modify ..

theorem length_heap_resendSeqs (s : Session) (seqs : List ℕ) (now : ℤ) :
    (s.resendSeqs seqs now).heap.length = s.heap.length := by
  induction seqs generalizing s with
  | nil => rfl
  | cons seq seqs ih => exact (ih _).trans (length_heap_resendSeq s seq now)

end Session

/-! ## `handle` -/

/-- What handling `pkt` can do to one RPC. -/
inductive Touch (pkt : Packet) (now : ℤ) : Rpc → Rpc → Prop
  | none (r : Rpc) : Touch pkt now r r
  | request (r : Rpc) (q : Wire.Req) (hpkt : pkt = .req q) (hid : r.id = q.rpcId) :
      Touch pkt now r (r.request q.initialGrant.toNat now)
  | grant (r : Rpc) (q : Wire.Grant) (hpkt : pkt = .grant q) (hid : r.id = q.rpcId) :
      Touch pkt now r (r.grant q.maxOffset.toNat now)
  | resend (r : Rpc) (q : Wire.Resend) (hpkt : pkt = .resend q) (hid : r.id = q.rpcId) :
      Touch pkt now r (r.resend q.start.toNat q.stop.toNat now)
  | resendSeq (r r' : Rpc) (off n : ℕ) (h : Touch pkt now r r') :
      Touch pkt now r (r'.resendSeq off n now)

/-- The map points at RPCs of the right identifier, one for each. -/
structure MapOk (s : Session) : Prop where
  mem : ∀ e ∈ s.rpcs, ∃ r, s.heap[e.2]? = some r ∧ r.id = e.1
  nodup : (s.rpcs.map Prod.fst).Nodup

theorem mem_of_lookup {s : Session} {id : UInt64} {p : ℕ} (h : s.lookup id = some p) :
    (id, p) ∈ s.rpcs := by
  rw [Session.lookup, List.lookup_eq_some_iff] at h
  obtain ⟨l, m, hl, -⟩ := h
  rw [hl]
  simp

theorem MapOk.lookup {s : Session} (h : MapOk s) {id : UInt64} {p : ℕ} (hp : s.lookup id = some p) :
    ∃ r, s.heap[p]? = some r ∧ r.id = id := h.mem _ (mem_of_lookup hp)

theorem MapOk.lookup_of_mem {s : Session} (h : MapOk s) {id : UInt64} {p : ℕ}
    (hp : (id, p) ∈ s.rpcs) : s.lookup id = some p := by
  obtain ⟨l, m, hl⟩ := List.append_of_mem hp
  have hnodup := h.nodup
  rw [hl, List.map_append, List.map_cons, List.nodup_append] at hnodup
  rw [Session.lookup, List.lookup_eq_some_iff]
  refine ⟨l, m, hl, fun e he => ?_⟩
  rw [bne_iff_ne]
  exact fun heq => hnodup.2.2 e.1 (List.mem_map_of_mem he) id List.mem_cons_self heq.symm

@[simp] theorem id_request (r : Rpc) (g : ℕ) (now : ℤ) : (r.request g now).id = r.id := rfl

theorem Touch.id {pkt : Packet} {now : ℤ} {r r' : Rpc} (h : Touch pkt now r r') : r'.id = r.id := by
  induction h with
  | none | request | grant | resend => rfl
  | resendSeq _ _ _ _ ih => exact ih

/-- A change to one RPC, seen from any position. -/
theorem heap_update_of {s : Session} {p q : ℕ} {f : Rpc → Rpc} {r' : Rpc}
    (h : (s.update p f).heap[q]? = some r') :
    ∃ r, s.heap[q]? = some r ∧ (r' = r ∨ (p = q ∧ r' = f r)) := by
  rw [Session.heap_update] at h
  split_ifs at h with hpq
  · obtain ⟨r, hr, rfl⟩ := Option.map_eq_some_iff.mp h
    exact ⟨r, hr, .inr ⟨hpq, rfl⟩⟩
  · exact ⟨r', h, .inl rfl⟩

theorem heap_resendSeqs (s : Session) (seqs : List ℕ) (now : ℤ) (pkt : Packet) (p : ℕ) (r' : Rpc)
    (h : (s.resendSeqs seqs now).heap[p]? = some r') :
    ∃ r, s.heap[p]? = some r ∧ Touch pkt now r r' := by
  induction seqs using List.reverseRecOn generalizing r' with
  | nil => exact ⟨r', h, .none r'⟩
  | append_singleton seqs seq ih =>
    rw [Session.resendSeqs, List.foldl_append] at h
    rcases Session.resendSeq_cases (s.resendSeqs seqs now) seq now with
      ⟨-, -, hheap⟩ | ⟨-, -, -, hheap⟩
    · exact ih r' (by rw [← hheap]; exact h)
    · rw [List.foldl_cons, List.foldl_nil] at h
      change ((s.resendSeqs seqs now).resendSeq seq now).heap[p]? = some r' at h
      rw [hheap] at h
      split at h
      · exact ih r' h
      · obtain ⟨t, ht, hr'⟩ := heap_update_of (s := s.resendSeqs seqs now) h
        obtain ⟨r, hr, htouch⟩ := ih t ht
        rcases hr' with rfl | ⟨-, rfl⟩
        · exact ⟨r, hr, htouch⟩
        · exact ⟨r, hr, .resendSeq r t _ _ htouch⟩

/-- **What handling a packet does to the RPCs**: each one is touched as `Touch`
    says, and a REQ for an unknown identifier adds a new one. -/
theorem heap_handle {cfg : Config} {s : Session} {now : ℤ} {got : GetResult} {pkt : Packet}
    (hmap : MapOk s) {p : ℕ} {r' : Rpc} (h : (s.handle cfg now got pkt).heap[p]? = some r') :
    (∃ r, s.heap[p]? = some r ∧ Touch pkt now r r') ∨
      (p = s.heap.length ∧ ∃ q a, pkt = .req q ∧ got = .found a ∧ s.lookup q.rpcId = none ∧
        r' = (Rpc.new q.rpcId a).request q.initialGrant.toNat now) := by
  have hsame (h : s.heap[p]? = some r') : ∃ r, s.heap[p]? = some r ∧ Touch pkt now r r' :=
    ⟨r', h, .none r'⟩
  have hlive {t : ℕ} {id : UInt64} {f : Rpc → Rpc} (ht : s.lookup id = some t)
      (hf : ∀ r, r.id = id → Touch pkt now r (f r)) (h : (s.update t f).heap[p]? = some r') :
      ∃ r, s.heap[p]? = some r ∧ Touch pkt now r r' := by
    obtain ⟨r, hr, rfl | ⟨rfl, rfl⟩⟩ := heap_update_of h
    · exact hsame hr
    · obtain ⟨r₁, hr₁, hid⟩ := hmap.lookup ht
      rw [hr, Option.some.injEq] at hr₁
      exact ⟨r, hr, hf r (hr₁ ▸ hid)⟩
  cases pkt with
  | req q =>
    cases hq : s.lookup q.rpcId with
    | some t =>
      simp only [Session.handle, hq] at h
      exact .inl (hlive hq (fun r hid => .request r q rfl hid) h)
    | none =>
      cases got with
      | notFound => simp only [Session.handle, hq] at h; exact .inl (hsame h)
      | failed => simp only [Session.handle, hq] at h; exact .inl (hsame h)
      | found a =>
        simp only [Session.handle, hq, List.getElem?_append] at h
        split_ifs at h with hlt
        · exact .inl (hsame h)
        · rw [List.getElem?_singleton] at h
          split_ifs at h with hp
          rw [Option.some.injEq] at h
          exact .inr ⟨by omega, q, a, rfl, rfl, hq, h.symm⟩
  | grant q =>
    cases hq : s.lookup q.rpcId with
    | none => simp only [Session.handle, hq] at h; exact .inl (hsame h)
    | some t =>
      simp only [Session.handle, hq] at h
      exact .inl (hlive hq (fun r hid => .grant r q rfl hid) h)
  | resend q =>
    cases hq : s.lookup q.rpcId with
    | none => simp only [Session.handle, hq] at h; exact .inl (hsame h)
    | some t =>
      simp only [Session.handle, hq] at h
      exact .inl (hlive hq (fun r hid => .resend r q rfl hid) h)
  | hello q =>
    simp only [Session.handle] at h
    split_ifs at h <;> exact .inl (hsame h)
  | resendSeq q =>
    simp only [Session.handle] at h
    split_ifs at h
    · exact .inl (heap_resendSeqs (s.count _) _ _ _ _ _ h)
    · exact .inl (hsame h)
  | data q => exact .inl (hsame h)
  | dataSeq q => exact .inl (hsame h)
  | error q => exact .inl (hsame h)
  | metaData q => exact .inl (hsame h)

/-- Handling a packet leaves the send loop's own fields alone. -/
theorem sameLoop_handle (cfg : Config) (s : Session) (now : ℤ) (got : GetResult) (pkt : Packet) :
    s.SameLoop (s.handle cfg now got pkt) := by
  cases pkt with
  | req q =>
    simp only [Session.handle]
    cases s.lookup q.rpcId with
    | some t => exact ⟨rfl, rfl, rfl, ⟨rfl, rfl, rfl⟩⟩
    | none => cases got <;> exact ⟨rfl, rfl, rfl, ⟨rfl, rfl, rfl⟩⟩
  | grant q | resend q =>
    simp only [Session.handle]
    cases s.lookup q.rpcId <;> exact ⟨rfl, rfl, rfl, ⟨rfl, rfl, rfl⟩⟩
  | hello q =>
    simp only [Session.handle]
    split_ifs <;> exact ⟨rfl, rfl, rfl, ⟨rfl, rfl, rfl⟩⟩
  | resendSeq q =>
    simp only [Session.handle]
    split_ifs
    · have hcount : s.SameLoop (s.count fun m => { m with seqResends := m.seqResends + 1 }) :=
        ⟨rfl, rfl, rfl, ⟨rfl, rfl, rfl⟩⟩
      exact hcount.trans (Session.resendSeqs_sameLoop _ _ now)
    · exact ⟨rfl, rfl, rfl, ⟨rfl, rfl, rfl⟩⟩
  | data q | dataSeq q | error q | metaData q => exact ⟨rfl, rfl, rfl, ⟨rfl, rfl, rfl⟩⟩

/-- Replies are queued behind those that wait, and they are ERROR packets. -/
theorem pending_handle (cfg : Config) (s : Session) (now : ℤ) (got : GetResult) (pkt : Packet) :
    ∃ more, (s.handle cfg now got pkt).pending = s.pending ++ more ∧
      ∀ reply ∈ more, ∃ e, reply = .error e := by
  have hsame : ∃ more, s.pending = s.pending ++ more ∧ ∀ reply ∈ more, ∃ e, reply = Packet.error e :=
    ⟨[], (List.append_nil _).symm, by simp⟩
  have hreply (e : Wire.ErrorPacket) : ∃ more, (s.reply (.error e)).pending = s.pending ++ more ∧
      ∀ reply ∈ more, ∃ e, reply = Packet.error e :=
    ⟨[.error e], rfl, by simp⟩
  cases pkt with
  | req q =>
    simp only [Session.handle]
    cases s.lookup q.rpcId with
    | some t => exact hsame
    | none =>
      cases got with
      | found a => exact hsame
      | notFound | failed => exact hreply _
  | grant q | resend q =>
    simp only [Session.handle]
    cases s.lookup q.rpcId with
    | some t => exact hsame
    | none => exact hreply _
  | hello q =>
    simp only [Session.handle]
    split_ifs <;> exact hsame
  | resendSeq q =>
    simp only [Session.handle]
    split_ifs
    · refine ⟨[], ?_, by simp⟩
      rw [List.append_nil]
      exact (Session.resendSeqs_frame (s.count _) _ now).2.1
    · exact hsame
  | data q | dataSeq q | error q | metaData q => exact hsame

/-- The map keeps its entries; a REQ may add one, for the RPC it adds. -/
theorem rpcs_handle (cfg : Config) (s : Session) (now : ℤ) (got : GetResult) (pkt : Packet) :
    (s.handle cfg now got pkt).rpcs = s.rpcs ∧
        (s.handle cfg now got pkt).heap.length = s.heap.length ∨
      ∃ q a, pkt = .req q ∧ got = .found a ∧ s.lookup q.rpcId = none ∧
        (s.handle cfg now got pkt).rpcs = s.rpcs ++ [(q.rpcId, s.heap.length)] ∧
        (s.handle cfg now got pkt).heap =
          s.heap ++ [(Rpc.new q.rpcId a).request q.initialGrant.toNat now] := by
  cases pkt with
  | req q =>
    simp only [Session.handle]
    cases hq : s.lookup q.rpcId with
    | some t => exact .inl ⟨rfl, s.length_heap_update _ _⟩
    | none =>
      cases got with
      | found a => exact .inr ⟨q, a, rfl, rfl, hq, rfl, rfl⟩
      | notFound | failed => exact .inl ⟨rfl, rfl⟩
  | grant q | resend q =>
    simp only [Session.handle]
    cases s.lookup q.rpcId with
    | some t => exact .inl ⟨rfl, s.length_heap_update _ _⟩
    | none => exact .inl ⟨rfl, rfl⟩
  | hello q =>
    simp only [Session.handle]
    split_ifs <;> exact .inl ⟨rfl, rfl⟩
  | resendSeq q =>
    simp only [Session.handle]
    split_ifs
    · exact .inl ⟨(Session.resendSeqs_frame (s.count _) _ now).1,
        Session.length_heap_resendSeqs (s.count _) _ now⟩
    · exact .inl ⟨rfl, rfl⟩
  | data q | dataSeq q | error q | metaData q => exact .inl ⟨rfl, rfl⟩

/-- An RPC stays where it is and is touched. -/
theorem exists_touch (cfg : Config) {s : Session} (now : ℤ) (got : GetResult) (pkt : Packet)
    (hmap : MapOk s) {p : ℕ} {r : Rpc} (h : s.heap[p]? = some r) :
    ∃ r', (s.handle cfg now got pkt).heap[p]? = some r' ∧ Touch pkt now r r' := by
  have hlt : p < s.heap.length := (List.getElem?_eq_some_iff.mp h).1
  have hlt' : p < (s.handle cfg now got pkt).heap.length := by
    rcases rpcs_handle cfg s now got pkt with ⟨-, hlen⟩ | ⟨q, a, -, -, -, -, hheap⟩
    · omega
    · rw [hheap, List.length_append]; omega
  obtain ⟨r', hr'⟩ : ∃ r', (s.handle cfg now got pkt).heap[p]? = some r' :=
    ⟨_, List.getElem?_eq_getElem hlt'⟩
  rcases heap_handle hmap hr' with ⟨r₁, hr₁, htouch⟩ | ⟨hp, -⟩
  · rw [h, Option.some.injEq] at hr₁
    exact ⟨r', hr', hr₁ ▸ htouch⟩
  · omega

/-- What no touch changes is the same for all RPCs, if none is added. -/
theorem map_heap_handle {β : Type*} (cfg : Config) {s : Session} (now : ℤ) (got : GetResult) (pkt : Packet)
    (hmap : MapOk s) (f : Rpc → β) (hf : ∀ r r', Touch pkt now r r' → f r' = f r)
    (hlen : (s.handle cfg now got pkt).heap.length = s.heap.length) :
    (s.handle cfg now got pkt).heap.map f = s.heap.map f := by
  refine List.ext_getElem? fun p => ?_
  rw [List.getElem?_map, List.getElem?_map]
  cases hr : s.heap[p]? with
  | none =>
    rw [List.getElem?_eq_none_iff] at hr
    rw [List.getElem?_eq_none (by omega)]
  | some r =>
    obtain ⟨r', hr', ht⟩ := exists_touch cfg now got pkt hmap hr
    rw [hr', Option.map_some, Option.map_some, hf r r' ht]

theorem MapOk.handle {cfg : Config} {s : Session} {now : ℤ} {got : GetResult} {pkt : Packet}
    (hmap : MapOk s) : MapOk (s.handle cfg now got pkt) := by
  have hold : ∀ e ∈ s.rpcs, ∃ r, (s.handle cfg now got pkt).heap[e.2]? = some r ∧ r.id = e.1 := by
    intro e he
    obtain ⟨r, hr, hid⟩ := hmap.mem e he
    obtain ⟨r', hr', htouch⟩ := exists_touch cfg now got pkt hmap hr
    exact ⟨r', hr', htouch.id.trans hid⟩
  rcases rpcs_handle cfg s now got pkt with ⟨hrpcs, -⟩ | ⟨q, a, -, -, hnone, hrpcs, hheap⟩
  · exact ⟨by rw [hrpcs]; exact hold, by rw [hrpcs]; exact hmap.nodup⟩
  · constructor
    · rw [hrpcs, List.forall_mem_append, List.forall_mem_singleton]
      refine ⟨hold, (Rpc.new q.rpcId a).request q.initialGrant.toNat now, ?_, rfl⟩
      rw [hheap, List.getElem?_append_right (le_refl _), Nat.sub_self]
      rfl
    · rw [hrpcs, List.map_append, List.map_singleton, List.nodup_append]
      refine ⟨hmap.nodup, List.nodup_singleton _, fun id hid id' hid' heq => ?_⟩
      obtain ⟨e, he, rfl⟩ := List.mem_map.mp hid
      rw [List.mem_singleton.mp hid'] at heq
      rw [Session.lookup, List.lookup_eq_none_iff] at hnone
      exact absurd (hnone e he) (by simp [heq])

/-! ## What a touched RPC keeps -/

/-- The fields of an RPC that only the send loop writes, and those nobody does. -/
structure Rpc.SameSend (r r' : Rpc) : Prop where
  id : r'.id = r.id
  asset : r'.asset = r.asset
  metaData : r'.metaData = r.metaData
  size : r'.size = r.size
  next : r'.next = r.next
  metaSent : r'.metaSent = r.metaSent
  packet0Sent : r'.packet0Sent = r.packet0Sent
  tailDuped : r'.tailDuped = r.tailDuped
  tailDup : r'.tailDup = r.tailDup

theorem Touch.sameSend {pkt : Packet} {now : ℤ} {r r' : Rpc} (h : Touch pkt now r r') :
    r.SameSend r' := by
  induction h with
  | none | request | grant | resend => exact ⟨rfl, rfl, rfl, rfl, rfl, rfl, rfl, rfl, rfl⟩
  | resendSeq _ _ _ _ ih =>
    exact ⟨ih.id, ih.asset, ih.metaData, ih.size, ih.next, ih.metaSent, ih.packet0Sent,
      ih.tailDuped, ih.tailDup⟩

/-- The spans of an RPC after a RESEND. -/
theorem resends_resend (r : Rpc) (a b : ℕ) (now : ℤ) :
    (r.resend a b now).resends = r.resends ∧ min b (min r.granted r.next) ≤ a ∨
      a < min b (min r.granted r.next) ∧
        (r.resend a b now).resends =
          r.resends ++ [{ start := a, stop := min b (min r.granted r.next) }] := by
  simp only [Rpc.resend]
  split_ifs with h
  · exact .inr ⟨h, rfl⟩
  · exact .inl ⟨rfl, not_lt.mp h⟩

/-- The spans of an RPC after one of its numbers was named: nothing is queued,
    or a span is added, or the last one is prolonged. -/
theorem resends_resendSeq (r : Rpc) (off n : ℕ) (now : ℤ) :
    let stop := min (u32Add off n) (min r.granted r.next)
    (r.resendSeq off n now).resends = r.resends ∧ stop ≤ off ∨
      off < stop ∧ (r.resendSeq off n now).resends = r.resends ++ [{ start := off, stop := stop }] ∨
      off < stop ∧ ∃ front last, r.resends = front ++ [last] ∧ last.stop = off ∧
        (r.resendSeq off n now).resends = front ++ [{ start := last.start, stop := stop }] := by
  intro stop
  simp only [Rpc.resendSeq]
  by_cases h : off ≥ stop
  · rw [if_pos h]
    exact .inl ⟨rfl, h⟩
  rw [if_neg h]
  have hlt : off < stop := not_le.mp h
  rcases List.eq_nil_or_concat' r.resends with hnil | ⟨front, last, hlast⟩
  · simp only [hnil, List.getLast?_nil]
    exact .inr (.inl ⟨hlt, rfl⟩)
  · simp only [hlast, List.getLast?_concat, List.dropLast_concat]
    split_ifs with heq
    · exact .inr (.inr ⟨hlt, front, last, rfl, heq, rfl⟩)
    · exact .inr (.inl ⟨hlt, rfl⟩)

/-! ## `pick` -/

theorem pickLoop_eq_none {s : Session} {best : Option (Rpc × ℕ × WorkKind)} {order : List ℕ}
    (h : s.pickLoop best order = .ok none) :
    best = none ∧ ∀ p ∈ order, ∃ r, s.heap[p]? = some r ∧ r.due = none := by
  induction order generalizing best with
  | nil =>
    rw [Session.pickLoop, Except.ok.injEq] at h
    exact ⟨h, by simp⟩
  | cons p rest ih =>
    rw [Session.pickLoop] at h
    cases hr : s.rpc p with
    | error e => rw [hr] at h; cases h
    | ok r =>
      simp only [hr, bind, Except.bind] at h
      cases hdue : r.due with
      | none =>
        simp only [hdue] at h
        obtain ⟨hbest, hrest⟩ := ih h
        exact ⟨hbest, List.forall_mem_cons.mpr
          ⟨⟨r, Session.rpc_eq_ok_iff.mp hr, hdue⟩, hrest⟩⟩
      | some k =>
        -- an RPC with something due is a candidate, so the loop ends with one
        simp only [hdue] at h
        split at h
        · exact absurd (ih h).1 (by simp)
        · split_ifs at h <;> exact absurd (ih h).1 (by simp)

theorem pickLoop_eq_some {s : Session} {best : Option (Rpc × ℕ × WorkKind)} {order : List ℕ}
    {r : Rpc} {p : ℕ} {k : WorkKind} (h : s.pickLoop best order = .ok (some (r, p, k))) :
    best = some (r, p, k) ∨ p ∈ order ∧ s.heap[p]? = some r ∧ r.due = some k := by
  induction order generalizing best with
  | nil =>
    rw [Session.pickLoop, Except.ok.injEq] at h
    exact .inl h
  | cons q rest ih =>
    have hmore (h : best = some (r, p, k) ∨ p ∈ rest ∧ s.heap[p]? = some r ∧ r.due = some k) :
        best = some (r, p, k) ∨ p ∈ q :: rest ∧ s.heap[p]? = some r ∧ r.due = some k :=
      h.imp_right fun ⟨hp, hr⟩ => ⟨List.mem_cons_of_mem q hp, hr⟩
    rw [Session.pickLoop] at h
    cases hr : s.rpc q with
    | error e => rw [hr] at h; cases h
    | ok t =>
      simp only [hr, bind, Except.bind] at h
      cases hdue : t.due with
      | none =>
        simp only [hdue] at h
        exact hmore (ih h)
      | some k' =>
        have htaken (h : some (t, q, k') = some (r, p, k) ∨
            p ∈ rest ∧ s.heap[p]? = some r ∧ r.due = some k) :
            best = some (r, p, k) ∨ p ∈ q :: rest ∧ s.heap[p]? = some r ∧ r.due = some k := by
          rcases h with heq | ⟨hp, hr'⟩
          · cases heq
            exact .inr ⟨List.mem_cons_self, Session.rpc_eq_ok_iff.mp hr, hdue⟩
          · exact .inr ⟨List.mem_cons_of_mem q hp, hr'⟩
        simp only [hdue] at h
        split at h
        · exact htaken (ih h)
        · split_ifs at h
          · exact htaken (ih h)
          · exact hmore (ih h)

/-- The loop ends with a kind that none comes before. -/
theorem rank_le_of_pickLoop {s : Session} {best : Option (Rpc × ℕ × WorkKind)} {order : List ℕ}
    {r : Rpc} {p : ℕ} {k : WorkKind} (h : s.pickLoop best order = .ok (some (r, p, k))) :
    (∀ b ∈ best, k.rank ≤ b.2.2.rank) ∧
      ∀ q ∈ order, ∃ t, s.heap[q]? = some t ∧ ∀ k', t.due = some k' → k.rank ≤ k'.rank := by
  induction order generalizing best with
  | nil =>
    rw [Session.pickLoop, Except.ok.injEq] at h
    subst h
    exact ⟨fun b hb => by obtain rfl := Option.some.inj hb; exact le_refl _, by simp⟩
  | cons q rest ih =>
    rw [Session.pickLoop] at h
    cases hr : s.rpc q with
    | error e => rw [hr] at h; cases h
    | ok t =>
      have ht := Session.rpc_eq_ok_iff.mp hr
      simp only [hr, bind, Except.bind] at h
      cases hdue : t.due with
      | none =>
        simp only [hdue] at h
        obtain ⟨hbest, hrest⟩ := ih h
        exact ⟨hbest, List.forall_mem_cons.mpr ⟨⟨t, ht, fun k' hk' => by rw [hdue] at hk'; cases hk'⟩, hrest⟩⟩
      | some k' =>
        simp only [hdue] at h
        cases best with
        | none =>
          obtain ⟨hbest, hrest⟩ := ih h
          have hle := hbest _ rfl
          exact ⟨by simp, List.forall_mem_cons.mpr
            ⟨⟨t, ht, fun k₁ hk₁ => by rw [hdue] at hk₁; obtain rfl := Option.some.inj hk₁; exact hle⟩, hrest⟩⟩
        | some b =>
          obtain ⟨br, bp, bk⟩ := b
          simp only at h
          split_ifs at h with hless
          · obtain ⟨hbest, hrest⟩ := ih h
            have hle : k.rank ≤ k'.rank := hbest _ rfl
            have hbk : k'.rank ≤ bk.rank := by
              rcases hless with hlt | ⟨rfl, -⟩
              · exact hlt.le
              · exact le_refl _
            refine ⟨fun b hb => by obtain rfl := Option.some.inj hb; exact hle.trans hbk,
              List.forall_mem_cons.mpr ⟨⟨t, ht, fun k₁ hk₁ => ?_⟩, hrest⟩⟩
            rw [hdue] at hk₁
            obtain rfl := Option.some.inj hk₁
            exact hle
          · obtain ⟨hbest, hrest⟩ := ih h
            have hle : k.rank ≤ bk.rank := hbest _ rfl
            refine ⟨hbest, List.forall_mem_cons.mpr ⟨⟨t, ht, fun k₁ hk₁ => ?_⟩, hrest⟩⟩
            rw [hdue] at hk₁
            obtain rfl := Option.some.inj hk₁
            exact hle.trans (not_lt.mp fun hlt => hless (.inl hlt))

theorem exists_pickLoop {s : Session} (best : Option (Rpc × ℕ × WorkKind)) {order : List ℕ}
    (h : ∀ p ∈ order, ∃ r, s.heap[p]? = some r) : ∃ b, s.pickLoop best order = .ok b := by
  induction order generalizing best with
  | nil => exact ⟨best, rfl⟩
  | cons p rest ih =>
    obtain ⟨⟨r, hr⟩, hrest⟩ := List.forall_mem_cons.mp h
    rw [Session.pickLoop, Session.rpc_eq_ok_iff.mpr hr]
    simp only [bind, Except.bind]
    split
    · exact ih _ hrest
    · split
      · exact ih _ hrest
      · split_ifs <;> exact ih _ hrest

/-- `pick` reports no work: no reply waits and no live RPC has anything due. -/
theorem pick_eq_none {s : Session} {order : List ℕ} (h : s.pick order = .ok none) :
    s.pending = [] ∧ ∀ p ∈ order, ∃ r, s.heap[p]? = some r ∧ r.due = none := by
  unfold Session.pick at h
  split at h
  · cases h
  next hpending =>
    refine ⟨hpending, ?_⟩
    cases hloop : s.pickLoop none order with
    | error e => rw [hloop] at h; cases h
    | ok best =>
      cases best with
      | none => exact (pickLoop_eq_none hloop).2
      | some b =>
        simp only [hloop, bind, Except.bind] at h
        cases hwork : s.workOf b.1 b.2.1 b.2.2 with
        | error e => rw [hwork] at h; cases h
        | ok w => rw [hwork] at h; cases h

/-- `pick` finds work: the first reply waiting, or what some live RPC has due, of a kind
    that none comes before. -/
theorem pick_eq_some {s : Session} {order : List ℕ} {w : Work} (h : s.pick order = .ok (some w)) :
    (∃ pkt rest, s.pending = pkt :: rest ∧
      w = { pkt := pkt, r := none, kind := .workControl, packet0 := 0, seq := false, bulk := false }) ∨
    (s.pending = [] ∧ ∃ r p kind, p ∈ order ∧ s.heap[p]? = some r ∧ r.due = some kind ∧
      s.workOf r p kind = .ok w ∧
      ∀ q ∈ order, ∃ t, s.heap[q]? = some t ∧ ∀ k, t.due = some k → kind.rank ≤ k.rank) := by
  unfold Session.pick at h
  split at h
  next pkt rest hpending =>
    rw [Except.ok.injEq, Option.some.injEq] at h
    exact .inl ⟨pkt, rest, hpending, h.symm⟩
  next hpending =>
    refine .inr ⟨hpending, ?_⟩
    cases hloop : s.pickLoop none order with
    | error e => rw [hloop] at h; cases h
    | ok best =>
      cases best with
      | none => rw [hloop] at h; cases h
      | some b =>
        obtain ⟨r, p, kind⟩ := b
        simp only [hloop, bind, Except.bind] at h
        cases hwork : s.workOf r p kind with
        | error e => rw [hwork] at h; cases h
        | ok w' =>
          rw [hwork] at h
          cases h
          rcases pickLoop_eq_some hloop with hbest | ⟨hp, hr, hdue⟩
          · cases hbest
          · exact ⟨r, p, kind, hp, hr, hdue, hwork, (rank_le_of_pickLoop hloop).2⟩

/-- `pick` does not panic if the work of every RPC that has some can be made. -/
theorem exists_pick {s : Session} {order : List ℕ} (hheap : ∀ p ∈ order, ∃ r, s.heap[p]? = some r)
    (hwork : ∀ p ∈ order, ∀ r kind, s.heap[p]? = some r → r.due = some kind →
      ∃ w, s.workOf r p kind = .ok w) : ∃ w, s.pick order = .ok w := by
  unfold Session.pick
  split
  · exact ⟨_, rfl⟩
  · obtain ⟨best, hloop⟩ := exists_pickLoop none hheap
    cases best with
    | none => exact ⟨none, by rw [hloop]; rfl⟩
    | some b =>
      obtain ⟨r, p, kind⟩ := b
      rcases pickLoop_eq_some hloop with hbest | ⟨hp, hr, hdue⟩
      · cases hbest
      · obtain ⟨w, hw⟩ := hwork p hp r kind hr hdue
        exact ⟨some w, by simp only [hloop, bind, Except.bind, hw]; rfl⟩

/-! ## Hand-over and recording -/

/-- The outcomes of a hand-over: the datagram is gone, or it was too large and
    will be picked anew with a smaller limit, or the session is over. -/
theorem handOver_cases {cfg : Config} {s t : Session} {w : Work} {o : Session.Outcome}
    (h : s.handOver cfg w o = some t) :
    (t.phase = .handed w s.seqNumber ∧ (o = .sent ∨ o = .dropped) ∧
      ∃ m, t = { s with phase := .handed w s.seqNumber, metrics := m } ∧
        s.metrics.Counts m 0 0) ∨
    (t.phase = .idle ∧ w.data?.isSome ∧ ∃ limit m, o = .tooLarge limit ∧
      t = { s with phase := .idle, maxDatagram := limit - h3DatagramPrefixMax, metrics := m } ∧
        s.metrics.Counts m 0 0) ∨
    t = { s with phase := .ended } := by
  unfold Session.handOver at h
  split at h
  · rw [Option.some.injEq] at h
    exact .inr (.inr h.symm)
  · cases o with
    | dropped =>
      simp only at h
      split_ifs at h with hdrop hdata
      · rw [Option.some.injEq] at h
        exact .inl ⟨by rw [← h], .inr rfl, _, h.symm, ⟨rfl, rfl, rfl⟩⟩
      · rw [Option.some.injEq] at h
        exact .inl ⟨by rw [← h], .inr rfl, _, h.symm, ⟨rfl, rfl, rfl⟩⟩
    | sent =>
      rw [Option.some.injEq] at h
      exact .inl ⟨by rw [← h], .inl rfl, _, h.symm, .refl _⟩
    | tooLarge limit =>
      simp only at h
      split_ifs at h with hdata
      · rw [Option.some.injEq] at h
        exact .inr (.inl ⟨by rw [← h], hdata, limit, _, rfl, h.symm, ⟨rfl, rfl, rfl⟩⟩)
      · rw [Option.some.injEq] at h
        exact .inr (.inr h.symm)
    | failed =>
      rw [Option.some.injEq] at h
      exact .inr (.inr h.symm)

/-- Recording DATA: the RPC is updated, the send loop is idle again, and a
    DATA_SEQ takes its place in the ring. -/
theorem record_data (cfg : Config) {s : Session} {w : Work} (seq : ℕ) {p : ℕ} {d : Wire.Data} {r r' : Rpc}
    (hcontrol : w.kind ≠ .workControl) (hmeta : w.kind ≠ .workMeta) (hp : w.r = some p)
    (hd : w.data? = some d) (hr : s.heap[p]? = some r)
    (hsent : r.sent w (u32 d.payload.length) = .ok r') :
    ∃ m, s.record cfg w seq =
        { s with
          heap := s.heap.set p (r'.queueTail cfg w d)
          phase := .idle
          nextSeq := if w.seq then s.nextSeq + 1 else s.nextSeq
          ring := if w.seq then
              Function.update s.ring (seq % seqRingSize)
                { seq := seq, valid := true, resent := false, rpc := r.id, off := d.offset.toNat,
                  n := u32 d.payload.length }
            else s.ring
          metrics := m } ∧
      s.metrics.Counts m d.payload.length (r.resentBytes w.kind (u32 d.payload.length)) := by
  have hrpc := Session.rpc_eq_ok_iff.mpr hr
  cases hseq : w.seq with
  | false =>
    unfold Session.record
    rw [hp, hd]
    cases hkind : w.kind with
    | workControl => exact absurd hkind hcontrol
    | workMeta => exact absurd hkind hmeta
    | workPacket0 | workResend | workNew | workTailDup =>
      simp only [hrpc, hsent, hseq, Bool.false_eq_true, if_false]
      exact ⟨_, rfl, ⟨rfl, rfl, rfl⟩⟩
  | true =>
    unfold Session.record
    rw [hp, hd]
    cases hkind : w.kind with
    | workControl => exact absurd hkind hcontrol
    | workMeta => exact absurd hkind hmeta
    | workPacket0 | workResend | workNew | workTailDup =>
      simp only [hrpc, hsent, hseq, if_true]
      exact ⟨_, rfl, ⟨rfl, rfl, rfl⟩⟩

end Http4.Sender
