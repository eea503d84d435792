import Http4.Data.Machine
import Http4.Data.MinHeap
import Http4.Impair.Link

/-!
# The pipe of the impairment proxy

One direction of `server/internal/impair/proxy.go` (lines 187–298). Packets are
pushed under the mutex; one goroutine pops what is due under it and sends it on
after it has let go of it. `container/heap` is a parameter. Packets are numbered
without a bound: no pipe sees `2 ^ 64` of them.

Main results:

* `Traffic.Sound`: every accepted packet is in one place, with its own bytes, and
  none is sent early.
* `Traffic.InOrder`: without reordering, what is sent is what was pushed, so far.
* `Traffic.Turn`: what a step can do; each turn keeps what holds of a pipe.
* `pipe_conserves`: both hold of every run.
-/

namespace Http4.Impair

variable {G F D : Type*}

/-! ## The code -/

/-- `pkt` (lines 197–202); `send` says where the packet goes. -/
structure Pkt (D : Type*) where
  time : ℤ
  seq : ℕ
  b : Bytes
  send : D

/-- `pktHeap.Less` (lines 285–290). -/
def Pkt.less (x y : Pkt D) : Bool :=
  if x.time ≠ y.time then decide (x.time < y.time) else decide (x.seq < y.seq)

/-- `pipe` (lines 187–195), with the packet that `run` has popped and not yet counted. -/
structure Pipe (G F D : Type*) where
  link : Link G F
  queue : List (Pkt D)
  seq : ℕ
  hand : Option (Pkt D)
  received : ℕ
  forwarded : ℕ
  droppedLoss : ℕ
  droppedQueue : ℕ

/-- `newPipe`. -/
def newPipe (l : Link G F) : Pipe G F D := ⟨l, [], 0, none, 0, 0, 0, 0⟩

section

variable [LT F] [DecidableLT F] [LE F] [DecidableLE F] [Zero F]
  (H : HeapOps (Pkt.less (D := D))) (R : Rng G F)

/-- `push` (lines 208–229), with the verdict; `none` is a panic. -/
def Pipe.push (p : Pipe G F D) (now : ℤ) (b : Bytes) (send : D) : Option (Pipe G F D × Verdict) :=
  match p.link.admitPacket R now b.length with
  | none => none
  | some (.dropLoss, link) =>
    some ({ p with link := link, received := p.received + 1, droppedLoss := p.droppedLoss + 1 }, .dropLoss)
  | some (.dropQueue, link) =>
    some ({ p with link := link, received := p.received + 1, droppedQueue := p.droppedQueue + 1 }, .dropQueue)
  | some (.deliver time, link) =>
    some ({ p with link := link, received := p.received + 1, seq := p.seq + 1,
                   queue := H.push p.queue ⟨time, p.seq + 1, b, send⟩ }, .deliver time)

/-- The part of `run` under the mutex (lines 239–251): the next packet, if it is due. -/
def Pipe.poll (p : Pipe G F D) (now : ℤ) : Pipe G F D :=
  match p.queue.head? with
  | none => p
  | some next => if next.time ≤ now then { p with queue := H.pop p.queue, hand := some next } else p

/-- `next.send(next.b)` and its count (lines 247–248). -/
def Pipe.forward (p : Pipe G F D) : Pipe G F D := { p with hand := none, forwarded := p.forwarded + 1 }

/-! ## Runs -/

/-- A call of `push`, or a step of `run`, at a time. -/
inductive Action (D : Type*)
  | push (now : ℤ) (b : Bytes) (send : D)
  | poll (now : ℤ)
  | forward (now : ℤ)

/-- The time of an action. -/
def Action.now : Action D → ℤ
  | push now _ _ => now
  | poll now => now
  | forward now => now

/-- What a push was called with and what became of it. -/
structure Fate (D : Type*) where
  b : Bytes
  send : D
  verdict : Verdict

/-- A pipe and what has been seen of it: the time, the pushes, and the packets sent on
    with the times of their sending. -/
structure Traffic (G F D : Type*) where
  pipe : Pipe G F D
  clock : ℤ
  fates : List (Fate D)
  sent : List (Pkt D × ℤ)

/-- Time does not go back; the goroutine polls again only after it has sent. -/
def Traffic.step (w : Traffic G F D) (a : Action D) : Option (Traffic G F D) :=
  if a.now < w.clock then none
  else
    match a with
    | .push now b send =>
      match w.pipe.push H R now b send with
      | none => none
      | some (pipe, v) => some { w with pipe := pipe, clock := now, fates := w.fates ++ [⟨b, send, v⟩] }
    | .poll now =>
      match w.pipe.hand with
      | some _ => none
      | none => some { w with pipe := w.pipe.poll H now, clock := now }
    | .forward now =>
      match w.pipe.hand with
      | none => none
      | some k => some { w with pipe := w.pipe.forward, clock := now, sent := w.sent ++ [(k, now)] }

end

/-- A new pipe for a configuration, with nothing seen yet. -/
def Traffic.init [BEq F] [Zero F] [One F] (d : Direction F) (g : G) (clock : ℤ) : Traffic G F D :=
  ⟨newPipe (newLink d g), clock, [], []⟩

/-- The arguments of the pushes in a run. -/
def pushes : List (Action D) → List (Bytes × D)
  | [] => []
  | .push _ b send :: rest => (b, send) :: pushes rest
  | _ :: rest => pushes rest

/-- The accepted packets in the order of their pushes, numbered from `n + 1`. -/
def accepted (n : ℕ) : List (Fate D) → List (Pkt D)
  | [] => []
  | f :: rest =>
    match f.verdict with
    | .deliver time => ⟨time, n + 1, f.b, f.send⟩ :: accepted (n + 1) rest
    | _ => accepted n rest

/-- The packets that have left the queue, in the order of their leaving. -/
def Traffic.left (w : Traffic G F D) : List (Pkt D) := w.sent.map Prod.fst ++ w.pipe.hand.toList

/-- Every packet pushed is dropped or in exactly one place with its own bytes, the
    counters say so, and none is sent before its time. -/
structure Traffic.Sound (w : Traffic G F D) : Prop where
  once : (w.left ++ w.pipe.queue).Perm (accepted 0 w.fates)
  received : w.pipe.received = w.fates.length
  droppedLoss : w.pipe.droppedLoss = w.fates.countP fun f => f.verdict = .dropLoss
  droppedQueue : w.pipe.droppedQueue = w.fates.countP fun f => f.verdict = .dropQueue
  forwarded : w.pipe.forwarded = w.sent.length
  balance : w.pipe.received = w.pipe.forwarded + w.pipe.droppedLoss + w.pipe.droppedQueue +
    (w.pipe.queue.length + w.pipe.hand.toList.length)
  notEarly : ∀ x ∈ w.sent, x.1.time ≤ x.2

/-- The packets have left the queue in the order they were pushed in. -/
def Traffic.InOrder (w : Traffic G F D) : Prop := w.left <+: accepted 0 w.fates

/-! ## Accepted packets -/

theorem accepted_concat (n : ℕ) (fates : List (Fate D)) (f : Fate D) :
    accepted n (fates ++ [f]) = accepted n fates ++
      match f.verdict with
      | .deliver time => [⟨time, n + (accepted n fates).length + 1, f.b, f.send⟩]
      | _ => [] := by
  induction fates generalizing n with
  | nil => cases hv : f.verdict <;> simp [accepted, hv]
  | cons g rest ih =>
    rw [List.cons_append]
    cases hg : g.verdict with
    | deliver time =>
      have hcons : ∀ fs, accepted n (g :: fs) = ⟨time, n + 1, g.b, g.send⟩ :: accepted (n + 1) fs := by
        intro fs
        simp [accepted, hg]
      rw [hcons, hcons, ih, List.cons_append, List.length_cons]
      have hnum : n + 1 + (accepted (n + 1) rest).length + 1 = n + ((accepted (n + 1) rest).length + 1) + 1 := by
        omega
      rw [hnum]
    | dropLoss =>
      have hskip : ∀ fs, accepted n (g :: fs) = accepted n fs := by
        intro fs
        simp [accepted, hg]
      rw [hskip, hskip, ih]
    | dropQueue =>
      have hskip : ∀ fs, accepted n (g :: fs) = accepted n fs := by
        intro fs
        simp [accepted, hg]
      rw [hskip, hskip, ih]

theorem accepted_drop {f : Fate D} (hdrop : ∀ time, f.verdict ≠ .deliver time) (n : ℕ) (fates : List (Fate D)) :
    accepted n (fates ++ [f]) = accepted n fates := by
  rw [accepted_concat]
  cases hv : f.verdict with
  | deliver time => exact absurd hv (hdrop time)
  | dropLoss | dropQueue => exact List.append_nil _

theorem accepted_deliver (fates : List (Fate D)) (time : ℤ) (b : Bytes) (send : D) :
    accepted 0 (fates ++ [⟨b, send, .deliver time⟩]) =
      accepted 0 fates ++ [⟨time, (accepted 0 fates).length + 1, b, send⟩] := by
  rw [accepted_concat, Nat.zero_add]

theorem lt_seq_of_mem_accepted {n : ℕ} {fates : List (Fate D)} {k : Pkt D} (h : k ∈ accepted n fates) : n < k.seq := by
  induction fates generalizing n with
  | nil => cases h
  | cons f rest ih =>
    unfold accepted at h
    split at h
    · rcases List.mem_cons.mp h with rfl | h
      · exact Nat.lt_succ_self n
      · have := ih h
        omega
    · exact ih h

theorem accepted_pairwise_seq (n : ℕ) (fates : List (Fate D)) :
    (accepted n fates).Pairwise fun x y => x.seq < y.seq := by
  induction fates generalizing n with
  | nil => exact List.Pairwise.nil
  | cons f rest ih =>
    unfold accepted
    split
    · rw [List.pairwise_cons]
      refine ⟨?_, ih (n + 1)⟩
      intro y hy
      exact lt_seq_of_mem_accepted hy
    · exact ih n

/-! ## The invariant -/

section

variable {H : HeapOps (Pkt.less (D := D))} {w w' : Traffic G F D}

/-- What holds of a pipe at all times, beside `Sound`. -/
structure Traffic.Inv (H : HeapOps (Pkt.less (D := D))) (w : Traffic G F D) : Prop where
  once : (w.left ++ w.pipe.queue).Perm (accepted 0 w.fates)
  received : w.pipe.received = w.fates.length
  droppedLoss : w.pipe.droppedLoss = w.fates.countP fun f => f.verdict = .dropLoss
  droppedQueue : w.pipe.droppedQueue = w.fates.countP fun f => f.verdict = .dropQueue
  forwarded : w.pipe.forwarded = w.sent.length
  notEarly : ∀ x ∈ w.sent, x.1.time ≤ x.2
  heap : H.IsHeap w.pipe.queue
  numbered : w.pipe.seq = (accepted 0 w.fates).length
  due : ∀ k, w.pipe.hand = some k → k.time ≤ w.clock

theorem Traffic.Inv.sound (hw : w.Inv H) : w.Sound where
  once := hw.once
  received := hw.received
  droppedLoss := hw.droppedLoss
  droppedQueue := hw.droppedQueue
  forwarded := hw.forwarded
  notEarly := hw.notEarly
  balance := by
    have hlen := hw.once.length_eq
    have hfates : ∀ (fates : List (Fate D)) (n : ℕ), fates.length = (accepted n fates).length +
        (fates.countP fun f => f.verdict = .dropLoss) + fates.countP fun f => f.verdict = .dropQueue := by
      intro fates
      induction fates with
      | nil => intro n; rfl
      | cons f rest ih =>
        intro n
        rw [List.length_cons, List.countP_cons, List.countP_cons]
        cases hv : f.verdict with
        | deliver time =>
          have := ih (n + 1)
          simp only [accepted, hv, List.length_cons, reduceCtorEq, decide_false, Bool.false_eq_true, if_false]
          omega
        | dropLoss =>
          have := ih n
          simp only [accepted, hv, reduceCtorEq, decide_true, decide_false, Bool.false_eq_true, if_false, if_true]
          omega
        | dropQueue =>
          have := ih n
          simp only [accepted, hv, reduceCtorEq, decide_true, decide_false, Bool.false_eq_true, if_false, if_true]
          omega
    have hall := hfates w.fates 0
    have hsplit : (w.left ++ w.pipe.queue).length =
        w.sent.length + w.pipe.hand.toList.length + w.pipe.queue.length := by
      unfold Traffic.left
      rw [List.length_append, List.length_append, List.length_map]
    rw [hw.received, hw.forwarded, hw.droppedLoss, hw.droppedQueue]
    omega

/-- What holds as well if packets are not to be reordered: later packets are not due
    earlier, and the queue holds the later ones. -/
structure Traffic.Fifo (w : Traffic G F D) : Prop where
  reorder : w.pipe.link.d.reorder = false
  times : (accepted 0 w.fates).Pairwise fun x y => x.time ≤ y.time
  latest : ∀ k ∈ accepted 0 w.fates, k.time ≤ w.pipe.link.lastDeliver
  inOrder : w.InOrder

/-- The packet that is popped is the oldest in the queue. -/
theorem Traffic.Fifo.pop (hw : w.Inv H) (hf : w.Fifo) {next : Pkt D} {rest : List (Pkt D)}
    (hqueue : w.pipe.queue = next :: rest) : w.left ++ [next] <+: accepted 0 w.fates := by
  obtain ⟨later, hlater⟩ := hf.inOrder
  have hseq := accepted_pairwise_seq 0 w.fates
  have htimes := hf.times
  have hperm : (next :: rest).Perm later := by
    have honce := hw.once
    rw [hqueue, ← hlater] at honce
    exact (List.perm_append_left_iff w.left).mp honce
  cases later with
  | nil => exact absurd hperm.length_eq (by simp)
  | cons first later =>
    rw [← hlater, List.pairwise_append] at hseq htimes
    have hsorted : ∀ z ∈ later, Pkt.less first z = true := by
      intro z hz
      have h1 := (List.pairwise_cons.mp hseq.2.1).1 z hz
      have h2 := (List.pairwise_cons.mp htimes.2.1).1 z hz
      unfold Pkt.less
      split_ifs with hne
      · exact decide_eq_true (lt_of_le_of_ne h2 hne)
      · exact decide_eq_true h1
    have hheap := hw.heap
    rw [hqueue] at hheap
    rw [H.eq_head_of_least hheap hperm hsorted]
    exact ⟨later, by rw [List.append_assoc]; exact hlater⟩

theorem Traffic.inv_init [BEq F] [Zero F] [One F] (d : Direction F) (g : G) (clock : ℤ) :
    (Traffic.init d g clock : Traffic G F D).Inv H where
  once := List.Perm.refl _
  received := rfl
  droppedLoss := rfl
  droppedQueue := rfl
  forwarded := rfl
  notEarly := by simp [Traffic.init]
  heap := H.isHeap_nil
  numbered := rfl
  due := by simp [Traffic.init, newPipe]

theorem Traffic.fifo_init [BEq F] [Zero F] [One F] {d : Direction F} (hd : d.reorder = false) (g : G) (clock : ℤ) :
    (Traffic.init d g clock : Traffic G F D).Fifo where
  reorder := hd
  times := List.Pairwise.nil
  latest := by simp [Traffic.init, accepted]
  inOrder := List.prefix_refl _

/-! ## Turns -/

/-- What a step does: a packet is dropped, accepted, popped or sent on, or nothing is
    due. -/
inductive Traffic.Turn (H : HeapOps (Pkt.less (D := D))) (w : Traffic G F D) : Traffic G F D → Prop
  | drop (link : Link G F) (f : Fate D) (clock : ℤ) (hkeep : Link.Keeps w.pipe.link link)
      (hdrop : ∀ time, f.verdict ≠ .deliver time) (hclock : w.clock ≤ clock) :
      Turn H w { w with
        pipe := { w.pipe with
          link := link
          received := w.pipe.received + 1
          droppedLoss := w.pipe.droppedLoss + if f.verdict = .dropLoss then 1 else 0
          droppedQueue := w.pipe.droppedQueue + if f.verdict = .dropQueue then 1 else 0 }
        clock := clock
        fates := w.fates ++ [f] }
  | accept (link : Link G F) (time : ℤ) (b : Bytes) (send : D) (clock : ℤ) (hd : link.d = w.pipe.link.d)
      (hlast : link.lastDeliver = max w.pipe.link.lastDeliver time)
      (hle : w.pipe.link.d.reorder = false → w.pipe.link.lastDeliver ≤ time) (hclock : w.clock ≤ clock) :
      Turn H w { w with
        pipe := { w.pipe with
          link := link
          received := w.pipe.received + 1
          seq := w.pipe.seq + 1
          queue := H.push w.pipe.queue ⟨time, w.pipe.seq + 1, b, send⟩ }
        clock := clock
        fates := w.fates ++ [⟨b, send, .deliver time⟩] }
  | wait (clock : ℤ) (hclock : w.clock ≤ clock) : Turn H w { w with clock := clock }
  | pop (next : Pkt D) (rest : List (Pkt D)) (clock : ℤ) (hqueue : w.pipe.queue = next :: rest)
      (hhand : w.pipe.hand = none) (hdue : next.time ≤ clock) (hclock : w.clock ≤ clock) :
      Turn H w { w with pipe := { w.pipe with queue := H.pop (next :: rest), hand := some next }, clock := clock }
  | forward (k : Pkt D) (clock : ℤ) (hhand : w.pipe.hand = some k) (hclock : w.clock ≤ clock) :
      Turn H w { w with pipe := w.pipe.forward, clock := clock, sent := w.sent ++ [(k, clock)] }

/-- Each turn keeps what holds of a pipe at all times. -/
theorem Traffic.Inv.turn (hw : w.Inv H) (h : w.Turn H w') : w'.Inv H := by
  cases h with
  | drop link f clock hkeep hdrop hclock =>
    exact {
      once := by rw [accepted_drop hdrop]; exact hw.once
      received := by simp [hw.received]
      droppedLoss := by simp [hw.droppedLoss]
      droppedQueue := by simp [hw.droppedQueue]
      forwarded := hw.forwarded
      notEarly := hw.notEarly
      heap := hw.heap
      numbered := by rw [accepted_drop hdrop]; exact hw.numbered
      due := fun k hk => (hw.due k hk).trans hclock }
  | accept link time b send clock hd hlast hle hclock =>
    exact {
      once := by
        rw [accepted_deliver, ← hw.numbered]
        have hpush := H.push_perm w.pipe.queue ⟨time, w.pipe.seq + 1, b, send⟩
        refine (hpush.append_left w.left).trans (List.perm_middle.trans ?_)
        exact (hw.once.cons _).trans (List.perm_append_singleton _ _).symm
      received := by simp [hw.received]
      droppedLoss := by simp [hw.droppedLoss]
      droppedQueue := by simp [hw.droppedQueue]
      forwarded := hw.forwarded
      notEarly := hw.notEarly
      heap := H.isHeap_push _ _ hw.heap
      numbered := by rw [accepted_deliver]; simp [hw.numbered]
      due := fun k hk => (hw.due k hk).trans hclock }
  | wait clock hclock =>
    exact { hw with due := fun k hk => (hw.due k hk).trans hclock }
  | pop next rest clock hqueue hhand hdue hclock =>
    have hheap := hw.heap
    rw [hqueue] at hheap
    exact { hw with
      once := by
        have honce := hw.once
        unfold Traffic.left at honce ⊢
        rw [hhand, hqueue] at honce
        refine List.Perm.trans ?_ honce
        simp only [Option.toList_some, Option.toList_none, List.append_nil, List.append_assoc,
          List.singleton_append]
        exact ((H.pop_perm next rest hheap).cons next).append_left _
      heap := H.isHeap_pop next rest hheap
      due := fun k hk => Option.some.inj hk ▸ hdue }
  | forward k clock hhand hclock =>
    exact { hw with
      once := by
        have honce := hw.once
        unfold Traffic.left at honce ⊢
        rw [hhand] at honce
        simpa [Pipe.forward] using honce
      forwarded := by simp [Pipe.forward, hw.forwarded]
      notEarly := by
        intro x hx
        rcases List.mem_append.mp hx with hx | hx
        · exact hw.notEarly x hx
        · rw [List.mem_singleton.mp hx]
          exact (hw.due k hhand).trans hclock
      due := fun k hk => by cases hk }

/-- Each turn keeps the order. -/
theorem Traffic.Fifo.turn (hw : w.Inv H) (hf : w.Fifo) (h : w.Turn H w') : w'.Fifo := by
  cases h with
  | drop link f clock hkeep hdrop hclock =>
    refine ⟨hkeep.d ▸ hf.reorder, by rw [accepted_drop hdrop]; exact hf.times, ?_, ?_⟩
    · rw [accepted_drop hdrop, hkeep.lastDeliver]
      exact hf.latest
    · unfold Traffic.InOrder
      rw [accepted_drop hdrop]
      exact hf.inOrder
  | accept link time b send clock hd hlast hle hclock =>
    have hle := hle hf.reorder
    refine ⟨hd ▸ hf.reorder, ?_, ?_, ?_⟩
    · rw [accepted_deliver, List.pairwise_append]
      refine ⟨hf.times, List.pairwise_singleton _ _, ?_⟩
      intro x hx y hy
      rw [List.mem_singleton.mp hy]
      exact (hf.latest x hx).trans hle
    · rw [accepted_deliver]
      intro k hk
      show k.time ≤ link.lastDeliver
      rw [hlast]
      rcases List.mem_append.mp hk with hk | hk
      · exact (hf.latest k hk).trans (le_max_left _ _)
      · rw [List.mem_singleton.mp hk]
        exact le_max_right _ _
    · unfold Traffic.InOrder
      rw [accepted_deliver]
      exact hf.inOrder.trans (List.prefix_append _ _)
  | wait clock hclock => exact ⟨hf.reorder, hf.times, hf.latest, hf.inOrder⟩
  | pop next rest clock hqueue hhand hdue hclock =>
    refine ⟨hf.reorder, hf.times, hf.latest, ?_⟩
    have hpop := hf.pop hw hqueue
    unfold Traffic.left at hpop
    unfold Traffic.InOrder Traffic.left
    rw [hhand] at hpop
    simpa using hpop
  | forward k clock hhand hclock =>
    refine ⟨hf.reorder, hf.times, hf.latest, ?_⟩
    have hin := hf.inOrder
    unfold Traffic.InOrder Traffic.left at hin ⊢
    rw [hhand] at hin
    simpa [Pipe.forward] using hin

end

/-! ## Steps -/

section

variable [LT F] [DecidableLT F] [LE F] [DecidableLE F] [Zero F]
  {H : HeapOps (Pkt.less (D := D))} {R : Rng G F} {w w' : Traffic G F D}

theorem turn_of_step {a : Action D} (h : w.step H R a = some w') : w.Turn H w' := by
  unfold Traffic.step at h
  split_ifs at h with hclock
  rw [not_lt] at hclock
  cases a with
  | push now b send =>
    dsimp only at h
    unfold Pipe.push at h
    cases hverdict : w.pipe.link.admitPacket R now b.length with
    | none => simp [hverdict] at h
    | some c =>
      obtain ⟨v, link⟩ := c
      rw [hverdict] at h
      cases v with
      | deliver time =>
        obtain rfl := Option.some.inj h
        obtain ⟨h1, h2, h3⟩ := Link.admitPacket_deliver hverdict
        exact .accept link time b send now h1 h2 h3 hclock
      | dropLoss =>
        obtain rfl := Option.some.inj h
        exact .drop link ⟨b, send, .dropLoss⟩ now (Link.admitPacket_drop hverdict (by simp)) (by simp) hclock
      | dropQueue =>
        obtain rfl := Option.some.inj h
        exact .drop link ⟨b, send, .dropQueue⟩ now (Link.admitPacket_drop hverdict (by simp)) (by simp) hclock
  | poll now =>
    dsimp only at h
    cases hhand : w.pipe.hand with
    | some k => simp [hhand] at h
    | none =>
      rw [hhand] at h
      obtain rfl := Option.some.inj h
      unfold Pipe.poll
      cases hqueue : w.pipe.queue with
      | nil => exact .wait now hclock
      | cons next rest =>
        simp only [List.head?_cons]
        split_ifs with hdue
        · exact .pop next rest now hqueue hhand hdue hclock
        · exact .wait now hclock
  | forward now =>
    dsimp only at h
    cases hhand : w.pipe.hand with
    | none => simp [hhand] at h
    | some k =>
      rw [hhand] at h
      obtain rfl := Option.some.inj h
      exact .forward k now hhand hclock

/-! ## Every run -/

/-- The fates are those of the pushes, in their order. -/
theorem fates_run {as : List (Action D)} (h : Machine.run (Traffic.step H R) w as = some w') :
    w'.fates.map (fun f => (f.b, f.send)) = w.fates.map (fun f => (f.b, f.send)) ++ pushes as := by
  induction as generalizing w with
  | nil =>
    obtain rfl := Option.some.inj h
    simp [pushes]
  | cons a as ih =>
    obtain ⟨t, ht, hrun⟩ := Machine.run_cons_iff.mp h
    rw [ih hrun]
    unfold Traffic.step at ht
    split_ifs at ht
    cases a with
    | push now b send =>
      dsimp only at ht
      cases hp : w.pipe.push H R now b send with
      | none => simp [hp] at ht
      | some c =>
        rw [hp] at ht
        obtain rfl := Option.some.inj ht
        simp [pushes]
    | poll now =>
      dsimp only at ht
      cases hhand : w.pipe.hand with
      | some k => simp [hhand] at ht
      | none =>
        rw [hhand] at ht
        obtain rfl := Option.some.inj ht
        rfl
    | forward now =>
      dsimp only at ht
      cases hhand : w.pipe.hand with
      | none => simp [hhand] at ht
      | some k =>
        rw [hhand] at ht
        obtain rfl := Option.some.inj ht
        rfl

/-- In every run the pipe conserves its packets, sends none before its time, and
    sends them in the order they were pushed in unless it is told to reorder. -/
theorem pipe_conserves [BEq F] [One F] {d : Direction F} {g : G} {clock : ℤ} {as : List (Action D)}
    (h : Machine.run (Traffic.step H R) (Traffic.init d g clock) as = some w) :
    w.fates.map (fun f => (f.b, f.send)) = pushes as ∧ w.Sound ∧ (d.reorder = false → w.InOrder) := by
  refine ⟨fates_run h, ?_, ?_⟩
  · have hinv : w.Inv H :=
      Machine.run_invariant (P := Traffic.Inv H) (fun _ _ _ hs hstep => hs.turn (turn_of_step hstep))
        (Traffic.inv_init d g clock) h
    exact hinv.sound
  · intro hd
    have hboth : w.Inv H ∧ w.Fifo :=
      Machine.run_invariant (P := fun t => t.Inv H ∧ t.Fifo)
        (fun _ _ _ hs hstep => ⟨hs.1.turn (turn_of_step hstep), hs.2.turn hs.1 (turn_of_step hstep)⟩)
        ⟨Traffic.inv_init d g clock, Traffic.fifo_init hd g clock⟩ h
    exact hboth.2.inOrder

end

/-! ## A run -/

theorem Pkt.less_asymm (x y : Pkt D) (h : x.less y = true) : y.less x = false := by
  unfold Pkt.less at *
  split_ifs at * <;> simp only [decide_eq_true_eq, decide_eq_false_iff_not] at * <;> omega

theorem Pkt.less_trans (x y z : Pkt D) (hxy : y.less x = false) (hyz : z.less y = false) : z.less x = false := by
  unfold Pkt.less at *
  split_ifs at * <;> simp only [decide_eq_false_iff_not] at * <;> omega

/-- The heap of packets as a sorted list. -/
def sortedQueue : HeapOps (Pkt.less (D := D)) := insertionHeap Pkt.less_asymm Pkt.less_trans

/-- A random source that always says the same. -/
def constantRng : Rng Unit ℕ := ⟨fun g => (0, g), fun _ g => (0, g)⟩

/-- 5 ns of delay on a FIFO path. -/
def shortPath : Direction ℕ := ⟨5, 0, false, 0, none, 0, 0⟩

/-- Two packets, of which the first is sent on. -/
def twoPackets : List (Action Unit) := [.push 0 [1] (), .push 1 [2] (), .poll 4, .poll 7, .forward 7]

theorem pipe_conserves_two : ∃ w : Traffic Unit ℕ Unit,
    Machine.run (Traffic.step sortedQueue constantRng) (Traffic.init shortPath () 0) twoPackets = some w ∧
      w.sent.length = 1 ∧
      w.fates.map (fun f => (f.b, f.send)) = pushes twoPackets ∧ w.Sound ∧
        (shortPath.reorder = false → w.InOrder) := by
  obtain ⟨w, hrun, hsent⟩ : ∃ w : Traffic Unit ℕ Unit,
      Machine.run (Traffic.step sortedQueue constantRng) (Traffic.init shortPath () 0) twoPackets = some w ∧
        w.sent.length = 1 := ⟨_, rfl, rfl⟩
  exact ⟨w, hrun, hsent, pipe_conserves hrun⟩

end Http4.Impair
