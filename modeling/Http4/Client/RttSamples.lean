import Http4.Client.Encodable

/-!
# When RTT samples begin

An RTT sample is an interval of the clock. This module shows, for everything that the
code of `Transport.lean` does, that a packet handed to `send` before a sample began did
not let the server send the reply that ended it.

Main results:

* `Timely`: the invariant on ceilings, probes and the packets handed over so far.
* `times_pumpGrants`, `times_recover`, `times_handle`, …: one lemma for each function.
* `step_times`: what a step adds to the histories.
-/

namespace Http4.Client

open Routine Http4Client
open Wire.Ts (JsString)

/-! ## What packets allow -/

/-- The offset up to which a packet lets the server send for `id`. -/
def Outgoing.authority (id : ℤ) : Outgoing → Option ℚ
  | .req rpcId initialGrant _ => if rpcId = id then some initialGrant else none
  | .grant rpcId maxOffset _ => if rpcId = id then some maxOffset else none
  | .resend _ _ | .hello _ _ | .resendSeq _ _ => none

/-- What RTT samples and GRANTs depend on in a transfer. -/
structure Timing where
  live : Bool
  initialGrant : ℚ
  reqSentAt : ℚ
  ceiling : ℚ
  probe : Option Probe

/-- The timing of a transfer. -/
def Transfer.timing (t : Transfer) : Timing :=
  { live := t.live, initialGrant := t.initialGrant, reqSentAt := t.progress.reqSentAt
    ceiling := t.progress.ceiling, probe := t.progress.probe }

/-- The times of a transfer go with the packets handed over for it: none of them is
    older than its REQ, none goes past the ceiling, and none that goes past the start
    of the probe is older than the probe. -/
structure Timing.Sound (x : Timing) (stamped : List (Outgoing × ℚ)) (clock : ℚ) (id : ℤ) : Prop where
  nonneg : 0 ≤ x.ceiling
  initial : x.initialGrant ≤ x.ceiling
  started : x.reqSentAt ≤ clock
  probed : ∀ pr, x.probe = some pr → pr.sentAt ≤ clock
  after : ∀ p τ g, (p, τ) ∈ stamped → p.authority id = some g →
    x.reqSentAt ≤ τ ∧ g ≤ x.ceiling ∧ ∀ pr, x.probe = some pr → pr.start < g → pr.sentAt ≤ τ

theorem Timing.Sound.clock {id : ℤ} {x : Timing} {stamped : List (Outgoing × ℚ)} {clock clock' : ℚ}
    (h : x.Sound stamped clock id) (hle : clock ≤ clock') : x.Sound stamped clock' id :=
  ⟨h.nonneg, h.initial, h.started.trans hle, fun pr hpr => (h.probed pr hpr).trans hle, h.after⟩

/-- Times that say no more. -/
structure Timing.Weaker (x y : Timing) : Prop where
  initialGrant : x.initialGrant = y.initialGrant
  reqSentAt : x.reqSentAt = y.reqSentAt
  ceiling : x.ceiling = y.ceiling
  probe : ∀ pr, x.probe = some pr → y.probe = some pr

theorem Timing.Sound.weaker {id : ℤ} {x y : Timing} {stamped : List (Outgoing × ℚ)} {clock : ℚ}
    (h : y.Sound stamped clock id) (hw : x.Weaker y) : x.Sound stamped clock id := by
  refine ⟨?_, ?_, ?_, fun pr hpr => h.probed pr (hw.probe pr hpr), fun p τ g hp hg => ?_⟩
  · exact hw.ceiling ▸ h.nonneg
  · rw [hw.initialGrant, hw.ceiling]
    exact h.initial
  · exact hw.reqSentAt ▸ h.started
  · obtain ⟨hsent, hceiling, hprobed⟩ := h.after p τ g hp hg
    rw [hw.reqSentAt, hw.ceiling]
    exact ⟨hsent, hceiling, fun pr hpr => hprobed pr (hw.probe pr hpr)⟩

namespace Http4Client

/-- The times of the transfers. -/
def timings (c : Http4Client) (id : ℤ) : Option Timing := (c.objects.get? id).map Transfer.timing

/-- The size and the grant of a scheduled RPC. -/
def terms (c : Http4Client) (id : ℤ) : Option (ℚ × ℚ) :=
  (c.scheduler.rpcs.get? id).map fun e => (e.size, e.granted)

/-- The invariant, but for the GRANTs to `ahead`: they are in the scheduler and are still to
    be handed over. -/
structure TimelyBut (ahead : List ℤ) (c : Http4Client) : Prop where
  handed : c.est.stamped.map Prod.fst = c.handed
  sound : ∀ id x, c.timings id = some x → Outgoing.IsUint64 id ∧ x.Sound c.est.stamped c.est.clock id
  unknown : ∀ id, c.timings id = none → ∀ p τ, (p, τ) ∈ c.est.stamped → p.authority id = none
  unscheduled : ∀ id x, c.timings id = some x → x.live = true → c.terms id = none →
    x.ceiling = x.initialGrant
  scheduled : ∀ id size g, c.terms id = some (size, g) → IsUint32 size ∧
    ∃ x, c.timings id = some x ∧ x.live = true ∧
      if id ∈ ahead then x.ceiling ≤ g ∧ g ≤ size else g = min x.ceiling size

/-- The invariant. -/
abbrev Timely : Http4Client → Prop := TimelyBut []

/-- The packet handled is META or DATA of a transfer. -/
def Replies (inc : Option Wire.Ts.Packet) (id : ℤ) : Prop :=
  (∃ m, inc = some (.metaData m) ∧ m.rpcId = id) ∨ ∃ d, Carried inc d ∧ d.rpcId = id

/-- No packet handed over before the sample began let the server send the packet
    handled: none of them named its transfer, or none went past an offset that its
    payload passes. -/
inductive Spans (inc : Option Wire.Ts.Packet) (c : Http4Client) (σ : RttSample) : Prop
  | reply (id : ℤ) (hinc : Replies inc id)
      (hlate : ∀ p τ g, (p, τ) ∈ c.est.stamped → p.authority id = some g → σ.start ≤ τ)
  | probe (d : Wire.Ts.Data) (limit : ℚ) (hinc : Carried inc d)
      (hlimit : limit < ((d.offset + d.payload.length : ℤ) : ℚ))
      (hlate : ∀ p τ g, (p, τ) ∈ c.est.stamped → p.authority d.rpcId = some g → limit < g → σ.start ≤ τ)

/-- What the code adds to the clock and the histories. -/
structure Grows (inc : Option Wire.Ts.Packet) (c c' : Http4Client) : Prop where
  clock : c.est.clock ≤ c'.est.clock
  stamped : ∃ l, c'.est.stamped = c.est.stamped ++ l ∧
    (∀ x ∈ l, c.est.clock ≤ x.2 ∧ x.2 ≤ c'.est.clock) ∧ l.Pairwise fun x y => x.2 ≤ y.2
  samples : ∃ l, c'.est.samples = c.est.samples ++ l ∧ ∀ σ ∈ l,
    c.est.clock ≤ σ.stop ∧ σ.start ≤ σ.stop ∧ σ.stop ≤ c'.est.clock ∧ c'.Spans inc σ
  ceiling : ∀ id x, c.timings id = some x → ∃ x', c'.timings id = some x' ∧ x.ceiling ≤ x'.ceiling

/-- The code keeps the invariant, and what it adds to the histories is in order. -/
def Times (inc : Option Wire.Ts.Packet) (c c' : Http4Client) : Prop := Timely c → Timely c' ∧ Grows inc c c'

variable {inc : Option Wire.Ts.Packet} {c c' c'' : Http4Client} {id : ℤ} {ahead : List ℤ}

theorem Grows.refl (c : Http4Client) : Grows inc c c :=
  ⟨le_rfl, ⟨[], (List.append_nil _).symm, by simp⟩, ⟨[], (List.append_nil _).symm, by simp⟩,
    fun _ x hx => ⟨x, hx, le_rfl⟩⟩

/-- Packets handed over later change nothing for a sample that has begun. -/
theorem Spans.grows {σ : RttSample} (h : c.Spans inc σ) (hle : σ.start ≤ c.est.clock)
    (hgrows : Grows inc c c') : c'.Spans inc σ := by
  obtain ⟨l, heq, hl, -⟩ := hgrows.stamped
  have hmem {p : Outgoing} {τ : ℚ} (hp : (p, τ) ∈ c'.est.stamped) :
      (p, τ) ∈ c.est.stamped ∨ σ.start ≤ τ := by
    rw [heq, List.mem_append] at hp
    exact hp.imp_right fun hp => hle.trans (hl _ hp).1
  cases h with
  | reply id hinc hlate =>
    exact .reply id hinc fun p τ g hp hg => (hmem hp).elim (fun hp => hlate p τ g hp hg) fun h => h
  | probe d limit hinc hlimit hlate =>
    exact .probe d limit hinc hlimit fun p τ g hp hg hlt =>
      (hmem hp).elim (fun hp => hlate p τ g hp hg hlt) fun h => h

theorem Grows.trans (h : Grows inc c c') (h' : Grows inc c' c'') : Grows inc c c'' := by
  obtain ⟨l, heq, hl, hsorted⟩ := h.stamped
  obtain ⟨l', heq', hl', hsorted'⟩ := h'.stamped
  obtain ⟨m, hm, hsamples⟩ := h.samples
  obtain ⟨m', hm', hsamples'⟩ := h'.samples
  refine ⟨h.clock.trans h'.clock, ⟨l ++ l', by rw [heq', heq, List.append_assoc], ?_, ?_⟩,
    ⟨m ++ m', by rw [hm', hm, List.append_assoc], ?_⟩, fun id x hx => ?_⟩
  · exact List.forall_mem_append.mpr ⟨fun x hx => ⟨(hl x hx).1, (hl x hx).2.trans h'.clock⟩,
      fun x hx => ⟨h.clock.trans (hl' x hx).1, (hl' x hx).2⟩⟩
  · exact List.pairwise_append.mpr ⟨hsorted, hsorted', fun x hx y hy => (hl x hx).2.trans (hl' y hy).1⟩
  · refine List.forall_mem_append.mpr ⟨fun σ hσ => ?_, fun σ hσ => ?_⟩
    · obtain ⟨hbefore, hle, hafter, hspans⟩ := hsamples σ hσ
      exact ⟨hbefore, hle, hafter.trans h'.clock, hspans.grows (hle.trans hafter) h'⟩
    · obtain ⟨hbefore, hle, hafter, hspans⟩ := hsamples' σ hσ
      exact ⟨h.clock.trans hbefore, hle, hafter, hspans⟩
  · obtain ⟨x', hx', hle⟩ := h.ceiling id x hx
    obtain ⟨x'', hx'', hle'⟩ := h'.ceiling id x' hx'
    exact ⟨x'', hx'', hle.trans hle'⟩

instance : Std.Refl (Times inc) := ⟨fun c h => ⟨h, .refl c⟩⟩

instance : IsTrans Http4Client (Times inc) where
  trans _ _ _ h h' hc := ⟨(h' (h hc).1).1, (h hc).2.trans (h' (h hc).1).2⟩

/-- What changes neither the histories nor the times of a transfer. -/
structure Quiet (c c' : Http4Client) : Prop where
  clock : c.est.clock ≤ c'.est.clock
  stamped : c'.est.stamped = c.est.stamped
  samples : c'.est.samples = c.est.samples
  handed : c'.handed = c.handed
  timings : c'.timings = c.timings
  terms : c'.terms = c.terms

theorem TimelyBut.quiet (h : TimelyBut ahead c) (hq : Quiet c c') : TimelyBut ahead c' := by
  obtain ⟨hclock, hstamped, -, hhanded, htimings, hterms⟩ := hq
  refine ⟨?_, ?_, ?_, ?_, ?_⟩
  · rw [hstamped, hhanded]
    exact h.handed
  · rw [hstamped, htimings]
    exact fun id x hx => ⟨(h.sound id x hx).1, (h.sound id x hx).2.clock hclock⟩
  · rw [hstamped, htimings]
    exact h.unknown
  · rw [htimings, hterms]
    exact h.unscheduled
  · rw [htimings, hterms]
    exact h.scheduled

theorem Grows.quiet (hq : Quiet c c') : Grows inc c c' :=
  ⟨hq.clock, ⟨[], by rw [hq.stamped, List.append_nil], by simp⟩, ⟨[], by rw [hq.samples, List.append_nil], by simp⟩,
    fun _ x hx => ⟨x, by rw [hq.timings]; exact hx, le_rfl⟩⟩

theorem Quiet.times (hq : Quiet c c') : Times inc c c' := fun h => ⟨h.quiet hq, .quiet hq⟩

/-- The invariant may be used for what the code does next. -/
theorem times_of {α : Type} {m : Js α} (h : Timely c → Follows (Times inc) m c) : Follows (Times inc) m c :=
  fun hc => h hc hc

/-- What is known when the code has come to a point. -/
theorem Times.at {α : Type} {m : Js α} (h : Follows (Times inc) m c) (hc : Timely c) {r : Except Thrown α}
    {s : Http4Client} (hexec : exec m c = (r, s)) : Timely s ∧ Grows inc c s := by
  have hs := h hc
  rwa [hexec] at hs

/-! ### Single changes -/

theorem timings_of_get? {t : Transfer} (h : c.objects.get? id = some t) : c.timings id = some t.timing := by
  rw [timings, h]
  rfl

theorem timings_setTransfer {f : Transfer → Transfer} {g : Timing → Timing}
    (h : ∀ t, (f t).timing = g t.timing) :
    (c.setTransfer id f).timings = Function.update c.timings id ((c.timings id).map g) := by
  refine funext fun id' => ?_
  change ((c.objects.modify id f).get? id').map _ = _
  rw [OrderedMap.get?_modify, Function.update_apply]
  split_ifs with hid
  · rw [hid, timings, Option.map_map, Option.map_map]
    exact congrArg (Option.map · _) (funext h)
  · rfl

/-- A change to a transfer that its times do not depend on. -/
theorem quiet_setTransfer {f : Transfer → Transfer} (h : ∀ t, (f t).timing = t.timing) :
    Quiet c (c.setTransfer id f) := by
  refine ⟨le_rfl, rfl, rfl, rfl, ?_, rfl⟩
  rw [timings_setTransfer (g := fun x => x) h, Option.map_id', Function.update_eq_self]

theorem quiet_setStream (f : StreamState → StreamState) : Quiet c (c.setStream id f) :=
  quiet_setTransfer fun _ => rfl

theorem quiet_setScheduler {s : SrptScheduler}
    (h : ∀ id, (s.rpcs.get? id).map (fun e => (e.size, e.granted)) = c.terms id) :
    Quiet c { c with scheduler := s } :=
  ⟨le_rfl, rfl, rfl, rfl, rfl, funext h⟩

theorem terms_modify {f : Entry → Entry} (hf : ∀ e, (f e).size = e.size ∧ (f e).granted = e.granted) (id' : ℤ) :
    ((c.scheduler.rpcs.modify id f).get? id').map (fun e => (e.size, e.granted)) = c.terms id' := by
  rw [OrderedMap.get?_modify, terms]
  split_ifs with hid
  · rw [hid, Option.map_map]
    exact congrArg (Option.map · _) (funext fun e => Prod.ext (hf e).1 (hf e).2)
  · rfl

theorem le_now : c.est.clock ≤ c.now := le_add_of_nonneg_right (NNRat.coe_nonneg _)

theorem quiet_advance : Quiet c c.advance := ⟨le_now, rfl, rfl, rfl, rfl, rfl⟩

instance : Std.Refl Quiet := ⟨fun _ => ⟨le_rfl, rfl, rfl, rfl, rfl, rfl⟩⟩

instance : IsTrans Http4Client Quiet where
  trans _ _ _ h h' := ⟨h.clock.trans h'.clock, h'.stamped.trans h.stamped, h'.samples.trans h.samples,
    h'.handed.trans h.handed, h'.timings.trans h.timings, h'.terms.trans h.terms⟩

/-- The times of one transfer get weaker, or it leaves `this.transfers` and the scheduler. -/
theorem times_setTiming (id : ℤ) {g : Timing → Timing} (hg : ∀ x, (g x).Weaker x)
    (htimings : c'.timings = Function.update c.timings id ((c.timings id).map g))
    (hsame : c'.est.clock = c.est.clock ∧ c'.est.stamped = c.est.stamped ∧ c'.est.samples = c.est.samples ∧
      c'.handed = c.handed)
    (hterms : (∀ x, (g x).live = x.live) ∧ c'.terms = c.terms ∨
      (∀ x, (g x).live = false) ∧ ∀ id', c'.terms id' = if id' = id then none else c.terms id') :
    Times inc c c' := by
  obtain ⟨hclock, hstamped, hsamples, hhanded⟩ := hsame
  have hback {id' : ℤ} {x : Timing} (hx : c'.timings id' = some x) :
      ∃ y, c.timings id' = some y ∧ (id' = id ∧ x = g y ∨ id' ≠ id ∧ x = y) := by
    rw [htimings, Function.update_apply] at hx
    split_ifs at hx with hid
    · obtain ⟨y, hy, rfl⟩ := Option.map_eq_some_iff.mp hx
      exact ⟨y, hid ▸ hy, .inl ⟨hid, rfl⟩⟩
    · exact ⟨x, hx, .inr ⟨hid, rfl⟩⟩
  have hforth {id' : ℤ} {y : Timing} (hy : c.timings id' = some y) :
      ∃ x, c'.timings id' = some x ∧ x.ceiling = y.ceiling ∧ (id' ≠ id ∨ (∀ x, (g x).live = x.live) → x.live = y.live) := by
    rw [htimings, Function.update_apply]
    split_ifs with hid
    · exact ⟨g y, by rw [← hid, hy]; rfl, (hg y).ceiling, fun h => (h.resolve_left fun hne => hne hid) y⟩
    · exact ⟨y, hy, rfl, fun _ => rfl⟩
  refine fun h => ⟨⟨?_, fun id' x hx => ?_, fun id' hnone => ?_, fun id' x hx hlive hnone => ?_,
    fun id' size g' hg' => ?_⟩, hclock.ge, ⟨[], by rw [hstamped, List.append_nil], by simp⟩,
    ⟨[], by rw [hsamples, List.append_nil], by simp⟩, fun id' y hy => ?_⟩
  · rw [hstamped, hhanded]
    exact h.handed
  · rw [hstamped, hclock]
    obtain ⟨y, hy, ⟨-, rfl⟩ | ⟨-, rfl⟩⟩ := hback hx
    · exact ⟨(h.sound id' y hy).1, (h.sound id' y hy).2.weaker (hg y)⟩
    · exact h.sound id' x hy
  · rw [hstamped]
    refine h.unknown id' ?_
    cases hy : c.timings id' with
    | none => rfl
    | some y =>
      obtain ⟨x, hx, -⟩ := hforth hy
      exact absurd (hnone.symm.trans hx) (by simp)
  · obtain ⟨y, hy, hxy⟩ := hback hx
    rcases hterms with ⟨hsame, hterms⟩ | ⟨hdead, hterms⟩
    · rw [hterms] at hnone
      rcases hxy with ⟨-, rfl⟩ | ⟨-, rfl⟩
      · rw [(hg y).ceiling, (hg y).initialGrant]
        exact h.unscheduled id' y hy ((hsame y).symm.trans hlive) hnone
      · exact h.unscheduled id' x hy hlive hnone
    · rcases hxy with ⟨-, rfl⟩ | ⟨hid, rfl⟩
      · rw [hdead] at hlive
        cases hlive
      · rw [hterms, if_neg hid] at hnone
        exact h.unscheduled id' x hy hlive hnone
  · have hkept : c.terms id' = some (size, g') ∧ (id' ≠ id ∨ ∀ x, (g x).live = x.live) := by
      rcases hterms with ⟨hsame, hterms⟩ | ⟨-, hterms⟩
      · exact ⟨hterms ▸ hg', .inr hsame⟩
      · rw [hterms] at hg'
        split_ifs at hg' with hid
        exact ⟨hg', .inl hid⟩
    obtain ⟨hsize, y, hy, hlive, hle⟩ := h.scheduled id' size g' hkept.1
    obtain ⟨x, hx, hceiling, hlive'⟩ := hforth hy
    exact ⟨hsize, x, hx, (hlive' hkept.2).trans hlive, by rw [hceiling]; exact hle⟩
  · obtain ⟨x, hx, hceiling, -⟩ := hforth hy
    exact ⟨x, hx, hceiling.ge⟩

/-- A packet is handed over that goes no further than the ceiling. -/
theorem TimelyBut.hand (h : TimelyBut ahead c) {p : Outgoing}
    (hp : ∀ id g, p.authority id = some g → ∃ x, c.timings id = some x ∧ g ≤ x.ceiling) :
    TimelyBut ahead (c.hand p) := by
  refine ⟨?_, fun id x hx => ?_, fun id hnone q τ hq => ?_, h.unscheduled, h.scheduled⟩
  · change (c.est.stamped ++ _).map Prod.fst = c.handed ++ [p]
    rw [List.map_append, h.handed]
    rfl
  · obtain ⟨hid, hsound⟩ := h.sound id x hx
    refine ⟨hid, hsound.nonneg, hsound.initial, hsound.started, hsound.probed, fun q τ g hq hg => ?_⟩
    rcases List.mem_append.mp hq with hq | hq
    · exact hsound.after q τ g hq hg
    · obtain ⟨rfl, rfl⟩ := Prod.mk.inj (List.mem_singleton.mp hq)
      obtain ⟨x', hx', hle⟩ := hp id g hg
      obtain rfl := Option.some.inj (hx.symm.trans hx')
      exact ⟨hsound.started, hle, fun pr hpr _ => hsound.probed pr hpr⟩
  · rcases List.mem_append.mp hq with hq | hq
    · exact h.unknown id hnone q τ hq
    · obtain ⟨rfl, rfl⟩ := Prod.mk.inj (List.mem_singleton.mp hq)
      cases hg : q.authority id with
      | none => rfl
      | some g =>
        obtain ⟨x, hx, -⟩ := hp id g hg
        exact absurd (hnone.symm.trans hx) (by simp)

theorem Grows.hand (p : Outgoing) : Grows inc c (c.hand p) :=
  ⟨le_rfl, ⟨_, rfl, by simp [Http4Client.hand]⟩, ⟨[], (List.append_nil _).symm, by simp⟩, fun _ x hx => ⟨x, hx, le_rfl⟩⟩

theorem exec_send (p : Outgoing) : (exec (send p) c).2 = c.hand p := by
  rw [send, exec_modify_bind]
  cases p.encode <;> rfl

theorem times_send {p : Outgoing}
    (hp : Timely c → ∀ id g, p.authority id = some g → ∃ x, c.timings id = some x ∧ g ≤ x.ceiling) :
    Follows (Times inc) (send p) c := by
  rw [Follows, exec_send]
  exact fun h => ⟨h.hand (hp h), .hand p⟩

end Http4Client

/-! ## The functions -/

section Functions

variable {inc : Option Wire.Ts.Packet} {c : Http4Client} {id : ℤ} {now : ℚ}

theorem times_performanceNow : Follows (Times inc) performanceNow c :=
  Follows.get_bind (Follows.modify_bind quiet_advance.times (Follows.pure _))

theorem times_sendHello : Follows (Times inc) sendHello c := by
  refine Follows.get_bind (Follows.ite (fun _ => Follows.pure _) fun _ => ?_)
  have hquiet : Quiet c { c with est := { c.est with hellosSent := c.est.hellosSent + 1 } } :=
    ⟨le_rfl, rfl, rfl, rfl, rfl, rfl⟩
  exact Follows.modify_bind hquiet.times (times_send fun _ _ _ h => by cases h)

/-! ### GRANTs -/

/-- What `noteGrant` makes of the times of a live transfer. -/
def Timing.grant (x : Timing) (now g : ℚ) : Timing :=
  { x with ceiling := g, probe := some (x.probe.getD { start := x.ceiling, sentAt := now }) }

/-- The probe of a GRANT begins before the GRANT is handed over, and no packet before it goes
    past the ceiling at which it starts. -/
theorem Timing.Sound.grant {x : Timing} {stamped : List (Outgoing × ℚ)} {clock g : ℚ} (h : x.Sound stamped clock id)
    (hle : x.ceiling ≤ g) : (x.grant clock g).Sound stamped clock id := by
  refine ⟨h.nonneg.trans hle, h.initial.trans hle, h.started, fun pr hpr => ?_, fun p τ g' hp hg' => ?_⟩
  · obtain rfl := Option.some.inj hpr
    cases hprobe : x.probe with
    | none => exact le_rfl
    | some pr => exact h.probed pr hprobe
  · obtain ⟨hsent, hceiling, hprobed⟩ := h.after p τ g' hp hg'
    refine ⟨hsent, hceiling.trans hle, fun pr hpr hlt => ?_⟩
    obtain rfl := Option.some.inj hpr
    cases hprobe : x.probe with
    | none =>
      rw [hprobe] at hlt
      exact absurd hceiling (not_le_of_gt hlt)
    | some pr =>
      rw [hprobe] at hlt
      exact hprobed pr hprobe hlt

/-- The state after `noteGrant`. -/
theorem exec_noteGrant {g : GrantDecision} {x : Timing} (hx : c.timings g.rpcId = some x) (hlive : x.live = true) :
    ∃ s, exec (noteGrant g) c = (.ok (), s) ∧ c.est.clock ≤ s.est.clock ∧
      s.est.stamped = c.est.stamped ∧ s.est.samples = c.est.samples ∧ s.handed = c.handed ∧ s.terms = c.terms ∧
      s.timings = Function.update c.timings g.rpcId (some (x.grant s.est.clock g.maxOffset)) := by
  obtain ⟨t, ht, rfl⟩ := Option.map_eq_some_iff.mp hx
  have hceiling {u : Http4Client} : (u.setProgress g.rpcId fun p => { p with ceiling := g.maxOffset }).timings =
      Function.update u.timings g.rpcId ((u.timings g.rpcId).map fun x => { x with ceiling := g.maxOffset }) :=
    timings_setTransfer fun _ => rfl
  have hlive : t.live = true := hlive
  rw [noteGrant, exec_withTransfer ht, if_pos hlive, startProbe]
  cases hprobe : t.progress.probe with
  | some pr =>
    refine ⟨_, rfl, le_rfl, rfl, rfl, rfl, rfl, ?_⟩
    refine hceiling.trans (congrArg (Function.update c.timings g.rpcId) ?_)
    rw [hx]
    change some (Timing.mk _ _ _ _ t.progress.probe) = some (Timing.mk _ _ _ _ (some (t.progress.probe.getD _)))
    rw [hprobe]
    rfl
  | none =>
    refine ⟨_, rfl, le_now, rfl, rfl, rfl, rfl, ?_⟩
    have hprobed : (c.advance.setProgress g.rpcId fun p =>
        { p with probe := some { start := p.ceiling, sentAt := c.now } }).timings =
      Function.update c.timings g.rpcId ((c.timings g.rpcId).map fun x =>
        { x with probe := some { start := x.ceiling, sentAt := c.now } }) := timings_setTransfer fun _ => rfl
    refine hceiling.trans ?_
    rw [hprobed, Function.update_idem, Function.update_self, hx]
    refine congrArg (Function.update c.timings g.rpcId) ?_
    change _ = some (Timing.mk _ _ _ _ (some (t.progress.probe.getD _)))
    rw [hprobe]
    rfl

theorem Http4Client.TimelyBut.noteGrant (inc : Option Wire.Ts.Packet) {g : GrantDecision} {ahead : List ℤ} (h : TimelyBut (g.rpcId :: ahead) c)
    (hnot : g.rpcId ∉ ahead) {size : ℚ} (hterms : c.terms g.rpcId = some (size, g.maxOffset)) :
    ∃ s, exec (noteGrant g) c = (.ok (), s) ∧ TimelyBut ahead s ∧ Grows inc c s ∧ s.terms = c.terms ∧
      ∃ x, s.timings g.rpcId = some x ∧ x.ceiling = g.maxOffset := by
  obtain ⟨hsize, x, hx, hlive, hle⟩ := h.scheduled _ _ _ hterms
  rw [if_pos List.mem_cons_self] at hle
  obtain ⟨s, hexec, hclock, hstamped, hsamples, hhanded, hterms', htimings⟩ := exec_noteGrant hx hlive
  have hself : s.timings g.rpcId = some (x.grant s.est.clock g.maxOffset) := by
    rw [htimings, Function.update_self]
  have hother {id : ℤ} (hid : id ≠ g.rpcId) : s.timings id = c.timings id := by
    rw [htimings, Function.update_of_ne hid]
  refine ⟨s, hexec, ⟨?_, fun id y hy => ?_, fun id hnone => ?_, fun id y hy hy' hnone => ?_,
    fun id size' g' hg' => ?_⟩, ?_, hterms', _, hself, rfl⟩
  · rw [hstamped, hhanded]
    exact h.handed
  · rw [hstamped]
    by_cases hid : id = g.rpcId
    · subst hid
      obtain rfl := Option.some.inj (hself.symm.trans hy)
      obtain ⟨hid, hsound⟩ := h.sound _ _ hx
      exact ⟨hid, (hsound.clock hclock).grant hle.1⟩
    · rw [hother hid] at hy
      exact ⟨(h.sound id y hy).1, (h.sound id y hy).2.clock hclock⟩
  · rw [hstamped]
    have hid : id ≠ g.rpcId := fun hid => by rw [hid, hself] at hnone; cases hnone
    exact h.unknown id (by rw [← hother hid]; exact hnone)
  · rw [hterms'] at hnone
    have hid : id ≠ g.rpcId := fun hid => by rw [hid, hterms] at hnone; cases hnone
    exact h.unscheduled id y (by rw [← hother hid]; exact hy) hy' hnone
  · rw [hterms'] at hg'
    by_cases hid : id = g.rpcId
    · subst hid
      obtain ⟨rfl, rfl⟩ := Prod.mk.inj (Option.some.inj (hterms.symm.trans hg'))
      refine ⟨hsize, _, hself, hlive, ?_⟩
      rw [if_neg hnot]
      exact (min_eq_left hle.2).symm
    · obtain ⟨hsize', y, hy, hylive, hyle⟩ := h.scheduled id size' g' hg'
      refine ⟨hsize', y, (hother hid).trans hy, hylive, ?_⟩
      simpa only [List.mem_cons, hid, false_or] using hyle
  · refine ⟨hclock, ⟨[], by rw [hstamped, List.append_nil], by simp⟩,
      ⟨[], by rw [hsamples, List.append_nil], by simp⟩, fun id y hy => ?_⟩
    by_cases hid : id = g.rpcId
    · subst hid
      obtain rfl := Option.some.inj (hx.symm.trans hy)
      exact ⟨_, hself, hle.1⟩
    · exact ⟨y, (hother hid).trans hy, le_rfl⟩

/-- One round of the loop of `pumpGrants`. -/
theorem Http4Client.TimelyBut.sendGrant (inc : Option Wire.Ts.Packet) {g : GrantDecision} {ahead : List ℤ}
    (h : TimelyBut (g.rpcId :: ahead) c) (hnot : g.rpcId ∉ ahead) {size : ℚ} (hterms : c.terms g.rpcId = some (size, g.maxOffset)) :
    ∃ r s, exec (sendGrant g) c = (r, s) ∧ TimelyBut ahead s ∧ Grows inc c s ∧ s.terms = c.terms ∧
      ((Outgoing.grant g.rpcId g.maxOffset g.priority).encode.isSome → r = .ok ()) := by
  obtain ⟨s, hexec, hs, hgrows, hterms', x, hx, hceiling⟩ := h.noteGrant inc hnot hterms
  let p := Outgoing.grant g.rpcId g.maxOffset g.priority
  refine ⟨(exec (send p) s).1, s.hand p, ?_, hs.hand fun id g' hg' => ?_, hgrows.trans (.hand p), hterms',
    fun hencode => ?_⟩
  · rw [Client.sendGrant, exec_bind, hexec, ← exec_send]
  · change (if g.rpcId = id then _ else _) = _ at hg'
    split_ifs at hg' with hid
    · obtain rfl := Option.some.inj hg'
      exact ⟨x, hid ▸ hx, hceiling.ge⟩
  · obtain ⟨b, hb⟩ := Option.isSome_iff_exists.mp hencode
    rw [send, exec_modify_bind, hb]
    rfl

theorem exec_sendGrants_cons (g : GrantDecision) (out : List GrantDecision) :
    exec ((g :: out).forM sendGrant) c = exec (sendGrant g >>= fun _ => out.forM sendGrant) c := rfl

/-- The loop of `pumpGrants`. All decisions but the last grant a whole size, so that only the last
    GRANT can be one that `encode` rejects, and by then its ceiling is noted. -/
theorem timely_sendGrants (inc : Option Wire.Ts.Packet) {μ a a' : ℚ} {cs : List (ℤ × Entry)} {out : List GrantDecision}
    (hspent : SrptScheduler.Spent μ a cs out a') (hnodup : (out.map GrantDecision.rpcId).Nodup)
    (hpriority : ∀ d ∈ out, d.priority ≤ 7) (h : TimelyBut (out.map GrantDecision.rpcId) c)
    (hterms : ∀ d ∈ out, ∃ size, c.terms d.rpcId = some (size, d.maxOffset))
    (hsize : ∀ e ∈ cs, ∀ size g, c.terms e.1 = some (size, g) → size = e.2.size) :
    Timely (exec (out.forM sendGrant) c).2 ∧ Grows inc c (exec (out.forM sendGrant) c).2 := by
  induction hspent generalizing c with
  | stop _ => exact ⟨h, .refl c⟩
  | @part a id e rest priority ha hlt =>
    obtain ⟨size, hterm⟩ := hterms _ List.mem_cons_self
    obtain ⟨r, s, hexec, hs, hgrows, -, -⟩ := h.sendGrant inc List.not_mem_nil hterm
    rw [exec_sendGrants_cons, exec_bind, hexec]
    cases r with
    | error _ => exact ⟨hs, hgrows⟩
    | ok _ => exact ⟨hs, hgrows⟩
  | @whole a a' id e rest out priority ha hle hrest ih =>
    obtain ⟨size, hterm⟩ := hterms _ List.mem_cons_self
    obtain ⟨hnot, hnodup⟩ := List.nodup_cons.mp hnodup
    obtain ⟨hfirst, hpriority⟩ := List.forall_mem_cons.mp hpriority
    obtain ⟨hsize₁, hsize⟩ := List.forall_mem_cons.mp hsize
    obtain ⟨r, s, hexec, hs, hgrows, hterms', hreturns⟩ := h.sendGrant inc hnot hterm
    obtain ⟨hsize32, x, hx, -⟩ := h.scheduled _ _ _ hterm
    rw [hsize₁ _ _ hterm] at hsize32
    obtain rfl := hreturns (Outgoing.encodable_grant (h.sound _ _ hx).1 hsize32 hfirst).1
    rw [exec_sendGrants_cons, exec_bind, hexec]
    have hrest := ih hnodup hpriority hs (fun d hd => by rw [hterms']; exact hterms d (List.mem_cons_of_mem _ hd))
      (by rw [hterms']; exact hsize)
    exact ⟨hrest.1, hgrows.trans hrest.2⟩

/-- The state in which the loop begins. -/
theorem timelyBut_grants (h : Timely c) {s : SrptScheduler} (hs : s.rpcs = c.scheduler.rpcs) (reserved : ℚ) :
    TimelyBut ((s.grants reserved).1.map GrantDecision.rpcId) { c with scheduler := (s.grants reserved).2 } := by
  let c₁ : Http4Client := { c with scheduler := (s.grants reserved).2 }
  have hget {id : ℤ} {e : Entry} (he : s.rpcs.get? id = some e) : c.terms id = some (e.size, e.granted) := by
    rw [terms, ← hs, he]
    rfl
  refine ⟨h.handed, h.sound, h.unknown, fun id x hx hlive hnone => h.unscheduled id x hx hlive ?_,
    fun id size g hg => ?_⟩
  · have hnone := Option.map_eq_none_iff.mp hnone
    rw [terms, ← hs, Option.map_eq_none_iff]
    by_cases hid : id ∈ (s.grants reserved).1.map GrantDecision.rpcId
    · obtain ⟨d, hd, rfl⟩ := List.mem_map.mp hid
      obtain ⟨e, he, -⟩ := SrptScheduler.exists_of_mem_grants hd
      rw [SrptScheduler.get?_grants_of_mem hd he] at hnone
      cases hnone
    · rwa [SrptScheduler.get?_grants_of_notMem hid] at hnone
  · obtain ⟨e', he', heq⟩ := Option.map_eq_some_iff.mp hg
    obtain ⟨rfl, rfl⟩ := Prod.mk.inj heq
    by_cases hid : id ∈ (s.grants reserved).1.map GrantDecision.rpcId
    · obtain ⟨d, hd, rfl⟩ := List.mem_map.mp hid
      obtain ⟨e, he, -, hlt, hle⟩ := SrptScheduler.exists_of_mem_grants hd
      obtain rfl := Option.some.inj ((SrptScheduler.get?_grants_of_mem hd he).symm.trans he')
      obtain ⟨hsize, x, hx, hlive, hgranted⟩ := h.scheduled _ _ _ (hget he)
      rw [if_neg List.not_mem_nil] at hgranted
      refine ⟨hsize, x, hx, hlive, ?_⟩
      rw [if_pos hid]
      refine ⟨?_, hle⟩
      -- the grant was below the size, so that it was the ceiling
      have hceiling : x.ceiling ≤ e.size := by
        by_contra hgt
        rw [min_eq_right (not_le.mp hgt).le] at hgranted
        linarith
      rw [min_eq_left hceiling] at hgranted
      exact hgranted ▸ hlt.le
    · rw [SrptScheduler.get?_grants_of_notMem hid] at he'
      obtain ⟨hsize, x, hx, hlive, hgranted⟩ := h.scheduled _ _ _ (hget he')
      rw [if_neg List.not_mem_nil] at hgranted
      exact ⟨hsize, x, hx, hlive, by rw [if_neg hid]; exact hgranted⟩

theorem times_pumpGrants : Follows (Times inc) pumpGrants c := by
  refine times_of fun hc => ?_
  let s := c.scheduler.setBudget c.budget.budget
  let c₁ : Http4Client := { c with scheduler := (s.grants c.reserved).2 }
  have hbut : TimelyBut ((s.grants c.reserved).1.map GrantDecision.rpcId) c₁ :=
    timelyBut_grants (s := s) hc rfl c.reserved
  have hgrows : Grows inc c c₁ := ⟨le_rfl, ⟨[], (List.append_nil _).symm, by simp⟩,
    ⟨[], (List.append_nil _).symm, by simp⟩, fun _ x hx => ⟨x, hx, le_rfl⟩⟩
  obtain ⟨a', hspent, -⟩ := s.spent_grants c.reserved
  have hloop := timely_sendGrants inc hspent (s.nodup_grants c.reserved)
    (fun d hd => SrptScheduler.priority_le_of_mem_grants hd) hbut
    (fun d hd => ?_) fun e he size g hg => ?_
  · have hexec : exec pumpGrants c = exec (do
        (s.grants c.reserved).1.forM sendGrant
        modify fun c => if c.scheduler.limited then c.setBudget c.budget.noteLimited else c) c₁ := rfl
    rw [Follows, hexec, exec_bind]
    rcases hl : exec ((s.grants c.reserved).1.forM sendGrant) c₁ with ⟨r, u⟩
    rw [hl] at hloop
    cases r with
    | error _ => exact fun _ => ⟨hloop.1, hgrows.trans hloop.2⟩
    | ok _ =>
      have hquiet : Quiet u (if u.scheduler.limited then u.setBudget u.budget.noteLimited else u) := by
        split_ifs
        · exact ⟨le_rfl, rfl, rfl, rfl, rfl, rfl⟩
        · exact refl_of _ _
      exact fun _ => ⟨hloop.1.quiet hquiet, (hgrows.trans hloop.2).trans (.quiet hquiet)⟩
  · obtain ⟨e, he, -⟩ := SrptScheduler.exists_of_mem_grants hd
    refine ⟨e.size, ?_⟩
    change (_ : Option Entry).map _ = _
    rw [SrptScheduler.get?_grants_of_mem hd he]
    rfl
  · obtain ⟨e', he', heq⟩ := Option.map_eq_some_iff.mp hg
    obtain ⟨e₀, he₀, heq₀⟩ := SrptScheduler.exists_of_get?_grants he'
    obtain rfl := Option.some.inj (he₀.symm.trans (SrptScheduler.mem_candidates.mp he).1)
    rw [heq₀] at heq
    exact (Prod.mk.inj heq).1.symm

/-! ### Streams and the end of a transfer -/

theorem quiet_setPaused (f : StreamState → StreamState) (b : Bool) :
    Quiet c { c.setStream id f with scheduler := c.scheduler.setPaused id b } :=
  trans_of Quiet (quiet_setStream f : Quiet c (c.setStream id f))
    (quiet_setScheduler (terms_modify (f := fun e => { e with paused := b }) fun _ => ⟨rfl, rfl⟩))

theorem times_pull : Follows (Times inc) (pull id) c := by
  refine follows_withTransfer fun t _ => Follows.ite (fun _ => ?_) fun _ => Follows.pure _
  exact Follows.modify_bind (quiet_setPaused _ false).times times_pumpGrants

theorem times_callPullIfNeeded : Follows (Times inc) (callPullIfNeeded id) c := by
  refine follows_withTransfer fun t _ => ?_
  cases t.stream with
  | none => exact Follows.pure _
  | some st =>
    refine Follows.ite (fun _ => Follows.ite (fun _ => ?_) fun _ => ?_) fun _ => Follows.pure _
    · exact Follows.modify (quiet_setStream _).times
    · refine Follows.modify_bind (quiet_setStream _).times (Follows.tryCatch times_pull fun _ _ _ => ?_)
      exact Follows.modify (quiet_setStream _).times

theorem times_flushStream : Follows (Times inc) (flushStream id) c := by
  have henqueue {c : Http4Client} (upTo : ℕ) (chunk : Bytes) (st : StreamState) :
      Follows (Times inc) (enqueue id upTo chunk st) c := by
    refine Follows.ite (fun _ => ?_) fun _ => ?_
    · exact Follows.modify_bind (quiet_setStream _).times times_callPullIfNeeded
    · exact Follows.modify_bind (quiet_setStream _).times (Follows.throw _)
  have hpause {c : Http4Client} : Follows (Times inc) (pauseIfBehind id) c := by
    refine follows_withTransfer fun t _ => ?_
    cases t.stream with
    | none => exact Follows.pure _
    | some st =>
      exact Follows.ite (fun _ => Follows.modify (quiet_setPaused _ true).times) fun _ => Follows.pure _
  refine follows_withTransfer fun t _ => ?_
  cases t.stream with
  | none => exact Follows.pure _
  | some st =>
    cases t.asm with
    | none => exact Follows.pure _
    | some asm =>
      refine Follows.ite (fun _ => Follows.pure _) fun _ => Follows.bind ?_ fun _ _ _ => hpause
      exact Follows.ite (fun _ => henqueue _ _ _) fun _ => Follows.pure _

theorem times_maybeStart : Follows (Times inc) (maybeStart id) c := by
  refine follows_withTransfer fun t _ => ?_
  cases t.stream with
  | none => exact Follows.pure _
  | some st =>
    cases t.asm with
    | none => exact Follows.pure _
    | some asm =>
      cases t.headers with
      | none => exact Follows.pure _
      | some headers =>
        refine Follows.ite (fun _ => Follows.pure _) fun _ => Follows.modify ?_
        exact Quiet.times (quiet_setTransfer fun _ => rfl)

theorem times_remove : Follows (Times inc) (remove id) c := by
  refine times_setTiming id (g := fun x => { x with live := false }) (fun _ => ⟨rfl, rfl, rfl, fun _ h => h⟩)
    ?_ ⟨rfl, rfl, rfl, rfl⟩ (.inr ⟨fun _ => rfl, fun id' => ?_⟩)
  · exact timings_setTransfer (f := fun t => { t with live := false }) fun _ => rfl
  · change ((c.scheduler.rpcs.delete id).get? id').map _ = _
    rw [OrderedMap.get?_delete]
    split_ifs <;> rfl

theorem times_drop : Follows (Times inc) (drop id) c :=
  Follows.bind times_remove fun _ _ _ => times_pumpGrants

theorem times_endStream (err : Option Failure) : Follows (Times inc) (endStream id err) c := by
  refine follows_withTransfer fun t _ => ?_
  cases t.stream with
  | none => exact Follows.pure _
  | some st =>
    refine Follows.ite (fun _ => Follows.pure _) fun _ => ?_
    cases err with
    | some e => exact Follows.modify (quiet_setStream _).times
    | none =>
      refine Follows.ite (fun _ => Follows.modify (quiet_setStream _).times) fun _ => ?_
      exact Follows.modify_bind (quiet_setStream _).times (Follows.throw _)

theorem times_finish (err : Option Failure) : Follows (Times inc) (finish id err) c := by
  refine Follows.bind times_remove fun _ _ _ => Follows.bind ?_ fun _ _ _ =>
    Follows.bind (times_endStream err) fun _ _ _ => Follows.bind ?_ fun _ _ _ => times_pumpGrants
  · exact Follows.ite (fun _ => times_flushStream) fun _ => Follows.pure _
  · refine follows_withTransfer fun t _ => Follows.ite (fun _ => Follows.pure _) fun _ => Follows.modify ?_
    exact Quiet.times (quiet_setTransfer fun _ => rfl)

theorem times_failAll (err : Failure) : Follows (Times inc) (failAll err) c := by
  refine Follows.get_bind (Follows.bind (Follows.forM fun _ _ _ => times_finish _) fun _ _ _ => Follows.modify ?_)
  exact Quiet.times ⟨le_rfl, rfl, rfl, rfl, rfl, rfl⟩

/-! ### Timers -/

theorem times_sendResends (r : List (Range ℚ) × RepairTracker) : Follows (Times inc) (sendResends id r) c :=
  Follows.modify_bind (Quiet.times (quiet_setTransfer fun _ => rfl))
    (Follows.forM fun _ _ _ => times_send fun _ _ _ h => by cases h)

theorem quiet_setProgress {f : Progress → Progress}
    (h : ∀ p, (f p).reqSentAt = p.reqSentAt ∧ (f p).ceiling = p.ceiling ∧ (f p).probe = p.probe) :
    Quiet c (c.setProgress id f) := by
  refine quiet_setTransfer fun t => ?_
  obtain ⟨hsent, hceiling, hprobe⟩ := h t.progress
  change Timing.mk _ _ _ _ _ = Timing.mk _ _ _ _ _
  rw [hsent, hceiling, hprobe]

/-- A change to the progress of a transfer that forgets its probe. -/
theorem times_setProgress {f : Progress → Progress}
    (h : ∀ p, (f p).reqSentAt = p.reqSentAt ∧ (f p).ceiling = p.ceiling ∧ (f p).probe = none) :
    Times inc c (c.setProgress id f) := by
  refine times_setTiming id (g := fun x => { x with probe := none })
    (fun _ => ⟨rfl, rfl, rfl, by rintro _ ⟨⟩⟩) ?_ ⟨rfl, rfl, rfl, rfl⟩ (.inl ⟨fun _ => rfl, rfl⟩)
  refine timings_setTransfer fun t => ?_
  obtain ⟨hsent, hceiling, hprobe⟩ := h t.progress
  change Timing.mk _ _ _ _ _ = Timing.mk _ _ _ _ _
  rw [hsent, hceiling, hprobe]
  rfl

theorem times_detectLoss : Follows (Times inc) (detectLoss id now) c := by
  refine Follows.modify_bind (Quiet.times (quiet_setProgress fun _ => ⟨rfl, rfl, rfl⟩))
    (Follows.get_bind (follows_withTransfer fun t _ => ?_))
  cases t.asm with
  | none => exact Follows.pure _
  | some asm =>
    cases t.repair with
    | none => exact Follows.pure _
    | some repair =>
      refine Follows.ite (fun _ => Follows.pure _) fun _ => ?_
      exact Follows.ite (fun _ => Follows.pure _) fun _ => times_sendResends _

/-- A change to the fields that measure the path, but for the clock and the histories. -/
theorem quiet_estimate {e : Estimates} (hclock : e.clock = c.est.clock) (hstamped : e.stamped = c.est.stamped)
    (hsamples : e.samples = c.est.samples) : Quiet c { c with est := e } :=
  ⟨hclock.ge, hstamped, hsamples, rfl, rfl, rfl⟩

theorem quiet_seq (s : SeqTracker) : Quiet c { c with seq := s } := ⟨le_rfl, rfl, rfl, rfl, rfl, rfl⟩

theorem times_detectSeqLoss : Follows (Times inc) (detectSeqLoss now) c := by
  have hsend {c : Http4Client} (rs : List (Range ℤ)) : Follows (Times inc) (sendResendSeqs rs) c :=
    Follows.forM fun _ _ _ => times_send fun _ _ _ h => by cases h
  refine Follows.modify_bind (Quiet.times (quiet_estimate rfl rfl rfl)) (Follows.get_bind ?_)
  refine Follows.ite (fun _ => Follows.pure _) fun _ => Follows.modify_bind (quiet_seq _).times ?_
  refine Follows.bind (hsend _) fun _ _ _ => Follows.get_bind ?_
  exact Follows.modify_bind (quiet_seq _).times (hsend _)

/-- The repeated REQ has the grant of the first one. -/
theorem times_resendReq : Follows (Times inc) (resendReq id) c := by
  refine follows_withTransfer fun t ht => Follows.ite (fun _ => ?_) fun _ => Follows.pure _
  have hquiet : Quiet c (c.setProgress id fun p => { p with reqRetransmitted := true }) :=
    quiet_setProgress fun _ => ⟨rfl, rfl, rfl⟩
  refine Follows.modify_bind hquiet.times (times_send fun hc id' g hg => ?_)
  change (if id = id' then _ else _) = _ at hg
  split_ifs at hg with hid
  obtain rfl := Option.some.inj hg
  have hx : (c.setProgress id fun p => { p with reqRetransmitted := true }).timings id = some t.timing := by
    rw [hquiet.timings]
    exact timings_of_get? ht
  exact ⟨_, hid ▸ hx, (hc.sound id _ hx).2.initial⟩

/-- An offset that is not past the ceiling of the transfer. -/
def Http4Client.Below (id : ℤ) (g : ℚ) (c : Http4Client) : Prop := ∃ x, c.timings id = some x ∧ g ≤ x.ceiling

theorem Http4Client.Below.grows {g : ℚ} {s : Http4Client} (h : Below id g c) (hgrows : Grows inc c s) :
    Below id g s := by
  obtain ⟨x, hx, hle⟩ := h
  obtain ⟨x', hx', hle'⟩ := hgrows.ceiling id x hx
  exact ⟨x', hx', hle.trans hle'⟩

theorem times_resendGrant {granted : ℚ} (h : Below id granted c) :
    Follows (Times inc) (resendGrant id granted now) c := by
  refine follows_withTransfer fun t ht => ?_
  cases t.asm with
  | none => exact Follows.pure _
  | some asm =>
    cases t.repair with
    | none => exact Follows.pure _
    | some repair =>
      refine Follows.bind (Follows.ite (fun _ => times_send fun _ id' g hg => ?_) fun _ => Follows.pure _)
        fun _ _ _ => Follows.get_bind (times_sendResends _)
      change (if id = id' then _ else _) = _ at hg
      split_ifs at hg with hid
      obtain rfl := Option.some.inj hg
      exact hid ▸ h

theorem quiet_backoff : Quiet c ((c.lossBackoff now).backoffInitialRto now) := by
  have hloss : Quiet c (c.lossBackoff now) := by
    rw [lossBackoff]
    split_ifs
    · exact ⟨le_rfl, rfl, rfl, rfl, rfl, rfl⟩
    · exact refl_of _ _
  refine trans_of Quiet hloss ?_
  rw [backoffInitialRto]
  split_ifs
  · exact quiet_estimate rfl rfl rfl
  · exact refl_of _ _

theorem times_recover {granted : ℚ} (h : Below id granted c) : Follows (Times inc) (recover id granted now) c := by
  refine times_of fun hc => follows_withTransfer fun t _ => Follows.get_bind ?_
  have hcount : Times inc c (c.setProgress id fun p => { p with recoveries := p.recoveries + 1 }) :=
    Quiet.times (quiet_setProgress fun _ => ⟨rfl, rfl, rfl⟩)
  refine Follows.modify_bind hcount (Follows.ite (fun _ => times_finish _) fun _ => ?_)
  have hback {c : Http4Client} : Times inc c ((c.lossBackoff now).backoffInitialRto now) := quiet_backoff.times
  have hprobe {c : Http4Client} :
      Times inc c (c.setProgress id fun p => { p with probe := none, lastProgress := now }) :=
    times_setProgress fun _ => ⟨rfl, rfl, rfl⟩
  refine Follows.modify_bind hback (Follows.modify_bind hprobe (Follows.bind times_resendReq fun _ s hexec => ?_))
  refine times_resendGrant ?_
  -- none of this lowers the ceiling
  have hbefore := trans_of (Times inc) (trans_of (Times inc) hcount hback) hprobe hc
  exact h.grows (hbefore.2.trans (Times.at times_resendReq hbefore.1 hexec).2)

theorem times_tailProbe (granted : ℚ) : Follows (Times inc) (tailProbe id granted now) c := by
  refine follows_withTransfer fun t _ => Follows.get_bind ?_
  cases t.asm with
  | none => exact Follows.pure _
  | some asm =>
    cases t.repair with
    | none => exact Follows.pure _
    | some repair =>
      cases c.est.srtt with
      | none => exact Follows.pure _
      | some srtt =>
        refine Follows.ite (fun _ => ?_) fun _ => Follows.pure _
        exact Follows.modify_bind (Quiet.times (quiet_setProgress fun _ => ⟨rfl, rfl, rfl⟩)) (times_sendResends _)

/-- What the scheduler has granted a transfer is not past its ceiling. -/
theorem Http4Client.TimelyBut.below (hc : Timely c) {t : Transfer} (ht : c.objects.get? id = some t) :
    Below id (c.grantedOf id t) c := by
  have hx := timings_of_get? ht
  refine ⟨_, hx, ?_⟩
  have hpos := (hc.sound id _ hx).2.nonneg
  rw [grantedOf]
  split_ifs
  · rw [SrptScheduler.granted]
    cases he : c.scheduler.rpcs.get? id with
    | none => exact hpos
    | some e =>
      obtain ⟨-, x, hx', -, hle⟩ := hc.scheduled id e.size e.granted (by rw [terms, he]; rfl)
      obtain rfl := Option.some.inj (hx.symm.trans hx')
      rw [if_neg List.not_mem_nil] at hle
      exact hle.trans_le (min_le_left _ _)
  · exact hpos

theorem times_tickTransfer : Follows (Times inc) (tickTransfer now id) c := by
  refine Follows.bind (follows_withTransfer fun t _ => ?_) fun _ s _ =>
    times_of fun hs => follows_withTransfer fun t ht => Follows.get_bind ?_
  · exact Follows.ite (fun _ => times_detectLoss) fun _ => Follows.pure _
  · refine Follows.ite (fun _ => Follows.modify (Quiet.times (quiet_setProgress fun _ => ⟨rfl, rfl, rfl⟩))) fun _ => ?_
    refine Follows.bind (times_tailProbe _) fun _ u hexec => follows_withTransfer fun t' _ => Follows.get_bind ?_
    refine Follows.ite (fun _ => times_recover ?_) fun _ => Follows.pure _
    have htimes : Follows (Times inc) (tailProbe id (s.grantedOf id t) now) s := times_tailProbe _
    exact (hs.below ht).grows (Times.at htimes hs hexec).2

theorem times_tick : Follows (Times inc) tick c := by
  refine Follows.bind times_performanceNow fun now s _ => Follows.get_bind (Follows.bind ?_ fun _ s _ =>
    Follows.get_bind (Follows.bind (Follows.forM fun _ _ _ => times_tickTransfer) fun _ s _ => Follows.modify ?_))
  · exact Follows.ite (fun _ => times_detectSeqLoss) fun _ => Follows.pure _
  · split_ifs
    · exact Quiet.times ⟨le_rfl, rfl, rfl, rfl, rfl, rfl⟩
    · exact refl_of _ _

/-! ### Samples -/

/-- A sample is noted that spans a round trip. -/
theorem times_noteSample {r : ℚ} (h : Timely c → 0 ≤ r ∧
    c.Spans inc { start := c.est.clock - r, stop := c.est.clock }) : Times inc c (c.noteSample r) := by
  intro hc
  obtain ⟨hpos, hspans⟩ := h hc
  have hgrows : Grows inc c (c.noteSample r) := by
    refine ⟨le_rfl, ⟨[], (List.append_nil _).symm, by simp⟩, ⟨_, rfl, ?_⟩, fun _ x hx => ⟨x, hx, le_rfl⟩⟩
    refine List.forall_mem_singleton.mpr ⟨le_rfl, ?_, le_rfl, ?_⟩
    · change c.est.clock - r ≤ c.est.clock
      linarith
    · cases hspans with
      | reply id hinc hlate => exact .reply id hinc hlate
      | probe d limit hinc hlimit hlate => exact .probe d limit hinc hlimit hlate
  exact ⟨⟨hc.handed, hc.sound, hc.unknown, hc.unscheduled, hc.scheduled⟩, hgrows⟩

theorem quiet_setBudget (b : BudgetController) : Quiet c (c.setBudget b) := ⟨le_rfl, rfl, rfl, rfl, rfl, rfl⟩

theorem times_sampleRtt {r : ℚ} (h : Timely c → 0 ≤ r ∧
    c.Spans inc { start := c.est.clock - r, stop := c.est.clock }) : Times inc c (c.sampleRtt r) := by
  rw [sampleRtt]
  have hbudget : Quiet (c.noteSample r) (((c.noteSample r).setBudget (c.budget.onRttSample r c.now)).advance) :=
    trans_of Quiet (quiet_setBudget _) quiet_advance
  refine trans_of (Times inc) (times_noteSample h) (Quiet.times (trans_of Quiet hbudget ?_))
  generalize ((c.noteSample r).setBudget (c.budget.onRttSample r c.now)).advance = s
  cases s.est.srtt with
  | none => exact quiet_estimate rfl rfl rfl
  | some srtt => exact quiet_estimate rfl rfl rfl

/-- No packet is handed over for a transfer before its REQ. -/
theorem times_noteReply {t : Transfer} (ht : c.objects.get? id = some t) (hinc : Replies inc id) :
    Follows (Times inc) (noteReply id t) c := by
  refine Follows.ite (fun _ => Follows.pure _) fun _ => ?_
  let c₁ := c.setProgress id fun p => { p with replied := true }
  have hquiet : Quiet c c₁ := quiet_setProgress fun _ => ⟨rfl, rfl, rfl⟩
  refine Follows.modify_bind hquiet.times (Follows.ite (fun _ => Follows.pure _) fun _ => Follows.modify ?_)
  refine trans_of (Times inc) quiet_advance.times (times_sampleRtt fun hc => ?_)
  have hx : c₁.advance.timings id = some t.timing := by
    rw [(trans_of Quiet hquiet quiet_advance).timings]
    exact timings_of_get? ht
  have hsound := (hc.sound id _ hx).2
  have hnow : c₁.advance.est.clock = c₁.now := rfl
  rw [hnow] at hsound ⊢
  refine ⟨sub_nonneg.mpr hsound.started, .reply id hinc fun p τ g hp hg => ?_⟩
  rw [sub_sub_cancel]
  exact (hsound.after p τ g hp hg).1

/-- No packet that is handed over before the probe goes past its start. -/
theorem times_sampleProbe {t : Transfer} {d : Wire.Ts.Data} (hx : c.timings id = some t.timing)
    (hinc : Carried inc d) (hid : d.rpcId = id) :
    Times inc c (c.sampleProbe id (d.offset + d.payload.length) t) := by
  rw [sampleProbe]
  cases hprobe : t.progress.probe with
  | none => exact refl_of _ _
  | some pr =>
    dsimp only
    split_ifs with hpast
    · have hbudget : Quiet c (c.setBudget (c.budget.onRttSample (c.now - pr.sentAt) c.now)).advance :=
        trans_of Quiet (quiet_setBudget _) (quiet_advance (c := c.setBudget _))
      refine trans_of (Times inc) hbudget.times (trans_of (Times inc) (times_noteSample fun hc => ?_)
        (times_setProgress (f := fun p => { p with probe := none }) fun _ => ⟨rfl, rfl, rfl⟩))
      have hsound := (hc.sound id _ (by rw [hbudget.timings]; exact hx)).2
      have hnow : (c.setBudget (c.budget.onRttSample (c.now - pr.sentAt) c.now)).advance.est.clock = c.now := rfl
      rw [hnow] at hsound ⊢
      refine ⟨sub_nonneg.mpr (hsound.probed pr hprobe), .probe d pr.start hinc hpast fun p τ g hp hg hlt => ?_⟩
      rw [sub_sub_cancel]
      rw [hid] at hg
      exact (hsound.after p τ g hp hg).2.2 pr hprobe hlt
    · exact refl_of _ _

/-! ### Incoming packets -/

theorem quiet_noteSpurious : Quiet c (c.noteSpurious now) := by
  rw [noteSpurious]
  split_ifs
  · exact quiet_estimate rfl rfl rfl
  · exact refl_of _ _

theorem times_noteSeq (p : Wire.Ts.DataSeq) : Follows (Times inc) (noteSeq p) c := by
  refine Follows.bind times_performanceNow fun now s _ => Follows.get_bind (Follows.modify_bind ?_ ?_)
  · exact Quiet.times ⟨le_rfl, rfl, rfl, rfl, rfl, rfl⟩
  · refine Follows.bind (Follows.ite (fun _ => Follows.modify quiet_noteSpurious.times) fun _ => Follows.pure _)
      fun _ s _ => Follows.get_bind ?_
    exact Follows.ite (fun _ => times_detectSeqLoss) fun _ => Follows.pure _

theorem times_handleMeta (m : Wire.Ts.Meta) : Follows (Times inc) (handleMeta id m) c := by
  refine follows_withTransfer fun t _ => ?_
  cases t.headers with
  | some _ => exact Follows.pure _
  | none =>
    refine Follows.bind times_performanceNow fun now s _ =>
      Follows.modify_bind (Quiet.times (quiet_setTransfer fun _ => rfl)) (Follows.bind times_maybeStart
        fun _ _ _ => follows_withTransfer fun t _ => ?_)
    exact Follows.ite (fun _ => times_finish _) fun _ => Follows.pure _

/-- The scheduler gets what the REQ has granted. -/
theorem times_learnSize {t : Transfer} (ht : c.objects.get? id = some t) (hlive : t.live = true)
    (hfree : c.scheduler.rpcs.get? id = none) {totalSize : ℤ} (hpos : 0 ≤ totalSize) (hlt : totalSize < 2 ^ 32) :
    Times inc c (c.learnSize id totalSize t) := by
  intro hc
  have hx := timings_of_get? ht
  have hfree : c.terms id = none := by rw [terms, hfree]; rfl
  have hsame : Quiet c (c.setTransfer id fun t => { t with asm := some (.new totalSize.toNat), repair := some .new }) :=
    quiet_setTransfer fun _ => rfl
  have hterms (id' : ℤ) : (c.learnSize id totalSize t).terms id' =
      if id' = id then some ((totalSize : ℚ), min t.initialGrant totalSize) else c.terms id' := by
    change ((c.scheduler.rpcs.set id _).get? id').map _ = _
    rw [OrderedMap.get?_set]
    split_ifs <;> rfl
  have htimings : (c.learnSize id totalSize t).timings = c.timings := hsame.timings
  refine ⟨⟨hc.handed, fun id' x hx => ?_, fun id' hnone => ?_, fun id' x hx' hl hnone => ?_,
    fun id' size g hg => ?_⟩, le_rfl, ⟨[], (List.append_nil _).symm, by simp⟩,
    ⟨[], (List.append_nil _).symm, by simp⟩, fun id' x hx => ⟨x, by rw [htimings]; exact hx, le_rfl⟩⟩
  · rw [htimings] at hx
    exact hc.sound id' x hx
  · rw [htimings] at hnone
    exact hc.unknown id' hnone
  · rw [htimings] at hx'
    rw [hterms] at hnone
    split_ifs at hnone
    exact hc.unscheduled id' x hx' hl hnone
  · rw [htimings]
    rw [hterms] at hg
    split_ifs at hg with hid
    · subst hid
      obtain ⟨rfl, rfl⟩ := Prod.mk.inj (Option.some.inj hg)
      refine ⟨⟨totalSize.toNat, by omega, ?_⟩, _, hx, hlive, ?_⟩
      · rw [← Int.cast_natCast, Int.toNat_of_nonneg hpos]
      · rw [if_neg List.not_mem_nil, hc.unscheduled _ _ hx hlive hfree]
        rfl
    · exact hc.scheduled id' size g hg

theorem quiet_store (asm : Reassembly) (fresh : ℤ) (length : ℕ) (repair : Option RepairTracker) :
    Quiet c (c.store id asm fresh length repair) := by
  let c₁ : Http4Client := { c.setTransfer id fun t => { t with asm := some asm } with
    est := { c.est with payloadSeen := max c.est.payloadSeen length } }
  have hset : Quiet c (c.setTransfer id fun t => { t with asm := some asm }) := quiet_setTransfer fun _ => rfl
  have hasm : Quiet c c₁ := ⟨le_rfl, rfl, rfl, rfl, hset.timings, rfl⟩
  have hspurious : Quiet c₁ (c₁.noteSpurious c₁.now).advance := trans_of Quiet quiet_noteSpurious quiet_advance
  have hdata {s : Http4Client} : Quiet s { s with scheduler := s.scheduler.onData id fresh } :=
    quiet_setScheduler (terms_modify (f := fun e => { e with received := e.received + fresh }) fun _ => ⟨rfl, rfl⟩)
  rw [store]
  dsimp only
  split_ifs
  · exact trans_of Quiet (trans_of Quiet hasm hspurious) hdata
  · exact trans_of Quiet hasm hdata

theorem quiet_noteDelivered (fresh : ℤ) : Quiet c (c.noteDelivered id fresh) := by
  rw [noteDelivered]
  split_ifs
  · let s := (c.setBudget (c.budget.onDelivered fresh c.now)).advance
    have hbudget : Quiet c s := trans_of Quiet (quiet_setBudget _) quiet_advance
    have hprogress : Quiet s (s.setProgress id fun p =>
        { p with lastProgress := s.now, recoveries := 0, tailProbed := false }) :=
      quiet_setProgress fun _ => ⟨rfl, rfl, rfl⟩
    exact trans_of Quiet (trans_of Quiet hbudget hprogress) quiet_advance
  · exact refl_of _ _

theorem times_afterData : Follows (Times inc) (afterData id) c := by
  refine Follows.bind times_maybeStart fun _ s _ => Follows.bind times_flushStream fun _ u _ =>
    follows_withTransfer fun t _ => Follows.ite (fun _ => times_finish _) fun _ => ?_
  refine Follows.bind times_performanceNow fun _ _ _ => ?_
  exact Follows.ite (fun _ => times_detectLoss) fun _ => Follows.pure _

theorem times_storeData {d : Wire.Ts.Data} (hinc : Carried inc d) (hid : d.rpcId = id) :
    Follows (Times inc) (storeData id d) c := by
  refine follows_withTransfer fun t ht => ?_
  cases t.asm with
  | none => exact Follows.pure _
  | some asm =>
    dsimp only
    cases asm.add d.offset d.payload with
    | error e => exact times_finish _
    | ok r =>
      have hstore : Quiet c (c.store id r.2 r.1 d.payload.length t.repair) := quiet_store _ _ _ _
      have hx : (c.store id r.2 r.1 d.payload.length t.repair).timings id = some t.timing := by
        rw [hstore.timings]
        exact timings_of_get? ht
      exact Follows.modify_bind (trans_of (Times inc) (trans_of (Times inc) hstore.times
        (times_sampleProbe hx hinc hid)) (quiet_noteDelivered _).times) times_afterData

theorem times_handleData (hdec : Decoded inc) (hinv : Inv c) {alloc : Bool} {d : Wire.Ts.Data}
    (hinc : Carried inc d) (hid : d.rpcId = id) (hlive : ∀ t, c.objects.get? id = some t → t.live = true) :
    Follows (Times inc) (handleData alloc id d) c := by
  refine follows_withTransfer fun t ht => ?_
  cases hasm : t.asm with
  | none =>
    refine Follows.ite (fun _ => ?_) fun _ => Follows.throw _
    have htied := (hinv.transfer id t ht).2
    have hfree : c.scheduler.rpcs.get? id = none := by
      generalize c.scheduler.rpcs.get? id = o at htied
      cases htied with
      | unscheduled => rfl
      | scheduled _ hasm' => rw [hasm] at hasm'; cases hasm'
    obtain ⟨hpos, hlt, -⟩ := hdec.data hinc
    exact Follows.modify_bind (times_learnSize ht (hlive t ht) hfree hpos hlt) (times_storeData hinc hid)
  | some asm => exact Follows.ite (fun _ => times_finish _) fun _ => times_storeData hinc hid

theorem times_handlePacket (hdec : Decoded inc) (hinv : Inv c) {alloc : Bool} {p : Wire.Ts.Packet}
    (hdata : ∀ d, p = .data d → Carried inc d) (hmeta : ∀ m, p = .metaData m → inc = some (.metaData m)) :
    Follows (Times inc) (handlePacket alloc p) c := by
  refine follows_withTransfer fun t ht => Follows.ite (fun _ => Follows.pure _) fun hlive => ?_
  cases p with
  | metaData m =>
    refine Follows.bind (times_noteReply ht (.inl ⟨m, hmeta m rfl, rfl⟩)) fun _ _ _ => times_handleMeta m
  | data d =>
    refine Follows.bind (times_noteReply ht (.inr ⟨d, hdata d rfl, rfl⟩)) fun _ s hexec => ?_
    refine times_handleData hdec ?_ (hdata d rfl) rfl fun t' ht' =>
      (exists_of_noteReply ht hexec ht').1.trans (not_not.mp hlive)
    exact preserves_of_exec (fun _ _ => Inv.move hdec) (follows_noteReply t : Follows (Reaches inc) _ _) hexec hinv
  | error p => exact times_finish _
  | req | grant | resend | hello | dataSeq | resendSeq => exact Follows.pure _

theorem times_handle (alloc : Bool) {p : Wire.Ts.Packet} (hdec : Decoded (some p)) (hinv : Inv c) :
    Follows (Times (some p)) (handle alloc p) c := by
  have hplain {q : Wire.Ts.Packet} (hq : some p = some q) : Follows (Times (some p)) (handlePacket alloc q) c :=
    times_handlePacket hdec hinv (fun d hd => .inl (hd ▸ hq)) fun m hm => hm ▸ hq
  cases p with
  | dataSeq p =>
    refine Follows.bind (times_noteSeq p) fun _ s hexec => ?_
    refine times_handlePacket hdec ?_ (fun d hd => .inr ⟨p, rfl, Wire.Ts.Packet.data.inj hd⟩) fun m hm => by cases hm
    exact preserves_of_exec (fun _ _ => Inv.move hdec) (follows_noteSeq rfl : Follows (Reaches (some (.dataSeq p))) _ _) hexec hinv
  | req | data | grant | resend | error | metaData | hello | resendSeq => exact hplain rfl

theorem times_readDatagram (hinv : Inv c) (alloc : Bool) (b : Bytes) :
    Follows (Times (packetIn b)) (readDatagram alloc b) c := by
  have hdec := decoded_packetIn b
  rw [packetIn] at hdec ⊢
  rw [readDatagram]
  cases hb : Wire.Ts.decode b with
  | error e =>
    cases e with
    | malformed => exact Follows.pure _
    | outOfRange => exact Follows.throw _
  | ok p =>
    rw [hb] at hdec
    exact Follows.bind (times_handle alloc hdec hinv) fun _ _ _ => times_pumpGrants

theorem times_readLoopCatch (e : Thrown) : Follows (Times inc) (readLoopCatch e) c :=
  Follows.modify_bind (Quiet.times ⟨le_rfl, rfl, rfl, rfl, rfl, rfl⟩) (times_failAll _)

/-! ### Requests -/

/-- The state with a new transfer, whose ceiling is the grant of its REQ. -/
theorem times_register {assetId : JsString} {streaming : Bool} {cls : PriorityClass} {g : ℚ}
    (hfresh : c.objects.get? id = none) (hid : Outgoing.IsUint64 id) (hg : 0 ≤ g) :
    Times inc c { c.advance with
      objects := c.objects.set id (c.newTransfer assetId streaming cls g), ticker := true } := by
  intro hc
  let c₁ : Http4Client := { c.advance with
    objects := c.objects.set id (c.newTransfer assetId streaming cls g), ticker := true }
  have hnone : c.timings id = none := by rw [timings, hfresh]; rfl
  have hunscheduled : c.terms id = none := by
    cases hterms : c.terms id with
    | none => rfl
    | some x =>
      obtain ⟨-, y, hy, -⟩ := hc.scheduled id x.1 x.2 hterms
      exact absurd (hnone.symm.trans hy) (by simp)
  let x : Timing := { live := true, initialGrant := g, reqSentAt := c.now, ceiling := g, probe := none }
  have htimings (id' : ℤ) : c₁.timings id' = if id' = id then some x else c.timings id' := by
    change ((c.objects.set id _).get? id').map _ = _
    rw [OrderedMap.get?_set]
    split_ifs <;> rfl
  have hother {id' : ℤ} {y : Timing} (hy : c.timings id' = some y) : c₁.timings id' = some y := by
    rw [htimings, if_neg fun heq => by rw [heq, hnone] at hy; cases hy]
    exact hy
  refine ⟨⟨hc.handed, fun id' y hy => ?_, fun id' hnone' => ?_, fun id' y hy hlive hnone' => ?_,
    fun id' size g' hg' => ?_⟩, le_now, ⟨[], (List.append_nil _).symm, by simp⟩,
    ⟨[], (List.append_nil _).symm, by simp⟩, fun id' y hy => ⟨y, hother hy, le_rfl⟩⟩
  · have hy := (htimings id').symm.trans hy
    split_ifs at hy with heq
    · obtain rfl := Option.some.inj hy
      refine ⟨heq ▸ hid, hg, le_rfl, le_rfl, (by rintro _ ⟨⟩), fun p τ g' hp hg' => ?_⟩
      rw [heq] at hg'
      rw [hc.unknown id hnone p τ hp] at hg'
      cases hg'
    · exact ⟨(hc.sound id' y hy).1, (hc.sound id' y hy).2.clock le_now⟩
  · have hnone' := (htimings id').symm.trans hnone'
    split_ifs at hnone'
    exact hc.unknown id' hnone'
  · have hy := (htimings id').symm.trans hy
    split_ifs at hy with heq
    · obtain rfl := Option.some.inj hy
      rfl
    · exact hc.unscheduled id' y hy hlive hnone'
  · obtain ⟨hsize, y, hy, hlive, hle⟩ := hc.scheduled id' size g' hg'
    exact ⟨hsize, y, hother hy, hlive, hle⟩

theorem times_start (hfresh : c.objects.get? id = none) (assetId : JsString) (streaming : Bool)
    (cls : PriorityClass) : Follows (Times inc) (start id assetId streaming cls) c := by
  refine Follows.get_bind (Follows.ite (fun _ => Follows.pure _) fun _ => ?_)
  cases hencode : (Outgoing.req id c.nextInitialGrant assetId).encode with
  | none =>
    simp only [hencode]
    exact Follows.throw _
  | some b =>
    simp only [hencode]
    obtain ⟨hid, n, hn, hgrant⟩ := Outgoing.range_of_req (Option.isSome_of_eq_some hencode)
    have hpos : 0 ≤ c.nextInitialGrant := hgrant ▸ Nat.cast_nonneg n
    refine Follows.ite (fun _ => Follows.pure _) fun _ =>
      Follows.modify_bind (times_register hfresh hid hpos) (Follows.bind times_sendHello fun _ s hexec => ?_)
    refine Follows.bind (times_send fun _ id' g hg => ?_) fun _ _ _ => Follows.pure _
    change (if id = id' then _ else _) = _ at hg
    split_ifs at hg with heq
    obtain rfl := Option.some.inj hg
    -- `sendHello` leaves the new transfer as it is
    have hkeep := keeps_sendHello (c := { c.advance with
      objects := c.objects.set id (c.newTransfer assetId streaming cls c.nextInitialGrant), ticker := true })
      Http4Client.objects (fun _ _ => rfl) fun _ _ => rfl
    rw [Follows, hexec] at hkeep
    have hget : s.objects.get? id = some (c.newTransfer assetId streaming cls c.nextInitialGrant) := by
      rw [show s.objects = _ from hkeep, OrderedMap.get?_set, if_pos rfl]
    exact ⟨_, heq ▸ timings_of_get? hget, le_rfl⟩

theorem times_readStream : Follows (Times inc) (readStream id) c := by
  refine Follows.get_bind (Follows.modify_bind (quiet_setStream _).times ?_)
  exact Follows.ite (fun _ => times_callPullIfNeeded) fun _ => Follows.pure _

theorem times_pullDone : Follows (Times inc) (pullDone id) c := by
  refine Follows.get_bind (Follows.ite (fun _ => Follows.modify (quiet_setStream _).times) fun _ => ?_)
  refine Follows.modify_bind (quiet_setStream _).times ?_
  exact Follows.ite (fun _ => times_callPullIfNeeded) fun _ => Follows.pure _

theorem times_cancelStream : Follows (Times inc) (cancelStream id) c :=
  Follows.modify_bind (quiet_setStream _).times (Follows.tryCatch times_drop fun _ _ _ => Follows.pure _)

end Functions

/-! ## Steps and runs -/

namespace Http4Client

variable {c c' : Http4Client} {opts : ClientOptions} {maxDatagramSize : ℕ}

theorem times_code {e : Event} (h : c.Enabled e) (hinv : Inv c) : Follows (Times e.packet) (code e) c := by
  cases e with
  | request id assetId streaming cls =>
    exact Follows.bind (times_start h.2.2 assetId streaming cls) fun _ _ _ => Follows.pure _
  | datagram b alloc =>
    exact Follows.tryCatch (times_readDatagram hinv alloc b) fun e _ _ => times_readLoopCatch e
  | readDone => exact Follows.modify (Quiet.times ⟨le_rfl, rfl, rfl, rfl, rfl, rfl⟩)
  | readRejected => exact times_readLoopCatch _
  | tick => exact times_tick
  | streamStarted id => exact Follows.modify_bind (quiet_setStream _).times times_callPullIfNeeded
  | read id => exact times_readStream
  | pullSettled id => exact times_pullDone
  | cancel id => exact times_cancelStream
  | close => exact Follows.modify (Quiet.times ⟨le_rfl, rfl, rfl, rfl, rfl, rfl⟩)
  | sessionEnded =>
    exact Follows.modify_bind (Quiet.times ⟨le_rfl, rfl, rfl, rfl, rfl, rfl⟩) (times_failAll _)

/-- What a step adds to the histories. -/
theorem step_times {a : Step} (h : c.step a = some c') (hinv : Inv c) : Times a.event.packet c c' := by
  rw [step] at h
  split_ifs at h with henabled
  obtain rfl := Option.some.inj h
  have helapse : Quiet c { c with est := { c.est with elapse := a.elapse } } := quiet_estimate rfl rfl rfl
  have hinv' : Inv { c with est := { c.est with elapse := a.elapse } } :=
    Inv.move (fun _ h => by cases h) hinv (.estimate _ : Move none c _)
  exact trans_of (Times a.event.packet) helapse.times (times_code (enabled_elapse henabled a.elapse) hinv')

theorem timely_new : Timely (.new opts maxDatagramSize) :=
  ⟨rfl, fun _ _ h => (by cases h), fun _ _ _ _ h => absurd h List.not_mem_nil, fun _ _ h => (by cases h),
    fun _ _ _ h => (by cases h)⟩

theorem times_connect : Timely (connect opts maxDatagramSize) ∧
    Grows none (.new opts maxDatagramSize) (connect opts maxDatagramSize) :=
  (times_sendHello : Follows (Times none) sendHello (.new opts maxDatagramSize)) timely_new

/-- **The invariant holds in every state of every run.** -/
theorem timely_reachable (h : Machine.Reachable Http4Client.step (connect opts maxDatagramSize) c) : Timely c := by
  obtain ⟨as, hrun⟩ := h
  let P (c : Http4Client) : Prop := Inv c ∧ Timely c
  refine (Machine.run_invariant (P := P) (fun s a s' hs hstep => ⟨?_, ?_⟩) ⟨?_, times_connect.1⟩ hrun).2
  · exact Walk.preserves (fun c c' => Inv.move a.event.decoded_packet) (fun _ _ => Inv.flag) (step_walk hstep) hs.1
  · exact (step_times hstep hs.1 hs.2).1
  · exact inv_reachable ⟨[], rfl⟩

/-- What a step of a run adds to the histories. -/
theorem grows_step {a : Step} (hc : Machine.Reachable Http4Client.step (connect opts maxDatagramSize) c)
    (h : c.step a = some c') : Grows a.event.packet c c' :=
  (step_times h (inv_reachable hc) (timely_reachable hc)).2

/-- Packets are handed over in the order of the clock. -/
theorem sorted_stamped (hc : Machine.Reachable Http4Client.step (connect opts maxDatagramSize) c) :
    c.est.stamped.Pairwise (fun x y => x.2 ≤ y.2) ∧ ∀ x ∈ c.est.stamped, x.2 ≤ c.est.clock := by
  let P (c : Http4Client) : Prop := Machine.Reachable Http4Client.step (connect opts maxDatagramSize) c ∧
    c.est.stamped.Pairwise (fun x y => x.2 ≤ y.2) ∧ ∀ x ∈ c.est.stamped, x.2 ≤ c.est.clock
  have hgrows {inc : Option Wire.Ts.Packet} {c c' : Http4Client} (hgrows : Grows inc c c')
      (h : c.est.stamped.Pairwise (fun x y => x.2 ≤ y.2) ∧ ∀ x ∈ c.est.stamped, x.2 ≤ c.est.clock) :
      c'.est.stamped.Pairwise (fun x y => x.2 ≤ y.2) ∧ ∀ x ∈ c'.est.stamped, x.2 ≤ c'.est.clock := by
    obtain ⟨l, heq, hl, hsorted⟩ := hgrows.stamped
    rw [heq, List.pairwise_append]
    refine ⟨⟨h.1, hsorted, fun x hx y hy => (h.2 x hx).trans (hl y hy).1⟩, fun x hx => ?_⟩
    rcases List.mem_append.mp hx with hx | hx
    · exact (h.2 x hx).trans hgrows.clock
    · exact (hl x hx).2
  obtain ⟨as, hrun⟩ := hc
  refine (Machine.run_invariant (P := P) (fun s a s' ⟨hs, hsorted⟩ hstep => ⟨?_, ?_⟩) ⟨⟨[], rfl⟩, ?_⟩ hrun).2
  · exact hs.next hstep
  · exact hgrows (grows_step hs hstep) hsorted
  · exact hgrows times_connect.2 ⟨List.Pairwise.nil, by simp [Http4Client.new]⟩

end Http4Client

end Http4.Client
