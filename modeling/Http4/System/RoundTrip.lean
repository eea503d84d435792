import Http4.System.World

/-!
# RTT samples span a round trip

An RTT sample begins no later than the sending of the packet that made its reply
possible, and ends when the reply has arrived. `Spans` in `RttSamples.lean` says what
the client knows of it: no packet handed over before the sample began names the transfer
of the reply, or none goes past an offset that its payload passes. Here this is held
against what a session can send.

Main results:

* `not_canReply_of_spans`: a session that got only packets from before the sample cannot
  have sent the reply.
* `rtt_samples_span`: the samples of every run.
-/

namespace Http4.System

open Wire (Packet)
open Client
open Sender

/-! ## Packets too early for a reply -/

/-- The datagrams of packets. -/
def datagrams (l : List (Outgoing × ℚ)) : Set Bytes := {d | ∃ x ∈ l, x.1.encode = some d}

variable {cfg : Config} {b : Bytes}

/-- META and DATA cannot have been sent before a REQ of their transfer. -/
theorem exists_authority_of_replies {l : List (Outgoing × ℚ)} {id : ℤ}
    (hreplies : Http4Client.Replies (packetIn b) id) (h : CanReply cfg (datagrams l) b) :
    ∃ p τ g, (p, τ) ∈ l ∧ p.authority id = some g ∧ 0 ≤ g := by
  have hreq {id' : UInt64} (hid : id = id'.toNat)
      (h : ∃ d ∈ datagrams l, ∃ q, Wire.Go.decode d = .ok (.req q) ∧ q.rpcId = id') :
      ∃ p τ g, (p, τ) ∈ l ∧ p.authority id = some g ∧ 0 ≤ g := by
    obtain ⟨d, ⟨⟨p, τ⟩, hp, hencode⟩, q, hdecode, rfl⟩ := h
    obtain ⟨assetId, rfl, -⟩ := exists_req hencode hdecode
    exact ⟨_, τ, _, hp, if_pos hid.symm, Nat.cast_nonneg _⟩
  rcases hreplies with ⟨m, hm, rfl⟩ | ⟨d, hd, rfl⟩
  · obtain ⟨m', hdecode, hid, -⟩ := exists_metaData hm
    exact hreq hid (h.metaData hdecode)
  · obtain ⟨g, d', hdecode, hdata, hid, -⟩ := exists_dataIn hd
    exact hreq hid (h.data hdecode hdata).1

/-- DATA cannot have been sent before a packet that goes as far as its payload. -/
theorem exists_authority_of_carried {l : List (Outgoing × ℚ)} {d : Wire.Ts.Data}
    (hd : Http4Client.Carried (packetIn b) d) (h : CanReply cfg (datagrams l) b) :
    ∃ p τ g, (p, τ) ∈ l ∧ p.authority d.rpcId = some g ∧ ((d.offset + d.payload.length : ℤ) : ℚ) ≤ g := by
  obtain ⟨pkt, d', hdecode, hdata, hid, -, hoffset, hpayload⟩ := exists_dataIn hd
  have hstop : d.offset + d.payload.length = ((d'.offset.toNat + d'.payload.length : ℕ) : ℤ) := by
    rw [hoffset, hpayload]
    push_cast
    rfl
  rw [hstop, Int.cast_natCast]
  rcases Nat.eq_zero_or_pos (d'.offset.toNat + d'.payload.length) with hzero | hpos
  · rw [hzero]
    exact_mod_cast exists_authority_of_replies (.inr ⟨d, hd, rfl⟩) h
  · obtain ⟨b', ⟨⟨p, τ⟩, hp, hencode⟩, hle⟩ := (h.data hdecode hdata).2 hpos
    refine ⟨p, τ, _, hp, ?_, Nat.cast_le.mpr hle⟩
    rw [hid]
    exact exists_authority hencode (hpos.trans_le hle)

/-- **Packets from before a sample do not make its reply possible.** -/
theorem not_canReply_of_spans {c : Http4Client} {σ : RttSample} (h : c.Spans (packetIn b) σ)
    {l : List (Outgoing × ℚ)} (hl : ∀ x ∈ l, x ∈ c.est.stamped ∧ x.2 < σ.start) :
    ¬ CanReply cfg (datagrams l) b := by
  intro hcan
  cases h with
  | reply id hinc hlate =>
    obtain ⟨p, τ, g, hp, hg, -⟩ := exists_authority_of_replies hinc hcan
    obtain ⟨hmem, hlt⟩ := hl _ hp
    exact absurd (hlate p τ g hmem hg) (not_le.mpr hlt)
  | probe d limit hinc hlimit hlate =>
    obtain ⟨p, τ, g, hp, hg, hle⟩ := exists_authority_of_carried hinc hcan
    obtain ⟨hmem, hlt⟩ := hl _ hp
    exact absurd (hlate p τ g hmem hg (hlimit.trans_le hle)) (not_le.mpr hlt)

/-! ## The packet that makes a reply possible -/

/-- A list that has a property its empty prefix has not has a first element with which its
    prefix has it. -/
theorem exists_first {α : Type*} {P : List α → Prop} {l : List α} (hnil : ¬ P []) (hl : P l) :
    ∃ before x after, l = before ++ x :: after ∧ ¬ P before ∧ P (before ++ [x]) := by
  induction l using List.reverseRecOn with
  | nil => exact absurd hl hnil
  | append_singleton l x ih =>
    by_cases hP : P l
    · obtain ⟨before, y, after, rfl, hbefore, hy⟩ := ih hP
      exact ⟨before, y, after ++ [x], by rw [List.append_assoc, List.cons_append], hbefore, hy⟩
    · exact ⟨l, x, [], rfl, hP, hl⟩

namespace World

variable {opts : ClientOptions} {maxDatagramSize : ℕ} {w : World}

/-- What the client has sent, in the order of sending. -/
theorem mem_sent_iff (h : Machine.Reachable (step cfg) (init opts maxDatagramSize cfg) w) {d : Bytes} :
    d ∈ w.sent ↔ d ∈ datagrams w.client.est.stamped := by
  rw [sent, ← (Http4Client.timely_reachable (client_reachable h)).handed, List.mem_filterMap]
  constructor
  · rintro ⟨p, hp, hd⟩
    obtain ⟨x, hx, rfl⟩ := List.mem_map.mp hp
    exact ⟨x, hx, hd⟩
  · rintro ⟨x, hx, hd⟩
    exact ⟨x.1, List.mem_map_of_mem hx, hd⟩

end World

/-! ## Samples -/

section Samples

variable (cfg : Config) (opts : ClientOptions) (maxDatagramSize : ℕ)

/-- **RTT samples never underestimate.** In every run over a network that may lose,
    duplicate, delay and reorder datagrams, each sample that a step adds ends as a datagram
    `b` arrives, and

    * of the client's packets in the order of sending, the first one with which a session
      can have sent `b` was sent no earlier than the sample began;
    * whenever the session sent `b`, it had got a datagram that was sent within the
      sample, and at no other time. -/
theorem rtt_samples_span (acts : List WorldAct) (w w' : World) (a : WorldAct)
    (hrun : Machine.run (World.step cfg) (World.init opts maxDatagramSize cfg) acts = some w)
    (hstep : World.step cfg w a = some w') :
    ∃ l, w'.client.est.samples = w.client.est.samples ++ l ∧ ∀ σ ∈ l,
      ∃ b alloc elapse, a = .client { event := .datagram b alloc, elapse := elapse } ∧
        (∃ r ∈ w.replies, r.bytes = b) ∧
        w.client.est.clock ≤ σ.stop ∧ σ.stop ≤ w'.client.est.clock ∧
        (∃ before p τ after, w.client.est.stamped = before ++ (p, τ) :: after ∧
          ¬ CanReply cfg (datagrams before) b ∧ CanReply cfg (datagrams (before ++ [(p, τ)])) b ∧
          σ.start ≤ τ ∧ τ ≤ σ.stop) ∧
        ∀ r ∈ w.replies, r.bytes = b → ∃ d ∈ r.after, d ∈ datagrams w.client.est.stamped ∧
          ∀ p τ, (p, τ) ∈ w.client.est.stamped → p.encode = some d → σ.start ≤ τ ∧ τ ≤ σ.stop := by
  have hw : Machine.Reachable (World.step cfg) (World.init opts maxDatagramSize cfg) w := ⟨acts, hrun⟩
  cases World.effect_of_step hstep with
  | deliver | server => exact ⟨[], (List.append_nil _).symm, by simp⟩
  | client e c hc hbrings =>
    have hreach := World.client_reachable hw
    have hgrows := Http4Client.grows_step hreach hc
    obtain ⟨hsorted, hclock⟩ := Http4Client.sorted_stamped hreach
    obtain ⟨l, hl, hsamples⟩ := hgrows.samples
    refine ⟨l, hl, fun σ hσ => ?_⟩
    obtain ⟨hbefore, hle, hafter, hspans⟩ := hsamples σ hσ
    obtain ⟨event, elapse⟩ := e
    cases event with
    | datagram b alloc =>
      obtain ⟨more, hmore, -⟩ := hgrows.stamped
      have hmem {x : Outgoing × ℚ} (hx : x ∈ w.client.est.stamped) : x ∈ c.est.stamped := by
        rw [hmore]
        exact List.mem_append_left _ hx
      have hearly {l : List (Outgoing × ℚ)} (hl : ∀ x ∈ l, x ∈ w.client.est.stamped ∧ x.2 < σ.start) :
          ¬ CanReply cfg (datagrams l) b :=
        not_canReply_of_spans hspans fun x hx => ⟨hmem (hl x hx).1, (hl x hx).2⟩
      have hlinked := World.linked_reachable hw
      have hstop {x : Outgoing × ℚ} (hx : x ∈ w.client.est.stamped) : x.2 ≤ σ.stop := (hclock x hx).trans hbefore
      obtain ⟨r, hr, hbytes⟩ := hbrings b alloc rfl
      refine ⟨b, alloc, elapse, rfl, ⟨r, hr, hbytes⟩, hbefore, hafter, ?_, fun r hr hbytes => ?_⟩
      · -- the reply was possible when it was sent
        have hcan : CanReply cfg (datagrams w.client.est.stamped) b :=
          hbytes ▸ (hlinked.replies r hr).1.mono fun d hd =>
            (World.mem_sent_iff hw).mp ((hlinked.replies r hr).2 d hd)
        obtain ⟨before, ⟨p, τ⟩, after, heq, hnot, hyes⟩ :=
          exists_first (P := fun l => CanReply cfg (datagrams l) b) (hearly (by simp)) hcan
        refine ⟨before, p, τ, after, heq, hnot, hyes, ?_, hstop (x := (p, τ)) ?_⟩
        · by_contra hlt
          rw [heq, ← List.singleton_append, ← List.append_assoc] at hsorted
          obtain ⟨hsorted, -, -⟩ := List.pairwise_append.mp hsorted
          refine hearly (fun x hx => ⟨?_, ?_⟩) hyes
          · rw [heq, ← List.singleton_append, ← List.append_assoc]
            exact List.mem_append_left _ hx
          · rcases List.mem_append.mp hx with hx | hx
            · exact ((List.pairwise_append.mp hsorted).2.2 x hx _ List.mem_cons_self).trans_lt (not_le.mp hlt)
            · rw [List.mem_singleton.mp hx]
              exact not_le.mp hlt
        · rw [heq]
          exact List.mem_append_right _ List.mem_cons_self
      · -- what the session had got cannot all have been sent before
        obtain ⟨hcan, hsent⟩ := hlinked.replies r hr
        rw [hbytes] at hcan
        by_contra hnone
        push Not at hnone
        refine hearly (l := w.client.est.stamped.filter fun x => x.2 < σ.start) (fun x hx => ?_) (hcan.mono ?_)
        · obtain ⟨hx, hlt⟩ := List.mem_filter.mp hx
          exact ⟨hx, of_decide_eq_true hlt⟩
        · intro d hd
          obtain ⟨p, τ, hp, hencode, hlt⟩ := hnone d hd ((World.mem_sent_iff hw).mp (hsent d hd))
          refine ⟨(p, τ), List.mem_filter.mpr ⟨hp, decide_eq_true ?_⟩, hencode⟩
          by_contra hge
          exact absurd (hstop hp) (not_le.mpr (hlt (not_lt.mp hge)))
    | request | readDone | readRejected | tick | streamStarted | read | pullSettled | cancel | close
    | sessionEnded =>
      cases hspans with
      | reply id hinc => rcases hinc with ⟨m, hm, -⟩ | ⟨d, hd | ⟨t, ht, -⟩, -⟩ <;> contradiction
      | probe d limit hinc => rcases hinc with hd | ⟨t, ht, -⟩ <;> contradiction

end Samples

/-- The client asks for an asset at 5, the session answers with META. -/
def metaAnswer : List WorldAct :=
  [.client { event := .request 7 (Wire.Ts.jsLit "/a") false .normal, elapse := [5] },
   .deliver (datagram (.req { rpcId := 7, initialGrant := 4096, assetId := Wire.lit "/a" })) 0 (.found smallAsset)] ++
    (serverSends [0]).map .server

/-- That arrives at 35. -/
def metaArrives : Http4Client.Step :=
  { event := .datagram (datagram (.metaData (smallAsset.metaData 7))) true, elapse := [30] }

/-- The sample is the time since the request. -/
theorem rtt_samples_span_meta : ∃ w w',
    Machine.run (World.step smallConfig) (World.init {} 1200 smallConfig) metaAnswer = some w ∧
    World.step smallConfig w (.client metaArrives) = some w' ∧
    w'.client.est.samples = [{ start := 5, stop := 35 }] ∧
    ∃ before p τ after, w.client.est.stamped = before ++ (p, τ) :: after ∧
      ¬ CanReply smallConfig (datagrams before) (datagram (.metaData (smallAsset.metaData 7))) ∧ 5 ≤ τ ∧ τ ≤ 35 := by
  have hany : (Machine.run (World.step smallConfig) (World.init {} 1200 smallConfig) metaAnswer).any fun w =>
      w.client.est.samples = [] ∧ (World.step smallConfig w (.client metaArrives)).any fun w' =>
        w'.client.est.samples = [{ start := 5, stop := 35 }] := by decide +kernel
  obtain ⟨w, hrun, hw⟩ := (Option.any_eq_true _ _).mp hany
  obtain ⟨hnil, hw⟩ := of_decide_eq_true hw
  obtain ⟨w', hstep, hw'⟩ := (Option.any_eq_true _ _).mp hw
  have hsamples := of_decide_eq_true hw'
  obtain ⟨l, hl, hspan⟩ := rtt_samples_span smallConfig {} 1200 metaAnswer w w' _ hrun hstep
  rw [hnil, hsamples, List.nil_append] at hl
  obtain ⟨b, alloc, elapse, hact, -, -, -, ⟨before, p, τ, after, heq, hnot, -, hlo, hhi⟩, -⟩ :=
    hspan _ (hl ▸ List.mem_cons_self)
  cases hact
  exact ⟨w, w', hrun, hstep, hsamples, before, p, τ, after, heq, hnot, hlo, hhi⟩

end Http4.System
