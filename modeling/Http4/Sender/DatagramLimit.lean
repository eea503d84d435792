import Http4.Sender.Sent
import Http4.Wire.GoRoundTrip

/-!
# DATA and the datagram limit

Every kind of DATA takes its length from `chunk`, which follows `maxDatagram`, but
the tail duplicate: it has the length of the packet that it repeats. If the limit
shrank since, it is too large. It is then refused, picked again with the same
length, and refused again.

Main results:

* `fits_iff`: the DATA picked fits the limit, unless it is such a tail duplicate.
* `length_marshal_out`: its datagram is as long as its header and its payload.
* `step_tooLarge`: what a refusal changes.
* `datagram_limit`: all of it over a run; the refusals come to an end.
-/

namespace Http4.Sender

open Wire (Packet)

/-- The length of the header that a DATA goes out with. -/
def Work.headerLen (w : Work) : ℕ := if w.seq then Wire.Go.dataSeqHeaderLen else Wire.Go.dataHeaderLen

/-- The datagram of `w` fits the known limit, as far as a DATA of one byte does. -/
def Session.Fits (s : Session) (w : Work) : Prop :=
  (w.headerLen + w.len : ℤ) ≤ max s.maxDatagram (w.headerLen + 1)

instance (s : Session) (w : Work) : Decidable (s.Fits w) := inferInstanceAs (Decidable (_ ≤ _))

/-- Only a tail duplicate is due of the RPC at `p`, and it is longer than a chunk. -/
def Session.LongTail (s : Session) (p : ℕ) : Prop :=
  ∃ r sp, s.heap[p]? = some r ∧ r.due = some .workTailDup ∧ r.tailDup = some sp ∧
    s.chunkInt s.useSeq < sp.stop - sp.start

section DatagramLimit

variable {cfg : Config} {s s' : Sys} {r : Rpc} {w : Work} {p : ℕ}

/-! ## What is picked -/

theorem chunkInt_eq (s : Session) (w : Work) :
    (w.headerLen : ℤ) + s.chunkInt w.seq = max s.maxDatagram (w.headerLen + 1) := by
  simp only [Session.chunkInt, Work.headerLen, Wire.Go.maxPayloadSeq, Wire.Go.maxPayload]
  cases w.seq <;> simp only [if_true, if_false, Bool.false_eq_true] <;> omega

/-- A DATA fits exactly if its payload is no longer than a chunk. -/
theorem fits_iff_len (s : Session) (w : Work) : s.Fits w ↔ (w.len : ℤ) ≤ s.chunkInt w.seq := by
  rw [Session.Fits, ← chunkInt_eq]
  omega

theorem chunk_le (s : Session) (seq : Bool) : (s.chunk seq : ℤ) ≤ s.chunkInt seq := by
  have hpos : 0 ≤ s.chunkInt seq := by
    simp only [Session.chunkInt]
    split_ifs <;> exact zero_le_one.trans (le_max_left _ _)
  have hle : s.chunk seq ≤ (s.chunkInt seq).toNat := Nat.mod_le _ _
  omega

/-- The payload of `data` is no longer than what is asked for. -/
theorem len_le_of_data {off n : ℕ} (h : r.data off n = .ok w.pkt) : w.len ≤ n := by
  unfold Rpc.data at h
  split_ifs at h with hrange
  rw [Except.ok.injEq] at h
  have hadd : u32Add off n ≤ off + n := Nat.mod_le _ _
  simp only [Work.len, Work.data?, ← h, Bytes.length_sub hrange.2]
  omega

/-- **The DATA picked for the RPC at `p` fits the limit, unless it is a tail duplicate
    longer than a chunk.** -/
theorem fits_iff (hinv : Inv cfg s.session) {order : List ℕ}
    (hpick : s.session.pick order = .ok (some w)) (hdata : w.data?.isSome) (hp : w.r = some p) :
    s.session.Fits w ↔ ¬ s.session.LongTail p := by
  rcases pick_eq_some hpick with ⟨pkt, rest, -, rfl⟩ | ⟨-, r, q, kind, -, hr, hdue, hwork, -⟩
  · cases hp
  obtain ⟨w', hw', hok, hfor⟩ := exists_workOf s.session (hinv.rpc q r hr) q hdue
  rw [hwork, Except.ok.injEq] at hw'
  subst hw'
  have hrpc := hfor.rpc
  rw [hp, Option.some.injEq] at hrpc
  subst hrpc
  have hkind := hfor.kind
  subst hkind
  have hseq : w.seq = s.session.useSeq := by rw [hfor.seq, hdata, Bool.and_true]
  rw [fits_iff_len, hseq]
  by_cases htail : w.kind = .workTailDup
  · rw [htail] at hdue
    cases hok with
    | metaData hkind | packet0 _ _ hkind | resend _ _ _ _ hkind | new _ _ hkind =>
      rw [htail] at hkind
      cases hkind
    | tailDup d n off hkind hpkt htailDup hd =>
      have hlen : w.len = n := by simp only [Work.len, data?_of_pkt hpkt]; exact hd.length
      rw [hlen]
      constructor
      · rintro hle ⟨r₁, sp, hr₁, -, hsp, hlt⟩
        obtain rfl := Option.some.inj (hr.symm.trans hr₁)
        obtain rfl := Option.some.inj (htailDup.symm.trans hsp)
        push_cast at hlt
        omega
      · intro hnot
        by_contra hlt
        exact hnot ⟨r, _, hr, hdue, htailDup, by push_cast; omega⟩
  · have hshort : ¬ s.session.LongTail p := by
      rintro ⟨r₁, sp, hr₁, hdue₁, -⟩
      obtain rfl := Option.some.inj (hr.symm.trans hr₁)
      exact htail (Option.some.inj (hdue.symm.trans hdue₁))
    refine iff_of_true ?_ hshort
    obtain ⟨off, n, hslice, hdata'⟩ := data_slice s.session hdue hwork hdata
    have hlen := len_le_of_data hdata'
    have hchunk : n ≤ s.session.chunk s.session.useSeq := by
      generalize hk : w.kind = kind at hslice htail
      cases kind with
      | workPacket0 | workNew =>
        obtain ⟨-, rfl⟩ := Prod.mk.inj (Option.some.inj hslice)
        exact min_le_left _ _
      | workResend =>
        obtain ⟨sp, -, heq⟩ := Option.map_eq_some_iff.mp hslice
        obtain ⟨-, rfl⟩ := Prod.mk.inj heq
        exact min_le_left _ _
      | workTailDup => exact absurd rfl htail
      | workMeta | workControl => cases hslice
    have hle := chunk_le s.session s.session.useSeq
    omega

/-! ## The datagram -/

/-- **The datagram of a DATA** can be written, and is its header and its payload. -/
theorem length_marshal_out (hinv : Inv cfg s.session) (hbusy : s.session.busy = some w)
    (hdata : w.data?.isSome) :
    ∃ b, Wire.Go.marshal (s.session.out w) = .ok b ∧ b.length = w.headerLen + w.len := by
  obtain ⟨d, hd⟩ := Option.isSome_iff_exists.mp hdata
  have hlen : w.len = d.payload.length := by simp only [Work.len, hd]
  have hbounds : d.InBounds := by
    cases hinv.work w hbusy with
    | reply rest hpending hr hkind hseq =>
      rw [data?_eq_none_of_pending hinv hpending] at hd
      cases hd
    | data p r hp hr hw hseq =>
      obtain ⟨hc, hle⟩ := hw.carries (hinv.rpc p r hr) hd
      rw [Wire.Data.InBounds, hc.offset, hc.length, hc.totalSize]
      exact hle.trans (hinv.rpc p r hr).granted_le
  rcases out_cases hinv (hinv.work w hbusy) with ⟨hseq, d', hd', hout⟩ | ⟨hseq, hout, -⟩
  · obtain rfl := Option.some.inj (hd.symm.trans hd')
    refine ⟨_, Wire.Go.marshal_eq_ok_iff.mpr ⟨by rw [hout]; exact hbounds, rfl⟩, ?_⟩
    rw [hout, hlen, Work.headerLen, if_pos hseq]
    simp only [Wire.Packet.layout, Wire.Packet.body, List.length_append, Wire.Packet.length_header,
      Bytes.length_beBytes, Wire.Go.dataSeqHeaderLen, Wire.Go.dataHeaderLen, Wire.Go.headerLen]
    omega
  · rw [hout, pkt_of_data? hd]
    refine ⟨_, Wire.Go.marshal_eq_ok_iff.mpr ⟨hbounds, rfl⟩, ?_⟩
    rw [hlen, Work.headerLen, hseq]
    simp only [Bool.false_eq_true, if_false, Wire.Packet.layout, Wire.Packet.body, List.length_append,
      Wire.Packet.length_header, Bytes.length_beBytes, Wire.Go.dataHeaderLen, Wire.Go.headerLen]
    omega

/-! ## Refusals -/

/-- **What a refusal changes.** -/
theorem step_tooLarge (hinv : Inv cfg s.session) (hphase : s.session.phase = .checked w)
    (hdata : w.data?.isSome) (limit : ℤ) :
    Sys.step cfg s (.handOver (.tooLarge limit)) =
      some { s with session := { s.session with
        phase := .idle
        maxDatagram := limit - h3DatagramPrefixMax
        metrics := { s.session.metrics with chunkShrinks := s.session.metrics.chunkShrinks + 1 } } } := by
  obtain ⟨b, hb, -⟩ := length_marshal_out hinv (by rw [Session.busy, hphase]) hdata
  simp only [Sys.step, hphase, Session.handOver, hb, hdata, if_true]

/-- Only a refusal changes the limit. -/
theorem Effect.maxDatagram {a : Act} (heff : Effect cfg s a s') :
    s'.session.maxDatagram = s.session.maxDatagram ∨ ∃ w limit, a = .handOver (.tooLarge limit) ∧
      s.session.phase = .checked w ∧ w.data?.isSome ∧ s'.session.phase = .idle ∧
      s'.session.maxDatagram = limit - h3DatagramPrefixMax := by
  cases heff with
  | packet b now got pkt m hb hdecode hm =>
    exact .inl (sameLoop_handle cfg { s.session with metrics := m } now got pkt).maxDatagram
  | refused w limit m hphase hm hdata =>
    exact .inr ⟨w, limit, rfl, hphase, hdata, rfl, rfl⟩
  | offer | malformed | nothing | pick | hold | check | sent | ended | recordReply | record | evictIdle =>
    exact .inl rfl

/-- Without a hand-over the limit stays. -/
theorem maxDatagram_run {acts : List Act} (hinv : Inv cfg s.session)
    (hrun : Machine.run (Sys.step cfg) s acts = some s') (hnone : ∀ o, .handOver o ∉ acts) :
    s'.session.maxDatagram = s.session.maxDatagram := by
  have hboth := Machine.run_while (C := fun a => ∀ o, a ≠ .handOver o)
    (P := fun t => Inv cfg t.session ∧ t.session.maxDatagram = s.session.maxDatagram)
    (fun t a t' ha ⟨hinv, hsame⟩ hstep => by
      refine ⟨hinv.step hstep, ?_⟩
      rcases (hinv.effect hstep).maxDatagram with heq | ⟨w, limit, rfl, -⟩
      · exact heq.trans hsame
      · exact absurd rfl (ha _))
    (fun a ha o heq => hnone o (by rw [← heq]; exact ha)) ⟨hinv, rfl⟩ hrun
  exact hboth.2

/-- A refusal of a DATA. -/
def Sys.refusals (s : Sys) (a : Act) : ℕ :=
  match a, s.session.phase with
  | .handOver (.tooLarge _), .checked w => if w.data?.isSome then 1 else 0
  | _, _ => 0

/-- The connection refuses only what is longer than the limit with the prefix, and the
    limit leaves room for a header and one byte. -/
def Sys.RefusesLong (s : Sys) (a : Act) : Prop :=
  ∀ limit w, a = .handOver (.tooLarge limit) → s.session.phase = .checked w → w.data?.isSome →
    limit < w.headerLen + w.len + h3DatagramPrefixMax ∧ w.headerLen + 1 + h3DatagramPrefixMax ≤ limit

/-- The step picks no tail duplicate longer than a chunk. -/
def Sys.PicksShort (s : Sys) (a : Act) : Prop :=
  ∀ order w p, a = .pick order → s.session.pick order = .ok (some w) → w.r = some p → w.data?.isSome →
    ¬ s.session.LongTail p

/-- The DATA in hand fits. -/
def Session.BusyFits (s : Session) : Prop := ∀ w, s.busy = some w → w.data?.isSome → s.Fits w

theorem BusyFits.step {a : Act} (hinv : Inv cfg s.session) (h : s.session.BusyFits) (hshort : s.PicksShort a)
    (heff : Effect cfg s a s') : s'.session.BusyFits := by
  have hnone {t : Session} (hbusy : t.busy = none) : t.BusyFits := by
    intro w hw
    rw [hbusy] at hw
    cases hw
  have hsame {t : Session} {w : Work} (hw : s.session.busy = some w) (hbusy : t.busy = some w)
      (hlimit : t.maxDatagram = s.session.maxDatagram) : t.BusyFits := by
    intro w' hw' hdata
    obtain rfl := Option.some.inj (hbusy.symm.trans hw')
    rw [Session.Fits, hlimit]
    exact h w hw hdata
  cases heff with
  | offer | malformed | nothing | evictIdle => exact h
  | packet b now got pkt m hb hdecode hm =>
    have hloop := sameLoop_handle cfg { s.session with metrics := m } now got pkt
    intro w hw hdata
    rw [Session.busy, hloop.phase] at hw
    rw [Session.Fits, hloop.maxDatagram]
    exact h w hw hdata
  | pick order w hphase hperm hsome hpicked =>
    intro w' hw' hdata
    obtain rfl := Option.some.inj hw'
    cases hpicked with
    | reply rest hpending hr hkind hseq =>
      rw [data?_eq_none_of_pending hinv hpending] at hdata
      cases hdata
    | data p r hempty horder hr hdue hok hfor =>
      exact (fits_iff hinv hsome hdata hfor.rpc).mpr (hshort order w p rfl hsome hfor.rpc hdata)
  | check w hphase => exact hsame (w := w) (by rw [Session.busy, hphase]) rfl rfl
  | sent w o m hphase ho hm => exact hsame (w := w) (by rw [Session.busy, hphase]) rfl rfl
  | hold | refused | ended | recordReply | record => exact hnone rfl

/-- Each refusal lowers the limit. -/
theorem refusals_step {a : Act} (hinv : Inv cfg s.session) (h : s.session.BusyFits) (hlong : s.RefusesLong a)
    (hstep : Sys.step cfg s a = some s') :
    s.refusals a = 0 ∧ s'.session.maxDatagram = s.session.maxDatagram ∨
      s.refusals a = 1 ∧ 0 < s'.session.maxDatagram ∧ s'.session.maxDatagram < s.session.maxDatagram := by
  by_cases hrefuses : ∃ w limit, a = .handOver (.tooLarge limit) ∧ s.session.phase = .checked w ∧ w.data?.isSome
  · obtain ⟨w, limit, rfl, hphase, hdata⟩ := hrefuses
    rw [step_tooLarge hinv hphase hdata, Option.some.injEq] at hstep
    subst hstep
    obtain ⟨hlt, hle⟩ := hlong limit w rfl hphase hdata
    have hfits := h w (by rw [Session.busy, hphase]) hdata
    rw [Session.Fits] at hfits
    refine .inr ⟨by simp only [Sys.refusals, hphase, hdata, if_true], ?_, ?_⟩ <;> simp only <;> omega
  · refine .inl ⟨?_, ?_⟩
    · unfold Sys.refusals
      split
      next limit w hphase =>
        exact if_neg fun hdata => hrefuses ⟨w, limit, rfl, hphase, hdata⟩
      · rfl
    · rcases (hinv.effect hstep).maxDatagram with heq | ⟨w, limit, ha, hphase, hdata, -⟩
      · exact heq
      · exact absurd ⟨w, limit, ha, hphase, hdata⟩ hrefuses

/-- The refusals of a run from an idle state are no more than what the limit shrank
    by. -/
theorem refusals_run {acts : List Act} (hinv : Inv cfg s.session) (hidle : s.session.phase = .idle)
    (hrun : Machine.run (Sys.step cfg) s acts = some s')
    (hcond : Machine.Along (Sys.step cfg) s acts fun t a => t.RefusesLong a ∧ t.PicksShort a) :
    (Machine.total (Sys.step cfg) Sys.refusals s acts : ℤ) ≤ max 0 s.session.maxDatagram := by
  have hstep : ∀ (t : Sys) (a : Act) (t' : Sys) (n : ℕ), t.RefusesLong a ∧ t.PicksShort a →
      Inv cfg t.session ∧ t.session.BusyFits ∧ (n : ℤ) + t.session.maxDatagram ≤ s.session.maxDatagram ∧
        (n = 0 ∨ 0 < t.session.maxDatagram) → Sys.step cfg t a = some t' →
      Inv cfg t'.session ∧ t'.session.BusyFits ∧
        ((n + t.refusals a : ℕ) : ℤ) + t'.session.maxDatagram ≤ s.session.maxDatagram ∧
        (n + t.refusals a = 0 ∨ 0 < t'.session.maxDatagram) := by
    intro t a t' n ⟨hlong, hshort⟩ ⟨hinv, hfits, hle, hpos⟩ hstep
    refine ⟨hinv.step hstep, BusyFits.step hinv hfits hshort (hinv.effect hstep), ?_⟩
    rcases refusals_step hinv hfits hlong hstep with ⟨hzero, heq⟩ | ⟨hone, hpos', hlt⟩
    · rw [hzero, heq]
      exact ⟨hle, hpos⟩
    · rw [hone]
      push_cast
      exact ⟨by omega, .inr hpos'⟩
  have hstart : s.session.BusyFits := by
    intro w hw
    rw [Session.busy, hidle] at hw
    cases hw
  have hend := Machine.run_total hstep hcond (n := 0) ⟨hinv, hstart, by simp, .inl rfl⟩ hrun
  obtain ⟨-, -, hle, hpos⟩ := hend
  omega

/-! ## Over a run -/

/-- **DATA and the datagram limit.** In every reachable state:

    * the DATA picked for an RPC fits the limit exactly if it is no tail duplicate
      longer than a chunk;
    * the datagram of a picked DATA is its header and its payload;
    * if the connection refuses it with a limit, only the limit changes, and however the
      session goes on without a hand-over, the next DATA picked fits that limit
      exactly under the same condition;
    * from an idle state on, if no such tail duplicate is picked, there are at most as
      many refusals as the limit has bytes. -/
theorem datagram_limit (cfg : Config) (acts : List Act) (s : Sys)
    (hrun : Machine.run (Sys.step cfg) (Sys.init cfg) acts = some s) :
    (∀ order w p, s.session.pick order = .ok (some w) → w.data?.isSome → w.r = some p →
      (s.session.Fits w ↔ ¬ s.session.LongTail p)) ∧
    (∀ w, s.session.busy = some w → w.data?.isSome →
      ∃ b, Wire.Go.marshal (s.session.out w) = .ok b ∧ b.length = w.headerLen + w.len) ∧
    (∀ w limit, s.session.phase = .checked w → w.data?.isSome →
      ∃ t, Sys.step cfg s (.handOver (.tooLarge limit)) = some t ∧
        t = { s with session := { s.session with
          phase := .idle
          maxDatagram := limit - h3DatagramPrefixMax
          metrics := { s.session.metrics with chunkShrinks := s.session.metrics.chunkShrinks + 1 } } } ∧
        ∀ more u order w' p, Machine.run (Sys.step cfg) t more = some u → (∀ o, .handOver o ∉ more) →
          u.session.pick order = .ok (some w') → w'.data?.isSome → w'.r = some p →
          (w'.headerLen + 1 + h3DatagramPrefixMax : ℤ) ≤ limit →
          ((w'.headerLen + w'.len : ℤ) ≤ limit - h3DatagramPrefixMax ↔ ¬ u.session.LongTail p)) ∧
    (s.session.phase = .idle → ∀ more u, Machine.run (Sys.step cfg) s more = some u →
      Machine.Along (Sys.step cfg) s more (fun t a => t.RefusesLong a ∧ t.PicksShort a) →
      (Machine.total (Sys.step cfg) Sys.refusals s more : ℤ) ≤ max 0 s.session.maxDatagram) := by
  have hinv := inv_reachable ⟨acts, hrun⟩
  refine ⟨fun order w p hpick hdata hp => fits_iff hinv hpick hdata hp,
    fun w hbusy hdata => length_marshal_out hinv hbusy hdata, ?_,
    fun hidle more u hmore hcond => refusals_run hinv hidle hmore hcond⟩
  intro w limit hphase hdata
  have hstep := step_tooLarge hinv hphase hdata limit
  refine ⟨_, hstep, rfl, fun more u order w' p hmore hnone hpick hdata' hp hroom => ?_⟩
  have hinv' := hinv.step hstep
  have hinv'' : Inv cfg u.session := Machine.run_invariant (P := fun s => Inv cfg s.session)
    (fun _ _ _ hinv hstep => hinv.step hstep) hinv' hmore
  have hlimit : u.session.maxDatagram = limit - h3DatagramPrefixMax := maxDatagram_run hinv' hmore hnone
  rw [← fits_iff hinv'' hpick hdata' hp, Session.Fits, hlimit, max_eq_left (by omega)]

end DatagramLimit

/-- The asset is sent whole in packet 0, and its tail duplicate is refused with a
    limit that leaves 20 bytes. -/
def tailRefused : List Act :=
  clientSends (smallReq 5) 0 ++ serverSends [0] ++ serverSends [0] ++
    [.pick [0], .check, .handOver (.tooLarge 28)]

/-- The work picked passes a test. -/
def Session.picks (s : Session) (test : Work → Bool) : Bool := match s.pick [0] with
  | .ok (some w) => test w
  | _ => false

theorem Session.picks_eq_true {s : Session} {test : Work → Bool} (h : s.picks test = true) :
    ∃ w, s.pick [0] = .ok (some w) ∧ test w = true := by
  unfold Session.picks at h
  split at h
  next w hw => exact ⟨w, hw, h⟩
  · cases h

/-- A hand-over that is refused with a limit of 28. -/
def refusedOnce : List Act := [.pick [0], .check, .handOver (.tooLarge 28)]

/-- The session picks `w`, five bytes of the RPC at 0, with no long tail duplicate due. -/
structure PicksFive (s : Sys) (w : Work) : Prop where
  picked : s.session.pick [0] = .ok (some w)
  data : w.data?.isSome
  rpc : w.r = some 0
  header : w.headerLen = 17
  length : w.len = 5
  short : ¬ s.session.LongTail 0

/-- Where the refusal of a packet 0 of five bytes leads to. -/
theorem exists_refusedOnce : ∃ s w s₁ s₂ t w',
    Machine.run (Sys.step tailConfig) (Sys.init tailConfig) (clientSends (smallReq 5) 0 ++ serverSends [0]) = some s ∧
      s.session.phase = .idle ∧ s.session.maxDatagram = 1200 ∧ PicksFive s w ∧
      Sys.step tailConfig s (.pick [0]) = some s₁ ∧ Sys.step tailConfig s₁ .check = some s₂ ∧
      s₂.session.phase = .checked w ∧ Sys.step tailConfig s₂ (.handOver (.tooLarge 28)) = some t ∧
      t.session.pick [0] = .ok (some w') ∧ w'.data?.isSome ∧ w'.r = some 0 ∧ w'.headerLen = 17 := by
  obtain ⟨s, hrun, hs⟩ := exists_run_of_any tailConfig (clientSends (smallReq 5) 0 ++ serverSends [0])
    (P := fun s => decide (s.session.phase = .idle) && decide (s.session.maxDatagram = 1200) &&
      (s.session.heap[0]?.all fun r : Rpc => decide (r.due ≠ some .workTailDup)) &&
      s.session.picks fun w => w.data?.isSome && decide (w.r = some 0) && decide (w.headerLen = 17) &&
        decide (w.len = 5) &&
        (Sys.step tailConfig s (.pick [0])).any fun s₁ : Sys => (Sys.step tailConfig s₁ .check).any fun s₂ : Sys =>
          decide (s₂.session.phase = .checked w) &&
            (Sys.step tailConfig s₂ (.handOver (.tooLarge 28))).any fun t : Sys => t.session.picks fun w' =>
              w'.data?.isSome && decide (w'.r = some 0) && decide (w'.headerLen = 17)) (by decide +kernel)
  simp only [Bool.and_eq_true, decide_eq_true_eq] at hs
  obtain ⟨⟨⟨hidle, hmax⟩, hnotail⟩, hpick⟩ := hs
  obtain ⟨w, hw, hpick⟩ := Session.picks_eq_true hpick
  simp only [Bool.and_eq_true, decide_eq_true_eq] at hpick
  obtain ⟨⟨⟨⟨hdata, hp⟩, hheader⟩, hlen⟩, hsteps⟩ := hpick
  obtain ⟨s₁, hs₁, hsteps⟩ := (Option.any_eq_true _ _).mp hsteps
  obtain ⟨s₂, hs₂, hsteps⟩ := (Option.any_eq_true _ _).mp hsteps
  rw [Bool.and_eq_true, decide_eq_true_eq] at hsteps
  obtain ⟨t, ht, hagain⟩ := (Option.any_eq_true _ _).mp hsteps.2
  obtain ⟨w', hw', hagain⟩ := Session.picks_eq_true hagain
  simp only [Bool.and_eq_true, decide_eq_true_eq] at hagain
  refine ⟨s, w, s₁, s₂, t, w', hrun, hidle, hmax, ⟨hw, hdata, hp, hheader, hlen, ?_⟩, hs₁, hs₂, hsteps.1, ht, hw',
    hagain.1.1, hagain.1.2, hagain.2⟩
  rintro ⟨r, sp, hr, hdue, -⟩
  rw [hr, Option.all_some, decide_eq_true_eq] at hnotail
  exact hnotail hdue

/-- The refusal was of a datagram that is too long, and no tail duplicate was picked. -/
theorem PicksFive.along {s s₁ s₂ t : Sys} {w : Work} (h : PicksFive s w)
    (hs₁ : Sys.step tailConfig s (.pick [0]) = some s₁) (hs₂ : Sys.step tailConfig s₁ .check = some s₂)
    (hchecked : s₂.session.phase = .checked w) (ht : Sys.step tailConfig s₂ (.handOver (.tooLarge 28)) = some t) :
    Machine.Along (Sys.step tailConfig) s refusedOnce fun t a => t.RefusesLong a ∧ t.PicksShort a := by
  refine (Machine.along_cons_iff hs₁).mpr ⟨⟨by simp [Sys.RefusesLong], fun order w' p horder hw' hp' _ => ?_⟩, ?_⟩
  · obtain rfl := Act.pick.inj horder
    obtain rfl := Option.some.inj (Except.ok.inj (h.picked.symm.trans hw'))
    obtain rfl := Option.some.inj (h.rpc.symm.trans hp')
    exact h.short
  refine (Machine.along_cons_iff hs₂).mpr ⟨⟨by simp [Sys.RefusesLong], by simp [Sys.PicksShort]⟩, ?_⟩
  refine (Machine.along_cons_iff ht).mpr
    ⟨⟨fun limit w' hlimit hw' _ => ?_, by simp [Sys.PicksShort]⟩, by simp [Machine.Along]⟩
  obtain rfl := Phase.checked.inj (hchecked.symm.trans hw')
  cases hlimit
  rw [h.header, h.length]
  decide

/-- The packet 0 of a small asset fits, is refused once, and is picked again with what
    the limit leaves room for. -/
theorem datagram_limit_small : ∃ s w, Machine.run (Sys.step tailConfig) (Sys.init tailConfig)
      (clientSends (smallReq 5) 0 ++ serverSends [0]) = some s ∧
    s.session.pick [0] = .ok (some w) ∧ (s.session.Fits w ↔ ¬ s.session.LongTail 0) ∧
    (Machine.total (Sys.step tailConfig) Sys.refusals s refusedOnce : ℤ) ≤ 1200 ∧
    ∃ t w', Machine.run (Sys.step tailConfig) s refusedOnce = some t ∧ t.session.pick [0] = .ok (some w') ∧
      ((w'.headerLen + w'.len : ℤ) ≤ 28 - h3DatagramPrefixMax ↔ ¬ t.session.LongTail 0) := by
  obtain ⟨s, w, s₁, s₂, t, w', hrun, hidle, hmax, hfive, hs₁, hs₂, hchecked, ht, hw', hdata', hp', hheader'⟩ :=
    exists_refusedOnce
  have hchecks : Machine.run (Sys.step tailConfig) s [.pick [0], .check] = some s₂ :=
    Machine.run_cons_iff.mpr ⟨s₁, hs₁, Machine.run_cons_iff.mpr ⟨s₂, hs₂, rfl⟩⟩
  have hmore : Machine.run (Sys.step tailConfig) s refusedOnce = some t :=
    Machine.run_append_iff.mpr ⟨s₂, hchecks, Machine.run_cons_iff.mpr ⟨t, ht, rfl⟩⟩
  obtain ⟨hfirst, -, -, hlast⟩ := datagram_limit tailConfig _ s hrun
  obtain ⟨-, -, hrefused, -⟩ := datagram_limit tailConfig _ s₂ (Machine.run_append_iff.mpr ⟨s, hrun, hchecks⟩)
  obtain ⟨t', ht', -, hfits⟩ := hrefused w 28 hchecked hfive.data
  obtain rfl := Option.some.inj (ht.symm.trans ht')
  have htotal := hlast hidle refusedOnce t hmore (hfive.along hs₁ hs₂ hchecked ht)
  rw [hmax] at htotal
  refine ⟨s, w, hrun, hfive.picked, hfirst [0] w 0 hfive.picked hfive.data hfive.rpc, htotal, t, w', hmore, hw', ?_⟩
  exact hfits [] t [0] w' 0 rfl (by simp) hw' hdata' hp' (by rw [hheader']; decide)

/-- The refused tail duplicate is picked again with 22 bytes. -/
theorem not_fits_tailRefused : ¬ ∀ (cfg : Config) (acts : List Act) (s : Sys) (order : List ℕ) (w : Work),
    Machine.run (Sys.step cfg) (Sys.init cfg) acts = some s → s.session.pick order = .ok (some w) →
    w.data?.isSome → s.session.Fits w := by
  intro h
  obtain ⟨s, hrun, hpick⟩ := exists_run_of_any tailConfig tailRefused
    (P := fun s => s.session.picks fun w => w.data?.isSome && !decide (s.session.Fits w)) (by decide +kernel)
  obtain ⟨w, hw, hpick⟩ := Session.picks_eq_true hpick
  rw [Bool.and_eq_true, Bool.not_eq_true', decide_eq_false_iff_not] at hpick
  exact hpick.2 (h tailConfig tailRefused s [0] w hrun hw hpick.1)

end Http4.Sender
