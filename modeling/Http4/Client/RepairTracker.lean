import Http4.Client.Reassembly
import Http4.Data.Machine
import Http4.Data.OrderedMap
import Http4.Data.Sweep

/-!
# RESENDs of one transfer

Model of the class `RepairTracker` of `client/src/reassembly.ts` (lines 101–163)
and of its three callers in `client/src/transport.ts`: early detection, the tail
loss probe and the stall timer. Grants, limits and times are rationals, as the
settings are; a byte is named by a range that holds a point of it.

`Repairs` is one transfer with its clock and the RESENDs sent so far. Main results:

* `Reassembly.gaps_intCast`: below an integer the gaps are what `missing` returns.
* `claim_spec`: `claim` sends what live RESENDs do not cover.
* `Repairs.Inv.step`: what holds of the RESENDs between two steps.
* `Repairs.resend_discipline`: which ranges every batch names. They lie inside the
  grant if no byte past it has arrived.
* `Repairs.resend_past_grant`: early detection has no such limit of its own.
-/

namespace Http4.Client

/-! ## Gaps below a rational limit -/

/-- A range of offsets as one of rationals. -/
def castRange (r : Range ℕ) : Range ℚ := { start := r.start, stop := r.stop }

@[simp] theorem castRange_start (r : Range ℕ) : (castRange r).start = r.start := rfl

@[simp] theorem castRange_stop (r : Range ℕ) : (castRange r).stop = r.stop := rfl

namespace Reassembly

/-- `missing(limit)` (lines 72–82), for a limit that need not be an integer. -/
def gaps (s : Reassembly) (limit : ℚ) : List (Range ℚ) := Ranges.gapsFrom limit 0 (s.ranges.map castRange)

theorem gapsFrom_intCast (limit : ℤ) (pos : ℕ) (l : List (Range ℕ)) :
    Ranges.gapsFrom (limit : ℚ) pos (l.map castRange) = (missingFrom limit pos l).map castRange := by
  have hcast {n : ℕ} (h : (n : ℤ) < limit) : ((limit.toNat : ℕ) : ℚ) = limit := by
    rw [← Int.cast_natCast, Int.toNat_of_nonneg (by omega)]
  have hlt (n : ℕ) : (n : ℚ) < limit ↔ (n : ℤ) < limit := by exact_mod_cast Iff.rfl
  induction l generalizing pos with
  | nil =>
    rw [List.map_nil, Ranges.gapsFrom, missingFrom]
    by_cases h : (pos : ℤ) < limit
    · rw [if_pos ((hlt pos).mpr h), if_pos h, List.map_singleton, castRange, hcast h]
    · rw [if_neg ((hlt pos).not.mpr h), if_neg h, List.map_nil]
  | cons r l ih =>
    rw [List.map_cons, Ranges.gapsFrom, missingFrom]
    by_cases h : (pos : ℤ) ≥ limit
    · rw [if_pos h, if_pos (not_lt.mp ((hlt pos).not.mpr (not_lt.mpr h))), List.map_nil]
    · rw [if_neg h, if_neg (not_le.mpr ((hlt pos).mpr (not_le.mp h))), castRange_start, castRange_stop, ih,
        List.map_append]
      congr 1
      by_cases hgap : r.start > pos
      · have hmin : (((min (r.start : ℤ) limit).toNat : ℕ) : ℚ) = min (r.start : ℚ) limit := by
          rw [← Int.cast_natCast, Int.toNat_of_nonneg (by omega)]
          push_cast
          rfl
        rw [if_pos hgap, if_pos (by exact_mod_cast hgap), List.map_singleton, castRange, hmin]
      · rw [if_neg hgap, if_neg (by exact_mod_cast hgap), List.map_nil]

/-- For an integer it is `missing` itself. -/
theorem gaps_intCast (s : Reassembly) (limit : ℤ) : s.gaps limit = (s.missing limit).map castRange := by
  have := gapsFrom_intCast limit 0 s.ranges
  rwa [Nat.cast_zero] at this

section Gaps

variable {s : Reassembly} {w : Contents} (h : Represents s w)
include h

/-- A point is covered if its byte has arrived. -/
theorem Represents.mem_castRanges {x : ℚ} :
    x ∈ Ranges.toSet (s.ranges.map castRange) ↔ 0 ≤ x ∧ ⌊x⌋₊ ∈ w.dom := by
  rw [← h.toSet_ranges, Ranges.mem_toSet, Ranges.mem_toSet]
  constructor
  · rintro ⟨_, hmem, hle, hlt⟩
    obtain ⟨r, hr, rfl⟩ := List.mem_map.mp hmem
    have hpos : 0 ≤ x := (Nat.cast_nonneg r.start).trans hle
    exact ⟨hpos, r, hr, Nat.le_floor hle, (Nat.floor_lt hpos).mpr hlt⟩
  · rintro ⟨hpos, r, hr, hle, hlt⟩
    exact ⟨castRange r, List.mem_map_of_mem hr, (Nat.le_floor_iff hpos).mp hle, (Nat.floor_lt hpos).mp hlt⟩

theorem Represents.gaps (limit : ℚ) :
    Ranges.Ordered (s.gaps limit) ∧
      Ranges.toSet (s.gaps limit) = {x | 0 ≤ x ∧ x < limit ∧ ⌊x⌋₊ ∉ w.dom} := by
  have hord : Ranges.Ordered (s.ranges.map castRange) := by
    refine ⟨fun r hmem => ?_, List.pairwise_map.mpr (h.canonical.apart.imp fun {r t} hrt => ?_)⟩
    · obtain ⟨r, hr, rfl⟩ := List.mem_map.mp hmem
      exact Nat.cast_lt.mpr (h.canonical.nonempty r hr)
    · exact Nat.cast_le.mpr hrt.le
  obtain ⟨hgaps, hset⟩ := Ranges.gapsFrom_spec limit hord 0 fun r hr => by
    obtain ⟨r, -, rfl⟩ := List.mem_map.mp hr
    exact Nat.cast_nonneg r.start
  refine ⟨hgaps, hset.trans ?_⟩
  ext x
  rw [Set.mem_ofPred_eq, Set.mem_ofPred_eq, h.mem_castRanges]
  exact and_congr_right fun hpos => and_congr_right fun _ => by simp [hpos]

/-- Nothing has arrived at the frontier or behind it. -/
theorem Represents.notMem_of_frontier_le {n : ℕ} (hn : s.frontier ≤ n) : n ∉ w.dom := by
  intro hmem
  have := h.frontier.1 hmem
  exact absurd (Set.mem_Iio.mp this) (not_lt.mpr hn)

theorem Represents.frontier_le_size : s.frontier ≤ s.size :=
  h.frontier.2 fun k hk => h.inside k hk

end Gaps

end Reassembly

/-! ## The class -/

/-- An element of `pending`. -/
structure Pending where
  range : Range ℚ
  due : ℚ
  deriving DecidableEq

/-- `class RepairTracker`; `requested` is the field `_requested`. -/
structure RepairTracker where
  suspects : OrderedMap ℚ ℚ
  pending : List Pending
  requested : ℕ
  deriving DecidableEq

namespace RepairTracker

/-- A new tracker. -/
def new : RepairTracker := { suspects := .empty, pending := [], requested := 0 }

/-- The RESENDs that are neither repaired nor overdue (lines 136–143). -/
def live (t : RepairTracker) (asm : Reassembly) (now : ℚ) : List Pending :=
  Ranges.meeting Pending.range (asm.gaps asm.size) (t.pending.filter fun p => ¬ p.due ≤ now)

/-- `claim` (lines 133–162). -/
def claim (t : RepairTracker) (asm : Reassembly) (gaps : List (Range ℚ)) (now delayMs : ℚ) :
    List (Range ℚ) × RepairTracker :=
  let live := t.live asm now
  let out := Ranges.subtract gaps (live.map Pending.range)
  let fresh := out.map fun r => ({ range := r, due := now + delayMs } : Pending)
  (out, { t with
    pending := (live ++ fresh).mergeSort fun p q => p.range.start ≤ q.range.start
    requested := t.requested + out.length })

/-- Since when a gap has been a suspect (line 121). -/
def since (t : RepairTracker) (now : ℚ) (g : Range ℚ) : ℚ := (t.suspects.get? g.start).getD now

/-- The gaps that have stayed missing for the reordering window (lines 117–124). -/
def lost (t : RepairTracker) (asm : Reassembly) (limit now reorderWindowMs : ℚ) : List (Range ℚ) :=
  (asm.gaps limit).filter fun g => now - t.since now g ≥ reorderWindowMs

/-- The suspects after `detect` (lines 118–125). -/
def suspected (t : RepairTracker) (asm : Reassembly) (limit now : ℚ) : RepairTracker :=
  { t with suspects := (asm.gaps limit).foldl (fun m g => m.set g.start (t.since now g)) .empty }

/-- `detect` (lines 116–127). -/
def detect (t : RepairTracker) (asm : Reassembly) (limit now reorderWindowMs delayMs : ℚ) :
    List (Range ℚ) × RepairTracker :=
  (t.suspected asm limit now).claim asm (t.lost asm limit now reorderWindowMs) now delayMs

/-! ### What one claim does -/

/-- A RESEND is live if it is not overdue and holds a point that is missing. -/
theorem mem_live {t : RepairTracker} (hpending : Ranges.Ordered (t.pending.map Pending.range))
    {asm : Reassembly} (hgaps : Ranges.Ordered (asm.gaps asm.size)) {now : ℚ} {p : Pending} :
    p ∈ t.live asm now ↔
      p ∈ t.pending ∧ now < p.due ∧ ∃ x ∈ p.range.toSet, x ∈ Ranges.toSet (asm.gaps asm.size) := by
  have hsub : (t.pending.filter fun p => ¬ p.due ≤ now).Sublist t.pending := List.filter_sublist
  rw [live, Ranges.mem_meeting hgaps (hpending.sublist (hsub.map _)), List.mem_filter,
    decide_eq_true_eq, not_le, and_assoc]
  refine and_congr_right fun hp => and_congr_right fun _ => ?_
  have hne := hpending.nonempty _ (List.mem_map_of_mem hp)
  constructor
  · rintro ⟨g, hg, hlt, hlt'⟩
    exact ⟨_, ⟨le_max_right _ _, max_lt hlt hne⟩, g, hg, le_max_left _ _, max_lt (hgaps.nonempty g hg) hlt'⟩
  · rintro ⟨x, hx, g, hg, hle, hlt⟩
    exact ⟨g, hg, hle.trans_lt hx.2, hx.1.trans_lt hlt⟩

/-- A point is in a live RESEND if it is in one that is not overdue, as long as it
    is missing itself. -/
theorem mem_live_ranges {t : RepairTracker} (hpending : Ranges.Ordered (t.pending.map Pending.range))
    {asm : Reassembly} (hgaps : Ranges.Ordered (asm.gaps asm.size)) {now x : ℚ}
    (hx : x ∈ Ranges.toSet (asm.gaps asm.size)) :
    x ∈ Ranges.toSet ((t.live asm now).map Pending.range) ↔
      ∃ p ∈ t.pending, now < p.due ∧ x ∈ p.range.toSet := by
  constructor
  · rintro ⟨_, hg, hxp⟩
    obtain ⟨p, hp, rfl⟩ := List.mem_map.mp hg
    obtain ⟨hp, hdue, -⟩ := (mem_live hpending hgaps).mp hp
    exact ⟨p, hp, hdue, hxp⟩
  · rintro ⟨p, hp, hdue, hxp⟩
    exact ⟨p.range, List.mem_map_of_mem ((mem_live hpending hgaps).mpr ⟨hp, hdue, x, hxp, hx⟩), hxp⟩

/-- **`claim` sends what live RESENDs do not cover**, in order, and keeps both. -/
theorem claim_spec {t : RepairTracker} (hpending : Ranges.Ordered (t.pending.map Pending.range))
    (asm : Reassembly) {gaps : List (Range ℚ)} (hgaps : Ranges.Ordered gaps) (now delayMs : ℚ) :
    let r := t.claim asm gaps now delayMs
    Ranges.Ordered r.1 ∧
      Ranges.toSet r.1 = Ranges.toSet gaps \ Ranges.toSet ((t.live asm now).map Pending.range) ∧
      Ranges.Ordered (r.2.pending.map Pending.range) ∧
      ∀ p, p ∈ r.2.pending ↔ p ∈ t.live asm now ∨ ∃ g ∈ r.1, p = { range := g, due := now + delayMs } := by
  intro r
  let live := t.live asm now
  let fresh := r.1.map fun g => ({ range := g, due := now + delayMs } : Pending)
  have hlive : Ranges.Ordered (live.map Pending.range) := by
    refine hpending.sublist (List.Sublist.map _ ?_)
    exact (Ranges.meeting_sublist _ _ _).trans List.filter_sublist
  obtain ⟨hout, hset⟩ := Ranges.subtract_spec hgaps hlive
  change Ranges.Ordered r.1 at hout
  change Ranges.toSet r.1 = _ at hset
  have hfresh : fresh.map Pending.range = r.1 := by
    rw [List.map_map]
    exact List.map_id _
  refine ⟨hout, hset, ?_, fun p => ?_⟩
  · refine Ranges.ordered_mergeSort (f := Pending.range) (l := live ++ fresh) (fun p hp => ?_) ?_
    · rcases List.mem_append.mp hp with hp | hp
      · exact hlive.nonempty _ (List.mem_map_of_mem hp)
      · exact hout.nonempty _ (hfresh ▸ List.mem_map_of_mem hp)
    · refine List.pairwise_append.mpr ⟨?_, ?_, fun p hp q hq => ?_⟩
      · exact (List.pairwise_map.mp hlive.apart).imp .inl
      · exact (List.pairwise_map.mp (hfresh ▸ hout.apart)).imp .inl
      · have hq' : q.range ∈ r.1 := hfresh ▸ List.mem_map_of_mem hq
        refine Ranges.apart_of_disjoint (hlive.nonempty _ (List.mem_map_of_mem hp)) (hout.nonempty _ hq')
          fun x hxp hxq => ?_
        have hmem : x ∈ Ranges.toSet r.1 := ⟨q.range, hq', hxq⟩
        rw [hset] at hmem
        exact hmem.2 ⟨p.range, List.mem_map_of_mem hp, hxp⟩
  · have hperm : (live ++ fresh).mergeSort (fun p q => p.range.start ≤ q.range.start) |>.Perm (live ++ fresh) :=
      List.mergeSort_perm _ _
    change p ∈ (live ++ fresh).mergeSort (fun p q => p.range.start ≤ q.range.start) ↔ _
    rw [hperm.mem_iff, List.mem_append, List.mem_map]
    simp only [eq_comm, live]

end RepairTracker

/-! ## The callers -/

/-- `DEFAULT_PAYLOAD` and `MAX_RESEND_RANGES`. -/
def defaultPayload : ℕ := 1183
def maxResendRanges : ℕ := 16

/-- `this.payloadSeen || DEFAULT_PAYLOAD`. -/
def payloadSize (payloadSeen : ℕ) : ℕ := if payloadSeen = 0 then defaultPayload else payloadSeen

/-- The `limit` of `detectLoss` (line 790 of `transport.ts`). -/
def lossLimit (asm : Reassembly) (granted reorderPackets : ℚ) (payloadSeen : ℕ) : ℚ :=
  if asm.frontier < granted then asm.frontier - reorderPackets * payloadSize payloadSeen else asm.frontier

/-- The range of the tail loss probe (line 701). -/
def tailRange (asm : Reassembly) (granted : ℚ) (payloadSeen : ℕ) : Range ℚ :=
  { start := max asm.frontier (granted - payloadSize payloadSeen), stop := granted }

/-- The `gaps` of `recover` (lines 755–763). -/
def recoverGaps (asm : Reassembly) (granted : ℚ) (payloadSeen : ℕ) : List (Range ℚ) :=
  let gaps := (asm.gaps (min asm.frontier granted)).take maxResendRanges
  if asm.frontier < granted then
    let p : ℚ := payloadSize payloadSeen
    let first : Range ℚ := { start := asm.frontier, stop := min granted (asm.frontier + p) }
    let last : Range ℚ := { start := max first.stop (granted - p), stop := granted }
    gaps ++ [first] ++ if last.start < last.stop then [last] else []
  else gaps

/-! ## A run of one transfer -/

/-- What makes the client send RESENDs for a transfer. -/
inductive Cause
  | early (reorderPackets : ℚ≥0) (reorderWindowMs : ℚ)
  | probe
  | stall

/-- One transfer once its size is known: its reassembly and repair state, the grant
    that `SrptScheduler.granted` gives, the largest payload seen, the clock, the
    payloads that arrived, and the RESENDs sent, the latest first. -/
structure Repairs where
  asm : Reassembly
  repair : RepairTracker
  granted : ℚ
  payloadSeen : ℕ
  clock : ℚ
  arrived : List (ℤ × Bytes)
  sent : List Pending
  deriving DecidableEq

namespace Repairs

/-- What happens to a transfer. -/
inductive Event
  | data (offset : ℤ) (payload : Bytes)
  /-- A payload of another transfer of the client. -/
  | other (length : ℕ)
  | grant (maxOffset : ℚ)
  | resend (now delayMs : ℚ) (cause : Cause)

/-- The transfer of `size` bytes when its size becomes known, in a client that has had no
    payload yet; those it has had before are `other` events. -/
def init (size : ℕ) (granted : ℚ) : Repairs :=
  { asm := .new size, repair := .new, granted := min granted size, payloadSeen := 0, clock := 0,
    arrived := [], sent := [] }

/-- The gaps that `claim` is asked about. -/
def asked (s : Repairs) (now : ℚ) : Cause → List (Range ℚ)
  | .early reorderPackets reorderWindowMs =>
    let limit := lossLimit s.asm s.granted reorderPackets s.payloadSeen
    if limit ≤ 0 then [] else s.repair.lost s.asm limit now reorderWindowMs
  | .probe => if s.asm.frontier < s.granted then [tailRange s.asm s.granted s.payloadSeen] else []
  | .stall => recoverGaps s.asm s.granted s.payloadSeen

/-- The ranges sent, and the tracker afterwards (lines 691–702, 764 and 775–792). -/
def repaired (s : Repairs) (now delayMs : ℚ) : Cause → List (Range ℚ) × RepairTracker
  | .early reorderPackets reorderWindowMs =>
    let limit := lossLimit s.asm s.granted reorderPackets s.payloadSeen
    if limit ≤ 0 then ([], s.repair)
    else s.repair.detect s.asm limit now reorderWindowMs delayMs
  | .probe =>
    if s.asm.frontier < s.granted then
      s.repair.claim s.asm [tailRange s.asm s.granted s.payloadSeen] now delayMs
    else ([], s.repair)
  | .stall => s.repair.claim s.asm (recoverGaps s.asm s.granted s.payloadSeen) now delayMs

/-- One event. A payload that does not fit ends the transfer, the scheduler raises a
    grant up to the size at most, and the clock does not go back. -/
def step (s : Repairs) : Event → Option Repairs
  | .data offset payload =>
    match s.asm.add offset payload with
    | .error _ => none
    | .ok (_, asm) =>
      some { s with asm := asm, payloadSeen := max s.payloadSeen payload.length,
                    arrived := s.arrived ++ [(offset, payload)] }
  | .other length => some { s with payloadSeen := max s.payloadSeen length }
  | .grant maxOffset =>
    if s.granted ≤ maxOffset ∧ maxOffset ≤ s.asm.size then some { s with granted := maxOffset } else none
  | .resend now delayMs cause =>
    if s.clock ≤ now then
      let (out, repair) := s.repaired now delayMs cause
      some { s with repair := repair, clock := now,
                    sent := (out.map fun r => { range := r, due := now + delayMs }) ++ s.sent }
    else none

/-- The bytes that have arrived. -/
def contents (s : Repairs) : Contents := Contents.after s.asm.size s.arrived

/-! ### The invariant -/

/-- The points that have not arrived. -/
def Open (s : Repairs) : Set ℚ := {x | 0 ≤ x ∧ x < s.asm.size ∧ ⌊x⌋₊ ∉ s.contents.dom}

/-- What holds of the RESENDs between two events. -/
structure Inv (s : Repairs) : Prop where
  represents : Reassembly.Represents s.asm s.contents
  granted_le : s.granted ≤ s.asm.size
  ordered : Ranges.Ordered (s.repair.pending.map Pending.range)
  logged : ∀ p ∈ s.repair.pending, p ∈ s.sent
  waits : ∀ p ∈ s.sent, s.clock < p.due → (∀ x ∈ p.range.toSet, x ∉ s.Open) ∨ p ∈ s.repair.pending

/-! ### What the callers ask about -/

theorem payloadSize_pos (payloadSeen : ℕ) : 0 < payloadSize payloadSeen := by
  rw [payloadSize]
  split_ifs with h
  · decide
  · exact Nat.pos_of_ne_zero h

/-- Points from the frontier to the grant have not arrived. -/
theorem Inv.mem_open {s : Repairs} (h : s.Inv) {x : ℚ} (hx : s.asm.frontier ≤ x) (hlt : x < s.granted) :
    x ∈ s.Open :=
  ⟨(Nat.cast_nonneg _).trans hx, hlt.trans_le h.granted_le,
    h.represents.notMem_of_frontier_le (Nat.le_floor hx)⟩

/-- The gaps below a limit inside the asset. -/
theorem Inv.gaps_open {s : Repairs} (h : s.Inv) {limit : ℚ} (hlimit : limit ≤ s.asm.size) :
    Ranges.Ordered (s.asm.gaps limit) ∧ ∀ r ∈ s.asm.gaps limit, ∀ x ∈ r.toSet, x < limit ∧ x ∈ s.Open := by
  obtain ⟨hord, hset⟩ := h.represents.gaps limit
  refine ⟨hord, fun r hr x hx => ?_⟩
  have hmem : x ∈ Ranges.toSet (s.asm.gaps limit) := ⟨r, hr, hx⟩
  rw [hset] at hmem
  exact ⟨hmem.2.1, hmem.1, hmem.2.1.trans_le hlimit, hmem.2.2⟩

theorem Inv.stall_spec {s : Repairs} (h : s.Inv) :
    Ranges.Ordered (recoverGaps s.asm s.granted s.payloadSeen) ∧
      ∀ r ∈ recoverGaps s.asm s.granted s.payloadSeen, ∀ x ∈ r.toSet, x < s.granted ∧ x ∈ s.Open := by
  have hp : (0 : ℚ) < payloadSize s.payloadSeen := Nat.cast_pos.mpr (payloadSize_pos _)
  obtain ⟨hord, hgaps⟩ := h.gaps_open (((min_le_right _ _).trans h.granted_le) :
    min (s.asm.frontier : ℚ) s.granted ≤ s.asm.size)
  have hsub : ((s.asm.gaps (min s.asm.frontier s.granted)).take maxResendRanges).Sublist _ :=
    List.take_sublist _ _
  have htake {r : Range ℚ} (hr : r ∈ (s.asm.gaps (min s.asm.frontier s.granted)).take maxResendRanges)
      {x : ℚ} (hx : x ∈ r.toSet) : x < s.asm.frontier ∧ x < s.granted ∧ x ∈ s.Open := by
    obtain ⟨hlt, hopen⟩ := hgaps r (hsub.subset hr) x hx
    exact ⟨hlt.trans_le (min_le_left _ _), hlt.trans_le (min_le_right _ _), hopen⟩
  -- what is added at the end lies between the frontier and the grant
  have hjoin {tail : List (Range ℚ)} (hord' : Ranges.Ordered tail)
      (htail : ∀ t ∈ tail, s.asm.frontier ≤ t.start ∧ t.stop ≤ s.granted) :
      Ranges.Ordered ((s.asm.gaps (min s.asm.frontier s.granted)).take maxResendRanges ++ tail) ∧
        ∀ r ∈ (s.asm.gaps (min s.asm.frontier s.granted)).take maxResendRanges ++ tail,
          ∀ x ∈ r.toSet, x < s.granted ∧ x ∈ s.Open := by
    refine ⟨Ranges.Ordered.append_iff.mpr ⟨hord.sublist hsub, hord', fun r hr t ht => ?_⟩, fun r hr x hx => ?_⟩
    · refine le_trans ?_ (htail t ht).1
      by_contra hlt
      have hmem := htake hr (x := max r.start s.asm.frontier)
        ⟨le_max_left _ _, max_lt ((hord.sublist hsub).nonempty r hr) (not_le.mp hlt)⟩
      exact absurd hmem.1 (not_lt.mpr (le_max_right _ _))
    · rcases List.mem_append.mp hr with hr | hr
      · exact (htake hr hx).2
      · obtain ⟨hstart, hstop⟩ := htail r hr
        have hlt := hx.2.trans_le hstop
        exact ⟨hlt, h.mem_open (hstart.trans hx.1) hlt⟩
  rw [recoverGaps]
  dsimp only
  split_ifs with hfront hlast
  · -- the first and the last packet of the tail
    have hne := lt_min hfront (lt_add_of_pos_right (s.asm.frontier : ℚ) hp)
    rw [List.append_assoc]
    refine hjoin (Ranges.Ordered.cons_iff.mpr ⟨hne, fun t ht => ?_, Ranges.Ordered.cons_iff.mpr
      ⟨hlast, by simp, Ranges.Ordered.nil⟩⟩) fun t ht => ?_
    · rw [List.mem_singleton.mp ht]
      exact le_max_left _ _
    · rcases List.mem_cons.mp ht with rfl | ht
      · exact ⟨le_rfl, min_le_left _ _⟩
      · rw [List.mem_singleton.mp ht]
        exact ⟨hne.le.trans (le_max_left _ _), le_rfl⟩
  · rw [List.append_nil]
    refine hjoin (Ranges.Ordered.cons_iff.mpr ⟨lt_min hfront (lt_add_of_pos_right _ hp), by simp,
      Ranges.Ordered.nil⟩) fun t ht => ?_
    rw [List.mem_singleton.mp ht]
    exact ⟨le_rfl, min_le_left _ _⟩
  · exact ⟨hord.sublist hsub, fun r hr x hx => (htake hr hx).2⟩

/-- What `claim` is asked about is in order, has not arrived, and lies inside the
    grant unless early detection finds bytes past it. -/
theorem Inv.asked_spec {s : Repairs} (h : s.Inv) (now : ℚ) (cause : Cause) :
    Ranges.Ordered (s.asked now cause) ∧ ∀ r ∈ s.asked now cause, ∀ x ∈ r.toSet,
      x ∈ s.Open ∧ (s.asm.frontier ≤ s.granted → x < s.granted) := by
  cases cause with
  | early reorderPackets reorderWindowMs =>
    have hlimit : lossLimit s.asm s.granted reorderPackets s.payloadSeen ≤ s.asm.frontier := by
      rw [lossLimit]
      split_ifs
      · exact sub_le_self _ (mul_nonneg reorderPackets.2 (Nat.cast_nonneg _))
      · exact le_rfl
    obtain ⟨hord, hgaps⟩ := h.gaps_open
      (hlimit.trans (Nat.cast_le.mpr h.represents.frontier_le_size))
    rw [asked]
    split_ifs
    · exact ⟨Ranges.Ordered.nil, by simp⟩
    · have hsub : (s.repair.lost s.asm (lossLimit s.asm s.granted reorderPackets s.payloadSeen) now
          reorderWindowMs).Sublist _ := List.filter_sublist
      refine ⟨hord.sublist hsub, fun r hr x hx => ?_⟩
      obtain ⟨hlt, hopen⟩ := hgaps r (hsub.subset hr) x hx
      exact ⟨hopen, fun hfront => hlt.trans_le (hlimit.trans hfront)⟩
  | probe =>
    rw [asked]
    split_ifs with hfront
    · have hp : (0 : ℚ) < payloadSize s.payloadSeen := Nat.cast_pos.mpr (payloadSize_pos _)
      refine ⟨Ranges.Ordered.cons_iff.mpr ⟨?_, by simp, Ranges.Ordered.nil⟩, fun r hr x hx => ?_⟩
      · exact max_lt hfront (sub_lt_self _ hp)
      · rw [List.mem_singleton.mp hr] at hx
        exact ⟨h.mem_open ((le_max_left _ _).trans hx.1) hx.2, fun _ => hx.2⟩
    · exact ⟨Ranges.Ordered.nil, by simp⟩
  | stall =>
    obtain ⟨hord, hgaps⟩ := h.stall_spec
    exact ⟨hord, fun r hr x hx => ⟨(hgaps r hr x hx).2, fun _ => (hgaps r hr x hx).1⟩⟩

/-- The callers send nothing, or what `claim` gives for what they ask about. -/
theorem repaired_cases (s : Repairs) (now delayMs : ℚ) (cause : Cause) :
    (s.asked now cause = [] ∧ s.repaired now delayMs cause = ([], s.repair)) ∨
      ∃ t : RepairTracker, t.pending = s.repair.pending ∧
        s.repaired now delayMs cause = t.claim s.asm (s.asked now cause) now delayMs := by
  cases cause with
  | early reorderPackets reorderWindowMs =>
    rw [asked, repaired]
    split_ifs
    · exact .inl ⟨rfl, rfl⟩
    · exact .inr ⟨s.repair.suspected s.asm _ now, rfl, rfl⟩
  | probe =>
    rw [asked, repaired]
    split_ifs
    · exact .inr ⟨s.repair, rfl, rfl⟩
    · exact .inl ⟨rfl, rfl⟩
  | stall => exact .inr ⟨s.repair, rfl, rfl⟩

/-- A batch and the RESENDs awaited after it. -/
theorem Inv.repaired_spec {s : Repairs} (h : s.Inv) (now delayMs : ℚ) (cause : Cause) :
    let r := s.repaired now delayMs cause
    Ranges.Ordered r.1 ∧
      Ranges.toSet r.1 ⊆ Ranges.toSet (s.asked now cause) ∧
      (∀ x ∈ Ranges.toSet r.1, ∀ p ∈ s.repair.pending, now < p.due → x ∉ p.range.toSet) ∧
      (∀ x ∈ Ranges.toSet (s.asked now cause), x ∈ Ranges.toSet r.1 ∨
        ∃ p ∈ s.repair.pending, now < p.due ∧ x ∈ p.range.toSet) ∧
      Ranges.Ordered (r.2.pending.map Pending.range) ∧
      (∀ p ∈ r.2.pending, p ∈ s.repair.pending ∨ ∃ g ∈ r.1, p = { range := g, due := now + delayMs }) ∧
      (∀ g ∈ r.1, { range := g, due := now + delayMs } ∈ r.2.pending) ∧
      ∀ p ∈ s.repair.pending, now < p.due → (∀ x ∈ p.range.toSet, x ∉ s.Open) ∨ p ∈ r.2.pending := by
  intro r
  obtain ⟨hord, hopen⟩ := h.asked_spec now cause
  obtain ⟨hnil, heq⟩ | ⟨t, hpending, heq⟩ := s.repaired_cases now delayMs cause
  · have hr : r = ([], s.repair) := heq
    rw [hr, hnil]
    exact ⟨Ranges.Ordered.nil, by simp, by simp, by simp, h.ordered, fun p hp => .inl hp, by simp,
      fun p hp _ => .inr hp⟩
  · have ht : Ranges.Ordered (t.pending.map Pending.range) := hpending ▸ h.ordered
    obtain ⟨hgaps, hall⟩ := h.represents.gaps s.asm.size
    have hr : r = t.claim s.asm (s.asked now cause) now delayMs := heq
    obtain ⟨hout, hset, hordered, hmem⟩ := RepairTracker.claim_spec ht s.asm hord now delayMs
    rw [← hr] at hout hset hordered hmem
    have hcovers {x : ℚ} (hx : x ∈ s.Open) :
        x ∈ Ranges.toSet ((t.live s.asm now).map Pending.range) ↔
          ∃ p ∈ s.repair.pending, now < p.due ∧ x ∈ p.range.toSet := by
      rw [← hpending]
      exact RepairTracker.mem_live_ranges ht hgaps (hall ▸ hx)
    refine ⟨hout, fun x hx => (hset ▸ hx).1, fun x hx p hp hdue hxp => ?_, fun x hx => ?_, hordered,
      fun p hp => ?_, fun g hg => (hmem _).mpr (.inr ⟨g, hg, rfl⟩), fun p hp hdue => ?_⟩
    · have hx' := hset ▸ hx
      obtain ⟨g, hg, hxg⟩ := hx'.1
      exact hx'.2 ((hcovers (hopen g hg x hxg).1).mpr ⟨p, hp, hdue, hxp⟩)
    · obtain ⟨g, hg, hxg⟩ := id hx
      by_cases hcov : x ∈ Ranges.toSet ((t.live s.asm now).map Pending.range)
      · exact .inr ((hcovers (hopen g hg x hxg).1).mp hcov)
      · exact .inl (hset ▸ ⟨hx, hcov⟩)
    · rcases (hmem p).mp hp with hp | hp
      · exact .inl (hpending ▸ ((RepairTracker.mem_live ht hgaps).mp hp).1)
      · exact .inr hp
    · by_cases hsome : ∃ x ∈ p.range.toSet, x ∈ s.Open
      · obtain ⟨x, hx, hxo⟩ := hsome
        exact .inr ((hmem p).mpr (.inl
          ((RepairTracker.mem_live ht hgaps).mpr ⟨hpending ▸ hp, hdue, x, hx, hall ▸ hxo⟩)))
      · exact .inl fun x hx hxo => hsome ⟨x, hx, hxo⟩

/-! ### Runs -/

theorem inv_init (size : ℕ) (granted : ℚ) : (init size granted).Inv where
  represents := Reassembly.represents_new size
  granted_le := min_le_right _ _
  ordered := Ranges.Ordered.nil
  logged := by simp [init, RepairTracker.new]
  waits := by simp [init]

/-- **What every event preserves.** -/
theorem Inv.step {s : Repairs} (e : Event) {s' : Repairs} (h : s.Inv) (hstep : s.step e = some s') :
    s'.Inv := by
  cases e with
  | data offset payload =>
    rw [Repairs.step] at hstep
    by_cases hfits : Contents.Fits s.asm.size offset payload
    · obtain ⟨asm, hadd, hsize, hrep⟩ := h.represents.add hfits
      rw [hadd] at hstep
      obtain rfl := Option.some.inj hstep
      have hcontents : Contents.after asm.size (s.arrived ++ [(offset, payload)]) =
          s.contents.put offset.toNat payload := by
        rw [hsize, Contents.after, List.foldl_append, List.foldl_cons, if_pos hfits]
        rfl
      refine ⟨?_, ?_, h.ordered, h.logged, fun p hp hdue => ?_⟩
      · rw [contents, hcontents]
        exact hrep
      · rw [hsize]
        exact h.granted_le
      · refine (h.waits p hp hdue).imp_left fun hclosed x hx hopen => hclosed x hx ?_
        obtain ⟨hpos, hlt, hnot⟩ := hopen
        rw [contents, hcontents, Contents.dom_put] at hnot
        exact ⟨hpos, hsize ▸ hlt, fun hmem => hnot (.inl hmem)⟩
    · rw [Reassembly.add_eq_error hfits] at hstep
      cases hstep
  | other length =>
    obtain rfl := Option.some.inj hstep
    exact ⟨h.represents, h.granted_le, h.ordered, h.logged, h.waits⟩
  | grant maxOffset =>
    rw [Repairs.step] at hstep
    split_ifs at hstep with hguard
    obtain rfl := Option.some.inj hstep
    exact ⟨h.represents, hguard.2, h.ordered, h.logged, h.waits⟩
  | resend now delayMs cause =>
    rw [Repairs.step] at hstep
    split_ifs at hstep with hclock
    obtain rfl := Option.some.inj hstep
    obtain ⟨-, -, -, -, hordered, hback, hfresh, hkept⟩ := h.repaired_spec now delayMs cause
    refine ⟨h.represents, h.granted_le, hordered, fun p hp => ?_, fun p hp hdue => ?_⟩
    · rcases hback p hp with hp | ⟨g, hg, rfl⟩
      · exact List.mem_append_right _ (h.logged p hp)
      · exact List.mem_append_left _ (List.mem_map.mpr ⟨g, hg, rfl⟩)
    · rcases List.mem_append.mp hp with hp | hp
      · obtain ⟨g, hg, rfl⟩ := List.mem_map.mp hp
        exact .inr (hfresh g hg)
      · rcases h.waits p hp (hclock.trans_lt hdue) with hclosed | hp
        · exact .inl hclosed
        · exact hkept p hp hdue

theorem inv_run {size : ℕ} {granted : ℚ} {events : List Event} {s : Repairs}
    (hrun : Machine.run step (init size granted) events = some s) : s.Inv :=
  Machine.run_invariant (P := Inv) (fun _ e _ h hstep => h.step e hstep) (inv_init size granted) hrun

/-- **The RESENDs of a transfer.** After any run, each batch that early detection, the
    tail loss probe or the stall timer sends names non-empty ranges of bytes that have
    not arrived, in order and without overlap; it names no point of an earlier RESEND
    whose delay has not passed; together with those it covers the gaps it was asked
    about; and it lies inside the grant, unless bytes past the grant have arrived. -/
theorem resend_discipline {size : ℕ} {granted : ℚ} {events : List Event} {s : Repairs}
    (hrun : Machine.run step (init size granted) events = some s) {now : ℚ} (hclock : s.clock ≤ now)
    (delayMs : ℚ) (cause : Cause) :
    let out := (s.repaired now delayMs cause).1
    (∀ r ∈ out, r.start < r.stop ∧ 0 ≤ r.start ∧ ∀ x ∈ r.toSet, ⌊x⌋₊ ∉ s.contents.dom) ∧
    out.Pairwise (fun r t => r.stop ≤ t.start) ∧
    (∀ r ∈ out, ∀ p ∈ s.sent, (∃ x ∈ r.toSet, x ∈ p.range.toSet) → p.due ≤ now) ∧
    (∀ g ∈ s.asked now cause, ∀ x ∈ g.toSet,
      (∃ r ∈ out, x ∈ r.toSet) ∨ ∃ p ∈ s.sent, now < p.due ∧ x ∈ p.range.toSet) ∧
    (s.asm.frontier ≤ s.granted → ∀ r ∈ out, r.stop ≤ s.granted) := by
  intro out
  have h := inv_run hrun
  obtain ⟨-, hopen⟩ := h.asked_spec now cause
  obtain ⟨hord, hsub, hapart, hcover, -⟩ := h.repaired_spec now delayMs cause
  have hpoint {r : Range ℚ} (hr : r ∈ out) {x : ℚ} (hx : x ∈ r.toSet) :
      x ∈ s.Open ∧ (s.asm.frontier ≤ s.granted → x < s.granted) := by
    obtain ⟨g, hg, hxg⟩ := hsub ⟨r, hr, hx⟩
    exact hopen g hg x hxg
  refine ⟨fun r hr => ?_, hord.apart, fun r hr p hp => ?_, fun g hg x hx => ?_, fun hfront r hr => ?_⟩
  · have hne := hord.nonempty r hr
    exact ⟨hne, (hpoint hr ⟨le_rfl, hne⟩).1.1, fun x hx => (hpoint hr hx).1.2.2⟩
  · rintro ⟨x, hx, hxp⟩
    by_contra hdue
    rw [not_le] at hdue
    rcases h.waits p hp (hclock.trans_lt hdue) with hclosed | hpending
    · exact hclosed x hxp (hpoint hr hx).1
    · exact hapart x ⟨r, hr, hx⟩ p hpending hdue hxp
  · obtain hin | ⟨p, hp, hdue, hxp⟩ := hcover x ⟨g, hg, hx⟩
    · exact .inl hin
    · exact .inr ⟨p, h.logged p hp, hdue, hxp⟩
  · by_contra hlt
    rw [not_le] at hlt
    have := (hpoint hr ⟨le_max_left _ _, max_lt (hord.nonempty r hr) hlt⟩).2 hfront
    exact absurd this (not_lt.mpr (le_max_right _ _))

/-- An asset of a hundred bytes, of which ten are granted and the second half arrives. -/
def pastGrant : List Event :=
  [.data 50 (List.replicate 50 7), .resend 0 60 (.early 3 1)]

/-- Early detection asks for the first half, past the grant. -/
theorem resend_past_grant : ¬ ∀ size granted events s,
    Machine.run step (init size granted) events = some s → ∀ now, s.clock ≤ now → ∀ delayMs cause,
      ∀ r ∈ (s.repaired now delayMs cause).1, r.stop ≤ s.granted := by
  intro h
  have hrun : ∃ s, Machine.run step (init 100 10) pastGrant = some s ∧ s.clock ≤ 1 ∧ s.granted = 10 ∧
      { start := 0, stop := 50 } ∈ (s.repaired 1 60 (.early 3 1)).1 := by
    refine ⟨_, rfl, ?_, ?_, ?_⟩ <;> decide +kernel
  obtain ⟨s, hrun, hclock, hgranted, hmem⟩ := hrun
  have := h 100 10 pastGrant s hrun 1 hclock 60 (.early 3 1) _ hmem
  rw [hgranted] at this
  exact absurd this (by decide +kernel)

/-- An asset of twenty bytes of which two pieces have arrived. -/
def twoPieces : Repairs :=
  { init 20 20 with
    asm :=
      { size := 20, bytes := [1, 2, 3] ++ List.replicate 7 0 ++ [4, 5] ++ List.replicate 8 0,
        ranges := [⟨0, 3⟩, ⟨10, 12⟩], received := 5 }
    payloadSeen := 3
    arrived := [(0, [1, 2, 3]), (10, [4, 5])] }

/-- The stall timer asks for the gap between the pieces and for both ends of the tail. -/
theorem resend_discipline_two_pieces :
    Machine.run step (init 20 20) [.data 0 [1, 2, 3], .data 10 [4, 5]] = some twoPieces ∧
      (twoPieces.repaired 1 60 .stall).1 = [⟨3, 10⟩, ⟨12, 15⟩, ⟨17, 20⟩] ∧
      (twoPieces.repaired 1 60 .stall).1.Pairwise (fun r t => r.stop ≤ t.start) :=
  ⟨by decide +kernel, by decide +kernel, (@resend_discipline 20 20 [.data 0 [1, 2, 3], .data 10 [4, 5]]
    twoPieces (by decide +kernel) 1 (by decide +kernel) 60 .stall).2.1⟩

end Repairs

end Http4.Client
