import Http4.Data.LeakyBucket
import Http4.Sender.Session

/-!
# The pacer

`server/internal/sender/pacer.go`: how long the send loop holds off before the next bulk
datagram. Times are nanoseconds since the zero `time.Time`. Durations are integers: what
the pacer multiplies is an interval between two departures by at most 32, and that is far
from the end of an `int64`.

Main results:

* `Pacer.schedule_eq`: once an interval is known, `schedule` books a slot of a leaky bucket.
* `Pacer.unhindered_iff`: the times at which nothing waits are those the bucket admits.
* `Pacer.burst_iff`: exactly for which of them a burst is bounded by the target.
* `Pacer.burst_bounded`: one more than the target bounds every run, idles included.
-/

namespace Http4.Sender

open LeakyBucket

/-! ## Constants (lines 7–65) -/

def pacerMinInterval : ℤ := 250000

def pacerSample : ℤ := 200000000

def pacerMinSends : ℕ := 16

def pacerMaxWait : ℤ := 50000000

def pacerBlockedPct : ℕ := 10

def pacerRateWindow : ℤ := 5000000000

def pacerHeadroom : ℤ := 8

/-- `pacer` (lines 108–118). The zero time is `0`. -/
structure Pacer where
  target : ℤ
  interval : ℤ := 0
  next : ℤ := 0
  since : ℤ := 0
  sends : ℕ := 0
  blocks : ℕ := 0
  blockRun : ℕ := 0
  worstAt : ℤ := 0

namespace Pacer

/-! ## Methods -/

/-- `wait` (lines 124–136). -/
def wait (p : Pacer) (now : ℤ) : ℤ :=
  if p.target < 0 then 0
  else if p.interval < pacerMinInterval then 0
  else
    let d := p.next - now
    if d ≤ 0 then 0 else min d pacerMaxWait

/-- The length of a slot (line 186). -/
def slot (p : Pacer) : ℤ := p.interval + p.interval / pacerHeadroom

/-- `schedule` (lines 181–191). -/
def schedule (p : Pacer) (now : ℤ) : Pacer :=
  if p.interval ≤ 0 then { p with next := now }
  else
    let credit := now - p.target * p.slot
    let next := if p.next < credit then credit else p.next
    { p with next := next + p.slot }

/-- `observe` (lines 195–202). -/
def observe (p : Pacer) (now sample : ℤ) : Pacer :=
  if sample ≤ 0 then p
  else if p.interval ≤ 0 ∨ sample > p.interval ∨ now - p.worstAt > pacerRateWindow then
    { p with interval := sample, worstAt := now }
  else p

/-- `idle` (lines 174–176). -/
def idle (p : Pacer) : Pacer := { p with since := 0, sends := 0 }

/-- `sent` after a blocked handover (lines 146–167). -/
def sentBlocked (p : Pacer) (now : ℤ) : Pacer :=
  let p := { p with blockRun := p.blockRun + 1 }
  let p :=
    if p.interval > 0 ∧ p.blockRun > 1 then { p with next := now + (quicSendQueue - p.target) * p.interval }
    else p
  if p.since = 0 then { p with since := now, sends := 0, blocks := 0 }
  else
    let p := { p with blocks := p.blocks + 1 }
    let d := now - p.since
    if d ≥ pacerSample ∧ p.sends ≥ pacerMinSends then
      let p := if 100 * p.blocks ≥ pacerBlockedPct * p.sends then p.observe now (d / p.sends) else p
      { p with since := now, sends := 0, blocks := 0 }
    else p

/-- `sent` (lines 139–168). -/
def sent (p : Pacer) (now : ℤ) (blocked : Bool) : Pacer :=
  let p := p.schedule now
  let p := { p with sends := p.sends + 1 }
  if blocked then p.sentBlocked now else { p with blockRun := 0 }

/-! ## Sends that do not wait -/

/-- Bulk datagrams are handed over at the times `ts`, none after a wait, and no handover
    blocks. -/
def Unhindered : Pacer → List ℤ → Prop
  | _, [] => True
  | p, t :: ts => p.wait t = 0 ∧ (p.sent t false).Unhindered ts

/-- The sender holds off exactly until the next slot is due. -/
theorem wait_eq_zero_iff {p : Pacer} (htarget : 0 ≤ p.target) (hd : pacerMinInterval ≤ p.interval) (now : ℤ) :
    p.wait now = 0 ↔ p.next ≤ now := by
  have hmax : 0 < pacerMaxWait := by decide
  unfold wait
  rw [if_neg (by omega), if_neg (by omega)]
  dsimp only
  split_ifs with hdue
  · constructor
    · intro _
      omega
    · intro _
      rfl
  · constructor
    · intro h
      omega
    · intro h
      omega

theorem interval_pos {p : Pacer} (hd : pacerMinInterval ≤ p.interval) : 0 < p.interval := by
  unfold pacerMinInterval at hd
  omega

theorem slot_pos {p : Pacer} (hd : pacerMinInterval ≤ p.interval) : 0 < p.slot := by
  have := interval_pos hd
  unfold slot pacerHeadroom
  omega

/-- With an interval known a slot of a leaky bucket is booked, whose credit is `target`
    slots. -/
theorem schedule_eq {p : Pacer} (hd : pacerMinInterval ≤ p.interval) (now : ℤ) :
    p.schedule now = { p with next := book (p.target * p.slot) p.slot p.next now } := by
  have := interval_pos hd
  unfold schedule book
  rw [if_neg (by omega)]
  dsimp only
  split_ifs with hcredit
  · rw [max_eq_right hcredit.le]
  · rw [max_eq_left (not_lt.mp hcredit)]

/-- A handover that does not block leaves the estimate and the target as they are. -/
theorem sent_false {p : Pacer} (hd : pacerMinInterval ≤ p.interval) (now : ℤ) :
    p.sent now false = { p with
      next := book (p.target * p.slot) p.slot p.next now, sends := p.sends + 1, blockRun := 0 } := by
  unfold sent
  rw [schedule_eq hd]
  rfl

/-- Nothing waits exactly if the bucket admits it. -/
theorem unhindered_iff {p : Pacer} (htarget : 0 ≤ p.target) (hd : pacerMinInterval ≤ p.interval) {ts : List ℤ} :
    p.Unhindered ts ↔ Admits (p.target * p.slot) p.slot p.next ts := by
  induction ts generalizing p with
  | nil => exact ⟨fun _ => trivial, fun _ => trivial⟩
  | cons t ts ih =>
    have hrest : (p.sent t false).Unhindered ts ↔
        Admits (p.target * p.slot) p.slot (book (p.target * p.slot) p.slot p.next t) ts := by
      rw [sent_false hd]
      exact @ih { p with
        next := book (p.target * p.slot) p.slot p.next t, sends := p.sends + 1, blockRun := 0 } htarget hd
    unfold Unhindered Admits
    rw [wait_eq_zero_iff htarget hd, hrest]

/-- An idle drops the sample, and no slot with it. -/
theorem unhindered_idle {p : Pacer} (htarget : 0 ≤ p.target) (hd : pacerMinInterval ≤ p.interval) {ts : List ℤ} :
    p.idle.Unhindered ts ↔ p.Unhindered ts := by
  rw [unhindered_iff htarget hd]
  exact @unhindered_iff p.idle htarget hd ts

/-! ## Bursts -/

/-- At most `k` datagrams are handed over at any one instant, and at most `k` and one for
    each slot of its length in any window. -/
structure BurstBound (k : ℕ) (slot : ℤ) (ts : List ℤ) : Prop where
  instant : ∀ t, ts.count t ≤ k
  window : Bounded k slot ts

/-- An instant is a window of no length. -/
theorem burstBound_iff {k : ℕ} {slot : ℤ} {ts : List ℤ} : BurstBound k slot ts ↔ Bounded k slot ts := by
  constructor
  · intro h
    exact h.window
  · intro h
    refine ⟨?_, h⟩
    intro t
    have hcount := h t 0 le_rfl
    rw [Int.zero_ediv, add_zero, Nat.cast_le] at hcount
    have hinstant : ts.count t = (inWindow t 0 ts).length := by
      unfold inWindow
      rw [List.count_eq_length_filter]
      refine congrArg List.length (List.filter_congr ?_)
      intro x _
      rw [add_zero, Bool.beq_eq_decide_eq, decide_eq_decide]
      constructor
      · rintro rfl
        exact ⟨le_rfl, le_rfl⟩
      · rintro ⟨h1, h2⟩
        exact le_antisymm h2 h1
    omega

/-- **The burst bound.** Bulk sends that never wait, starting after an idle of any length,
    keep within the target exactly if a bucket with one slot of credit less admits them. -/
theorem burst_iff (p : Pacer) (k : ℕ) (hk : 1 ≤ k) (htarget : p.target = k)
    (hd : pacerMinInterval ≤ p.interval) (ts : List ℤ) (hsorted : ts.Pairwise (· ≤ ·))
    (hsends : p.Unhindered ts) :
    BurstBound k (p.interval + p.interval / 8) ts ↔
      Admits (((k : ℤ) - 1) * (p.interval + p.interval / 8)) (p.interval + p.interval / 8) p.next ts := by
  change BurstBound k p.slot ts ↔ Admits (((k : ℤ) - 1) * p.slot) p.slot p.next ts
  rw [unhindered_iff (by omega) hd, admits_iff] at hsends
  rw [burstBound_iff, ← spaced_iff_bounded (slot_pos hd) hk hsorted, admits_iff]
  constructor
  · intro hspaced
    exact ⟨hsends.1, hspaced⟩
  · intro hadmits
    exact hadmits.2

/-- Five datagrams after a pause of a second at a target of four: a slot each from there on. -/
theorem burst_fourThenSlot :
    BurstBound 4 4500000 [1000000000, 1000000000, 1000000000, 1000000000, 1004500000] :=
  (burst_iff { target := 4, interval := 4000000 } 4 (by decide) rfl (by decide)
    [1000000000, 1000000000, 1000000000, 1000000000, 1004500000] (by decide)
    ⟨by decide, by decide, by decide, by decide, by decide, trivial⟩).mpr
    ⟨by decide, by decide, by decide, by decide, by decide, trivial⟩

/-- Five datagrams leave at once after the same pause: the credit is four slots, and the
    fifth finds its own slot due. -/
theorem burst_fiveAtOnce : ¬∀ (p : Pacer) (k : ℕ), 1 ≤ k → k < 30 → p.target = k → pacerMinInterval ≤ p.interval →
    ∀ ts : List ℤ, ts.Pairwise (· ≤ ·) → p.Unhindered ts → BurstBound k (p.interval + p.interval / 8) ts := by
  intro hclaim
  have hbound := hclaim { target := 4, interval := 4000000 } 4 (by decide) (by decide) rfl (by decide)
    [1000000000, 1000000000, 1000000000, 1000000000, 1000000000] (by decide)
    ⟨by decide, by decide, by decide, by decide, by decide, trivial⟩
  exact absurd (hbound.instant 1000000000) (by decide)

/-- One more than the target is a bound for all of them. -/
theorem unhindered_bounded {p : Pacer} {k : ℕ} (htarget : p.target = k) (hd : pacerMinInterval ≤ p.interval)
    {ts : List ℤ} (hsends : p.Unhindered ts) : BurstBound (k + 1) p.slot ts := by
  rw [unhindered_iff (by omega) hd, admits_iff] at hsends
  rw [burstBound_iff]
  refine Spaced.bounded (slot_pos hd) (by omega) ?_
  have hcap : (((k + 1 : ℕ) : ℤ) - 1) * p.slot = p.target * p.slot := by
    rw [htarget, Nat.cast_succ, add_sub_cancel_right]
  rw [hcap]
  exact hsends.2

/-! ## Runs with idles -/

/-- What the send loop tells the pacer as long as nothing blocks. -/
inductive Call
  | sent (now : ℤ)
  | idle

/-- The time of a send. -/
def Call.time : Call → Option ℤ
  | .sent now => some now
  | .idle => none

/-- No send of the run comes after a wait. -/
def Flows : Pacer → List Call → Prop
  | _, [] => True
  | p, .sent now :: calls => p.wait now = 0 ∧ (p.sent now false).Flows calls
  | p, .idle :: calls => p.idle.Flows calls

/-- The sends of such a run would not have waited without its idles either. -/
theorem Flows.unhindered {p : Pacer} (htarget : 0 ≤ p.target) (hd : pacerMinInterval ≤ p.interval)
    {calls : List Call} (h : p.Flows calls) : p.Unhindered (calls.filterMap Call.time) := by
  induction calls generalizing p with
  | nil => trivial
  | cons call calls ih =>
    cases call with
    | sent now =>
      refine ⟨h.1, @ih (p.sent now false) ?_ ?_ h.2⟩
      · rw [sent_false hd]
        exact htarget
      · rw [sent_false hd]
        exact hd
    | idle => exact (unhindered_idle htarget hd).mp (@ih p.idle htarget hd h)

/-- **One more than the target bounds every run** in which no bulk send waits and none
    blocks, wherever the send loop runs out of work in between. -/
theorem burst_bounded (p : Pacer) (k : ℕ) (htarget : p.target = k) (hd : pacerMinInterval ≤ p.interval)
    (calls : List Call) (hflows : p.Flows calls) :
    BurstBound (k + 1) (p.interval + p.interval / 8) (calls.filterMap Call.time) :=
  unhindered_bounded htarget hd (hflows.unhindered (by omega) hd)

/-- Five at once after a pause, an idle, and the sixth a slot later. -/
theorem burst_bounded_five : BurstBound 5 4500000
    [1000000000, 1000000000, 1000000000, 1000000000, 1000000000, 1004500000] :=
  burst_bounded { target := 4, interval := 4000000 } 4 rfl (by decide)
    [.sent 1000000000, .sent 1000000000, .sent 1000000000, .sent 1000000000, .sent 1000000000, .idle,
      .sent 1004500000]
    ⟨by decide, by decide, by decide, by decide, by decide, by decide, trivial⟩

end Pacer

end Http4.Sender
