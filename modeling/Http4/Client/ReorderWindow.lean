import Http4.Client.RepairTracker

/-!
# The reordering window

`RepairTracker.detect` of `client/src/reassembly.ts` (lines 116–127) declares a gap
lost "only after staying missing for the reordering window", and keeps the clock of
a gap under the gap's start. The gaps themselves shrink and split as data arrives,
and the limit cuts off the last of them.

A `Watched` transfer keeps its past: the payloads in order of arrival and the
`detect` calls. Main results:

* `Inv.suspects`: the clock of a start is the first of the last calls in a row that
  found a gap there.
* `Look.Starts.skipped`: what is missing in a gap now was skipped over at each of them.
* `reordering_window`: `detect` declares nothing lost early and nothing late.
-/

namespace Http4.Client

/-! ## A transfer and its past -/

/-- A call of `detect`: the payloads that had arrived, the limit and the time. -/
structure Look where
  arrived : List (ℤ × Bytes)
  limit : ℚ
  now : ℚ
  deriving DecidableEq

/-- The repair state of a transfer, the payloads that arrived in order, and the calls
    of `detect` and the RESENDs sent so far, the latest first. -/
structure Watched where
  repair : RepairTracker
  arrived : List (ℤ × Bytes)
  looks : List Look
  sent : List Pending
  deriving DecidableEq

namespace Watched

/-- What happens to a transfer. The callers of `claim` pass sorted and disjoint gaps. -/
inductive Event
  | add (offset : ℤ) (payload : Bytes)
  | detect (limit now reorderWindowMs delayMs : ℚ)
  | claim (gaps : {l : List (Range ℚ) // Ranges.Ordered l}) (now delayMs : ℚ)

/-- A transfer whose size has just become known. -/
def init : Watched := { repair := .new, arrived := [], looks := [], sent := [] }

variable (size : ℕ)

/-- The `Reassembly` of the transfer. -/
def asm (s : Watched) : Reassembly := Reassembly.run size s.arrived

/-- What a call of `detect` sees. -/
def look (s : Watched) (limit now : ℚ) : Look := { arrived := s.arrived, limit := limit, now := now }

/-- The state after a batch of RESENDs. -/
def resent (s : Watched) (batch : List (Range ℚ) × RepairTracker) (due : ℚ) : Watched :=
  { s with repair := batch.2, sent := (batch.1.map fun r => { range := r, due := due }) ++ s.sent }

/-- One event. Times do not decrease from one `detect` to the next, and no limit is
    past the frontier. -/
def step (s : Watched) : Event → Option Watched
  | .add offset payload => some { s with arrived := s.arrived ++ [(offset, payload)] }
  | .detect limit now reorderWindowMs delayMs =>
    if (∀ l ∈ s.looks, l.now ≤ now) ∧ limit ≤ (s.asm size).frontier then
      some { s.resent (s.repair.detect (s.asm size) limit now reorderWindowMs delayMs) (now + delayMs) with
        looks := s.look limit now :: s.looks }
    else none
  | .claim gaps now delayMs => some (s.resent (s.repair.claim (s.asm size) gaps now delayMs) (now + delayMs))

/-- The bytes that have arrived. -/
def contents (s : Watched) : Contents := Contents.after size s.arrived

/-- The byte at `x` is part of the asset and has not arrived. -/
def Missing (s : Watched) (x : ℚ) : Prop := 0 ≤ x ∧ x < size ∧ ⌊x⌋₊ ∉ (s.contents size).dom

end Watched

/-! ## What a call saw -/

namespace Look

variable (size : ℕ)

/-- The `Reassembly` that the call saw. -/
def asm (l : Look) : Reassembly := Reassembly.run size l.arrived

/-- A gap below the limit started at `q`. -/
def Starts (l : Look) (q : ℚ) : Prop := ∃ g ∈ (l.asm size).gaps l.limit, g.start = q

instance (l : Look) (q : ℚ) : Decidable (l.Starts size q) := inferInstanceAs (Decidable (∃ g ∈ _, _))

/-- The byte at `x` had not arrived, but a later one had. -/
def SkippedOver (l : Look) (x : ℚ) : Prop :=
  ⌊x⌋₊ ∉ (Contents.after size l.arrived).dom ∧ ∃ m ∈ (Contents.after size l.arrived).dom, ⌊x⌋₊ < m

/-- Since when each of the last calls in a row found a gap that started at `q`, if
    the last one did. The latest call comes first. -/
def suspectSince : List Look → ℚ → Option ℚ
  | [], _ => none
  | l :: ls, q => if l.Starts size q then some ((suspectSince ls q).getD l.now) else none

variable {size}

theorem exists_of_suspectSince {ls : List Look} {q since : ℚ} (h : suspectSince size ls q = some since) :
    ∃ l ∈ ls, l.now = since ∧ l.Starts size q := by
  induction ls generalizing since with
  | nil => cases h
  | cons l ls ih =>
    unfold suspectSince at h
    split_ifs at h with hstarts
    cases hls : suspectSince size ls q with
    | none =>
      rw [hls] at h
      exact ⟨l, List.mem_cons_self, Option.some.inj h, hstarts⟩
    | some since' =>
      rw [hls] at h
      obtain ⟨l', hl', hnow, hstarts'⟩ := ih hls
      exact ⟨l', List.mem_cons_of_mem _ hl', hnow.trans (Option.some.inj h), hstarts'⟩

/-- The clock of a start is no later than any call since which all calls found it. -/
theorem suspectSince_le {recent earlier : List Look} {l : Look} {q : ℚ}
    (hsorted : (recent ++ l :: earlier).Pairwise fun l l' => l'.now ≤ l.now)
    (hstarts : ∀ l' ∈ recent ++ [l], l'.Starts size q) :
    ∃ since, suspectSince size (recent ++ l :: earlier) q = some since ∧ since ≤ l.now := by
  induction recent with
  | nil =>
    rw [List.nil_append, suspectSince, if_pos (hstarts l (by simp))]
    refine ⟨_, rfl, ?_⟩
    cases hls : suspectSince size earlier q with
    | none => exact le_rfl
    | some since =>
      obtain ⟨l', hl', rfl, -⟩ := exists_of_suspectSince hls
      exact (List.pairwise_cons.mp hsorted).1 l' hl'
  | cons l' recent ih =>
    obtain ⟨since, hsince, hle⟩ := ih (List.pairwise_cons.mp hsorted).2
      fun l'' hl'' => hstarts l'' (List.mem_cons_of_mem _ hl'')
    rw [List.cons_append, suspectSince, if_pos (hstarts l' (by simp)), hsince]
    exact ⟨since, rfl, hle⟩

end Look

/-! ## Gaps as data arrives -/

/-- What has arrived stays. -/
theorem Contents.dom_after_append (size : ℕ) (calls later : List (ℤ × Bytes)) :
    (Contents.after size calls).dom ⊆ (Contents.after size (calls ++ later)).dom := by
  induction later generalizing calls with
  | nil => rw [List.append_nil]
  | cons a later ih =>
    have hone : (Contents.after size calls).dom ⊆ (Contents.after size (calls ++ [a])).dom := by
      unfold Contents.after
      rw [List.foldl_append, List.foldl_cons, List.foldl_nil]
      split_ifs
      · rw [Contents.dom_put]
        exact Set.subset_union_left
      · exact le_rfl
    rw [List.append_cons]
    exact hone.trans (ih (calls ++ [a]))

/-- The byte before the frontier has arrived. -/
theorem Reassembly.Represents.frontier_pred_mem {asm : Reassembly} {w : Contents}
    (h : asm.Represents w) (hpos : 0 < asm.frontier) : asm.frontier - 1 ∈ w.dom := by
  by_contra hnot
  have hle : asm.frontier ≤ asm.frontier - 1 := by
    apply h.frontier.2
    intro k hk
    have hlt : k < asm.frontier := h.frontier.1 hk
    have hne : k ≠ asm.frontier - 1 := fun heq => hnot (heq ▸ hk)
    show k < asm.frontier - 1
    omega
  omega

namespace Watched

variable {size : ℕ} {s : Watched} {limit : ℚ}

theorem represents (size : ℕ) (s : Watched) : (s.asm size).Represents (s.contents size) :=
  (Reassembly.represents_run size s.arrived).2

theorem size_asm (size : ℕ) (s : Watched) : (s.asm size).size = size :=
  (Reassembly.represents_run size s.arrived).1

/-- The gaps below a limit that is not past the frontier. -/
theorem mem_gaps_iff (hlimit : limit ≤ (s.asm size).frontier) {x : ℚ} :
    x ∈ Ranges.toSet ((s.asm size).gaps limit) ↔ x < limit ∧ s.Missing size x := by
  have hle : limit ≤ size := by
    rw [← size_asm size s]
    exact hlimit.trans (Nat.cast_le.mpr (s.represents size).frontier_le_size)
  rw [((s.represents size).gaps limit).2]
  constructor
  · rintro ⟨hpos, hlt, hnot⟩
    exact ⟨hlt, hpos, hlt.trans_le hle, hnot⟩
  · rintro ⟨hlt, hpos, -, hnot⟩
    exact ⟨hpos, hlt, hnot⟩

/-- A gap that starts where an earlier call found one was skipped over at that call,
    whatever part of it has arrived since. -/
theorem skippedOver {l : Look} (harrived : l.arrived <+: s.arrived)
    (hfront : l.limit ≤ (l.asm size).frontier) (hlimit : limit ≤ (s.asm size).frontier) {g : Range ℚ}
    (hg : g ∈ (s.asm size).gaps limit) (hstarts : l.Starts size g.start) {x : ℚ} (hx : x ∈ g.toSet) :
    l.SkippedOver size x := by
  obtain ⟨later, hlater⟩ := harrived
  have hsub : (Contents.after size l.arrived).dom ⊆ (s.contents size).dom := by
    unfold contents
    rw [← hlater]
    exact Contents.dom_after_append size l.arrived later
  have hrep : (l.asm size).Represents (Contents.after size l.arrived) :=
    (Reassembly.represents_run size l.arrived).2
  have hmissing {y : ℚ} (hy : y ∈ g.toSet) : s.Missing size y := ((mem_gaps_iff hlimit).mp ⟨g, hg, hy⟩).2
  -- the earlier gap starts below the frontier of that time
  obtain ⟨g', hg', hstart⟩ := hstarts
  obtain ⟨hord, hset⟩ := hrep.gaps l.limit
  have hmem : g'.start ∈ Ranges.toSet ((l.asm size).gaps l.limit) := ⟨g', hg', le_rfl, hord.nonempty g' hg'⟩
  rw [hset, hstart] at hmem
  obtain ⟨hnonneg, hlt, -⟩ := hmem
  have hfloor : ⌊g.start⌋₊ < (l.asm size).frontier := (Nat.floor_lt hnonneg).mpr (hlt.trans_le hfront)
  have hlast := hrep.frontier_pred_mem (by omega)
  refine ⟨fun hin => (hmissing hx).2.2 (hsub hin), _, hlast, ?_⟩
  by_contra hle
  rw [not_lt] at hle
  -- else the gap holds the last byte that had arrived then
  have hy : max g.start ((l.asm size).frontier - 1 : ℕ) ∈ g.toSet := by
    refine ⟨le_max_left _ _, (max_le hx.1 ?_).trans_lt hx.2⟩
    exact (Nat.le_floor_iff (hmissing hx).1).mp hle
  have hfloor' : ⌊max g.start ((l.asm size).frontier - 1 : ℕ)⌋₊ = (l.asm size).frontier - 1 := by
    rw [(Nat.floor_mono).map_max, Nat.floor_natCast]
    omega
  apply (hmissing hy).2.2
  rw [hfloor']
  exact hsub hlast

/-! ## The invariant -/

/-- What holds of a transfer between two events. -/
structure Inv (size : ℕ) (s : Watched) : Prop where
  ordered : Ranges.Ordered (s.repair.pending.map Pending.range)
  logged : ∀ p ∈ s.repair.pending, p ∈ s.sent
  suspects : ∀ q, s.repair.suspects.get? q = Look.suspectSince size s.looks q
  sorted : s.looks.Pairwise fun l l' => l'.now ≤ l.now
  seen : ∀ l ∈ s.looks, l.arrived <+: s.arrived ∧ l.limit ≤ (l.asm size).frontier

theorem inv_init (size : ℕ) : init.Inv size where
  ordered := Ranges.Ordered.nil
  logged := by simp [init, RepairTracker.new]
  suspects := fun _ => rfl
  sorted := List.Pairwise.nil
  seen := by simp [init]

/-- A batch of RESENDs and the ones awaited after it. -/
theorem Inv.resent (h : s.Inv size) {t : RepairTracker} (ht : t.pending = s.repair.pending)
    {gaps : List (Range ℚ)} (hgaps : Ranges.Ordered gaps) (now delayMs : ℚ) :
    let s' := s.resent (t.claim (s.asm size) gaps now delayMs) (now + delayMs)
    Ranges.Ordered (s'.repair.pending.map Pending.range) ∧ ∀ p ∈ s'.repair.pending, p ∈ s'.sent := by
  obtain ⟨-, -, hord, hmem⟩ := RepairTracker.claim_spec (ht ▸ h.ordered) (s.asm size) hgaps now delayMs
  refine ⟨hord, fun p hp => List.mem_append.mpr ?_⟩
  rcases (hmem p).mp hp with hp | ⟨g, hg, rfl⟩
  · have hold : p ∈ t.pending :=
      List.mem_of_mem_filter ((Ranges.meeting_sublist _ _ _).subset hp)
    exact .inr (h.logged p (ht ▸ hold))
  · exact .inl (List.mem_map_of_mem hg)

/-- The clocks after a call of `detect`. -/
theorem get?_suspected (h : s.Inv size) (now q : ℚ) :
    (s.repair.suspected (s.asm size) limit now).suspects.get? q =
      Look.suspectSince size (s.look limit now :: s.looks) q := by
  unfold RepairTracker.suspected RepairTracker.since
  rw [OrderedMap.get?_foldl_set Range.start fun q => (s.repair.suspects.get? q).getD now, Look.suspectSince,
    h.suspects]
  rfl

/-- **What every event preserves.** -/
theorem Inv.step {s' : Watched} {e : Event} (h : s.Inv size) (hstep : s.step size e = some s') : s'.Inv size := by
  cases e with
  | add offset payload =>
    obtain rfl := Option.some.inj hstep
    refine ⟨h.ordered, h.logged, h.suspects, h.sorted, fun l hl => ?_⟩
    exact ⟨(h.seen l hl).1.trans (List.prefix_append _ _), (h.seen l hl).2⟩
  | claim gaps now delayMs =>
    obtain rfl := Option.some.inj hstep
    obtain ⟨hord, hlogged⟩ := h.resent rfl gaps.2 now delayMs
    exact ⟨hord, hlogged, h.suspects, h.sorted, h.seen⟩
  | detect limit now reorderWindowMs delayMs =>
    unfold Watched.step at hstep
    dsimp only at hstep
    split_ifs at hstep with hguard
    obtain ⟨hnow, hlimit⟩ := hguard
    obtain rfl := Option.some.inj hstep
    have hgaps : Ranges.Ordered (s.repair.lost (s.asm size) limit now reorderWindowMs) :=
      ((s.represents size).gaps limit).1.sublist List.filter_sublist
    obtain ⟨hord, hlogged⟩ := h.resent (t := s.repair.suspected (s.asm size) limit now) rfl hgaps now delayMs
    refine ⟨hord, hlogged, get?_suspected h now, List.pairwise_cons.mpr ⟨hnow, h.sorted⟩, ?_⟩
    intro l hl
    rcases List.mem_cons.mp hl with rfl | hl
    · exact ⟨List.prefix_rfl, hlimit⟩
    · exact h.seen l hl

theorem inv_run {events : List Event} (hrun : Machine.run (step size) init events = some s) : s.Inv size :=
  Machine.run_invariant (fun _ _ _ h hstep => h.step hstep) (inv_init size) hrun

/-! ## What is declared lost -/

/-- A gap is declared lost if its clock is at least the reordering window old. -/
theorem Inv.mem_lost_iff (h : s.Inv size) {now reorderWindowMs : ℚ} {g : Range ℚ} :
    g ∈ s.repair.lost (s.asm size) limit now reorderWindowMs ↔
      g ∈ (s.asm size).gaps limit ∧ ∃ since, reorderWindowMs ≤ now - since ∧
        Look.suspectSince size (s.look limit now :: s.looks) g.start = some since := by
  unfold RepairTracker.lost
  rw [List.mem_filter]
  apply and_congr_right
  intro hg
  have hstarts : (s.look limit now).Starts size g.start := ⟨g, hg, rfl⟩
  have hsince : Look.suspectSince size (s.look limit now :: s.looks) g.start =
      some (s.repair.since now g) := by
    rw [Look.suspectSince, if_pos hstarts, RepairTracker.since, h.suspects]
    rfl
  rw [hsince, decide_eq_true_eq]
  constructor
  · intro hge
    exact ⟨_, hge, rfl⟩
  · rintro ⟨since, hge, heq⟩
    rw [Option.some.inj heq]
    exact hge

/-- **The reordering window.** Every byte that `detect` returns is below the limit and
    missing, and had been skipped over at a call that long ago. Every gap below the
    limit that each call over so long a span found at its start is covered by what is
    returned and by the RESENDs that are not overdue. -/
theorem reordering_window (events : List Event) (hrun : Machine.run (step size) init events = some s)
    {limit now : ℚ} (hnow : ∀ l ∈ s.looks, l.now ≤ now) (hlimit : limit ≤ (s.asm size).frontier)
    (reorderWindowMs delayMs : ℚ) :
    let out := (s.repair.detect (s.asm size) limit now reorderWindowMs delayMs).1
    let looks := s.look limit now :: s.looks
    (∀ x ∈ Ranges.toSet out, x < limit ∧ s.Missing size x ∧
      ∃ l ∈ looks, reorderWindowMs ≤ now - l.now ∧ l.SkippedOver size x) ∧
    ∀ g ∈ (s.asm size).gaps limit, ∀ recent l earlier, looks = recent ++ l :: earlier →
      reorderWindowMs ≤ now - l.now → (∀ l' ∈ recent ++ [l], l'.Starts size g.start) →
      ∀ x ∈ g.toSet, x ∈ Ranges.toSet out ∨ ∃ p ∈ s.sent, now < p.due ∧ x ∈ p.range.toSet := by
  intro out looks
  have h := inv_run hrun
  have hgaps := (s.represents size).gaps limit
  have hlost : Ranges.Ordered (s.repair.lost (s.asm size) limit now reorderWindowMs) :=
    hgaps.1.sublist List.filter_sublist
  have hpending : Ranges.Ordered ((s.repair.suspected (s.asm size) limit now).pending.map Pending.range) :=
    h.ordered
  obtain ⟨-, hout, -, -⟩ := RepairTracker.claim_spec hpending (s.asm size) hlost now delayMs
  have hseen {l : Look} (hl : l ∈ looks) : l.arrived <+: s.arrived ∧ l.limit ≤ (l.asm size).frontier := by
    rcases List.mem_cons.mp hl with rfl | hl
    · exact ⟨List.prefix_rfl, hlimit⟩
    · exact h.seen l hl
  constructor
  · intro x hx
    obtain ⟨⟨g, hg, hxg⟩, -⟩ := hout ▸ hx
    obtain ⟨hgap, since, hwindow, hsince⟩ := h.mem_lost_iff.mp hg
    obtain ⟨l, hl, rfl, hstarts⟩ := Look.exists_of_suspectSince hsince
    obtain ⟨hlt, hmissing⟩ := (mem_gaps_iff hlimit).mp ⟨g, hgap, hxg⟩
    exact ⟨hlt, hmissing, l, hl, hwindow, skippedOver (hseen hl).1 (hseen hl).2 hlimit hgap hstarts hxg⟩
  · intro g hg recent l earlier hsplit hwindow hstarts x hx
    have hsorted : looks.Pairwise fun l l' => l'.now ≤ l.now := List.pairwise_cons.mpr ⟨hnow, h.sorted⟩
    rw [hsplit] at hsorted
    obtain ⟨since, hsince, hle⟩ := Look.suspectSince_le hsorted hstarts
    have hmem : g ∈ s.repair.lost (s.asm size) limit now reorderWindowMs := by
      rw [h.mem_lost_iff]
      refine ⟨hg, since, hwindow.trans ?_, ?_⟩
      · linarith
      · rw [← hsince, ← hsplit]
    by_cases hlive : x ∈ Ranges.toSet
        (((s.repair.suspected (s.asm size) limit now).live (s.asm size) now).map Pending.range)
    · obtain ⟨_, hr, hxp⟩ := hlive
      obtain ⟨p, hp, rfl⟩ := List.mem_map.mp hr
      have hall := ((s.represents size).gaps (s.asm size).size).1
      obtain ⟨hp, hdue, -⟩ := (RepairTracker.mem_live hpending hall).mp hp
      exact .inr ⟨p, h.logged p hp, hdue, hxp⟩
    · exact .inl (hout ▸ ⟨⟨g, hmem, hx⟩, hlive⟩)

/-- The first twenty bytes and forty more arrive, ten bytes apart, and `detect` looks twice. -/
def skipTen : List Event :=
  [.add 0 (List.replicate 20 7), .add 30 (List.replicate 40 7), .detect 40 0 5 50, .detect 40 4 5 50]

/-- The transfer after these events. -/
def skippedTen : Watched := ((Machine.run (step 100) init skipTen).getD init)

/-- Five milliseconds after the first look the ten bytes are declared lost. -/
theorem reordering_window_skipTen :
    (skippedTen.repair.detect (skippedTen.asm 100) 40 5 5 50).1 = [⟨20, 30⟩] ∧
    ∀ x ∈ Ranges.toSet [(⟨20, 30⟩ : Range ℚ)], x < 40 ∧ skippedTen.Missing 100 x ∧
      ∃ l ∈ skippedTen.look 40 5 :: skippedTen.looks, 5 ≤ 5 - l.now ∧ l.SkippedOver 100 x := by
  have hout : (skippedTen.repair.detect (skippedTen.asm 100) 40 5 5 50).1 = [⟨20, 30⟩] := by decide +kernel
  refine ⟨hout, ?_⟩
  rw [← hout]
  exact (reordering_window skipTen (by decide +kernel) (by decide +kernel) (by decide +kernel) 5 50).1

end Watched

end Http4.Client
