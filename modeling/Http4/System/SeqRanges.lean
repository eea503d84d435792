import Http4.Client.SeqAccounting
import Http4.System.Crossing

/-!
# RESEND_SEQ ranges on both sides

The client cuts the numbers it misses into ranges of at most 1024; the server cuts a
range after 1024 numbers. What is asked for is what is looked up.

Main results:

* `chunks_ranges`: the ranges of distinct numbers are sorted, disjoint and capped, and
  none can be joined.
* `exists_lookedUp`: a capped range crosses the wire and is looked up in full.
* `resendSeq_agree`: so are all ranges of a call of `detect` or `repeats`.
-/

namespace Http4.System

open Client
open Client.SeqTracker
open Sender (Session)

/-! ## Ranges in order -/

/-- Non-empty ranges in order, of at most `cap` numbers each, no two of which could be
    one such range. -/
structure Chunks (cap : ℤ) (l : List (Range ℤ)) : Prop where
  nonempty : ∀ r ∈ l, r.start < r.stop
  capped : ∀ r ∈ l, r.stop - r.start ≤ cap
  sorted : l.Pairwise fun r s => r.stop ≤ s.start
  maximal : l.Pairwise fun r s => r.stop = s.start → cap < s.stop - r.start

theorem chunks_nil (cap : ℤ) : Chunks cap [] :=
  ⟨by simp, by simp, List.Pairwise.nil, List.Pairwise.nil⟩

/-- What `extend` keeps: the ranges are chunks below `s`, and one that another range
    follows at once is full. -/
structure Below (cap s : ℤ) (l : List (Range ℤ)) : Prop where
  nonempty : ∀ r ∈ l, r.start < r.stop
  capped : ∀ r ∈ l, r.stop - r.start ≤ cap
  sorted : l.Pairwise fun r s => r.stop ≤ s.start
  full : l.Pairwise fun r s => r.stop = s.start → r.stop - r.start = cap
  stop_le : ∀ r ∈ l, r.stop ≤ s

theorem Below.mono {cap s t : ℤ} {l : List (Range ℤ)} (h : Below cap s l) (hst : s ≤ t) : Below cap t l :=
  { h with stop_le := fun r hr => (h.stop_le r hr).trans hst }

theorem Below.chunks {cap s : ℤ} {l : List (Range ℤ)} (h : Below cap s l) : Chunks cap l where
  nonempty := h.nonempty
  capped := h.capped
  sorted := h.sorted
  maximal := by
    have hfull : l.Pairwise fun r s => s ∈ l ∧ (r.stop = s.start → r.stop - r.start = cap) := by
      rw [List.pairwise_iff_forall_sublist]
      intro r s hrs
      exact ⟨hrs.subset (by simp), List.pairwise_iff_forall_sublist.mp h.full hrs⟩
    apply hfull.imp
    rintro r s ⟨hs, hrs⟩ heq
    have hsize := hrs heq
    have hne := h.nonempty s hs
    omega

/-- One more number, greater than all before. -/
theorem Below.extend {cap s : ℤ} {out : List (Range ℤ)} (hcap : 1 ≤ cap) (h : Below cap s out) :
    Below cap (s + 1) (extend cap out s) := by
  have hpush (hlast : ∀ r ∈ out, r.stop = s → r.stop - r.start = cap) :
      Below cap (s + 1) (out ++ [(⟨s, s + 1⟩ : Range ℤ)]) := by
    refine ⟨?_, ?_, ?_, ?_, ?_⟩
    · exact List.forall_mem_append.mpr ⟨h.nonempty, by simp⟩
    · refine List.forall_mem_append.mpr ⟨h.capped, ?_⟩
      intro r hr
      rw [List.mem_singleton.mp hr]
      show s + 1 - s ≤ cap
      omega
    · rw [List.pairwise_append]
      refine ⟨h.sorted, List.pairwise_singleton _ _, ?_⟩
      intro r hr t ht
      rw [List.mem_singleton.mp ht]
      exact h.stop_le r hr
    · rw [List.pairwise_append]
      refine ⟨h.full, List.pairwise_singleton _ _, ?_⟩
      intro r hr t ht heq
      rw [List.mem_singleton.mp ht] at heq
      exact hlast r hr heq
    · refine List.forall_mem_append.mpr ⟨fun r hr => (h.stop_le r hr).trans (by omega), ?_⟩
      intro r hr
      rw [List.mem_singleton.mp hr]
  rcases List.eq_nil_or_concat' out with rfl | ⟨front, last, rfl⟩
  · exact hpush (by simp)
  · have hsorted := List.pairwise_append.mp h.sorted
    have hfull := List.pairwise_append.mp h.full
    have hlast : last.start < last.stop := h.nonempty last (by simp)
    have hle : last.stop ≤ s := h.stop_le last (by simp)
    unfold Client.extend
    rw [List.getLast?_concat]
    dsimp only
    split_ifs with hjoin
    · obtain ⟨rfl, hsize⟩ := hjoin
      rw [List.dropLast_concat]
      refine ⟨?_, ?_, ?_, ?_, ?_⟩
      · refine List.forall_mem_append.mpr ⟨fun r hr => h.nonempty r (List.mem_append_left _ hr), ?_⟩
        intro r hr
        rw [List.mem_singleton.mp hr]
        show last.start < last.stop + 1
        omega
      · refine List.forall_mem_append.mpr ⟨fun r hr => h.capped r (List.mem_append_left _ hr), ?_⟩
        intro r hr
        rw [List.mem_singleton.mp hr]
        show last.stop + 1 - last.start ≤ cap
        omega
      · rw [List.pairwise_append]
        refine ⟨hsorted.1, List.pairwise_singleton _ _, ?_⟩
        intro r hr t ht
        rw [List.mem_singleton.mp ht]
        exact hsorted.2.2 r hr last (by simp)
      · rw [List.pairwise_append]
        refine ⟨hfull.1, List.pairwise_singleton _ _, ?_⟩
        intro r hr t ht heq
        rw [List.mem_singleton.mp ht] at heq
        exact hfull.2.2 r hr last (by simp) heq
      · refine List.forall_mem_append.mpr
          ⟨fun r hr => (h.stop_le r (List.mem_append_left _ hr)).trans (by omega), ?_⟩
        intro r hr
        rw [List.mem_singleton.mp hr]
    · apply hpush
      intro r hr heq
      rcases List.mem_append.mp hr with hr | hr
      · -- a range before the last one ends before it starts
        have := hsorted.2.2 r hr last (by simp)
        omega
      · rw [List.mem_singleton.mp hr] at heq ⊢
        have := h.capped last (by simp)
        omega

/-- The ranges of distinct numbers are as large as the cap lets them be. -/
theorem chunks_ranges {nums : List ℤ} (hnodup : nums.Nodup) {cap : ℤ} (hcap : 1 ≤ cap) :
    Chunks cap (ranges nums cap) := by
  have hfold (l : List ℤ) : ∀ out s, Below cap s out → (∀ n ∈ l, s ≤ n) → l.Pairwise (· < ·) →
      ∃ t, Below cap t (l.foldl (extend cap) out) := by
    induction l with
    | nil => exact fun out s hout _ _ => ⟨s, hout⟩
    | cons n l ih =>
      intro out s hout hle hsorted
      obtain ⟨hn, hl⟩ := List.pairwise_cons.mp hsorted
      refine ih _ (n + 1) ((hout.mono (hle n List.mem_cons_self)).extend hcap) ?_ hl
      intro m hm
      have := hn m hm
      omega
  unfold ranges
  generalize hl : (nums.mergeSort fun a b => a ≤ b) = l
  have hsorted : l.Pairwise (· < ·) := by
    have hle : l.Pairwise (· ≤ ·) := by
      rw [← hl]
      exact List.pairwise_mergeSort' (· ≤ ·) nums
    have hdistinct : l.Nodup := by
      rw [← hl]
      exact (List.mergeSort_perm nums _).nodup_iff.mpr hnodup
    exact (hle.and hdistinct).imp fun ⟨hab, hne⟩ => lt_of_le_of_ne hab hne
  cases l with
  | nil => exact chunks_nil cap
  | cons n l =>
    have hempty : Below cap n [] := ⟨by simp, by simp, List.Pairwise.nil, List.Pairwise.nil, by simp⟩
    have hfirst : ∀ m ∈ n :: l, n ≤ m := by
      intro m hm
      rcases List.mem_cons.mp hm with rfl | hm
      · exact le_rfl
      · exact ((List.pairwise_cons.mp hsorted).1 m hm).le
    obtain ⟨t, ht⟩ := hfold (n :: l) [] n hempty hfirst hsorted
    exact ht.chunks

/-- The union of the ranges is the list. -/
theorem mem_toSet_ranges (nums : List ℤ) (cap n : ℤ) : n ∈ Ranges.toSet (ranges nums cap) ↔ n ∈ nums := by
  rw [← (numbers_ranges nums cap).mem_iff, List.mem_flatMap, Ranges.mem_toSet]
  simp only [mem_numbers]

/-! ## What a call reports -/

/-- The numbers that a call of `detect` or `repeats` makes ranges of. -/
def reported (maxTries : ℕ) (t : SeqTracker) : SeqTracker.Call → List ℤ
  | .arrive _ _ _ => []
  | .detect now allowance windowMs tailWindowMs _ =>
    (t.missing.entries.filter fun e => t.Lost now allowance windowMs tailWindowMs e.1 e.2.since).map Prod.fst
  | .repeats now delayMs repaired _ => (t.claimed.entries.foldl (again now delayMs maxTries repaired) (t, [])).2

/-- The parameter `maxRange` of a call. -/
def maxRange : SeqTracker.Call → ℤ
  | .arrive _ _ _ => seqMaxRange
  | .detect _ _ _ _ maxRange => maxRange
  | .repeats _ _ _ maxRange => maxRange

section Reported

variable {maxTries : ℕ}

theorem call_eq_ranges (t : SeqTracker) (c : SeqTracker.Call) :
    (call maxTries t c).1 = ranges (reported maxTries t c) (maxRange c) := by
  cases c with
  | arrive seq now loc => simp [call, reported, ranges]
  | detect => rfl
  | repeats => rfl

theorem nodup_reported (t : SeqTracker) (c : SeqTracker.Call) : (reported maxTries t c).Nodup := by
  cases c with
  | arrive seq now loc => exact List.nodup_nil
  | detect now allowance windowMs tailWindowMs maxRange =>
    exact t.missing.nodup.sublist (List.filter_sublist.map _)
  | repeats now delayMs repaired maxRange =>
    rw [List.nodup_iff_count_le_one]
    intro n
    show (t.claimed.entries.foldl (again now delayMs maxTries repaired) (t, [])).2.count n ≤ 1
    cases hc : t.claimed.get? n with
    | none =>
      have hzero := (foldl_again_of_notMem now delayMs maxTries repaired t.claimed.entries (t, [])
        (OrderedMap.get?_eq_none_iff.mp hc)).2.2
      rw [hzero]
      exact Nat.zero_le 1
    | some e =>
      obtain ⟨-, -, h⟩ | ⟨-, -, h⟩ | ⟨-, -, -, h⟩ := foldl_again_cases now delayMs maxTries repaired t hc <;> omega

/-- A call reports only numbers that are missing or claimed. -/
theorem has_of_mem_reported {t : SeqTracker} {c : SeqTracker.Call} {n : ℤ} (hn : n ∈ reported maxTries t c) :
    t.missing.has n ∨ t.claimed.has n := by
  cases c with
  | arrive seq now loc => cases hn
  | detect now allowance windowMs tailWindowMs maxRange =>
    obtain ⟨m, hm, -⟩ := mem_lost.mp hn
    exact .inl (Option.isSome_iff_exists.mpr ⟨m, hm⟩)
  | repeats now delayMs repaired maxRange =>
    cases hc : t.claimed.get? n with
    | none =>
      have hzero := (foldl_again_of_notMem now delayMs maxTries repaired t.claimed.entries (t, [])
        (OrderedMap.get?_eq_none_iff.mp hc)).2.2
      have hpos : 0 < (t.claimed.entries.foldl (again now delayMs maxTries repaired) (t, [])).2.count n :=
        List.count_pos_iff.mpr hn
      rw [hzero] at hpos
      cases hpos
    | some e => exact .inr (Option.isSome_iff_exists.mpr ⟨e, hc⟩)

theorem bounded_state (past : List SeqTracker.Call) : (state maxTries past).Bounded := by
  induction past with
  | nil => exact bounded_new
  | cons c past ih =>
    cases c with
    | arrive seq now loc => exact ih.arrive seq now loc
    | detect now allowance windowMs tailWindowMs maxRange => exact ih.detect now allowance windowMs tailWindowMs maxRange
    | repeats now delayMs repaired maxRange => exact ih.repeats now delayMs maxTries repaired maxRange

/-- If the numbers that arrive are `uint32`, so is the end of any range of those
    reported. -/
theorem range_of_reported {past : List SeqTracker.Call} (hpast : ∀ n, Arrived n past → n < 2 ^ 32)
    {c : SeqTracker.Call} {n : ℤ} (hn : n ∈ reported maxTries (state maxTries past) c) : 0 ≤ n ∧ n + 1 < 2 ^ 32 := by
  obtain ⟨hpos, hlt⟩ := (bounded_state past).below n (has_of_mem_reported hn)
  rw [highest_eq] at hlt
  rcases arrived_greatest past with h | h
  · omega
  · have := hpast _ h
    omega

end Reported

/-! ## What the server looks up -/

/-- The numbers that the server looks up when a datagram arrives. -/
def lookedUp (b : Bytes) : List ℕ :=
  match Wire.Go.decode b with
  | .ok (.resendSeq p) => Session.seqRange p.start p.stop
  | _ => []

/-- The datagram is a RESEND_SEQ, and handling it is looking these numbers up. -/
def Handled (r : Range ℤ) (b : Bytes) : Prop :=
  ∃ p, Wire.Go.decode b = .ok (.resendSeq p) ∧ r.start = p.start.toNat ∧ r.stop = p.stop.toNat ∧
    ∀ (cfg : Sender.Config) (s : Session) (now : ℤ) (got : Sender.GetResult), s.seqOn = true →
      s.handle cfg now got (.resendSeq p) =
        (s.count fun m => { m with seqResends := m.seqResends + 1 }).resendSeqs (lookedUp b) now

/-- The server's cap does not cut the range short. -/
theorem seqRange_eq {start stop : UInt32} (hsize : (stop.toNat : ℤ) - start.toNat ≤ seqMaxRange) :
    (Session.seqRange start stop).map (fun n : ℕ => (n : ℤ)) = numbers { start := start.toNat, stop := stop.toNat } := by
  have hstop := stop.toNat_lt
  unfold seqMaxRange at hsize
  have hmin : min stop.toNat (start.toNat + Sender.maxResendSeqRange) = stop.toNat := by
    unfold Sender.maxResendSeqRange
    omega
  unfold Session.seqRange numbers
  dsimp only
  rw [hmin, List.range'_eq_map_range, List.map_map, List.map_map]
  have hlen : ((stop.toNat : ℤ) - start.toNat).toNat = stop.toNat - start.toNat := by omega
  rw [hlen]
  apply List.map_congr_left
  intro i hi
  rw [List.mem_range] at hi
  show ((Sender.u32 (start.toNat + i) : ℕ) : ℤ) = start.toNat + i
  unfold Sender.u32
  rw [Nat.mod_eq_of_lt (by omega)]
  push_cast
  ring

/-- A capped range is encoded, and looked up in full. -/
theorem exists_lookedUp {r : Range ℤ} (hpos : 0 ≤ r.start) (hne : r.start < r.stop) (hstop : r.stop < 2 ^ 32)
    (hsize : r.stop - r.start ≤ seqMaxRange) :
    ∃ b, (Outgoing.resendSeq 0 r).encode = some b ∧ Handled r b ∧
      (lookedUp b).map (fun n : ℕ => (n : ℤ)) = numbers r := by
  obtain ⟨b, hb⟩ := Option.isSome_iff_exists.mp (Outgoing.encodable_resendSeq hpos hne hstop).1
  obtain ⟨q, g, hq, hsame, hdecode⟩ := exists_decode hb
  obtain rfl := Option.some.inj hq
  refine ⟨b, hb, ?_⟩
  cases g with
  | resendSeq p =>
    obtain ⟨-, hstart, hend⟩ := hsame
    have hlook : lookedUp b = Session.seqRange p.start p.stop := by
      unfold lookedUp
      rw [hdecode]
    refine ⟨⟨p, hdecode, hstart, hend, ?_⟩, ?_⟩
    · intro cfg s now got hon
      rw [hlook]
      show (if ¬ s.seqOn then _ else _) = _
      rw [if_neg (not_not.mpr hon)]
      rfl
    · simp only at hstart hend
      rw [hlook, seqRange_eq (by omega), ← hstart, ← hend]
  | req | data | grant | resend | error | metaData | hello | dataSeq => exact hsame.elim

/-! ## Both sides agree -/

/-- **What is asked for is looked up.** The ranges of any distinct numbers are in order,
    capped and as large as the cap lets them be. Those of a call, after any history of
    `uint32` arrivals, are encoded and handled, and the server looks up just the numbers
    that the call reported, each once. -/
theorem resendSeq_agree {maxTries : ℕ} {past : List SeqTracker.Call}
    (hpast : ∀ n, Arrived n past → n < 2 ^ 32) {c : SeqTracker.Call} (hc : maxRange c = seqMaxRange) :
    (∀ nums : List ℤ, nums.Nodup → Chunks seqMaxRange (ranges nums seqMaxRange) ∧
      ∀ n, n ∈ Ranges.toSet (ranges nums seqMaxRange) ↔ n ∈ nums) ∧
    (reported maxTries (state maxTries past) c).Nodup ∧
    ∃ bs : List Bytes,
      List.Forall₂ (fun r b => r.stop < 2 ^ 32 ∧ (Outgoing.resendSeq 0 r).encode = some b ∧ Handled r b)
        (call maxTries (state maxTries past) c).1 bs ∧
      ((bs.flatMap lookedUp).map fun n : ℕ => (n : ℤ)).Perm (reported maxTries (state maxTries past) c) := by
  have hchunks : ∀ nums : List ℤ, nums.Nodup → Chunks seqMaxRange (ranges nums seqMaxRange) ∧
      ∀ n, n ∈ Ranges.toSet (ranges nums seqMaxRange) ↔ n ∈ nums := fun nums hnodup =>
    ⟨chunks_ranges hnodup (by decide), mem_toSet_ranges nums seqMaxRange⟩
  refine ⟨hchunks, nodup_reported _ c, ?_⟩
  have hcall := @call_eq_ranges maxTries (state maxTries past) c
  rw [hc] at hcall
  rw [hcall]
  have hreported := hchunks _ (@nodup_reported maxTries (state maxTries past) c)
  have hrange : ∀ r ∈ ranges (reported maxTries (state maxTries past) c) seqMaxRange, 0 ≤ r.start ∧ r.stop < 2 ^ 32 := by
    intro r hr
    have hne := hreported.1.nonempty r hr
    have hfirst := (hreported.2 r.start).mp (Ranges.mem_toSet.mpr ⟨r, hr, le_rfl, hne⟩)
    have hlast := (hreported.2 (r.stop - 1)).mp (Ranges.mem_toSet.mpr ⟨r, hr, by omega, by omega⟩)
    have h1 := range_of_reported hpast hfirst
    have h2 := range_of_reported hpast hlast
    omega
  have hall : ∀ rs : List (Range ℤ), (∀ r ∈ rs, r ∈ ranges (reported maxTries (state maxTries past) c) seqMaxRange) →
      ∃ bs : List Bytes,
        List.Forall₂ (fun r b => r.stop < 2 ^ 32 ∧ (Outgoing.resendSeq 0 r).encode = some b ∧ Handled r b) rs bs ∧
        (bs.flatMap lookedUp).map (fun n : ℕ => (n : ℤ)) = rs.flatMap numbers := by
    intro rs
    induction rs with
    | nil => exact fun _ => ⟨[], .nil, rfl⟩
    | cons r rs ih =>
      intro hmem
      obtain ⟨hr, hrs⟩ := List.forall_mem_cons.mp hmem
      obtain ⟨bs, hbs, heq⟩ := ih hrs
      obtain ⟨hpos, hstop⟩ := hrange r hr
      obtain ⟨b, hb, hhandled, hlook⟩ :=
        exists_lookedUp hpos (hreported.1.nonempty r hr) hstop (hreported.1.capped r hr)
      refine ⟨b :: bs, .cons ⟨hstop, hb, hhandled⟩ hbs, ?_⟩
      rw [List.flatMap_cons, List.map_append, hlook, heq, List.flatMap_cons]
  obtain ⟨bs, hbs, heq⟩ := hall _ fun _ hr => hr
  refine ⟨bs, hbs, ?_⟩
  rw [heq]
  exact numbers_ranges _ _

/-- Numbers 1 and 2 are missing when 3 arrives after 0. -/
def twoMissing : List SeqTracker.Call := [.arrive 3 0 none, .arrive 0 0 none]

theorem resendSeq_agree_twoMissing :
    reported 3 (state 3 twoMissing) (.detect 10 1 0 ⊤ seqMaxRange) = [1, 2] ∧
    ∃ bs : List Bytes,
      List.Forall₂ (fun r b => r.stop < 2 ^ 32 ∧ (Outgoing.resendSeq 0 r).encode = some b ∧ Handled r b)
        (call 3 (state 3 twoMissing) (.detect 10 1 0 ⊤ seqMaxRange)).1 bs ∧
      ((bs.flatMap lookedUp).map fun n : ℕ => (n : ℤ)).Perm
        (reported 3 (state 3 twoMissing) (.detect 10 1 0 ⊤ seqMaxRange)) := by
  refine ⟨by decide +kernel, ?_⟩
  have hpast : ∀ n, Arrived n twoMissing → n < 2 ^ 32 := by
    intro n hn
    rcases hn with rfl | rfl | hn
    · omega
    · omega
    · cases hn
  exact (@resendSeq_agree 3 twoMissing hpast (.detect 10 1 0 ⊤ seqMaxRange) rfl).2.2

end Http4.System
