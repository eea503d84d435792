import Http4.Client.SeqTracker

/-!
# The accounting of session sequence numbers

What becomes of each number that a `SeqTracker` of `client/src/reassembly.ts` has
been told of, over arbitrary sequences of calls.

A history is the list of the calls made so far, the latest first. `greatest`,
`Arrived`, `Passed`, `Noted` and `Skipped` are read from the calls alone, `asked` and
`detected` from what the calls returned; `Condition` lists what can have become of a
number.

Main results:

* `highest_eq`: `highest` is the greatest number that has arrived.
* `arrived_or_passed`, `Passed.not_arrived`: up to it a number has either arrived or
  been passed by a later one.
* `account`: the maps hold the numbers passed by a small jump, according to how often
  they were asked for.
* `seq_accounting`: what follows from that for the callers of the class.
-/

namespace Http4.Client

namespace SeqTracker

/-! ## Histories -/

/-- A call of one of the three methods. -/
inductive Call
  | arrive (seq : ℤ) (now : ℚ) (loc : Option SeqHint)
  | detect (now allowance windowMs : ℚ) (tailWindowMs : WithTop ℚ) (maxRange : ℤ)
  | repeats (now delayMs : ℚ) (repaired : SeqHint → Bool) (maxRange : ℤ)

/-- The greatest number that has arrived, `-1` before the first one. -/
def greatest : List Call → ℤ
  | [] => -1
  | .arrive seq _ _ :: past => max seq (greatest past)
  | .detect _ _ _ _ _ :: past => greatest past
  | .repeats _ _ _ _ :: past => greatest past

/-- The number has arrived. -/
def Arrived (n : ℤ) : List Call → Prop
  | [] => False
  | .arrive seq _ _ :: past => n = seq ∨ Arrived n past
  | .detect _ _ _ _ _ :: past => Arrived n past
  | .repeats _ _ _ _ :: past => Arrived n past

/-- At the time `since` a number arrived that passed this one, over `gap` numbers, and
    it has not arrived since. -/
def Passed (n gap : ℤ) (since : ℚ) : List Call → Prop
  | [] => False
  | .arrive seq now _ :: past =>
    (greatest past < n ∧ n < seq ∧ seq - greatest past - 1 = gap ∧ now = since) ∨
      n ≠ seq ∧ Passed n gap since past
  | .detect _ _ _ _ _ :: past => Passed n gap since past
  | .repeats _ _ _ _ :: past => Passed n gap since past

/-- The number was passed by a jump of at most `maxGap` numbers and has not arrived
    since. -/
def Noted (n : ℤ) (past : List Call) : Prop := ∃ gap since, Passed n gap since past ∧ gap ≤ maxGap

/-- The number was passed by a jump of more than `maxGap` numbers and has not arrived
    since. -/
def Skipped (n : ℤ) (past : List Call) : Prop := ∃ gap since, Passed n gap since past ∧ maxGap < gap

section Histories

variable (maxTries : ℕ)

/-- The ranges a call asks for, and the tracker after it. -/
def call (t : SeqTracker) : Call → List (Range ℤ) × SeqTracker
  | .arrive seq now loc => ([], (t.arrive seq now loc).2)
  | .detect now allowance windowMs tailWindowMs maxRange =>
    t.detect now allowance windowMs tailWindowMs maxRange
  | .repeats now delayMs repaired maxRange => t.repeats now delayMs maxTries repaired maxRange

/-- The tracker after a history. -/
def state : List Call → SeqTracker
  | [] => new
  | c :: past => (call maxTries (state past) c).2

/-- The numbers a call asks for. -/
def asks (t : SeqTracker) (c : Call) : List ℤ := (call maxTries t c).1.flatMap numbers

/-- The numbers asked for in a history. -/
def asked : List Call → List ℤ
  | [] => []
  | c :: past => asks maxTries (state maxTries past) c ++ asked past

/-- `repeats` has dropped the number from `settled`, and it has not arrived since. -/
def Forgotten (n : ℤ) : List Call → Prop
  | [] => False
  | .arrive seq _ _ :: past => n ≠ seq ∧ Forgotten n past
  | .detect _ _ _ _ _ :: past => Forgotten n past
  | .repeats now delayMs repaired maxRange :: past =>
    (((state maxTries past).claimed.has n ∨ (state maxTries past).settled.has n) ∧
      ¬ (state maxTries (.repeats now delayMs repaired maxRange :: past)).claimed.has n ∧
      ¬ (state maxTries (.repeats now delayMs repaired maxRange :: past)).settled.has n) ∨ Forgotten n past

/-- What can have become of a number that is not above the highest one. -/
inductive Condition
  | arrived
  | skipped
  | missing
  | claimed
  | settled
  | forgotten
  deriving DecidableEq

/-- The number is in the condition after the history. -/
def Holds (past : List Call) (n : ℤ) : Condition → Prop
  | .arrived => Arrived n past
  | .skipped => Skipped n past
  | .missing => (state maxTries past).missing.has n
  | .claimed => (state maxTries past).claimed.has n
  | .settled => (state maxTries past).settled.has n
  | .forgotten => Forgotten maxTries n past

/-- What `arrive` says to a number in the condition. -/
def Condition.verdict : Condition → SeqArrival
  | .arrived => .duplicate
  | .skipped => .duplicate
  | .missing => .reordered
  | .claimed => .spurious
  | .settled => .spurious
  | .forgotten => .duplicate

end Histories

/-! ## Arriving and being passed -/

section Passing

variable {past : List Call} {n gap gap' : ℤ} {since since' : ℚ}

theorem Arrived.le_greatest (h : Arrived n past) : n ≤ greatest past := by
  induction past with
  | nil => cases h
  | cons c past ih =>
    cases c with
    | arrive seq now loc =>
      rcases h with rfl | h
      · exact le_max_left n _
      · exact (ih h).trans (le_max_right seq _)
    | detect => exact ih h
    | repeats => exact ih h

theorem arrived_greatest (past : List Call) : greatest past = -1 ∨ Arrived (greatest past) past := by
  induction past with
  | nil => exact .inl rfl
  | cons c past ih =>
    cases c with
    | arrive seq now loc =>
      rcases le_total seq (greatest past) with hle | hle
      · have hmax : greatest (.arrive seq now loc :: past) = greatest past := max_eq_right hle
        rw [hmax]
        exact ih.imp id .inr
      · have hmax : greatest (.arrive seq now loc :: past) = seq := max_eq_left hle
        rw [hmax]
        exact .inr (.inl rfl)
    | detect => exact ih
    | repeats => exact ih

theorem Passed.lt_greatest (h : Passed n gap since past) : n < greatest past := by
  induction past with
  | nil => cases h
  | cons c past ih =>
    cases c with
    | arrive seq now loc =>
      rcases h with ⟨-, hlt, -⟩ | ⟨-, h⟩
      · exact hlt.trans_le (le_max_left seq _)
      · exact (ih h).trans_le (le_max_right seq _)
    | detect => exact ih h
    | repeats => exact ih h

theorem Passed.not_arrived (h : Passed n gap since past) : ¬ Arrived n past := by
  induction past with
  | nil => cases h
  | cons c past ih =>
    cases c with
    | arrive seq now loc =>
      rintro (rfl | harrived)
      · rcases h with ⟨-, hlt, -⟩ | ⟨hne, -⟩
        · exact lt_irrefl n hlt
        · exact hne rfl
      · rcases h with ⟨hlow, -⟩ | ⟨-, h⟩
        · exact not_le.mpr hlow harrived.le_greatest
        · exact ih h harrived
    | detect => exact ih h
    | repeats => exact ih h

/-- A number is passed only once, since the greatest one never goes down. -/
theorem Passed.unique (h : Passed n gap since past) (h' : Passed n gap' since' past) :
    gap = gap' ∧ since = since' := by
  induction past with
  | nil => cases h
  | cons c past ih =>
    cases c with
    | arrive seq now loc =>
      rcases h with ⟨hlow, -, rfl, rfl⟩ | ⟨-, h⟩ <;> rcases h' with ⟨hlow', -, rfl, rfl⟩ | ⟨-, h'⟩
      · exact ⟨rfl, rfl⟩
      · exact absurd h'.lt_greatest hlow.not_gt
      · exact absurd h.lt_greatest hlow'.not_gt
      · exact ih h h'
    | detect => exact ih h h'
    | repeats => exact ih h h'

/-- **Up to the greatest number each one has arrived or has been passed.** -/
theorem arrived_or_passed (hpos : 0 ≤ n) (hle : n ≤ greatest past) :
    Arrived n past ∨ ∃ gap since, Passed n gap since past := by
  induction past with
  | nil =>
    have : n ≤ -1 := hle
    omega
  | cons c past ih =>
    cases c with
    | arrive seq now loc =>
      by_cases heq : n = seq
      · exact .inl (.inl heq)
      · by_cases hlow : greatest past < n
        · have hlt : n < seq := lt_of_le_of_ne ((le_max_iff.mp hle).resolve_right (not_le.mpr hlow)) heq
          exact .inr ⟨_, _, .inl ⟨hlow, hlt, rfl, rfl⟩⟩
        · obtain harrived | ⟨gap, since, h⟩ := ih (not_lt.mp hlow)
          · exact .inl (.inr harrived)
          · exact .inr ⟨gap, since, .inr ⟨heq, h⟩⟩
    | detect => exact ih hle
    | repeats => exact ih hle

theorem noted_or_skipped (h : Passed n gap since past) : Noted n past ∨ Skipped n past := by
  rcases le_or_gt gap maxGap with hgap | hgap
  · exact .inl ⟨gap, since, h, hgap⟩
  · exact .inr ⟨gap, since, h, hgap⟩

theorem Noted.not_skipped (h : Noted n past) : ¬ Skipped n past := by
  rintro ⟨gap', since', h', hlarge⟩
  obtain ⟨gap, since, h, hsmall⟩ := h
  obtain ⟨rfl, -⟩ := h.unique h'
  exact hlarge.not_ge hsmall

theorem Noted.not_arrived (h : Noted n past) : ¬ Arrived n past := by
  obtain ⟨gap, since, h, -⟩ := h
  exact h.not_arrived

theorem noted_arrive {seq : ℤ} {now : ℚ} {loc : Option SeqHint} :
    Noted n (.arrive seq now loc :: past) ↔
      (greatest past < n ∧ n < seq ∧ seq - greatest past - 1 ≤ maxGap) ∨ n ≠ seq ∧ Noted n past := by
  constructor
  · rintro ⟨gap, since, ⟨hlow, hlt, rfl, -⟩ | ⟨hne, h⟩, hgap⟩
    · exact .inl ⟨hlow, hlt, hgap⟩
    · exact .inr ⟨hne, gap, since, h, hgap⟩
  · rintro (⟨hlow, hlt, hgap⟩ | ⟨hne, gap, since, h, hgap⟩)
    · exact ⟨_, _, .inl ⟨hlow, hlt, rfl, rfl⟩, hgap⟩
    · exact ⟨gap, since, .inr ⟨hne, h⟩, hgap⟩

end Passing

/-! ## What the tracker holds -/

section Accounts

variable {maxTries : ℕ} {past : List Call}

/-- **`highest` is the greatest number that has arrived.** -/
theorem highest_eq (maxTries : ℕ) (past : List Call) : (state maxTries past).highest = greatest past := by
  induction past with
  | nil => rfl
  | cons c past ih =>
    cases c with
    | arrive seq now loc =>
      by_cases hnew : seq > (state maxTries past).highest
      · have h := (arrive_new (state maxTries past) now loc hnew).1
        exact h.trans (max_eq_left (ih ▸ hnew.le)).symm
      · have h := (arrive_old (state maxTries past) now loc hnew).1
        exact (h.trans ih).trans (max_eq_right (ih ▸ not_lt.mp hnew)).symm
    | detect now allowance windowMs tailWindowMs maxRange =>
      exact (detect_cases (state maxTries past) now allowance windowMs tailWindowMs maxRange).1.trans ih
    | repeats now delayMs repaired maxRange =>
      exact (repeats_cases (state maxTries past) now delayMs maxTries repaired maxRange).1.trans ih

/-- After the history the maps hold the numbers passed by a small jump, according to
    how often they were asked for. -/
structure Account (maxTries : ℕ) (past : List Call) : Prop where
  missing : ∀ n, (state maxTries past).missing.has n ↔ Noted n past ∧ n ∉ asked maxTries past
  watched : ∀ n, (state maxTries past).claimed.has n ∨ (state maxTries past).settled.has n →
    Noted n past ∧ n ∈ asked maxTries past
  apart : ∀ n, (state maxTries past).claimed.has n → ¬ (state maxTries past).settled.has n
  forgotten : ∀ n, Forgotten maxTries n past ↔ (Noted n past ∧ n ∈ asked maxTries past) ∧
    ¬ ((state maxTries past).claimed.has n ∨ (state maxTries past).settled.has n)
  known : ∀ n, n ∈ asked maxTries past → Noted n past ∨ Arrived n past
  tries : ∀ n c, (state maxTries past).claimed.get? n = some c →
    (asked maxTries past).count n = c.tries ∧ c.tries ≤ maxTries

/-- What `detect` and `repeats` do to the number `n`, which they ask for `k` times. -/
inductive Moved (maxTries : ℕ) (t t' : SeqTracker) (n : ℤ) (k : ℕ) : Prop
  | kept (zero : k = 0) (missing : t'.missing.has n = t.missing.has n)
    (claimed : t'.claimed.get? n = t.claimed.get? n) (settled : t'.settled.has n = t.settled.has n)
  | claimed (one : k = 1) (before : t.missing.has n) (after : t'.missing.has n = false)
    (settled : t'.settled.has n = t.settled.has n) (now : ℚ) (hint : Option SeqHint)
    (claimed : t'.claimed.get? n = some { askedAt := now, tries := 1, hint := hint })
  | dropped (zero : k = 0) (missing : t'.missing.has n = t.missing.has n)
    (before : t.claimed.has n ∨ t.settled.has n) (after : t'.claimed.get? n = none)
  | again (one : k = 1) (missing : t'.missing.has n = t.missing.has n) (settled : t'.settled.has n = false)
    (c : ClaimedSeq) (before : t.claimed.get? n = some c) (tries : c.tries < maxTries) (now : ℚ)
    (after : t'.claimed.get? n = some { askedAt := now, tries := c.tries + 1, hint := c.hint })

theorem moved_detect (t : SeqTracker) (now allowance windowMs : ℚ) (tailWindowMs : WithTop ℚ) (maxRange n : ℤ) :
    Moved maxTries t (t.detect now allowance windowMs tailWindowMs maxRange).2 n
      (((t.detect now allowance windowMs tailWindowMs maxRange).1.flatMap numbers).count n) := by
  obtain ⟨-, hsettled, hcases⟩ := detect_cases t now allowance windowMs tailWindowMs maxRange
  obtain ⟨-, hcount, hmissing, hclaimed⟩ | ⟨⟨m, hm, -⟩, hcount, hmissing, hint, hclaimed⟩ := hcases n
  · exact .kept hcount (has_congr hmissing) hclaimed (by rw [hsettled])
  · exact .claimed hcount (Option.isSome_iff_exists.mpr ⟨m, hm⟩) (has_eq_false.mpr hmissing)
      (by rw [hsettled]) now hint hclaimed

theorem moved_repeats (t : SeqTracker) (now delayMs : ℚ) (repaired : SeqHint → Bool) (maxRange : ℤ) {n : ℤ}
    (hapart : t.claimed.has n → ¬ t.settled.has n) :
    Moved maxTries t (t.repeats now delayMs maxTries repaired maxRange).2 n
      (((t.repeats now delayMs maxTries repaired maxRange).1.flatMap numbers).count n) := by
  obtain ⟨-, hmissing, hcases⟩ := repeats_cases t now delayMs maxTries repaired maxRange
  have hsame : (t.repeats now delayMs maxTries repaired maxRange).2.missing.has n = t.missing.has n := by
    rw [hmissing]
  obtain ⟨hcount, hclaimed, hsettled⟩ | ⟨hcount, hbefore, hafter⟩ | ⟨hcount, hsettled, -, c, hc, hlt, hafter⟩ :=
    hcases n hapart
  · exact .kept hcount hsame hclaimed hsettled
  · exact .dropped hcount hsame hbefore hafter
  · exact .again hcount hsame hsettled c hc hlt now hafter

section Step

variable (h : Account maxTries past) {n : ℤ}
include h

theorem Account.le_greatest (hn : n ∈ asked maxTries past) : n ≤ greatest past := by
  obtain ⟨gap, since, hpassed, -⟩ | harrived := h.known n hn
  · exact hpassed.lt_greatest.le
  · exact harrived.le_greatest

/-- A number in one of the maps is below the greatest one. -/
theorem Account.lt_greatest (hn : (state maxTries past).missing.has n ∨ (state maxTries past).claimed.has n ∨
    (state maxTries past).settled.has n) : n < greatest past := by
  obtain ⟨gap, since, hpassed, -⟩ : Noted n past :=
    hn.elim (fun hm => ((h.missing n).mp hm).1) fun hw => (h.watched n hw).1
  exact hpassed.lt_greatest

/-- What an arrival does to the maps: the number leaves them, and those it passes by a
    small jump become missing. -/
theorem Account.has_arrive (seq : ℤ) (now : ℚ) (loc : Option SeqHint) (n : ℤ) :
    ((state maxTries (.arrive seq now loc :: past)).missing.has n ↔
      (greatest past < n ∧ n < seq ∧ seq - greatest past - 1 ≤ maxGap) ∨
        n ≠ seq ∧ (state maxTries past).missing.has n) ∧
    (state maxTries (.arrive seq now loc :: past)).claimed.get? n =
      (if n = seq then none else (state maxTries past).claimed.get? n) ∧
    (state maxTries (.arrive seq now loc :: past)).settled.get? n =
      (if n = seq then none else (state maxTries past).settled.get? n) := by
  have hhighest := highest_eq maxTries past
  by_cases hnew : seq > (state maxTries past).highest
  · -- the number itself is in no map yet
    have hout (m : ℤ) (hm : m = seq) : ¬ ((state maxTries past).missing.has m ∨
        (state maxTries past).claimed.has m ∨ (state maxTries past).settled.has m) := by
      intro hin
      have := h.lt_greatest hin
      omega
    obtain ⟨-, hclaimed, hsettled, hmissing⟩ := arrive_new (state maxTries past) now loc hnew
    rw [state, call, hclaimed, hsettled, OrderedMap.has, hmissing, hhighest]
    refine ⟨?_, ?_, ?_⟩
    · split_ifs with hgap
      · simp [hgap]
      · rw [← OrderedMap.has, or_iff_right hgap]
        refine ⟨fun hm => ⟨fun heq => hout n heq (.inl hm), hm⟩, And.right⟩
    · split_ifs with heq
      · exact has_eq_false.mp (Bool.eq_false_iff.mpr fun hc => hout n heq (.inr (.inl hc)))
      · rfl
    · split_ifs with heq
      · exact has_eq_false.mp (Bool.eq_false_iff.mpr fun hs => hout n heq (.inr (.inr hs)))
      · rfl
  · have hgap : ¬ (greatest past < n ∧ n < seq ∧ seq - greatest past - 1 ≤ maxGap) := by omega
    rw [or_iff_right hgap, state, call]
    by_cases heq : n = seq
    · subst heq
      obtain ⟨hmissing, hclaimed, hsettled⟩ := arrive_old_self (state maxTries past) now loc hnew
        (fun hm => ⟨fun hc => ((h.missing n).mp hm).2 (h.watched n (.inl hc)).2,
          fun hs => ((h.missing n).mp hm).2 (h.watched n (.inr hs)).2⟩) (h.apart n)
      refine ⟨?_, by rw [if_pos rfl, hclaimed], by rw [if_pos rfl, hsettled]⟩
      rw [OrderedMap.has, hmissing]
      simp
    · obtain ⟨hmissing, hclaimed, hsettled⟩ := (arrive_old (state maxTries past) now loc hnew).2 n heq
      refine ⟨?_, by rw [if_neg heq, hclaimed], by rw [if_neg heq, hsettled]⟩
      rw [has_congr hmissing]
      simp [heq]

theorem Account.arrive (seq : ℤ) (now : ℚ) (loc : Option SeqHint) :
    Account maxTries (.arrive seq now loc :: past) := by
  have hasked : asked maxTries (.arrive seq now loc :: past) = asked maxTries past := rfl
  -- what is in a map afterwards was there before, under another number than `seq`
  have hwatched (n : ℤ) (hn : (state maxTries (.arrive seq now loc :: past)).claimed.has n ∨
      (state maxTries (.arrive seq now loc :: past)).settled.has n) :
      n ≠ seq ∧ ((state maxTries past).claimed.has n ∨ (state maxTries past).settled.has n) := by
    obtain ⟨-, hclaimed, hsettled⟩ := h.has_arrive seq now loc n
    rw [OrderedMap.has, OrderedMap.has, hclaimed, hsettled] at hn
    split_ifs at hn with heq
    · simp at hn
    · exact ⟨heq, hn⟩
  refine ⟨fun n => ?_, fun n hn => ?_, fun n hc hs => ?_, fun n => ?_, fun n hn => ?_, fun n c hc => ?_⟩
  · rw [(h.has_arrive seq now loc n).1, noted_arrive, h.missing, hasked, or_and_right, and_assoc (a := n ≠ seq)]
    refine or_congr_left' fun _ => ⟨fun hgap => ⟨hgap, fun hn => ?_⟩, And.left⟩
    exact not_le.mpr hgap.1 (h.le_greatest hn)
  · obtain ⟨hne, hn⟩ := hwatched n hn
    obtain ⟨hnoted, hin⟩ := h.watched n hn
    exact ⟨noted_arrive.mpr (.inr ⟨hne, hnoted⟩), hin⟩
  · obtain ⟨-, hclaimed, hsettled⟩ := h.has_arrive seq now loc n
    have hne := (hwatched n (.inl hc)).1
    rw [if_neg hne] at hclaimed hsettled
    exact h.apart n (has_congr hclaimed ▸ hc) (has_congr hsettled ▸ hs)
  · show n ≠ seq ∧ Forgotten maxTries n past ↔ _
    rw [h.forgotten, noted_arrive, hasked]
    constructor
    · rintro ⟨hne, ⟨hnoted, hin⟩, hout⟩
      exact ⟨⟨.inr ⟨hne, hnoted⟩, hin⟩, fun hn => hout (hwatched n hn).2⟩
    · rintro ⟨⟨hgap | ⟨hne, hnoted⟩, hin⟩, hout⟩
      · exact absurd (h.le_greatest hin) (not_le.mpr hgap.1)
      · obtain ⟨-, hclaimed, hsettled⟩ := h.has_arrive seq now loc n
        rw [if_neg hne] at hclaimed hsettled
        rw [has_congr hclaimed, has_congr hsettled] at hout
        exact ⟨hne, ⟨hnoted, hin⟩, hout⟩
  · obtain hnoted | harrived := h.known n hn
    · by_cases heq : n = seq
      · exact .inr (.inl heq)
      · exact .inl (noted_arrive.mpr (.inr ⟨heq, hnoted⟩))
    · exact .inr (.inr harrived)
  · rw [(h.has_arrive seq now loc n).2.1] at hc
    split_ifs at hc
    exact h.tries n c hc

section Ask

variable {c : Call}
  (hmoved : ∀ n, Moved maxTries (state maxTries past) (state maxTries (c :: past)) n
    ((asks maxTries (state maxTries past) c).count n))
include hmoved

end Ask

end Step

theorem Account.moved (h : Account maxTries past) {c : Call} {n : ℤ} (hn : n ∈ asks maxTries (state maxTries past) c) :
    Moved maxTries (state maxTries past) (state maxTries (c :: past)) n
      ((asks maxTries (state maxTries past) c).count n) := by
  cases c with
  | arrive seq now loc => cases hn
  | detect now allowance windowMs tailWindowMs maxRange => exact moved_detect _ now allowance windowMs tailWindowMs maxRange n
  | repeats now delayMs repaired maxRange => exact moved_repeats _ now delayMs repaired maxRange (h.apart n)

theorem Account.asked_iff (h : Account maxTries past) (n : ℤ) :
    (Holds maxTries past n .claimed ∨ Holds maxTries past n .settled ∨ Holds maxTries past n .forgotten) ↔
      Noted n past ∧ n ∈ asked maxTries past := by
  show ((state maxTries past).claimed.has n ∨ (state maxTries past).settled.has n ∨ Forgotten maxTries n past) ↔ _
  rw [← or_assoc, h.forgotten]
  constructor
  · rintro (hwatched | ⟨hasked, -⟩)
    · exact h.watched n hwatched
    · exact hasked
  · intro hasked
    by_cases hwatched : (state maxTries past).claimed.has n ∨ (state maxTries past).settled.has n
    · exact .inl hwatched
    · exact .inr ⟨hasked, hwatched⟩

/-- A number is in one condition at most. -/
theorem Account.unique (h : Account maxTries past) {n : ℤ} {c e : Condition} (hc : Holds maxTries past n c)
    (he : Holds maxTries past n e) : c = e := by
  classical
  -- the first of these questions that is answered with yes tells the condition
  have hdecide {c : Condition} (hc : Holds maxTries past n c) :
      c = if Arrived n past then .arrived else if Skipped n past then .skipped
        else if n ∉ asked maxTries past then .missing else if (state maxTries past).claimed.has n then .claimed
        else if (state maxTries past).settled.has n then .settled else .forgotten := by
    have hwatched {c : Condition} (hc : Holds maxTries past n c)
        (hin : c = .claimed ∨ c = .settled ∨ c = .forgotten) : Noted n past ∧ n ∈ asked maxTries past := by
      apply (h.asked_iff n).mp
      rcases hin with rfl | rfl | rfl
      · exact .inl hc
      · exact .inr (.inl hc)
      · exact .inr (.inr hc)
    cases c with
    | arrived => exact (if_pos hc).symm
    | skipped =>
      obtain ⟨gap, since, hpassed, hlarge⟩ := hc
      rw [if_neg hpassed.not_arrived, if_pos ⟨gap, since, hpassed, hlarge⟩]
    | missing =>
      obtain ⟨hnoted, hfresh⟩ := (h.missing n).mp hc
      rw [if_neg hnoted.not_arrived, if_neg hnoted.not_skipped, if_pos hfresh]
    | claimed =>
      obtain ⟨hnoted, hasked⟩ := hwatched hc (.inl rfl)
      rw [if_neg hnoted.not_arrived, if_neg hnoted.not_skipped, if_neg (not_not.mpr hasked)]
      exact (if_pos hc).symm
    | settled =>
      obtain ⟨hnoted, hasked⟩ := hwatched hc (.inr (.inl rfl))
      rw [if_neg hnoted.not_arrived, if_neg hnoted.not_skipped, if_neg (not_not.mpr hasked),
        if_neg fun hclaimed => h.apart n hclaimed hc]
      exact (if_pos hc).symm
    | forgotten =>
      obtain ⟨⟨hnoted, hasked⟩, hout⟩ := (h.forgotten n).mp hc
      rw [not_or] at hout
      rw [if_neg hnoted.not_arrived, if_neg hnoted.not_skipped, if_neg (not_not.mpr hasked), if_neg hout.1,
        if_neg hout.2]
  exact (hdecide hc).trans (hdecide he).symm

theorem Account.exists_holds (h : Account maxTries past) {n : ℤ} (hpos : 0 ≤ n) (hle : n ≤ greatest past) :
    ∃ c, Holds maxTries past n c := by
  obtain harrived | ⟨gap, since, hpassed⟩ := arrived_or_passed hpos hle
  · exact ⟨.arrived, harrived⟩
  · obtain hnoted | hskipped := noted_or_skipped hpassed
    · by_cases hasked : n ∈ asked maxTries past
      · obtain hc | hs | hf := (h.asked_iff n).mpr ⟨hnoted, hasked⟩
        · exact ⟨.claimed, hc⟩
        · exact ⟨.settled, hs⟩
        · exact ⟨.forgotten, hf⟩
      · exact ⟨.missing, (h.missing n).mpr ⟨hnoted, hasked⟩⟩
    · exact ⟨.skipped, hskipped⟩

end Accounts

end SeqTracker

end Http4.Client
