import Http4.Data.OrderedMap
import Http4.Data.Ranges

/-!
# Session sequence numbers

Model of the class `SeqTracker` and the function `ranges` of
`client/src/reassembly.ts` (lines 165–317). Times, delays and the allowance are
rationals, `Infinity` is `⊤`.

Main results:

* `numbers_ranges`: the ranges of a list of numbers hold exactly these numbers.
* `arrive_new`, `arrive_old`, `detect_cases`, `repeats_cases`: what a call does to each
  number.
* `Bounded.arrive`, `Bounded.detect`, `Bounded.repeats`: what may be asked for lies
  below the highest number.
-/

namespace Http4.Client

/-! ## The class -/

/-- `SeqArrival`. -/
inductive SeqArrival
  | new
  | reordered
  | spurious
  | duplicate
  deriving DecidableEq

/-- `SeqHint`; `stop` is the field `end`. -/
structure SeqHint where
  rpcId : ℤ
  start : ℤ
  stop : ℤ
  deriving DecidableEq

/-- A value of the map `missing`. -/
structure MissingSeq where
  since : ℚ
  hint : Option SeqHint
  deriving DecidableEq

/-- A value of the map `claimed`; `askedAt` is the field `at`. -/
structure ClaimedSeq where
  askedAt : ℚ
  tries : ℕ
  hint : Option SeqHint
  deriving DecidableEq

/-- `class SeqTracker`. -/
structure SeqTracker where
  highest : ℤ
  last : Option SeqHint
  missing : OrderedMap ℤ MissingSeq
  claimed : OrderedMap ℤ ClaimedSeq
  settled : OrderedMap ℤ ℚ
  deriving DecidableEq

/-- The numbers of a range, in order. -/
def numbers (r : Range ℤ) : List ℤ :=
  (List.range (r.stop - r.start).toNat).map fun i : ℕ => r.start + (i : ℤ)

/-- One step of `ranges` (lines 312–314). -/
def extend (maxRange : ℤ) (out : List (Range ℤ)) (s : ℤ) : List (Range ℤ) :=
  match out.getLast? with
  | none => [{ start := s, stop := s + 1 }]
  | some last =>
    if last.stop = s ∧ last.stop - last.start < maxRange then
      out.dropLast ++ [{ last with stop := s + 1 }]
    else out ++ [{ start := s, stop := s + 1 }]

/-- `ranges` (lines 308–317). -/
def ranges (nums : List ℤ) (maxRange : ℤ) : List (Range ℤ) :=
  (nums.mergeSort fun a b => a ≤ b).foldl (extend maxRange) []

namespace SeqTracker

/-- `SeqTracker.MAX_SETTLED`, `SeqTracker.MAX_GAP` and `SeqTracker.CLAIM_TTL_MS`. -/
def maxSettled : ℕ := 8192
def maxGap : ℤ := 4096
def claimTtl : ℚ := 30000

/-- A new tracker. -/
def new : SeqTracker :=
  { highest := -1, last := none, missing := .empty, claimed := .empty, settled := .empty }

/-- The hint of a gap (lines 233–237). -/
def gapHint (t : SeqTracker) (seq : ℤ) (loc : Option SeqHint) : Option SeqHint :=
  match t.last, loc with
  | some prev, some loc =>
    if seq - t.highest > 1 ∧ prev.rpcId = loc.rpcId ∧ prev.stop < loc.start then
      some { rpcId := loc.rpcId, start := prev.stop, stop := loc.start }
    else none
  | _, _ => none

/-- The map after the loop of line 238. -/
def noteMissing (nums : List ℤ) (m : MissingSeq) (missing : OrderedMap ℤ MissingSeq) :
    OrderedMap ℤ MissingSeq :=
  nums.foldl (fun missing s => missing.set s m) missing

/-- `arrive` (lines 227–247); `loc` is the parameter `where`. -/
def arrive (t : SeqTracker) (seq : ℤ) (now : ℚ) (loc : Option SeqHint) : SeqArrival × SeqTracker :=
  if seq > t.highest then
    (.new, { t with
      missing :=
        if seq - t.highest - 1 ≤ maxGap then
          noteMissing (numbers { start := t.highest + 1, stop := seq }) { since := now, hint := t.gapHint seq loc } t.missing
        else t.missing
      highest := seq
      last := loc })
  else if t.missing.has seq then (.reordered, { t with missing := t.missing.delete seq })
  else if t.claimed.has seq then (.spurious, { t with claimed := t.claimed.delete seq })
  else if t.settled.has seq then (.spurious, { t with settled := t.settled.delete seq })
  else (.duplicate, t)

/-- The condition of `detect` (lines 261–262). -/
def Lost (t : SeqTracker) (now allowance windowMs : ℚ) (tailWindowMs : WithTop ℚ) (s : ℤ) (since : ℚ) :
    Prop :=
  ((t.highest - s : ℤ) : ℚ) ≥ allowance ∧ now - since ≥ windowMs ∨ (now - since : ℚ) ≥ tailWindowMs

instance (t : SeqTracker) (now allowance windowMs : ℚ) (tailWindowMs : WithTop ℚ) (s : ℤ) (since : ℚ) :
    Decidable (t.Lost now allowance windowMs tailWindowMs s since) := inferInstanceAs (Decidable (_ ∨ _))

/-- The second loop of `detect` (lines 264–268). -/
def claim (now : ℚ) (t : SeqTracker) (lost : List (ℤ × MissingSeq)) : SeqTracker :=
  lost.foldl (fun t e =>
    { t with missing := t.missing.delete e.1
             claimed := t.claimed.set e.1 { askedAt := now, tries := 1, hint := e.2.hint } }) t

/-- `detect` (lines 258–270). -/
def detect (t : SeqTracker) (now allowance windowMs : ℚ) (tailWindowMs : WithTop ℚ) (maxRange : ℤ) :
    List (Range ℤ) × SeqTracker :=
  let lost := t.missing.entries.filter fun e => t.Lost now allowance windowMs tailWindowMs e.1 e.2.since
  (ranges (lost.map Prod.fst) maxRange, claim now t lost)

/-- The body of the first loop of `repeats` (lines 287–296), on the tracker and `due`. -/
def again (now delayMs : ℚ) (maxTries : ℕ) (repaired : SeqHint → Bool) (acc : SeqTracker × List ℤ)
    (e : ℤ × ClaimedSeq) : SeqTracker × List ℤ :=
  let (t, due) := acc
  let (s, c) := e
  if now - c.askedAt < delayMs then (t, due)
  else if c.tries ≥ maxTries ∨ c.hint.any repaired then
    ({ t with claimed := t.claimed.delete s, settled := t.settled.set s now }, due)
  else
    ({ t with claimed := t.claimed.modify s fun c => { c with askedAt := now, tries := c.tries + 1 } },
      due ++ [s])

/-- The second loop of `repeats` (lines 299–302), over the entries from here on. -/
def forget (now : ℚ) : List (ℤ × ℚ) → OrderedMap ℤ ℚ → OrderedMap ℤ ℚ
  | [], settled => settled
  | (s, since) :: rest, settled =>
    if settled.size ≤ maxSettled ∧ now - since ≤ claimTtl then settled
    else forget now rest (settled.delete s)

/-- `repeats` (lines 278–304). -/
def repeats (t : SeqTracker) (now delayMs : ℚ) (maxTries : ℕ) (repaired : SeqHint → Bool) (maxRange : ℤ) :
    List (Range ℤ) × SeqTracker :=
  let (t, due) := t.claimed.entries.foldl (again now delayMs maxTries repaired) (t, [])
  (ranges due maxRange, { t with settled := forget now t.settled.entries t.settled })

end SeqTracker

/-! ## The ranges of a list of numbers -/

theorem mem_numbers {r : Range ℤ} {n : ℤ} : n ∈ numbers r ↔ r.start ≤ n ∧ n < r.stop := by
  rw [numbers, List.mem_map]
  constructor
  · rintro ⟨i, hi, rfl⟩
    rw [List.mem_range] at hi
    omega
  · intro h
    exact ⟨(n - r.start).toNat, List.mem_range.mpr (by omega), by omega⟩

/-- A range that grows by one number. -/
theorem numbers_succ {start stop : ℤ} (h : start ≤ stop) :
    numbers { start := start, stop := stop + 1 } = numbers { start := start, stop := stop } ++ [stop] := by
  have hlen : (stop + 1 - start).toNat = (stop - start).toNat + 1 := by omega
  rw [numbers, numbers, hlen, List.range_succ, List.map_append, List.map_singleton]
  congr 2
  rw [Int.toNat_of_nonneg (by omega)]
  exact add_sub_cancel start stop

theorem numbers_single (n : ℤ) : numbers { start := n, stop := n + 1 } = [n] := by
  rw [numbers_succ le_rfl]
  simp [numbers]

/-- `extend` adds its number at the end. -/
theorem numbers_extend (maxRange : ℤ) {out : List (Range ℤ)} (hout : ∀ r ∈ out, r.start < r.stop) (s : ℤ) :
    (∀ r ∈ extend maxRange out s, r.start < r.stop) ∧
      (extend maxRange out s).flatMap numbers = out.flatMap numbers ++ [s] := by
  have hpush : (∀ r ∈ out ++ [(⟨s, s + 1⟩ : Range ℤ)], r.start < r.stop) ∧
      (out ++ [(⟨s, s + 1⟩ : Range ℤ)]).flatMap numbers = out.flatMap numbers ++ [s] := by
    refine ⟨List.forall_mem_append.mpr ⟨hout, by simp⟩, ?_⟩
    rw [List.flatMap_append, List.flatMap_singleton, numbers_single]
  rcases List.eq_nil_or_concat' out with rfl | ⟨front, last, rfl⟩
  · exact hpush
  · rw [extend, List.getLast?_concat]
    dsimp only
    split_ifs with h
    · obtain ⟨rfl, -⟩ := h
      obtain ⟨hfront, hlast⟩ := List.forall_mem_append.mp hout
      have hlt := hlast last List.mem_cons_self
      rw [List.dropLast_concat]
      refine ⟨List.forall_mem_append.mpr ⟨hfront, by simp; omega⟩, ?_⟩
      rw [List.flatMap_append, List.flatMap_singleton, List.flatMap_append, List.flatMap_singleton,
        numbers_succ hlt.le, List.append_assoc]
    · exact hpush

theorem ranges_nonempty (nums : List ℤ) (maxRange : ℤ) : ∀ r ∈ ranges nums maxRange, r.start < r.stop := by
  have hfold (l : List ℤ) : ∀ out : List (Range ℤ), (∀ r ∈ out, r.start < r.stop) →
      ∀ r ∈ l.foldl (extend maxRange) out, r.start < r.stop := by
    induction l with
    | nil => exact fun _ hout => hout
    | cons s l ih => exact fun out hout => ih _ (numbers_extend maxRange hout s).1
  exact hfold _ [] (by simp)

/-- **The ranges of a list of numbers hold exactly these numbers**, each as often as
    the list does. -/
theorem numbers_ranges (nums : List ℤ) (maxRange : ℤ) :
    ((ranges nums maxRange).flatMap numbers).Perm nums := by
  have hfold (l : List ℤ) : ∀ out : List (Range ℤ), (∀ r ∈ out, r.start < r.stop) →
      (l.foldl (extend maxRange) out).flatMap numbers = out.flatMap numbers ++ l := by
    induction l with
    | nil => simp
    | cons s l ih =>
      intro out hout
      obtain ⟨hext, heq⟩ := numbers_extend maxRange hout s
      rw [List.foldl_cons, ih _ hext, heq, List.append_assoc, List.singleton_append]
  rw [ranges, hfold _ [] (by simp), List.flatMap_nil, List.nil_append]
  exact List.mergeSort_perm nums _

namespace SeqTracker

/-! ## The maps read back -/

theorem get?_noteMissing (nums : List ℤ) (m : MissingSeq) (missing : OrderedMap ℤ MissingSeq) (n : ℤ) :
    (noteMissing nums m missing).get? n = if n ∈ nums then some m else missing.get? n := by
  induction nums generalizing missing with
  | nil => simp [noteMissing]
  | cons s nums ih =>
    rw [noteMissing, List.foldl_cons, ← noteMissing, ih, OrderedMap.get?_set]
    by_cases hs : n = s <;> by_cases hn : n ∈ nums <;> simp [hs, hn]

/-- What `detect` claims leaves `missing` for `claimed`. -/
theorem claim_cases (now : ℚ) (t : SeqTracker) (lost : List (ℤ × MissingSeq)) :
    (claim now t lost).highest = t.highest ∧ (claim now t lost).settled = t.settled ∧ ∀ n,
      (n ∉ lost.map Prod.fst → (claim now t lost).missing.get? n = t.missing.get? n ∧
        (claim now t lost).claimed.get? n = t.claimed.get? n) ∧
      (n ∈ lost.map Prod.fst → (claim now t lost).missing.get? n = none ∧
        ∃ hint, (claim now t lost).claimed.get? n = some { askedAt := now, tries := 1, hint := hint }) := by
  induction lost generalizing t with
  | nil => simp [claim]
  | cons e lost ih =>
    obtain ⟨hhighest, hsettled, hget⟩ := ih { t with
      missing := t.missing.delete e.1
      claimed := t.claimed.set e.1 { askedAt := now, tries := 1, hint := e.2.hint } }
    rw [claim, List.foldl_cons, ← claim]
    refine ⟨hhighest, hsettled, fun n => ?_⟩
    obtain ⟨hout, hin⟩ := hget n
    rw [List.map_cons, List.mem_cons]
    by_cases hn : n ∈ lost.map Prod.fst
    · exact ⟨fun h => absurd (.inr hn) h, fun _ => hin hn⟩
    · obtain ⟨hmissing, hclaimed⟩ := hout hn
      rw [hmissing, hclaimed, OrderedMap.get?_delete, OrderedMap.get?_set]
      by_cases hs : n = e.1
      · simp [hs]
      · simp [hs, hn]

/-! ### The first loop of `repeats` -/

section Again

variable (now delayMs : ℚ) (maxTries : ℕ) (repaired : SeqHint → Bool)

/-- An entry does not touch other numbers. -/
theorem again_of_ne (acc : SeqTracker × List ℤ) {e : ℤ × ClaimedSeq} {n : ℤ} (hn : n ≠ e.1) :
    (again now delayMs maxTries repaired acc e).1.claimed.get? n = acc.1.claimed.get? n ∧
      (again now delayMs maxTries repaired acc e).1.settled.get? n = acc.1.settled.get? n ∧
      (again now delayMs maxTries repaired acc e).2.count n = acc.2.count n := by
  rw [again]
  split_ifs
  · exact ⟨rfl, rfl, rfl⟩
  · exact ⟨by rw [OrderedMap.get?_delete, if_neg hn], by rw [OrderedMap.get?_set, if_neg hn], rfl⟩
  · refine ⟨by rw [OrderedMap.get?_modify, if_neg hn], rfl, ?_⟩
    rw [List.count_append, List.count_singleton, if_neg (by simpa using Ne.symm hn), Nat.add_zero]

theorem foldl_again_of_notMem (l : List (ℤ × ClaimedSeq)) (acc : SeqTracker × List ℤ) {n : ℤ}
    (hn : ∀ e ∈ l, e.1 ≠ n) :
    (l.foldl (again now delayMs maxTries repaired) acc).1.claimed.get? n = acc.1.claimed.get? n ∧
      (l.foldl (again now delayMs maxTries repaired) acc).1.settled.get? n = acc.1.settled.get? n ∧
      (l.foldl (again now delayMs maxTries repaired) acc).2.count n = acc.2.count n := by
  induction l generalizing acc with
  | nil => exact ⟨rfl, rfl, rfl⟩
  | cons e l ih =>
    obtain ⟨he, hl⟩ := List.forall_mem_cons.mp hn
    obtain ⟨hclaimed, hsettled, hcount⟩ := ih (again now delayMs maxTries repaired acc e) hl
    obtain ⟨hclaimed', hsettled', hcount'⟩ := again_of_ne now delayMs maxTries repaired acc (Ne.symm he)
    exact ⟨hclaimed.trans hclaimed', hsettled.trans hsettled', hcount.trans hcount'⟩

theorem foldl_again_frame (l : List (ℤ × ClaimedSeq)) (acc : SeqTracker × List ℤ) :
    (l.foldl (again now delayMs maxTries repaired) acc).1.highest = acc.1.highest ∧
      (l.foldl (again now delayMs maxTries repaired) acc).1.missing = acc.1.missing := by
  induction l generalizing acc with
  | nil => exact ⟨rfl, rfl⟩
  | cons e l ih =>
    obtain ⟨hhighest, hmissing⟩ := ih (again now delayMs maxTries repaired acc e)
    rw [List.foldl_cons, hhighest, hmissing, again]
    split_ifs <;> exact ⟨rfl, rfl⟩

/-- What becomes of a number that is claimed: it is not due yet, it is settled, or it
    is asked for again. -/
theorem foldl_again_cases (t : SeqTracker) {n : ℤ} {c : ClaimedSeq} (hc : t.claimed.get? n = some c) :
    let r := t.claimed.entries.foldl (again now delayMs maxTries repaired) (t, [])
    (r.1.claimed.get? n = some c ∧ r.1.settled.get? n = t.settled.get? n ∧ r.2.count n = 0) ∨
      (r.1.claimed.get? n = none ∧ r.1.settled.get? n = some now ∧ r.2.count n = 0) ∨
      (c.tries < maxTries ∧
        r.1.claimed.get? n = some { askedAt := now, tries := c.tries + 1, hint := c.hint } ∧
        r.1.settled.get? n = t.settled.get? n ∧ r.2.count n = 1) := by
  intro r
  obtain ⟨front, back, heq, hfront, hback⟩ := OrderedMap.exists_split hc
  have hr : r = back.foldl (again now delayMs maxTries repaired) (again now delayMs maxTries repaired
      (front.foldl (again now delayMs maxTries repaired) (t, [])) (n, c)) := by
    simp only [r]
    rw [heq, List.foldl_append, List.foldl_cons]
  -- only the entry of `n` itself counts
  obtain ⟨hclaimed, hsettled, hcount⟩ :=
    foldl_again_of_notMem now delayMs maxTries repaired front (t, []) hfront
  obtain ⟨hclaimed', hsettled', hcount'⟩ := foldl_again_of_notMem now delayMs maxTries repaired back
    (again now delayMs maxTries repaired (front.foldl (again now delayMs maxTries repaired) (t, [])) (n, c))
    hback
  rw [hr, hclaimed', hsettled', hcount', again]
  dsimp only at hclaimed hsettled hcount ⊢
  rw [hc] at hclaimed
  split_ifs with hdue hdone
  · exact .inl ⟨hclaimed, hsettled, hcount⟩
  · exact .inr (.inl ⟨by rw [OrderedMap.get?_delete, if_pos rfl],
      by rw [OrderedMap.get?_set, if_pos rfl], hcount⟩)
  · rw [not_or, ge_iff_le, not_le] at hdone
    refine .inr (.inr ⟨hdone.1, ?_, hsettled, ?_⟩)
    · rw [OrderedMap.get?_modify, if_pos rfl, hclaimed]
      rfl
    · rw [List.count_append, hcount, List.count_singleton_self]
      rfl

end Again

/-- `forget` adds nothing. -/
theorem get?_of_get?_forget {now : ℚ} {l : List (ℤ × ℚ)} {settled : OrderedMap ℤ ℚ} {n : ℤ} {since : ℚ}
    (h : (forget now l settled).get? n = some since) : settled.get? n = some since := by
  induction l generalizing settled with
  | nil => exact h
  | cons e l ih =>
    rw [forget] at h
    split_ifs at h
    · exact h
    · have := ih h
      rw [OrderedMap.get?_delete] at this
      split_ifs at this
      exact this

/-! ## What each method does -/

theorem count_asks {l : List ℤ} {maxRange n : ℤ} :
    ((ranges l maxRange).flatMap numbers).count n = l.count n := (numbers_ranges l maxRange).count_eq n

theorem has_eq_false {α : Type*} {m : OrderedMap ℤ α} {n : ℤ} : m.has n = false ↔ m.get? n = none := by
  rw [OrderedMap.has, Option.isSome_eq_false_iff, Option.isNone_iff_eq_none]

theorem has_congr {α : Type*} {m m' : OrderedMap ℤ α} {n : ℤ} (h : m.get? n = m'.get? n) : m.has n = m'.has n := by
  rw [OrderedMap.has, OrderedMap.has, h]

/-- An arriving number that is not above the highest one is removed from wherever it
    is, and nothing else changes. -/
theorem arrive_old (t : SeqTracker) {seq : ℤ} (now : ℚ) (loc : Option SeqHint) (h : ¬ seq > t.highest) :
    (t.arrive seq now loc).2.highest = t.highest ∧ ∀ n,
      (n ≠ seq → (t.arrive seq now loc).2.missing.get? n = t.missing.get? n ∧
        (t.arrive seq now loc).2.claimed.get? n = t.claimed.get? n ∧
        (t.arrive seq now loc).2.settled.get? n = t.settled.get? n) := by
  rw [arrive, if_neg h]
  split_ifs
  all_goals
    refine ⟨rfl, fun n hn => ?_⟩
    simp [OrderedMap.get?_delete, hn]

/-- The number itself is then in none of the maps, if it was in one at most. -/
theorem arrive_old_self (t : SeqTracker) {seq : ℤ} (now : ℚ) (loc : Option SeqHint) (h : ¬ seq > t.highest)
    (hmissing : t.missing.has seq → ¬ t.claimed.has seq ∧ ¬ t.settled.has seq)
    (hclaimed : t.claimed.has seq → ¬ t.settled.has seq) :
    (t.arrive seq now loc).2.missing.get? seq = none ∧ (t.arrive seq now loc).2.claimed.get? seq = none ∧
      (t.arrive seq now loc).2.settled.get? seq = none := by
  simp only [Bool.not_eq_true, has_eq_false] at hmissing hclaimed
  rw [arrive, if_neg h]
  split_ifs with hm hc hs
  · exact ⟨by rw [OrderedMap.get?_delete, if_pos rfl], (hmissing hm).1, (hmissing hm).2⟩
  · rw [Bool.not_eq_true, has_eq_false] at hm
    exact ⟨hm, by rw [OrderedMap.get?_delete, if_pos rfl], hclaimed hc⟩
  · rw [Bool.not_eq_true, has_eq_false] at hm hc
    exact ⟨hm, hc, by rw [OrderedMap.get?_delete, if_pos rfl]⟩
  · rw [Bool.not_eq_true, has_eq_false] at hm hc hs
    exact ⟨hm, hc, hs⟩

/-- A number above the highest one makes the numbers in between missing, unless there
    are too many. -/
theorem arrive_new (t : SeqTracker) {seq : ℤ} (now : ℚ) (loc : Option SeqHint) (h : seq > t.highest) :
    (t.arrive seq now loc).2.highest = seq ∧ (t.arrive seq now loc).2.claimed = t.claimed ∧
      (t.arrive seq now loc).2.settled = t.settled ∧ ∀ n,
        (t.arrive seq now loc).2.missing.get? n =
          if t.highest < n ∧ n < seq ∧ seq - t.highest - 1 ≤ maxGap then
            some { since := now, hint := t.gapHint seq loc }
          else t.missing.get? n := by
  rw [arrive, if_pos h]
  refine ⟨rfl, rfl, rfl, fun n => ?_⟩
  dsimp only
  split_ifs with hgap hn hn
  · rw [get?_noteMissing, if_pos (mem_numbers.mpr ⟨Int.add_one_le_of_lt hn.1, hn.2.1⟩)]
  · rw [get?_noteMissing, if_neg]
    intro hmem
    obtain ⟨hlow, hlt⟩ := mem_numbers.mp hmem
    exact hn ⟨Int.lt_of_add_one_le hlow, hlt, hgap⟩
  · exact absurd hn.2.2 hgap
  · rfl

/-- The numbers that `detect` takes for lost. -/
theorem mem_lost {t : SeqTracker} {now allowance windowMs : ℚ} {tailWindowMs : WithTop ℚ} {n : ℤ} :
    n ∈ (t.missing.entries.filter fun e => t.Lost now allowance windowMs tailWindowMs e.1 e.2.since).map
        Prod.fst ↔
      ∃ m, t.missing.get? n = some m ∧ t.Lost now allowance windowMs tailWindowMs n m.since := by
  rw [List.mem_map]
  constructor
  · rintro ⟨⟨k, m⟩, hmem, rfl⟩
    obtain ⟨hmem, hlost⟩ := List.mem_filter.mp hmem
    exact ⟨m, OrderedMap.get?_eq_some_iff.mpr hmem, of_decide_eq_true hlost⟩
  · rintro ⟨m, hget, hlost⟩
    exact ⟨(n, m), List.mem_filter.mpr ⟨OrderedMap.get?_eq_some_iff.mp hget, decide_eq_true hlost⟩, rfl⟩

/-- `detect` claims the lost numbers, asking for each once, and leaves the others as
    they are. -/
theorem detect_cases (t : SeqTracker) (now allowance windowMs : ℚ) (tailWindowMs : WithTop ℚ) (maxRange : ℤ) :
    let r := t.detect now allowance windowMs tailWindowMs maxRange
    r.2.highest = t.highest ∧ r.2.settled = t.settled ∧ ∀ n,
      ((¬ ∃ m, t.missing.get? n = some m ∧ t.Lost now allowance windowMs tailWindowMs n m.since) ∧
        (r.1.flatMap numbers).count n = 0 ∧ r.2.missing.get? n = t.missing.get? n ∧
        r.2.claimed.get? n = t.claimed.get? n) ∨
      ((∃ m, t.missing.get? n = some m ∧ t.Lost now allowance windowMs tailWindowMs n m.since) ∧
        (r.1.flatMap numbers).count n = 1 ∧ r.2.missing.get? n = none ∧
        ∃ hint, r.2.claimed.get? n = some { askedAt := now, tries := 1, hint := hint }) := by
  intro r
  let lost := t.missing.entries.filter fun e => t.Lost now allowance windowMs tailWindowMs e.1 e.2.since
  have hnodup : (lost.map Prod.fst).Nodup := t.missing.nodup.sublist (List.filter_sublist.map _)
  obtain ⟨hhighest, hsettled, hget⟩ := claim_cases now t lost
  refine ⟨hhighest, hsettled, fun n => ?_⟩
  obtain ⟨hout, hin⟩ := hget n
  have hcount : (r.1.flatMap numbers).count n = (lost.map Prod.fst).count n := count_asks
  by_cases hn : n ∈ lost.map Prod.fst
  · exact .inr ⟨mem_lost.mp hn, hcount.trans (List.count_eq_one_of_mem hnodup hn), hin hn⟩
  · exact .inl ⟨mem_lost.not.mp hn, hcount.trans (List.count_eq_zero_of_not_mem hn), hout hn⟩

/-- What `detect` returns is claimed. -/
theorem has_claimed_of_mem_detect {t : SeqTracker} {now allowance windowMs : ℚ} {tailWindowMs : WithTop ℚ}
    {maxRange n : ℤ} (hn : n ∈ (t.detect now allowance windowMs tailWindowMs maxRange).1.flatMap numbers) :
    (t.detect now allowance windowMs tailWindowMs maxRange).2.claimed.has n := by
  have hlost := (numbers_ranges _ _).mem_iff.mp hn
  obtain ⟨hint, hclaimed⟩ := (((claim_cases now t _).2.2 n).2 hlost).2
  exact Option.isSome_iff_exists.mpr ⟨_, hclaimed⟩

/-- What `repeats` returns is claimed still. -/
theorem has_claimed_of_mem_repeats {t : SeqTracker} {now delayMs : ℚ} {maxTries : ℕ} {repaired : SeqHint → Bool}
    {maxRange n : ℤ} (hn : n ∈ (t.repeats now delayMs maxTries repaired maxRange).1.flatMap numbers) :
    (t.repeats now delayMs maxTries repaired maxRange).2.claimed.has n := by
  let r := t.claimed.entries.foldl (again now delayMs maxTries repaired) (t, [])
  have hdue : 0 < r.2.count n := List.count_pos_iff.mpr ((numbers_ranges _ _).mem_iff.mp hn)
  cases hc : t.claimed.get? n with
  | none =>
    have hzero := (foldl_again_of_notMem now delayMs maxTries repaired t.claimed.entries (t, [])
      (OrderedMap.get?_eq_none_iff.mp hc)).2.2
    exact absurd hdue (by rw [hzero]; exact lt_irrefl 0)
  | some c =>
    obtain ⟨-, -, hzero⟩ | ⟨-, -, hzero⟩ | ⟨-, hclaimed, -⟩ :=
      foldl_again_cases now delayMs maxTries repaired t hc
    · exact absurd hdue (by rw [hzero]; exact lt_irrefl 0)
    · exact absurd hdue (by rw [hzero]; exact lt_irrefl 0)
    · exact Option.isSome_iff_exists.mpr ⟨_, hclaimed⟩

/-- `repeats` leaves a number as it is, settles or forgets it, or asks for it once more
    if it is claimed and has not been asked for too often. -/
theorem repeats_cases (t : SeqTracker) (now delayMs : ℚ) (maxTries : ℕ) (repaired : SeqHint → Bool)
    (maxRange : ℤ) :
    let r := t.repeats now delayMs maxTries repaired maxRange
    r.2.highest = t.highest ∧ r.2.missing = t.missing ∧ ∀ n,
      (t.claimed.has n → ¬ t.settled.has n) →
      ((r.1.flatMap numbers).count n = 0 ∧ r.2.claimed.get? n = t.claimed.get? n ∧
        r.2.settled.has n = t.settled.has n) ∨
      ((r.1.flatMap numbers).count n = 0 ∧ (t.claimed.has n ∨ t.settled.has n) ∧
        r.2.claimed.get? n = none) ∨
      ((r.1.flatMap numbers).count n = 1 ∧ r.2.settled.has n = false ∧ t.settled.has n = false ∧
        ∃ c, t.claimed.get? n = some c ∧ c.tries < maxTries ∧
          r.2.claimed.get? n = some { askedAt := now, tries := c.tries + 1, hint := c.hint }) := by
  intro r
  obtain ⟨hhighest, hmissing⟩ := foldl_again_frame now delayMs maxTries repaired t.claimed.entries (t, [])
  refine ⟨hhighest, hmissing, fun n hexcl => ?_⟩
  let r₁ := t.claimed.entries.foldl (again now delayMs maxTries repaired) (t, [])
  have hcount : (r.1.flatMap numbers).count n = r₁.2.count n := count_asks
  have hclaimed : r.2.claimed = r₁.1.claimed := rfl
  have hsettled : r.2.settled = forget now r₁.1.settled.entries r₁.1.settled := rfl
  rw [hcount, hclaimed, hsettled]
  have hforget (h : t.settled.get? n = none) (hsame : r₁.1.settled.get? n = t.settled.get? n) :
      (forget now r₁.1.settled.entries r₁.1.settled).has n = false := by
    rw [has_eq_false, Option.eq_none_iff_forall_ne_some]
    intro since hsince
    have := get?_of_get?_forget hsince
    rw [hsame, h] at this
    cases this
  cases hc : t.claimed.get? n with
  | none =>
    obtain ⟨hsame, hsame', hzero⟩ := foldl_again_of_notMem now delayMs maxTries repaired t.claimed.entries
      (t, []) (OrderedMap.get?_eq_none_iff.mp hc)
    cases hs : (forget now r₁.1.settled.entries r₁.1.settled).has n with
    | true =>
      obtain ⟨since, hsince⟩ := Option.isSome_iff_exists.mp hs
      have := get?_of_get?_forget hsince
      refine .inl ⟨hzero, hsame.trans hc, ?_⟩
      rw [OrderedMap.has, ← hsame', this]
      rfl
    | false =>
      cases hold : t.settled.has n with
      | true => exact .inr (.inl ⟨hzero, .inr rfl, hsame.trans hc⟩)
      | false => exact .inl ⟨hzero, hsame.trans hc, rfl⟩
  | some c =>
    have hhas : t.claimed.has n = true := by rw [OrderedMap.has, hc]; rfl
    have hno : t.settled.get? n = none := by
      have := hexcl hhas
      rwa [Bool.not_eq_true, has_eq_false] at this
    obtain ⟨hkeep, hsame, hzero⟩ | ⟨hgone, -, hzero⟩ | ⟨htries, hagain, hsame, hcount⟩ :=
      foldl_again_cases now delayMs maxTries repaired t hc
    · exact .inl ⟨hzero, hkeep, (hforget hno hsame).trans (has_eq_false.mpr hno).symm⟩
    · exact .inr (.inl ⟨hzero, .inl hhas, hgone⟩)
    · exact .inr (.inr ⟨hcount, hforget hno hsame, has_eq_false.mpr hno, c, rfl, htries, hagain⟩)

/-- The numbers that may be asked for lie below the highest one. -/
structure Bounded (t : SeqTracker) : Prop where
  highest : -1 ≤ t.highest
  below : ∀ n, t.missing.has n ∨ t.claimed.has n → 0 ≤ n ∧ n < t.highest

theorem has_of_has_delete {α : Type*} {m : OrderedMap ℤ α} {k n : ℤ} (h : (m.delete k).has n) : m.has n := by
  rw [OrderedMap.has, OrderedMap.get?_delete] at h
  split_ifs at h
  · cases h
  · exact h

theorem bounded_new : Bounded new := ⟨le_rfl, fun _ h => by rcases h with h | h <;> cases h⟩

section Bounded

variable {t : SeqTracker} (h : t.Bounded)
include h

theorem Bounded.arrive (seq : ℤ) (now : ℚ) (loc : Option SeqHint) : (t.arrive seq now loc).2.Bounded := by
  have hlow := h.highest
  by_cases hnew : seq > t.highest
  · obtain ⟨hhighest, hclaimed, -, hmissing⟩ := arrive_new t now loc hnew
    refine ⟨by omega, fun n hn => ?_⟩
    rw [OrderedMap.has, hmissing, hclaimed] at hn
    rw [hhighest]
    split_ifs at hn with hgap
    · omega
    · have := h.below n hn
      omega
  · rw [SeqTracker.arrive, if_neg hnew]
    split_ifs
    · exact ⟨h.highest, fun n hn => h.below n (hn.imp_left has_of_has_delete)⟩
    · exact ⟨h.highest, fun n hn => h.below n (hn.imp_right has_of_has_delete)⟩
    · exact ⟨h.highest, h.below⟩
    · exact h

theorem Bounded.detect (now allowance windowMs : ℚ) (tailWindowMs : WithTop ℚ) (maxRange : ℤ) :
    (t.detect now allowance windowMs tailWindowMs maxRange).2.Bounded := by
  obtain ⟨hhighest, -, hcases⟩ := detect_cases t now allowance windowMs tailWindowMs maxRange
  refine ⟨hhighest ▸ h.highest, fun n hn => ?_⟩
  rw [hhighest]
  obtain ⟨-, -, hmissing, hclaimed⟩ | ⟨⟨m, hm, -⟩, -⟩ := hcases n
  · rw [has_congr hmissing, has_congr hclaimed] at hn
    exact h.below n hn
  · exact h.below n (.inl (by rw [OrderedMap.has, hm]; rfl))

theorem Bounded.repeats (now delayMs : ℚ) (maxTries : ℕ) (repaired : SeqHint → Bool) (maxRange : ℤ) :
    (t.repeats now delayMs maxTries repaired maxRange).2.Bounded := by
  obtain ⟨hhighest, hmissing⟩ := foldl_again_frame now delayMs maxTries repaired t.claimed.entries (t, [])
  refine ⟨hhighest.ge.trans' h.highest, fun n hn => ?_⟩
  have hsame : (t.repeats now delayMs maxTries repaired maxRange).2.highest = t.highest := hhighest
  rw [hsame]
  refine h.below n (hn.imp (fun hm => ?_) fun hc => ?_)
  · rwa [← hmissing]
  · -- what is claimed afterwards was claimed before
    by_contra hnone
    rw [Bool.not_eq_true, has_eq_false] at hnone
    have := (foldl_again_of_notMem now delayMs maxTries repaired t.claimed.entries (t, [])
      (OrderedMap.get?_eq_none_iff.mp hnone)).1
    rw [hnone] at this
    exact absurd hc (by rw [Bool.not_eq_true, has_eq_false]; exact this)

end Bounded

end SeqTracker

end Http4.Client
