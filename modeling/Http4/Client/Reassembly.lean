import Http4.Data.Bytes
import Http4.Data.Ranges

/-!
# Reassembly

Model of the class `Reassembly` of `client/src/reassembly.ts` (lines 9–83).
Offsets and limits are integers, so that the checks of `add` against negative
values are kept.

`Contents` says what the class is for: a partial function from offsets to the
byte last received there. Main results:

* `represents_add`: `add` is `Contents.put` on the represented contents.
* `reassembly_correct`: after any sequence of `add` calls every reading of the
  class is the corresponding reading of the contents.
-/

namespace Http4.Client

/-! ## The class -/

/-- `class Reassembly`; the fields `ranges` and `_received` are private. -/
structure Reassembly where
  size : ℕ
  bytes : Bytes
  ranges : List (Range ℕ)
  received : ℤ
  deriving DecidableEq

/-- `throw new RangeError(...)` of `add`, with the values it prints. -/
structure RangeError where
  offset : ℤ
  stop : ℤ
  size : ℕ
  deriving DecidableEq

namespace Reassembly

/-- The constructor (lines 16–19). -/
def new (size : ℕ) : Reassembly :=
  { size := size, bytes := List.replicate size 0, ranges := [], received := 0 }

/-- `get complete()`. -/
def complete (s : Reassembly) : Bool := s.received == s.size

/-- `get contiguous()` (lines 31–34). -/
def contiguous (s : Reassembly) : ℕ :=
  match s.ranges.head? with
  | some first => if first.start = 0 then first.stop else 0
  | none => 0

/-- `get frontier()` (lines 37–39). -/
def frontier (s : Reassembly) : ℕ :=
  match s.ranges.getLast? with
  | some last => last.stop
  | none => 0

/-- The first `while` loop of `add` (line 56), from position `i` on. -/
def skip (offset : ℕ) : List (Range ℕ) → ℕ → ℕ
  | [], i => i
  | r :: rest, i => if r.stop < offset then skip offset rest (i + 1) else i

/-- The variables of the second loop of `add`. -/
structure Merge where
  j : ℕ
  covered : ℕ
  start : ℕ
  stop : ℕ

/-- The second `while` loop of `add` (lines 58–64), from position `m.j` on.
    The difference of natural numbers is the `Math.max(0, …)` of the source. -/
def absorb (offset stop : ℕ) : List (Range ℕ) → Merge → Merge
  | [], m => m
  | r :: rest, m =>
    if r.start ≤ stop then
      absorb offset stop rest
        { j := m.j + 1, covered := m.covered + (min r.stop stop - max r.start offset),
          start := min m.start r.start, stop := max m.stop r.stop }
    else m

/-- `ranges.splice(i, n, r)`. -/
def splice (l : List (Range ℕ)) (i n : ℕ) (r : Range ℕ) : List (Range ℕ) :=
  l.take i ++ r :: l.drop (i + n)

/-- `bytes.set(payload, offset)`. -/
def set (bytes : Bytes) (payload : Bytes) (offset : ℕ) : Bytes :=
  bytes.take offset ++ payload ++ bytes.drop (offset + payload.length)

/-- What `add` does with a non-empty payload that fits (lines 49–68). -/
def store (s : Reassembly) (offset : ℕ) (payload : Bytes) : ℤ × Reassembly :=
  let stop := offset + payload.length
  let i := skip offset s.ranges 0
  let m := absorb offset stop (s.ranges.drop i)
    { j := i, covered := 0, start := offset, stop := stop }
  let fresh : ℤ := payload.length - m.covered
  (fresh, { s with bytes := set s.bytes payload offset
                   ranges := splice s.ranges i (m.j - i) { start := m.start, stop := m.stop }
                   received := s.received + fresh })

/-- `add` (lines 45–69). -/
def add (s : Reassembly) (offset : ℤ) (payload : Bytes) : Except RangeError (ℤ × Reassembly) :=
  let stop := offset + payload.length
  if offset < 0 ∨ stop > s.size then .error { offset := offset, stop := stop, size := s.size }
  else if payload.length = 0 then .ok (0, s)
  else .ok (s.store offset.toNat payload)

/-- The loop of `missing` and what follows it (lines 75–81), from `at` on. -/
def missingFrom (limit : ℤ) : ℕ → List (Range ℕ) → List (Range ℕ)
  | pos, [] => if (pos : ℤ) < limit then [{ start := pos, stop := limit.toNat }] else []
  | pos, r :: rest =>
    if (pos : ℤ) ≥ limit then []
    else
      (if r.start > pos then [{ start := pos, stop := (min (r.start : ℤ) limit).toNat }] else []) ++
        missingFrom limit r.stop rest

/-- `missing(limit)` (lines 72–82). -/
def missing (s : Reassembly) (limit : ℤ) : List (Range ℕ) := missingFrom limit 0 s.ranges

/-- One call of `add`; a caller that catches its exception keeps the object. -/
def call (s : Reassembly) (a : ℤ × Bytes) : Reassembly :=
  match s.add a.1 a.2 with
  | .ok (_, s') => s'
  | .error _ => s

end Reassembly

/-! ## What it stands for -/

/-- The bytes received so far, by offset. -/
def Contents := ℕ → Option UInt8

namespace Contents

/-- Nothing received. -/
def empty : Contents := fun _ => none

/-- The offsets received. -/
def dom (w : Contents) : Set ℕ := {k | w k ≠ none}

/-- `payload` received at `offset`; it replaces what was there. -/
def put (w : Contents) (offset : ℕ) (payload : Bytes) : Contents := fun k =>
  if offset ≤ k ∧ k < offset + payload.length then payload[k - offset]? else w k

/-- The calls that `add` accepts for an asset of `size` bytes. -/
def Fits (size : ℕ) (offset : ℤ) (payload : Bytes) : Prop :=
  0 ≤ offset ∧ offset + payload.length ≤ size

instance (size : ℕ) (offset : ℤ) (payload : Bytes) : Decidable (Fits size offset payload) :=
  inferInstanceAs (Decidable (_ ∧ _))

/-- The contents after a sequence of calls, of which the rejected ones count
    for nothing. -/
def after (size : ℕ) (calls : List (ℤ × Bytes)) : Contents :=
  calls.foldl (fun w a => if Fits size a.1 a.2 then w.put a.1.toNat a.2 else w) empty

theorem dom_put (w : Contents) (offset : ℕ) (payload : Bytes) :
    (w.put offset payload).dom = w.dom ∪ Set.Ico offset (offset + payload.length) := by
  ext k
  simp only [dom, put, Set.mem_ofPred_eq, Set.mem_union, Set.mem_Ico]
  split_ifs with h
  · simp only [h, and_self, or_true, iff_true]
    rw [List.getElem?_eq_getElem (by omega)]
    simp
  · simp [h]

end Contents

/-! ## The loops of `add` -/

namespace Reassembly

open Ranges (Canonical hull)

theorem skip_eq (offset : ℕ) (l : List (Range ℕ)) (i : ℕ) :
    skip offset l i = i + (l.takeWhile fun r => r.stop < offset).length := by
  induction l generalizing i with
  | nil => rfl
  | cons r l ih =>
    rw [skip]
    split_ifs with h
    · rw [ih, List.takeWhile_cons_of_pos (by simpa using h), List.length_cons]
      omega
    · rw [List.takeWhile_cons_of_neg (by simpa using h), List.length_nil, Nat.add_zero]

/-- The second loop runs over the ranges that start by `stop`. -/
theorem absorb_eq (offset stop : ℕ) (l : List (Range ℕ)) (m : Merge) :
    absorb offset stop l m =
      let mid := l.takeWhile fun r => r.start ≤ stop
      { j := m.j + mid.length,
        covered := m.covered + (mid.map fun r => min r.stop stop - max r.start offset).sum,
        start := (hull ⟨m.start, m.stop⟩ mid).start,
        stop := (hull ⟨m.start, m.stop⟩ mid).stop } := by
  induction l generalizing m with
  | nil => rfl
  | cons r l ih =>
    rw [absorb]
    split_ifs with h
    · rw [ih, List.takeWhile_cons_of_pos (by simpa using h)]
      simp only [List.length_cons, List.map_cons, List.sum_cons, Ranges.hull_cons, Merge.mk.injEq,
        and_true]
      omega
    · rw [List.takeWhile_cons_of_neg (by simpa using h)]
      simp

/-- `add` cuts the list into the ranges that end before the payload, those that
    touch it and those that start after it, and replaces the middle part by its
    hull with the payload. -/
theorem store_eq {s : Reassembly} (h : Canonical s.ranges) (offset : ℕ) (payload : Bytes) :
    ∃ left mid right, s.ranges = left ++ (mid ++ right) ∧
      (∀ r ∈ left, r.stop < offset) ∧
      (∀ r ∈ mid, offset ≤ r.stop ∧ r.start ≤ offset + payload.length) ∧
      (∀ r ∈ right, offset + payload.length < r.start) ∧
      s.store offset payload =
        let fresh : ℤ := payload.length - (mid.map fun r =>
          min r.stop (offset + payload.length) - max r.start offset).sum
        (fresh, { s with bytes := set s.bytes payload offset
                         ranges := left ++ hull ⟨offset, offset + payload.length⟩ mid :: right
                         received := s.received + fresh }) := by
  set stop := offset + payload.length with hstop
  set before : Range ℕ → Bool := fun r => r.stop < offset with hbefore
  set upto : Range ℕ → Bool := fun r => r.start ≤ stop with hupto
  set left := s.ranges.takeWhile before with hleft
  set rest := s.ranges.dropWhile before with hrest
  have hcut : s.ranges = left ++ (rest.takeWhile upto ++ rest.dropWhile upto) := by
    rw [List.takeWhile_append_dropWhile, List.takeWhile_append_dropWhile]
  have hcanon := h
  rw [hcut, Ranges.Canonical.append_iff, List.takeWhile_append_dropWhile] at hcanon
  refine ⟨left, rest.takeWhile upto, rest.dropWhile upto, hcut, ?_, ?_, ?_, ?_⟩
  · intro r hr
    simpa [hbefore] using List.mem_takeWhile_imp hr
  · intro r hr
    refine ⟨?_, by simpa [hupto] using List.mem_takeWhile_imp hr⟩
    have hsorted : s.ranges.Pairwise fun r t => before t = true → before r = true := by
      refine h.apart.imp_of_mem fun {r t} _ ht hrt => ?_
      have := h.nonempty t ht
      simp only [hbefore, decide_eq_true_eq]
      omega
    have := Ranges.not_of_mem_dropWhile hsorted r ((List.takeWhile_sublist _).subset hr)
    simpa [hbefore] using this
  · intro r hr
    have hsorted : rest.Pairwise fun r t => upto t = true → upto r = true := by
      refine hcanon.2.1.apart.imp_of_mem fun {r t} hr _ hrt => ?_
      have := hcanon.2.1.nonempty r hr
      simp only [hupto, decide_eq_true_eq]
      omega
    have := Ranges.not_of_mem_dropWhile hsorted r hr
    simpa [hupto] using this
  · have hskip : skip offset s.ranges 0 = left.length := by rw [skip_eq, Nat.zero_add]
    have hdrop : s.ranges.drop left.length = rest := by
      rw [hcut, List.takeWhile_append_dropWhile, List.drop_left]
    have hsplice (x : Range ℕ) :
        splice s.ranges left.length (rest.takeWhile upto).length x =
          left ++ x :: rest.dropWhile upto := by
      rw [splice, hcut, List.take_left, ← List.append_assoc, ← List.length_append, List.drop_left]
    simp only [store, hskip, hdrop, absorb_eq, Nat.add_sub_cancel_left, ← hstop, Nat.zero_add]
    rw [hsplice]

/-! ## `add` is `put` -/

/-- The object holds the contents `w`. -/
structure Represents (s : Reassembly) (w : Contents) : Prop where
  canonical : Canonical s.ranges
  toSet_ranges : Ranges.toSet s.ranges = w.dom
  received : s.received = w.dom.ncard
  length_bytes : s.bytes.length = s.size
  inside : ∀ k ∈ w.dom, k < s.size
  bytes : ∀ k b, w k = some b → s.bytes[k]? = some b

theorem represents_new (size : ℕ) : Represents (new size) Contents.empty where
  canonical := Ranges.Canonical.nil
  toSet_ranges := by simp [new, Contents.dom, Contents.empty]
  received := by simp [new, Contents.dom, Contents.empty]
  length_bytes := by simp [new]
  inside := by simp [Contents.dom, Contents.empty]
  bytes := by simp [Contents.empty]

theorem getElem?_set {bytes payload : Bytes} {offset : ℕ}
    (h : offset + payload.length ≤ bytes.length) (k : ℕ) :
    (set bytes payload offset)[k]? =
      if offset ≤ k ∧ k < offset + payload.length then payload[k - offset]? else bytes[k]? := by
  have htake : (bytes.take offset).length = offset := by simp; omega
  rw [set, List.append_assoc, List.getElem?_append, htake]
  split_ifs with h1 h2 h2
  · omega
  · rw [List.getElem?_take_of_lt h1]
  · rw [List.getElem?_append_left (by omega)]
  · rw [List.getElem?_append_right (by omega), List.getElem?_drop]
    congr 1
    omega

/-- A payload that fits is stored, and what `add` returns is the number of
    offsets it had not covered yet. -/
theorem Represents.store {s : Reassembly} {w : Contents} (h : Represents s w) {offset : ℕ}
    {payload : Bytes} (hfits : offset + payload.length ≤ s.size) (hpos : 0 < payload.length) :
    (s.store offset payload).1 = (Set.Ico offset (offset + payload.length) \ w.dom).ncard ∧
      Represents (s.store offset payload).2 (w.put offset payload) := by
  obtain ⟨left, mid, right, hcut, hleft, hmid, hright, hstore⟩ := store_eq h.canonical offset payload
  set stop := offset + payload.length with hstop
  have hcanon : Canonical (left ++ (mid ++ right)) := hcut ▸ h.canonical
  have hmidc : Canonical mid :=
    (Ranges.Canonical.append_iff.mp (Ranges.Canonical.append_iff.mp hcanon).2.1).1
  have hsum : (mid.map fun r => min r.stop stop - max r.start offset).sum =
      (Set.Ico offset stop ∩ w.dom).ncard := by
    rw [Ranges.sum_overlap hmidc, ← h.toSet_ranges, hcut]
    exact congrArg Set.ncard
      (Ranges.inter_eq_of_apart (r := ⟨offset, stop⟩) hleft hright).symm
  have hsplit := Set.ncard_inter_add_ncard_sdiff_eq_ncard (Set.Ico offset stop) w.dom
    (Set.finite_Ico _ _)
  rw [Ranges.ncard_Ico] at hsplit
  have hfresh : (payload.length : ℤ) -
      (mid.map fun r => min r.stop stop - max r.start offset).sum =
        (Set.Ico offset stop \ w.dom).ncard := by
    rw [hsum]; omega
  have hfin : w.dom.Finite := h.toSet_ranges ▸ Ranges.finite_toSet _
  have hset : Ranges.toSet (left ++ hull ⟨offset, stop⟩ mid :: right) = (w.put offset payload).dom := by
    rw [Ranges.toSet_replace hmid, ← hcut, h.toSet_ranges, Contents.dom_put]
    rfl
  rw [hstore]
  refine ⟨hfresh, Ranges.canonical_replace hcanon (by simp only; omega) hleft hright, hset, ?_, ?_,
    ?_, ?_⟩
  · simp only [hfresh, h.received]
    rw [Contents.dom_put, ← Set.union_sdiff_self,
      Set.ncard_union_eq Set.disjoint_sdiff_right hfin ((Set.finite_Ico _ _).sdiff)]
    push_cast
    rfl
  · have hlen := h.length_bytes
    simp only [set, List.length_append, List.length_take, List.length_drop]
    omega
  · intro k hk
    rw [Contents.dom_put] at hk
    rcases hk with hk | hk
    · exact h.inside k hk
    · exact lt_of_lt_of_le hk.2 hfits
  · intro k b hk
    rw [getElem?_set (by rw [h.length_bytes]; exact hfits)]
    rw [Contents.put] at hk
    split_ifs at hk ⊢ with hin
    · exact hk
    · exact h.bytes k b hk

/-- **`add` is `put`**: it accepts exactly what fits, returns the number of
    offsets it had not covered yet, and then holds the contents with the
    payload put in. -/
theorem Represents.add {s : Reassembly} {w : Contents} (h : Represents s w) {offset : ℤ}
    {payload : Bytes} (hfits : Contents.Fits s.size offset payload) :
    ∃ s', s.add offset payload =
        .ok (((Set.Ico offset.toNat (offset.toNat + payload.length) \ w.dom).ncard : ℤ), s') ∧
      s'.size = s.size ∧ Represents s' (w.put offset.toNat payload) := by
  obtain ⟨h0, hle⟩ := hfits
  have hgood : ¬ (offset < 0 ∨ offset + payload.length > s.size) := by omega
  by_cases hempty : payload.length = 0
  · have hput : w.put offset.toNat payload = w := by
      funext k
      rw [Contents.put, if_neg (by omega)]
    refine ⟨s, ?_, rfl, by rw [hput]; exact h⟩
    rw [Reassembly.add, if_neg hgood, if_pos hempty, hempty, Nat.add_zero, Set.Ico_self, Set.empty_sdiff,
      Set.ncard_empty]
    rfl
  · have hfits : offset.toNat + payload.length ≤ s.size := by omega
    obtain ⟨hfresh, hrep⟩ := h.store hfits (by omega)
    refine ⟨(s.store offset.toNat payload).2, ?_, rfl, hrep⟩
    rw [Reassembly.add, if_neg hgood, if_neg hempty, ← hfresh]

/-- What does not fit is rejected. -/
theorem add_eq_error {s : Reassembly} {offset : ℤ} {payload : Bytes}
    (hfits : ¬ Contents.Fits s.size offset payload) :
    s.add offset payload =
      .error { offset := offset, stop := offset + payload.length, size := s.size } := by
  have hbad : offset < 0 ∨ offset + payload.length > s.size := by
    unfold Contents.Fits at hfits; omega
  rw [Reassembly.add]
  exact if_pos hbad

/-- One call is one step of `Contents.after`. -/
theorem Represents.call {s : Reassembly} {w : Contents} (h : Represents s w) (a : ℤ × Bytes) :
    (s.call a).size = s.size ∧
      Represents (s.call a) (if Contents.Fits s.size a.1 a.2 then w.put a.1.toNat a.2 else w) := by
  split_ifs with hfits
  · obtain ⟨s', hs', hsize, hrep⟩ := h.add hfits
    rw [Reassembly.call, hs']
    exact ⟨hsize, hrep⟩
  · rw [Reassembly.call, add_eq_error hfits]
    exact ⟨rfl, h⟩

/-- A sequence of calls on a new object. -/
def run (size : ℕ) (calls : List (ℤ × Bytes)) : Reassembly := calls.foldl call (new size)

theorem represents_run (size : ℕ) (calls : List (ℤ × Bytes)) :
    (run size calls).size = size ∧ Represents (run size calls) (Contents.after size calls) := by
  induction calls using List.reverseRecOn with
  | nil => exact ⟨rfl, represents_new size⟩
  | append_singleton calls a ih =>
    rw [run, Contents.after, List.foldl_append, List.foldl_append]
    have hcall := ih.2.call a
    rw [ih.1] at hcall
    exact hcall

/-! ## Readings -/

section Readings

variable {s : Reassembly} {w : Contents} (h : Represents s w)
include h

theorem Represents.complete_iff : s.complete = true ↔ w.dom = Set.Iio s.size := by
  have hsub : w.dom ⊆ Set.Iio s.size := h.inside
  have hcard : (Set.Iio s.size).ncard = s.size := by
    rw [Set.ncard_eq_toFinset_card', Set.toFinset_Iio, Nat.card_Iio]
  rw [complete, beq_iff_eq, h.received, Nat.cast_inj]
  constructor
  · intro hlen
    exact Set.eq_of_subset_of_ncard_le hsub (by omega) (Set.finite_Iio _)
  · intro hdom
    rw [hdom, hcard]

/-- `contiguous` is the end of the gap-free prefix. -/
theorem Represents.contiguous : IsGreatest {n | Set.Iio n ⊆ w.dom} s.contiguous := by
  have hcanon := h.canonical
  have hset := h.toSet_ranges
  rw [Reassembly.contiguous]
  cases hr : s.ranges with
  | nil =>
    rw [hr, Ranges.toSet_nil] at hset
    refine ⟨by simp, fun n hn => ?_⟩
    by_contra hlt
    have : (0 : ℕ) ∈ w.dom := hn (Set.mem_Iio.mpr (Nat.lt_of_not_le hlt))
    rw [← hset] at this
    exact this
  | cons r rest =>
    rw [hr] at hset hcanon
    obtain ⟨hne, hrest, -⟩ := Canonical.cons_iff.mp hcanon
    have hmem : r ∈ r :: rest := List.mem_cons_self
    simp only [List.head?_cons]
    split_ifs with h0
    · constructor
      · intro k hk
        rw [← hset]
        exact ⟨r, hmem, by omega, hk⟩
      · intro n hn
        by_contra hlt
        have : r.stop ∈ w.dom := hn (Set.mem_Iio.mpr (by omega))
        rw [← hset] at this
        exact hcanon.stop_notMem hmem this
    · refine ⟨by simp, fun n hn => ?_⟩
      by_contra hlt
      have : (0 : ℕ) ∈ w.dom := hn (Set.mem_Iio.mpr (by omega))
      rw [← hset] at this
      obtain ⟨t, ht, hle, -⟩ := this
      rcases List.mem_cons.mp ht with rfl | ht
      · omega
      · have := hrest t ht
        omega

/-- `frontier` is one past the last offset received. -/
theorem Represents.frontier : IsLeast {n | w.dom ⊆ Set.Iio n} s.frontier := by
  have hcanon := h.canonical
  have hset := h.toSet_ranges
  rw [Reassembly.frontier]
  rcases List.eq_nil_or_concat' s.ranges with hr | ⟨front, last, hr⟩
  · rw [hr, Ranges.toSet_nil] at hset
    rw [hr]
    exact ⟨by rw [Set.mem_ofPred_eq, ← hset]; exact Set.empty_subset _, fun n _ => Nat.zero_le n⟩
  · rw [hr] at hset hcanon
    simp only [hr, List.getLast?_concat]
    obtain ⟨-, hlast, hapart⟩ := Canonical.append_iff.mp hcanon
    have hne := hlast.nonempty last List.mem_cons_self
    constructor
    · intro k hk
      rw [← hset] at hk
      obtain ⟨t, ht, -, hkt⟩ := hk
      rcases List.mem_append.mp ht with ht | ht
      · have := hapart t ht last List.mem_cons_self
        exact Set.mem_Iio.mpr (by omega)
      · rw [List.mem_singleton.mp ht] at hkt
        exact hkt
    · intro n hn
      have : last.stop - 1 ∈ w.dom := by
        rw [← hset]
        exact ⟨last, by simp, by omega, by omega⟩
      have := hn this
      rw [Set.mem_Iio] at this
      omega

end Readings

/-! ## Gaps -/

/-- From `pos` on, which is before the first range or touches it only at zero,
    `missing` lists what the ranges leave uncovered. -/
theorem missingFrom_spec (limit : ℤ) {l : List (Range ℕ)} (h : Canonical l) (pos : ℕ)
    (hpos : ∀ r ∈ l, pos < r.start ∨ (pos = 0 ∧ r.start = 0)) :
    Canonical (missingFrom limit pos l) ∧
      Ranges.toSet (missingFrom limit pos l) =
        {k | pos ≤ k ∧ (k : ℤ) < limit ∧ k ∉ Ranges.toSet l} := by
  induction l generalizing pos with
  | nil =>
    rw [missingFrom]
    split_ifs with hlim
    · refine ⟨Canonical.cons_iff.mpr ⟨by simp only; omega, by simp, Canonical.nil⟩, ?_⟩
      ext k
      simp only [Ranges.mem_toSet, List.mem_singleton, exists_eq_left, Set.mem_ofPred_eq,
        Ranges.toSet_nil, Set.mem_empty_iff_false, not_false_eq_true, and_true]
      omega
    · refine ⟨Canonical.nil, ?_⟩
      ext k
      simp only [Ranges.toSet_nil, Set.mem_empty_iff_false, Set.mem_ofPred_eq, false_iff]
      omega
  | cons r rest ih =>
    obtain ⟨hne, hrest, hcanon⟩ := Canonical.cons_iff.mp h
    have hr := hpos r List.mem_cons_self
    rw [missingFrom]
    by_cases hlim : (pos : ℤ) ≥ limit
    · rw [if_pos hlim]
      refine ⟨Canonical.nil, ?_⟩
      ext k
      simp only [Ranges.toSet_nil, Set.mem_empty_iff_false, Set.mem_ofPred_eq, false_iff]
      omega
    rw [if_neg hlim]
    obtain ⟨hc, hset⟩ := ih hcanon r.stop fun t ht => .inl (hrest t ht)
    -- what the rest of the loop lists starts at the end of `r` or later
    have hlater : ∀ t ∈ missingFrom limit r.stop rest, r.stop ≤ t.start := by
      intro t ht
      have hmem : t.start ∈ Ranges.toSet (missingFrom limit r.stop rest) :=
        ⟨t, ht, le_refl _, hc.nonempty t ht⟩
      rw [hset] at hmem
      exact hmem.1
    have hcover (k : ℕ) : k ∈ Ranges.toSet (r :: rest) ↔
        (r.start ≤ k ∧ k < r.stop) ∨ k ∈ Ranges.toSet rest := by
      rw [Ranges.toSet_cons]; rfl
    have hafter (k : ℕ) (hk : k ∈ Ranges.toSet rest) : r.stop < k := by
      obtain ⟨t, ht, htk, -⟩ := hk
      exact (hrest t ht).trans_le htk
    split_ifs with hgap
    · rw [List.singleton_append]
      refine ⟨Canonical.cons_iff.mpr ⟨by simp only; omega, fun t ht => ?_, hc⟩, ?_⟩
      · have := hlater t ht
        simp only
        omega
      · ext k
        rw [Ranges.toSet_cons, hset, Set.mem_union, Range.mem_toSet]
        simp only [Set.mem_ofPred_eq, hcover]
        by_cases hk : k ∈ Ranges.toSet rest
        · have := hafter k hk
          simp only [hk, not_true_eq_false, and_false, or_false, or_true, iff_false]
          omega
        · simp only [hk, not_false_eq_true, and_true, or_false]
          omega
    · rw [List.nil_append]
      refine ⟨hc, ?_⟩
      ext k
      rw [hset]
      simp only [Set.mem_ofPred_eq, hcover]
      by_cases hk : k ∈ Ranges.toSet rest
      · simp only [hk, not_true_eq_false, and_false, or_true]
      · simp only [hk, not_false_eq_true, and_true, or_false]
        omega

theorem Represents.missing {s : Reassembly} {w : Contents} (h : Represents s w) (limit : ℤ) :
    Canonical (s.missing limit) ∧
      Ranges.toSet (s.missing limit) = {k : ℕ | (k : ℤ) < limit ∧ k ∉ w.dom} := by
  have hspec := missingFrom_spec limit h.canonical 0 fun r _ => by omega
  rw [h.toSet_ranges] at hspec
  simpa [Reassembly.missing] using hspec

/-! ## The class as a whole -/

/-- **`Reassembly` is the set of received bytes.** After any sequence of `add`
    calls, of which some may have been rejected, with `w` the bytes received:

    * the range list is the one canonical list of the offsets received;
    * the next call is accepted iff it fits, returns the number of offsets it
      newly covers, and leaves the object as it is if rejected;
    * `received`, `complete`, `contiguous` and `frontier` read off that set;
    * below any `limit ≤ size`, `missing(limit)` lists in order exactly the
      maximal ranges not received;
    * each received byte of the buffer is the last one written there. -/
theorem reassembly_correct (size : ℕ) (calls : List (ℤ × Bytes)) :
    let s := run size calls
    let w := Contents.after size calls
    (Canonical s.ranges ∧ Ranges.toSet s.ranges = w.dom ∧
      ∀ l, Canonical l → Ranges.toSet l = w.dom → l = s.ranges) ∧
    (∀ offset payload, Contents.Fits size offset payload →
      ∃ s', s.add offset payload =
          .ok (((Set.Ico offset.toNat (offset.toNat + payload.length) \ w.dom).ncard : ℤ), s') ∧
        run size (calls ++ [(offset, payload)]) = s') ∧
    (∀ offset payload, ¬ Contents.Fits size offset payload →
      s.add offset payload =
          .error { offset := offset, stop := offset + payload.length, size := size } ∧
        run size (calls ++ [(offset, payload)]) = s) ∧
    s.received = w.dom.ncard ∧
    (s.complete = true ↔ w.dom = Set.Iio size) ∧
    IsGreatest {n | Set.Iio n ⊆ w.dom} s.contiguous ∧
    IsLeast {n | w.dom ⊆ Set.Iio n} s.frontier ∧
    (∀ limit : ℤ, limit ≤ size →
      (s.missing limit).Pairwise (fun r t => r.stop < t.start) ∧
      ∀ r, r ∈ s.missing limit ↔
        Ranges.IsComponent {k : ℕ | (k : ℤ) < limit ∧ k ∉ w.dom} r) ∧
    (s.bytes.length = size ∧ ∀ k b, w k = some b → s.bytes[k]? = some b) := by
  obtain ⟨hsize, h⟩ := represents_run size calls
  have hnext (a : ℤ × Bytes) : run size (calls ++ [a]) = (run size calls).call a := by
    rw [run, List.foldl_append]; rfl
  refine ⟨⟨h.canonical, h.toSet_ranges, fun l hl hset => hl.ext h.canonical ?_⟩, ?_, ?_, h.received,
    ?_, h.contiguous, h.frontier, ?_, ?_, h.bytes⟩
  · rw [hset, h.toSet_ranges]
  · intro offset payload hfits
    rw [← hsize] at hfits
    obtain ⟨s', hs', -, -⟩ := h.add hfits
    exact ⟨s', hs', by rw [hnext, call, hs']⟩
  · intro offset payload hfits
    rw [← hsize] at hfits
    have hadd := add_eq_error hfits
    rw [hsize] at hadd
    exact ⟨hadd, by rw [hnext, call, hadd]⟩
  · rw [h.complete_iff, hsize]
  · intro limit _
    obtain ⟨hcanon, hset⟩ := h.missing limit
    refine ⟨hcanon.apart, fun r => ?_⟩
    rw [Ranges.mem_iff_isComponent hcanon, hset]
  · rw [h.length_bytes, hsize]

/-- Two payloads that touch become one range, and a third bridges the gap to
    the next; the payload past the end is rejected. -/
example : (run 8 [(0, [1, 2]), (2, [3]), (5, [6, 7]), (7, [8, 9]), (2, [4, 4, 4, 4])]).ranges =
    [⟨0, 7⟩] := by decide

end Reassembly

end Http4.Client
