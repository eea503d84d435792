import Mathlib

/-!
# Sets as sorted lists of ranges

A list of half-open ranges denotes the union of its ranges. It is `Canonical`
if its ranges are non-empty and each one ends strictly before the next starts,
so no two of them overlap or touch.

Main results:

* `mem_iff_isComponent`: the ranges of a canonical list are exactly the maximal
  ranges inside the set it denotes, so `Canonical.ext`: the set determines the
  list.
* `canonical_replace`, `toSet_replace`: replacing the ranges that touch a new
  one by their hull keeps the list canonical and adds the new range to the set.
* `sum_overlap`: over ℕ, the overlaps of the ranges with a window add up to the
  number of points they share with it.
-/

/-- The half-open range from `start` to `stop`. -/
@[ext] structure Range (α : Type*) where
  start : α
  stop : α
  deriving DecidableEq

namespace Range

variable {α : Type*} [LinearOrder α]

/-- The points of a range. -/
def toSet (r : Range α) : Set α := Set.Ico r.start r.stop

theorem mem_toSet {r : Range α} {x : α} : x ∈ r.toSet ↔ r.start ≤ x ∧ x < r.stop := Iff.rfl

end Range

namespace Ranges

variable {α : Type*} [LinearOrder α]

/-- The points of a list of ranges. -/
def toSet (l : List (Range α)) : Set α := {x | ∃ r ∈ l, x ∈ r.toSet}

theorem mem_toSet {l : List (Range α)} {x : α} :
    x ∈ toSet l ↔ ∃ r ∈ l, r.start ≤ x ∧ x < r.stop := Iff.rfl

@[simp] theorem toSet_nil : toSet ([] : List (Range α)) = ∅ := by
  ext x; simp [mem_toSet]

@[simp] theorem toSet_cons (r : Range α) (l : List (Range α)) :
    toSet (r :: l) = r.toSet ∪ toSet l := by
  ext x; simp [mem_toSet, Range.mem_toSet]

@[simp] theorem toSet_append (l m : List (Range α)) : toSet (l ++ m) = toSet l ∪ toSet m := by
  ext x; simp [mem_toSet, or_and_right, exists_or]

/-- Non-empty ranges in order, no two of them touching. -/
structure Canonical (l : List (Range α)) : Prop where
  nonempty : ∀ r ∈ l, r.start < r.stop
  apart : l.Pairwise fun r s => r.stop < s.start

namespace Canonical

theorem nil : Canonical ([] : List (Range α)) := ⟨by simp, List.Pairwise.nil⟩

theorem cons_iff {r : Range α} {l : List (Range α)} :
    Canonical (r :: l) ↔ r.start < r.stop ∧ (∀ s ∈ l, r.stop < s.start) ∧ Canonical l := by
  constructor
  · rintro ⟨hne, hap⟩
    obtain ⟨hr, hne⟩ := List.forall_mem_cons.mp hne
    obtain ⟨hrl, hap⟩ := List.pairwise_cons.mp hap
    exact ⟨hr, hrl, hne, hap⟩
  · rintro ⟨hr, hrl, hne, hap⟩
    exact ⟨List.forall_mem_cons.mpr ⟨hr, hne⟩, List.pairwise_cons.mpr ⟨hrl, hap⟩⟩

theorem append_iff {l m : List (Range α)} :
    Canonical (l ++ m) ↔ Canonical l ∧ Canonical m ∧ ∀ r ∈ l, ∀ s ∈ m, r.stop < s.start := by
  constructor
  · rintro ⟨hne, hap⟩
    obtain ⟨hl, hm⟩ := List.forall_mem_append.mp hne
    obtain ⟨hpl, hpm, hlm⟩ := List.pairwise_append.mp hap
    exact ⟨⟨hl, hpl⟩, ⟨hm, hpm⟩, hlm⟩
  · rintro ⟨⟨hl, hpl⟩, ⟨hm, hpm⟩, hlm⟩
    exact ⟨List.forall_mem_append.mpr ⟨hl, hm⟩, List.pairwise_append.mpr ⟨hpl, hpm, hlm⟩⟩

/-- Two ranges of a canonical list are one, or the first ends before the second
    starts, or the other way round. -/
theorem trichotomy {l : List (Range α)} (h : Canonical l) {r s : Range α} (hr : r ∈ l) (hs : s ∈ l) :
    r = s ∨ r.stop < s.start ∨ s.stop < r.start := by
  induction l with
  | nil => cases hr
  | cons t l ih =>
    obtain ⟨-, htl, hl⟩ := cons_iff.mp h
    rcases List.mem_cons.mp hr with rfl | hr
    · rcases List.mem_cons.mp hs with rfl | hs
      · exact .inl rfl
      · exact .inr (.inl (htl s hs))
    · rcases List.mem_cons.mp hs with heq | hs
      · exact .inr (.inr (heq ▸ htl r hr))
      · exact ih hl hr hs

/-- The end of a range is not covered. -/
theorem stop_notMem {l : List (Range α)} (h : Canonical l) {r : Range α} (hr : r ∈ l) :
    r.stop ∉ toSet l := by
  rintro ⟨s, hs, hle, hlt⟩
  have hne := h.nonempty s hs
  rcases h.trichotomy hr hs with rfl | hrs | hsr
  · exact absurd hlt (lt_irrefl _)
  · exact absurd hle (not_le.mpr hrs)
  · exact absurd (lt_trans hlt hsr) (not_lt.mpr (h.nonempty r hr).le)

/-- A covered interval lies in one range. -/
theorem exists_of_Ico_subset {l : List (Range α)} (h : Canonical l) {a b : α} (hab : a < b)
    (hsub : Set.Ico a b ⊆ toSet l) : ∃ r ∈ l, r.start ≤ a ∧ b ≤ r.stop := by
  obtain ⟨r, hr, hra, har⟩ := hsub ⟨le_refl a, hab⟩
  refine ⟨r, hr, hra, not_lt.mp fun hlt => ?_⟩
  exact h.stop_notMem hr (hsub ⟨har.le, hlt⟩)

end Canonical

/-- `r` is a maximal non-empty range inside `S`. -/
structure IsComponent (S : Set α) (r : Range α) : Prop where
  nonempty : r.start < r.stop
  subset : r.toSet ⊆ S
  maximal : ∀ a b, a ≤ r.start → r.stop ≤ b → Set.Ico a b ⊆ S → a = r.start ∧ b = r.stop

/-- **The ranges of a canonical list are the components of its set.** -/
theorem mem_iff_isComponent {l : List (Range α)} (h : Canonical l) {r : Range α} :
    r ∈ l ↔ IsComponent (toSet l) r := by
  constructor
  · intro hr
    have hne := h.nonempty r hr
    refine ⟨hne, fun x hx => ⟨r, hr, hx⟩, fun a b ha hb hsub => ?_⟩
    obtain ⟨s, hs, hsa, hbs⟩ := h.exists_of_Ico_subset (lt_of_le_of_lt ha (hne.trans_le hb)) hsub
    -- the range around `[a, b)` shares a point with `r`, so it is `r`
    rcases h.trichotomy hr hs with rfl | hrs | hsr
    · exact ⟨le_antisymm ha hsa, le_antisymm hbs hb⟩
    · exact absurd (hrs.trans_le (hsa.trans ha)) (not_lt.mpr hne.le)
    · exact absurd (hsr.trans_le (hne.le.trans (hb.trans hbs))) (lt_irrefl _)
  · rintro ⟨hne, hsub, hmax⟩
    obtain ⟨s, hs, hsr, hrs⟩ := h.exists_of_Ico_subset hne hsub
    obtain ⟨h1, h2⟩ := hmax s.start s.stop hsr hrs fun x hx => ⟨s, hs, hx⟩
    have hrs : r = s := Range.ext h1.symm h2.symm
    exact hrs ▸ hs

/-- A canonical list is determined by its set. -/
theorem Canonical.ext {l m : List (Range α)} (hl : Canonical l) (hm : Canonical m)
    (h : toSet l = toSet m) : l = m := by
  -- both lists are sorted by their starts and have the same members
  let before : Range α → Range α → Prop := fun r s => r.start < s.start
  have hirrefl : Std.Irrefl before := ⟨fun _ => lt_irrefl _⟩
  have hanti : Std.Antisymm before := ⟨fun _ _ h h' => absurd (lt_trans h h') (lt_irrefl _)⟩
  have hsorted {k : List (Range α)} (hk : Canonical k) : k.Pairwise before :=
    hk.apart.imp_of_mem fun hr _ hrs => (hk.nonempty _ hr).trans hrs
  refine (hsorted hl).eq_of_mem_iff (hsorted hm) fun r => ?_
  rw [mem_iff_isComponent hl, mem_iff_isComponent hm, h]

/-! ## Replacing what a new range touches -/

/-- The least range around `r` and all ranges of `l`. -/
def hull (r : Range α) (l : List (Range α)) : Range α :=
  l.foldl (fun h s => ⟨min h.start s.start, max h.stop s.stop⟩) r

@[simp] theorem hull_nil (r : Range α) : hull r [] = r := rfl

@[simp] theorem hull_cons (r s : Range α) (l : List (Range α)) :
    hull r (s :: l) = hull ⟨min r.start s.start, max r.stop s.stop⟩ l := rfl

theorem hull_start_le (r : Range α) (l : List (Range α)) : (hull r l).start ≤ r.start := by
  induction l generalizing r with
  | nil => exact le_refl _
  | cons s l ih => exact (ih _).trans (min_le_left _ _)

theorem le_hull_stop (r : Range α) (l : List (Range α)) : r.stop ≤ (hull r l).stop := by
  induction l generalizing r with
  | nil => exact le_refl _
  | cons s l ih => exact (le_max_left r.stop s.stop).trans (ih ⟨min r.start s.start, max r.stop s.stop⟩)

theorem lt_hull_start {x : α} {r : Range α} {l : List (Range α)} (hr : x < r.start)
    (hl : ∀ s ∈ l, x < s.start) : x < (hull r l).start := by
  induction l generalizing r with
  | nil => exact hr
  | cons s l ih =>
    obtain ⟨hs, hl⟩ := List.forall_mem_cons.mp hl
    exact ih (lt_min hr hs) hl

theorem hull_stop_lt {x : α} {r : Range α} {l : List (Range α)} (hr : r.stop < x)
    (hl : ∀ s ∈ l, s.stop < x) : (hull r l).stop < x := by
  induction l generalizing r with
  | nil => exact hr
  | cons s l ih =>
    obtain ⟨hs, hl⟩ := List.forall_mem_cons.mp hl
    exact ih (max_lt hr hs) hl

/-- The hull adds nothing between ranges that all touch `r`. -/
theorem toSet_hull {r : Range α} {l : List (Range α)}
    (h : ∀ s ∈ l, r.start ≤ s.stop ∧ s.start ≤ r.stop) :
    (hull r l).toSet = r.toSet ∪ toSet l := by
  induction l generalizing r with
  | nil => simp
  | cons s l ih =>
    obtain ⟨⟨h1, h2⟩, hl⟩ := List.forall_mem_cons.mp h
    rw [hull_cons, ih, toSet_cons, ← Set.union_assoc]
    · congr 1
      exact (Set.Ico_union_Ico' h2 h1).symm
    · exact fun t ht => ⟨(min_le_left _ _).trans (hl t ht).1, (hl t ht).2.trans (le_max_left _ _)⟩

/-- Past a prefix that satisfies `p`, nothing does, if `p` only turns from true
    to false along the list. -/
theorem not_of_mem_dropWhile {β : Type*} {p : β → Bool} {l : List β}
    (h : l.Pairwise fun r s => p s = true → p r = true) :
    ∀ s ∈ l.dropWhile p, ¬ p s = true := by
  induction l with
  | nil => simp
  | cons r l ih =>
    obtain ⟨hr, hl⟩ := List.pairwise_cons.mp h
    by_cases hp : p r = true
    · rw [List.dropWhile_cons_of_pos hp]
      exact ih hl
    · rw [List.dropWhile_cons_of_neg hp]
      exact List.forall_mem_cons.mpr ⟨hp, fun s hs hps => hp (hr s hs hps)⟩

section Replace

variable {left mid right : List (Range α)} {r : Range α}

/-- Putting the hull of `r` and the ranges it touches in their place. -/
theorem canonical_replace (h : Canonical (left ++ (mid ++ right))) (hr : r.start < r.stop)
    (hleft : ∀ s ∈ left, s.stop < r.start) (hright : ∀ s ∈ right, r.stop < s.start) :
    Canonical (left ++ hull r mid :: right) := by
  obtain ⟨hl, hmr, hlmr⟩ := Canonical.append_iff.mp h
  obtain ⟨hm, hrt, hmrt⟩ := Canonical.append_iff.mp hmr
  rw [Canonical.append_iff, Canonical.cons_iff]
  refine ⟨hl, ⟨?_, fun s hs => hull_stop_lt (hright s hs) fun t ht => hmrt t ht s hs, hrt⟩,
    fun s hs => List.forall_mem_cons.mpr ⟨?_, fun t ht => ?_⟩⟩
  · exact (hull_start_le r mid).trans_lt (hr.trans_le (le_hull_stop r mid))
  · exact lt_hull_start (hleft s hs) fun t ht => hlmr s hs t (List.mem_append_left _ ht)
  · exact hlmr s hs t (List.mem_append_right _ ht)

theorem toSet_replace (hmid : ∀ s ∈ mid, r.start ≤ s.stop ∧ s.start ≤ r.stop) :
    toSet (left ++ hull r mid :: right) = toSet (left ++ (mid ++ right)) ∪ r.toSet := by
  rw [toSet_append, toSet_cons, toSet_hull hmid, toSet_append, toSet_append]
  ext x
  simp only [Set.mem_union]
  tauto

/-- Ranges apart from `r` share no point with it. -/
theorem inter_eq_of_apart (hleft : ∀ s ∈ left, s.stop < r.start)
    (hright : ∀ s ∈ right, r.stop < s.start) :
    r.toSet ∩ toSet (left ++ (mid ++ right)) = r.toSet ∩ toSet mid := by
  ext x
  simp only [Set.mem_inter_iff, toSet_append, Set.mem_union]
  refine and_congr_right fun hx => ⟨?_, fun h => .inr (.inl h)⟩
  rintro (⟨s, hs, hsx⟩ | h | ⟨s, hs, hsx⟩)
  · exact absurd (hsx.2.trans ((hleft s hs).trans_le hx.1)) (lt_irrefl _)
  · exact h
  · exact absurd (hx.2.trans ((hright s hs).trans_le hsx.1)) (lt_irrefl _)

end Replace

/-! ## Counting points -/

section Counting

theorem finite_toSet (l : List (Range ℕ)) : (toSet l).Finite := by
  induction l with
  | nil => simp
  | cons r l ih => rw [toSet_cons]; exact (Set.finite_Ico _ _).union ih

theorem ncard_Ico (a b : ℕ) : (Set.Ico a b).ncard = b - a := by
  rw [Set.ncard_eq_toFinset_card', Set.toFinset_Ico, Nat.card_Ico]

/-- Adding up the overlaps of canonical ranges with the window `[a, b)` counts
    every shared point once. -/
theorem sum_overlap {l : List (Range ℕ)} (h : Canonical l) (a b : ℕ) :
    (l.map fun r => min r.stop b - max r.start a).sum = (Set.Ico a b ∩ toSet l).ncard := by
  induction l with
  | nil => simp
  | cons r l ih =>
    obtain ⟨-, hrl, hl⟩ := Canonical.cons_iff.mp h
    have hdisj : Disjoint (Set.Ico a b ∩ r.toSet) (Set.Ico a b ∩ toSet l) := by
      rw [Set.disjoint_left]
      rintro x ⟨-, -, hxr⟩ ⟨-, s, hs, hsx, -⟩
      exact absurd (hxr.trans (hrl s hs)) (not_lt.mpr hsx)
    have hr : (Set.Ico a b ∩ r.toSet).ncard = min r.stop b - max r.start a := by
      rw [Range.toSet, Set.Ico_inter_Ico, ncard_Ico, sup_comm, inf_comm]
    rw [List.map_cons, List.sum_cons, ih hl, toSet_cons, Set.inter_union_distrib_left,
      Set.ncard_union_eq hdisj ((Set.finite_Ico a b).inter_of_left _)
        ((Set.finite_Ico a b).inter_of_left _), hr]

end Counting

end Ranges
