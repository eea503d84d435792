import Http4.Data.Ranges

/-!
# Sweeping over sorted ranges

What a sorted list of ranges leaves uncovered, which ranges meet others, and the
difference of two lists, each computed in one pass over both lists.

Main results:

* `gapsFrom_spec`: the gaps of a canonical list below a limit.
* `mem_meeting`: the ranges that meet one of another list.
* `subtract_spec`: the difference of two ordered lists.
* `ordered_mergeSort`: sorting ranges that share no points by their starts.
* `within_subtract`: the difference makes up no bounds of its own.
-/

namespace Ranges

variable {α : Type*} [LinearOrder α]

/-- Non-empty ranges in order, which may touch but share no point. -/
structure Ordered (l : List (Range α)) : Prop where
  nonempty : ∀ r ∈ l, r.start < r.stop
  apart : l.Pairwise fun r s => r.stop ≤ s.start

namespace Ordered

theorem nil : Ordered ([] : List (Range α)) := ⟨by simp, List.Pairwise.nil⟩

theorem cons_iff {r : Range α} {l : List (Range α)} :
    Ordered (r :: l) ↔ r.start < r.stop ∧ (∀ s ∈ l, r.stop ≤ s.start) ∧ Ordered l := by
  constructor
  · rintro ⟨hne, hap⟩
    obtain ⟨hr, hne⟩ := List.forall_mem_cons.mp hne
    obtain ⟨hrl, hap⟩ := List.pairwise_cons.mp hap
    exact ⟨hr, hrl, hne, hap⟩
  · rintro ⟨hr, hrl, hne, hap⟩
    exact ⟨List.forall_mem_cons.mpr ⟨hr, hne⟩, List.pairwise_cons.mpr ⟨hrl, hap⟩⟩

theorem append_iff {l m : List (Range α)} :
    Ordered (l ++ m) ↔ Ordered l ∧ Ordered m ∧ ∀ r ∈ l, ∀ s ∈ m, r.stop ≤ s.start := by
  constructor
  · rintro ⟨hne, hap⟩
    obtain ⟨hl, hm⟩ := List.forall_mem_append.mp hne
    obtain ⟨hpl, hpm, hlm⟩ := List.pairwise_append.mp hap
    exact ⟨⟨hl, hpl⟩, ⟨hm, hpm⟩, hlm⟩
  · rintro ⟨⟨hl, hpl⟩, ⟨hm, hpm⟩, hlm⟩
    exact ⟨List.forall_mem_append.mpr ⟨hl, hm⟩, List.pairwise_append.mpr ⟨hpl, hpm, hlm⟩⟩

theorem sublist {l m : List (Range α)} (h : Ordered m) (hlm : l.Sublist m) : Ordered l :=
  ⟨fun r hr => h.nonempty r (hlm.subset hr), h.apart.sublist hlm⟩

end Ordered

/-! ## Gaps -/

/-- The gaps of a sorted list between `pos` and `limit`. -/
def gapsFrom (limit : α) : α → List (Range α) → List (Range α)
  | pos, [] => if pos < limit then [{ start := pos, stop := limit }] else []
  | pos, r :: rest =>
    if pos ≥ limit then []
    else
      (if r.start > pos then [{ start := pos, stop := min r.start limit }] else []) ++
        gapsFrom limit r.stop rest

theorem gapsFrom_spec (limit : α) {l : List (Range α)} (h : Ordered l) (pos : α)
    (hpos : ∀ r ∈ l, pos ≤ r.start) :
    Ordered (gapsFrom limit pos l) ∧
      toSet (gapsFrom limit pos l) = {x | pos ≤ x ∧ x < limit ∧ x ∉ toSet l} := by
  induction l generalizing pos with
  | nil =>
    rw [gapsFrom]
    split_ifs with hlim
    · refine ⟨Ordered.cons_iff.mpr ⟨hlim, by simp, Ordered.nil⟩, ?_⟩
      ext x
      simp [Range.mem_toSet]
    · refine ⟨Ordered.nil, ?_⟩
      ext x
      simp only [toSet_nil, Set.mem_empty_iff_false, Set.mem_ofPred_eq, false_iff, not_and]
      exact fun hx hlt => absurd (hx.trans_lt hlt) hlim
  | cons r rest ih =>
    obtain ⟨hne, hrest, hord⟩ := Ordered.cons_iff.mp h
    have hr := hpos r List.mem_cons_self
    rw [gapsFrom]
    by_cases hlim : pos ≥ limit
    · rw [if_pos hlim]
      refine ⟨Ordered.nil, ?_⟩
      ext x
      simp only [toSet_nil, Set.mem_empty_iff_false, Set.mem_ofPred_eq, false_iff, not_and]
      exact fun hx hlt => absurd (hx.trans_lt hlt) (not_lt.mpr hlim)
    rw [if_neg hlim]
    obtain ⟨hgaps, hset⟩ := ih hord r.stop hrest
    -- what the rest of the pass lists starts at the end of `r` or later
    have hlater : ∀ t ∈ gapsFrom limit r.stop rest, r.stop ≤ t.start := by
      intro t ht
      have hmem : t.start ∈ toSet (gapsFrom limit r.stop rest) := ⟨t, ht, le_rfl, hgaps.nonempty t ht⟩
      rw [hset] at hmem
      exact hmem.1
    have hafter {x : α} (hx : x ∈ toSet rest) : r.stop ≤ x := by
      obtain ⟨t, ht, htx, -⟩ := hx
      exact (hrest t ht).trans htx
    have hcover (x : α) : x ∈ toSet (r :: rest) ↔ (r.start ≤ x ∧ x < r.stop) ∨ x ∈ toSet rest := by
      rw [toSet_cons]
      rfl
    split_ifs with hgap
    · rw [List.singleton_append]
      refine ⟨Ordered.cons_iff.mpr ⟨lt_min hgap (not_le.mp hlim), fun t ht => ?_, hgaps⟩, ?_⟩
      · exact (min_le_left _ _).trans (hne.le.trans (hlater t ht))
      · ext x
        rw [toSet_cons, hset, Set.mem_union, Range.mem_toSet, lt_min_iff]
        simp only [Set.mem_ofPred_eq, hcover, not_or, not_and, not_lt]
        constructor
        · rintro (⟨hx, hlt, hlim⟩ | ⟨hx, hlim, hnot⟩)
          · exact ⟨hx, hlim, fun hle => absurd hle (not_le.mpr hlt),
              fun hmem => absurd (hlt.trans hne) (not_lt.mpr (hafter hmem))⟩
          · exact ⟨hgap.le.trans (hne.le.trans hx), hlim, fun _ => hx, hnot⟩
        · rintro ⟨hx, hlim, hout, hnot⟩
          rcases lt_or_ge x r.start with hlt | hge
          · exact .inl ⟨hx, hlt, hlim⟩
          · exact .inr ⟨hout hge, hlim, hnot⟩
    · rw [List.nil_append]
      obtain rfl : pos = r.start := le_antisymm hr (not_lt.mp hgap)
      refine ⟨hgaps, ?_⟩
      ext x
      rw [hset]
      simp only [Set.mem_ofPred_eq, hcover, not_or, not_and, not_lt]
      exact ⟨fun ⟨hx, hlim, hnot⟩ => ⟨hne.le.trans hx, hlim, fun _ => hx, hnot⟩,
        fun ⟨hx, hlim, hout, hnot⟩ => ⟨hout hx, hlim, hnot⟩⟩

/-! ## Ranges that meet others -/

/-- The elements whose range meets one of `opens`. -/
def meeting {β : Type*} (range : β → Range α) : List (Range α) → List β → List β
  | _, [] => []
  | opens, p :: ps =>
    let opens := opens.dropWhile fun g => g.stop ≤ (range p).start
    match opens.head? with
    | some g => if g.start < (range p).stop then p :: meeting range opens ps else meeting range opens ps
    | none => meeting range opens ps

theorem meeting_sublist {β : Type*} (range : β → Range α) (opens : List (Range α)) (ps : List β) :
    (meeting range opens ps).Sublist ps := by
  induction ps generalizing opens with
  | nil => exact List.Sublist.refl _
  | cons p ps ih =>
    rw [meeting]
    split
    · split_ifs
      · exact (ih _).cons_cons p
      · exact (ih _).cons p
    · exact (ih _).cons p

/-- What the pass has left behind meets no later range. -/
theorem mem_dropWhile_iff {opens : List (Range α)} {a : α} {g : Range α}
    (hg : a < g.stop) : g ∈ opens.dropWhile (fun g => g.stop ≤ a) ↔ g ∈ opens := by
  refine ⟨fun h => (List.dropWhile_sublist _).subset h, fun h => ?_⟩
  rw [← List.takeWhile_append_dropWhile (p := fun g => decide (g.stop ≤ a)) (l := opens),
    List.mem_append] at h
  refine h.resolve_left fun htake => ?_
  have := List.mem_takeWhile_imp htake
  exact absurd hg (not_lt.mpr (by simpa using this))

theorem mem_meeting {β : Type*} {range : β → Range α} {opens : List (Range α)} {ps : List β}
    (hopens : Ordered opens) (hps : Ordered (ps.map range)) {p : β} :
    p ∈ meeting range opens ps ↔
      p ∈ ps ∧ ∃ g ∈ opens, g.start < (range p).stop ∧ (range p).start < g.stop := by
  induction ps generalizing opens with
  | nil => simp [meeting]
  | cons q ps ih =>
    obtain ⟨hq, hlater, hps⟩ := Ordered.cons_iff.mp hps
    set rest := opens.dropWhile fun g => g.stop ≤ (range q).start with hrest
    have hord : Ordered rest := hopens.sublist (List.dropWhile_sublist _)
    -- for `q` and what comes after it, only `rest` matters
    have hsame {p : β} (hp : (range q).start ≤ (range p).start) :
        (∃ g ∈ rest, g.start < (range p).stop ∧ (range p).start < g.stop) ↔
          ∃ g ∈ opens, g.start < (range p).stop ∧ (range p).start < g.stop := by
      constructor
      · rintro ⟨g, hg, hmeet⟩
        exact ⟨g, (List.dropWhile_sublist _).subset hg, hmeet⟩
      · rintro ⟨g, hg, hmeet⟩
        exact ⟨g, (mem_dropWhile_iff (hp.trans_lt hmeet.2)).mpr hg, hmeet⟩
    have hafter {p : β} (hp : p ∈ ps) : (range q).start ≤ (range p).start :=
      hq.le.trans (hlater _ (List.mem_map_of_mem hp))
    -- the first range left decides about `q`
    have hfirst : (∃ g ∈ rest, g.start < (range q).stop ∧ (range q).start < g.stop) ↔
        ∃ g, rest.head? = some g ∧ g.start < (range q).stop := by
      constructor
      · rintro ⟨g, hg, hlt, -⟩
        obtain ⟨first, more, heq⟩ := List.exists_cons_of_ne_nil (List.ne_nil_of_mem hg)
        refine ⟨first, by rw [heq]; rfl, ?_⟩
        rw [heq] at hg hord
        obtain ⟨hne, hmore, -⟩ := Ordered.cons_iff.mp hord
        rcases List.mem_cons.mp hg with rfl | hg
        · exact hlt
        · exact (hne.trans_le (hmore g hg)).trans hlt
      · rintro ⟨g, hg, hlt⟩
        refine ⟨g, List.mem_of_head? hg, hlt, ?_⟩
        have := List.head?_dropWhile_not (fun g : Range α => decide (g.stop ≤ (range q).start)) opens
        rw [← hrest, hg] at this
        simpa using this
    have hnil : meeting range opens (q :: ps) =
        if ∃ g, rest.head? = some g ∧ g.start < (range q).stop then q :: meeting range rest ps
        else meeting range rest ps := by
      rw [meeting, ← hrest]
      cases hhead : rest.head? with
      | none => simp
      | some g => simp
    rw [hnil, List.mem_cons]
    split_ifs with hmeets
    · rw [List.mem_cons, ih hord hps]
      constructor
      · rintro (rfl | ⟨hp, hmeet⟩)
        · exact ⟨.inl rfl, (hsame le_rfl).mp (hfirst.mpr hmeets)⟩
        · exact ⟨.inr hp, (hsame (hafter hp)).mp hmeet⟩
      · rintro ⟨rfl | hp, hmeet⟩
        · exact .inl rfl
        · exact .inr ⟨hp, (hsame (hafter hp)).mpr hmeet⟩
    · rw [ih hord hps]
      constructor
      · rintro ⟨hp, hmeet⟩
        exact ⟨.inr hp, (hsame (hafter hp)).mp hmeet⟩
      · rintro ⟨rfl | hp, hmeet⟩
        · exact absurd (hfirst.mp ((hsame le_rfl).mpr hmeet)) hmeets
        · exact ⟨hp, (hsame (hafter hp)).mpr hmeet⟩

/-! ## Differences -/

/-- What is left of the range from `pos` to `stop` without the ranges of a list. -/
def cut (stop : α) : α → List (Range α) → List (Range α)
  | pos, [] => if pos < stop then [{ start := pos, stop := stop }] else []
  | pos, p :: ps =>
    if p.start < stop then
      (if p.start > pos then [{ start := pos, stop := p.start }] else []) ++ cut stop (max pos p.stop) ps
    else if pos < stop then [{ start := pos, stop := stop }] else []

/-- What is left of the first list without the ranges of the second. -/
def subtract : List (Range α) → List (Range α) → List (Range α)
  | [], _ => []
  | g :: gaps, live =>
    let live := live.dropWhile fun p => p.stop ≤ g.start
    cut g.stop g.start live ++ subtract gaps live

theorem cut_spec (stop : α) {live : List (Range α)} (h : Ordered live) (pos : α)
    (hpos : ∀ p ∈ live, pos < p.stop) :
    Ordered (cut stop pos live) ∧
      toSet (cut stop pos live) = {x | pos ≤ x ∧ x < stop ∧ x ∉ toSet live} := by
  induction live generalizing pos with
  | nil =>
    rw [cut]
    split_ifs with hlt
    · refine ⟨Ordered.cons_iff.mpr ⟨hlt, by simp, Ordered.nil⟩, ?_⟩
      ext x
      simp [Range.mem_toSet]
    · refine ⟨Ordered.nil, ?_⟩
      ext x
      simp only [toSet_nil, Set.mem_empty_iff_false, Set.mem_ofPred_eq, false_iff, not_and]
      exact fun hx hlt' => absurd (hx.trans_lt hlt') hlt
  | cons p ps ih =>
    obtain ⟨hne, hlater, hord⟩ := Ordered.cons_iff.mp h
    have hp := hpos p List.mem_cons_self
    have hcover (x : α) : x ∈ toSet (p :: ps) ↔ (p.start ≤ x ∧ x < p.stop) ∨ x ∈ toSet ps := by
      rw [toSet_cons]
      rfl
    have hafter {x : α} (hx : x ∈ toSet ps) : p.stop ≤ x := by
      obtain ⟨t, ht, htx, -⟩ := hx
      exact (hlater t ht).trans htx
    rw [cut]
    by_cases hstart : p.start < stop
    swap
    · -- this range and the later ones start behind the end
      rw [if_neg hstart]
      have hnone {x : α} (hx : x < stop) : x ∉ toSet (p :: ps) := by
        rw [hcover]
        rintro (⟨hle, -⟩ | hmem)
        · exact hstart (hle.trans_lt hx)
        · exact hstart ((hne.le.trans (hafter hmem)).trans_lt hx)
      split_ifs with hlt
      · refine ⟨Ordered.cons_iff.mpr ⟨hlt, by simp, Ordered.nil⟩, ?_⟩
        ext x
        rw [toSet_cons, toSet_nil, Set.union_empty, Range.mem_toSet, Set.mem_ofPred_eq]
        exact ⟨fun ⟨hx, hlt⟩ => ⟨hx, hlt, hnone hlt⟩, fun ⟨hx, hlt, _⟩ => ⟨hx, hlt⟩⟩
      · refine ⟨Ordered.nil, ?_⟩
        ext x
        simp only [toSet_nil, Set.mem_empty_iff_false, Set.mem_ofPred_eq, false_iff, not_and]
        exact fun hx hlt' => absurd (hx.trans_lt hlt') hlt
    rw [if_pos hstart, max_eq_right hp.le]
    obtain ⟨hcut, hset⟩ := ih hord p.stop fun t ht => (hlater t ht).trans_lt (hord.nonempty t ht)
    have hbehind : ∀ t ∈ cut stop p.stop ps, p.stop ≤ t.start := by
      intro t ht
      have hmem : t.start ∈ toSet (cut stop p.stop ps) := ⟨t, ht, le_rfl, hcut.nonempty t ht⟩
      rw [hset] at hmem
      exact hmem.1
    split_ifs with hgap
    · rw [List.singleton_append]
      refine ⟨Ordered.cons_iff.mpr ⟨hgap, fun t ht => hne.le.trans (hbehind t ht), hcut⟩, ?_⟩
      ext x
      rw [toSet_cons, hset, Set.mem_union, Range.mem_toSet]
      simp only [Set.mem_ofPred_eq, hcover, not_or, not_and, not_lt]
      constructor
      · rintro (⟨hx, hlt⟩ | ⟨hx, hlt, hnot⟩)
        · exact ⟨hx, hlt.trans hstart, fun hle => absurd hle (not_le.mpr hlt),
            fun hmem => absurd (hlt.trans hne) (not_lt.mpr (hafter hmem))⟩
        · exact ⟨hgap.le.trans (hne.le.trans hx), hlt, fun _ => hx, hnot⟩
      · rintro ⟨hx, hlt, hout, hnot⟩
        rcases lt_or_ge x p.start with hbefore | hge
        · exact .inl ⟨hx, hbefore⟩
        · exact .inr ⟨hout hge, hlt, hnot⟩
    · rw [List.nil_append]
      refine ⟨hcut, ?_⟩
      ext x
      rw [hset]
      simp only [Set.mem_ofPred_eq, hcover, not_or, not_and, not_lt]
      exact ⟨fun ⟨hx, hlt, hnot⟩ => ⟨hp.le.trans hx, hlt, fun _ => hx, hnot⟩,
        fun ⟨hx, hlt, hout, hnot⟩ => ⟨hout ((not_lt.mp hgap).trans hx), hlt, hnot⟩⟩

/-- **One pass subtracts an ordered list from an ordered list.** -/
theorem subtract_spec {gaps live : List (Range α)} (hgaps : Ordered gaps) (hlive : Ordered live) :
    Ordered (subtract gaps live) ∧ toSet (subtract gaps live) = toSet gaps \ toSet live := by
  induction gaps generalizing live with
  | nil => exact ⟨Ordered.nil, by simp [subtract]⟩
  | cons g gaps ih =>
    obtain ⟨hne, hlater, hgaps⟩ := Ordered.cons_iff.mp hgaps
    rw [subtract]
    set rest := live.dropWhile fun p => p.stop ≤ g.start with hrest
    have hord : Ordered rest := hlive.sublist (List.dropWhile_sublist _)
    -- what is dropped ends before `g` and the later gaps
    have hsame {x : α} (hx : g.start ≤ x) : x ∈ toSet rest ↔ x ∈ toSet live := by
      rw [mem_toSet, mem_toSet]
      constructor
      · rintro ⟨p, hp, hmem⟩
        exact ⟨p, (List.dropWhile_sublist _).subset hp, hmem⟩
      · rintro ⟨p, hp, hle, hlt⟩
        exact ⟨p, (mem_dropWhile_iff (hx.trans_lt hlt)).mpr hp, hle, hlt⟩
    have hpos : ∀ p ∈ rest, g.start < p.stop := by
      intro p hp
      have := not_of_mem_dropWhile (p := fun p : Range α => decide (p.stop ≤ g.start)) (l := live)
        (hlive.apart.imp_of_mem fun {r s} hr hs hrs h => by
          have := hlive.nonempty s hs
          simp only [decide_eq_true_eq] at h ⊢
          exact hrs.trans (this.le.trans h)) p hp
      simpa using this
    obtain ⟨hcut, hcutSet⟩ := cut_spec g.stop hord g.start hpos
    obtain ⟨hsub, hsubSet⟩ := ih hgaps hord
    refine ⟨Ordered.append_iff.mpr ⟨hcut, hsub, fun r hr t ht => ?_⟩, ?_⟩
    · have hstop : r.stop ≤ g.stop := by
        by_contra hlt
        have hmem : max r.start g.stop ∈ toSet (cut g.stop g.start rest) :=
          ⟨r, hr, le_max_left _ _, max_lt (hcut.nonempty r hr) (not_le.mp hlt)⟩
        rw [hcutSet] at hmem
        exact absurd hmem.2.1 (not_lt.mpr (le_max_right _ _))
      have hstart : t.start ∈ toSet (subtract gaps rest) := ⟨t, ht, le_rfl, hsub.nonempty t ht⟩
      rw [hsubSet] at hstart
      obtain ⟨⟨s, hs, hle, -⟩, -⟩ := hstart
      exact hstop.trans ((hlater s hs).trans hle)
    · rw [toSet_append, hcutSet, hsubSet, toSet_cons]
      ext x
      simp only [Set.mem_union, Set.mem_ofPred_eq, Set.mem_sdiff, Range.mem_toSet]
      constructor
      · rintro (⟨hx, hlt, hnot⟩ | ⟨hmem, hnot⟩)
        · exact ⟨.inl ⟨hx, hlt⟩, fun h => hnot ((hsame hx).mpr h)⟩
        · obtain ⟨s, hs, hle, hlt⟩ := id hmem
          have hx : g.start ≤ x := hne.le.trans ((hlater s hs).trans hle)
          exact ⟨.inr hmem, fun h => hnot ((hsame hx).mpr h)⟩
      · rintro ⟨⟨hx, hlt⟩ | hmem, hnot⟩
        · exact .inl ⟨hx, hlt, fun h => hnot ((hsame hx).mp h)⟩
        · obtain ⟨s, hs, hle, hlt⟩ := id hmem
          have hx : g.start ≤ x := hne.le.trans ((hlater s hs).trans hle)
          exact .inr ⟨hmem, fun h => hnot ((hsame hx).mp h)⟩

/-- Two ranges that share no point: one of them ends before the other starts. -/
theorem apart_of_disjoint {r s : Range α} (hr : r.start < r.stop) (hs : s.start < s.stop)
    (h : ∀ x, x ∈ r.toSet → x ∉ s.toSet) : r.stop ≤ s.start ∨ s.stop ≤ r.start := by
  by_contra hmeet
  rw [not_or, not_le, not_le] at hmeet
  exact h (max r.start s.start) ⟨le_max_left _ _, max_lt hr hmeet.1⟩
    ⟨le_max_right _ _, max_lt hmeet.2 hs⟩

/-! ## Sorting -/

/-- Ranges that share no points, sorted by their starts. -/
theorem ordered_mergeSort {β : Type*} {f : β → Range α} {l : List β}
    (hne : ∀ p ∈ l, (f p).start < (f p).stop)
    (hapart : l.Pairwise fun p q => (f p).stop ≤ (f q).start ∨ (f q).stop ≤ (f p).start) :
    Ordered ((l.mergeSort fun p q => (f p).start ≤ (f q).start).map f) := by
  set sorted := l.mergeSort fun p q => (f p).start ≤ (f q).start with hsorted
  have hperm : sorted.Perm l := List.mergeSort_perm l _
  have hle : sorted.Pairwise fun p q => (f p).start ≤ (f q).start := by
    have := @List.pairwise_mergeSort _ (fun p q => decide ((f p).start ≤ (f q).start))
      (fun a b c hab hbc => by
        simp only [decide_eq_true_eq] at hab hbc ⊢
        exact hab.trans hbc)
      (fun a b => by simpa using le_total _ _) l
    simpa using this
  have hdisj := (hperm.pairwise_iff fun {p q} h => h.symm).mpr hapart
  constructor
  · intro r hr
    obtain ⟨p, hp, rfl⟩ := List.mem_map.mp hr
    exact hne p (hperm.mem_iff.mp hp)
  · rw [List.pairwise_map]
    refine (hle.and hdisj).imp_of_mem fun {p q} _ hq h => ?_
    obtain ⟨hstart, hbefore | hafter⟩ := h
    · exact hbefore
    · exact absurd (hafter.trans hstart) (not_le.mpr (hne q (hperm.mem_iff.mp hq)))

/-! ## Bounds -/

/-- A non-empty range with its bounds in `S`. -/
structure Within (S : Set α) (r : Range α) : Prop where
  start_mem : r.start ∈ S
  stop_mem : r.stop ∈ S
  nonempty : r.start < r.stop

section Within

variable {S : Set α}

theorem within_cut {stop : α} (hstop : stop ∈ S) {live : List (Range α)} {pos : α} (hpos : pos ∈ S)
    (hlive : ∀ p ∈ live, Within S p) : ∀ g ∈ cut stop pos live, Within S g := by
  have hlast {pos : α} (hpos : pos ∈ S) :
      ∀ g ∈ (if pos < stop then [{ start := pos, stop := stop }] else [] : List (Range α)), Within S g := by
    split_ifs with hlt
    · exact List.forall_mem_singleton.mpr ⟨hpos, hstop, hlt⟩
    · simp
  induction live generalizing pos with
  | nil => exact hlast hpos
  | cons p ps ih =>
    obtain ⟨hp, hps⟩ := List.forall_mem_cons.mp hlive
    have hmax : max pos p.stop ∈ S := by
      rcases max_choice pos p.stop with h | h <;> rw [h]
      · exact hpos
      · exact hp.stop_mem
    rw [cut]
    by_cases hstart : p.start < stop
    · rw [if_pos hstart]
      refine List.forall_mem_append.mpr ⟨?_, ih hmax hps⟩
      split_ifs with hgap
      · exact List.forall_mem_singleton.mpr ⟨hpos, hp.start_mem, hgap⟩
      · simp
    · rw [if_neg hstart]
      exact hlast hpos

theorem within_subtract {gaps live : List (Range α)} (hgaps : ∀ g ∈ gaps, Within S g)
    (hlive : ∀ p ∈ live, Within S p) : ∀ g ∈ subtract gaps live, Within S g := by
  induction gaps generalizing live with
  | nil => simp [subtract]
  | cons g gaps ih =>
    obtain ⟨hg, hgaps⟩ := List.forall_mem_cons.mp hgaps
    have hrest : ∀ p ∈ live.dropWhile fun p => p.stop ≤ g.start, Within S p :=
      fun p hp => hlive p ((List.dropWhile_sublist _).subset hp)
    rw [subtract]
    exact List.forall_mem_append.mpr ⟨within_cut hg.stop_mem hg.start_mem hrest, ih hgaps hrest⟩

end Within

end Ranges
