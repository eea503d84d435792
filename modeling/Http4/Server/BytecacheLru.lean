import Http4.Server.Bytecache

/-!
# What the cache holds

The list and the map of `server/internal/bytecache/bytecache.go` name the same
items, and `bytes` is what those items were measured at. `Put` makes room in three
steps: it drops the item it replaces, then expired ones, then the least recently
used ones.

Main results:

* `Linked`: list, map and byte count agree; `remove`, the sweep, the eviction loop
  and the end of `Put` keep it.
* `Linked.put`: what a `Put` that stores leaves in the list.
* `lru_iff`: all this holds after every call exactly if no `Put` brings the sizes
  past the greatest `int64`, for a bound that is not negative.
-/

namespace Http4.Server

open GoStd (int64)

/-! ## The shortest suffix -/

section Cut

variable {α β : Type*}

/-- `kept` is `l` without its shortest suffix after which `P` holds. -/
structure ShortestCut (P : List α → Prop) (l kept : List α) : Prop where
  isPrefix : kept <+: l
  enough : P kept
  shortest : ∀ m, m <+: l → P m → m <+: kept

theorem ShortestCut.self {P : List α → Prop} {l : List α} (h : P l) : ShortestCut P l l :=
  ⟨List.prefix_rfl, h, fun _ hm _ => hm⟩

theorem ShortestCut.concat {P : List α → Prop} {l kept : List α} {a : α} (hnot : ¬ P (l ++ [a]))
    (h : ShortestCut P l kept) : ShortestCut P (l ++ [a]) kept := by
  refine ⟨h.isPrefix.trans (List.prefix_append l [a]), h.enough, fun m hm hP => ?_⟩
  rcases List.prefix_concat_iff.mp hm with rfl | hm
  · exact absurd hP hnot
  · exact h.shortest m hm hP

/-- Elements picked by what they stand for. -/
theorem filterMap_filter_congr {f : α → Option β} {p : α → Bool} {q : β → Bool} {l : List α}
    (h : ∀ a ∈ l, ∀ b, f a = some b → p a = q b) : (l.filter p).filterMap f = (l.filterMap f).filter q := by
  induction l with
  | nil => rfl
  | cons a l ih =>
    have ih := ih fun a' ha' => h a' (List.mem_cons_of_mem a ha')
    rw [List.filter_cons, List.filterMap_cons]
    cases hfa : f a with
    | none =>
      split_ifs
      · rw [List.filterMap_cons, hfa]
        exact ih
      · exact ih
    | some b =>
      dsimp only
      rw [List.filter_cons, h a List.mem_cons_self b hfa]
      split_ifs
      · rw [List.filterMap_cons, hfa, ih]
      · exact ih

end Cut

namespace Cache

variable {V : Type*}

/-! ## Lists of items -/

/-- The sum of the sizes that the items were measured at. -/
def total (l : List (Item V)) : ℤ := (l.map Item.size).sum

@[simp] theorem total_nil : total ([] : List (Item V)) = 0 := rfl

@[simp] theorem total_cons (it : Item V) (l : List (Item V)) : total (it :: l) = it.size + total l := rfl

@[simp] theorem total_append (l m : List (Item V)) : total (l ++ m) = total l + total m := by
  rw [total, List.map_append, List.sum_append, total, total]

theorem total_nonneg {l : List (Item V)} (h : ∀ it ∈ l, 0 ≤ it.size) : 0 ≤ total l :=
  List.sum_nonneg fun _ hx => by
    obtain ⟨it, hit, rfl⟩ := List.mem_map.mp hx
    exact h it hit

theorem total_sublist {l m : List (Item V)} (hlm : l.Sublist m) (h : ∀ it ∈ m, 0 ≤ it.size) :
    total l ≤ total m := by
  apply List.Sublist.sum_le_sum (hlm.map _)
  intro x hx
  obtain ⟨it, hit, rfl⟩ := List.mem_map.mp hx
  exact h it hit

/-- There is room for another item of this size. -/
def Fits (capacity size : ℤ) (l : List (Item V)) : Prop := total l + size ≤ capacity

instance (capacity size : ℤ) (l : List (Item V)) : Decidable (Fits capacity size l) :=
  inferInstanceAs (Decidable (_ ≤ _))

/-- The items without the one that `Put` replaces. -/
def others (key : Bytes) (l : List (Item V)) : List (Item V) := l.filter fun it => decide (it.key ≠ key)

/-- The items without the expired ones, which are dropped if room is short. -/
def swept (capacity size : ℤ) (now : Time) (l : List (Item V)) : List (Item V) :=
  if Fits capacity size l then l else l.filter fun it => !it.dead now

/-! ## List, map and byte count -/

/-- The items in the list, the most recently used first. -/
def held (c : Cache V) : List (Item V) := c.order.filterMap fun el => c.heap[el]?

/-- The map and the list hold the same keys once each, and `bytes` is the sum of
    the sizes of the items and no more than the capacity. -/
structure Accounted (c : Cache V) : Prop where
  once : (c.held.map Item.key).Nodup
  keys : (c.held.map Item.key).Perm (c.entries.entries.map Prod.fst)
  bytes : c.bytes = total c.held
  bounded : c.bytes ≤ c.capacity

/-- The list, the map, the items and the byte count agree. -/
structure Linked (c : Cache V) : Prop where
  nodup : c.order.Nodup
  inHeap : ∀ el ∈ c.order, ∃ it, c.heap[el]? = some it ∧ 0 ≤ it.size
  entries : ∀ key el, c.entries.get? key = some el ↔
    el ∈ c.order ∧ ∃ it, c.heap[el]? = some it ∧ it.key = key
  bytes : c.bytes = total c.held
  bounded : c.bytes ≤ c.capacity
  capacity_lt : c.capacity < 2 ^ 63

section Linked

variable {c c' : Cache V}

theorem mem_held_iff {it : Item V} : it ∈ c.held ↔ ∃ el ∈ c.order, c.heap[el]? = some it :=
  List.mem_filterMap

theorem Linked.size_nonneg (h : c.Linked) : ∀ it ∈ c.held, 0 ≤ it.size := by
  intro it hit
  obtain ⟨el, hel, heq⟩ := mem_held_iff.mp hit
  obtain ⟨it', hit', hpos⟩ := h.inHeap el hel
  obtain rfl := Option.some.inj (heq.symm.trans hit')
  exact hpos

/-- Two elements of the list with one key are one. -/
theorem Linked.unique (h : c.Linked) {el el' : ℕ} {it it' : Item V} (hel : el ∈ c.order) (hel' : el' ∈ c.order)
    (hit : c.heap[el]? = some it) (hit' : c.heap[el']? = some it') (hkey : it.key = it'.key) : el = el' := by
  have hmem := (h.entries it'.key el).mpr ⟨hel, it, hit, hkey⟩
  have hmem' := (h.entries it'.key el').mpr ⟨hel', it', hit', rfl⟩
  exact Option.some.inj (hmem.symm.trans hmem')

theorem Linked.accounted (h : c.Linked) : c.Accounted := by
  have honce : (c.held.map Item.key).Nodup := by
    unfold held
    rw [List.Nodup, List.pairwise_map, List.pairwise_filterMap]
    apply h.nodup.imp_of_mem
    intro el el' hel hel' hne it hit it' hit' hkey
    exact hne (h.unique hel hel' hit hit' hkey)
  refine ⟨honce, (List.perm_ext_iff_of_nodup honce c.entries.nodup).mpr fun key => ?_, h.bytes, h.bounded⟩
  constructor
  · intro hkey
    obtain ⟨it, hit, rfl⟩ := List.mem_map.mp hkey
    obtain ⟨el, hel, heq⟩ := mem_held_iff.mp hit
    have hmem := (h.entries it.key el).mpr ⟨hel, it, heq, rfl⟩
    exact List.mem_map_of_mem (OrderedMap.get?_eq_some_iff.mp hmem)
  · intro hkey
    obtain ⟨⟨key, el⟩, hmem, rfl⟩ := List.mem_map.mp hkey
    obtain ⟨hel, it, hit, rfl⟩ := (h.entries key el).mp (OrderedMap.get?_eq_some_iff.mpr hmem)
    exact List.mem_map_of_mem (mem_held_iff.mpr ⟨el, hel, hit⟩)

theorem int64_of_mem {n : ℤ} (hge : -2 ^ 63 ≤ n) (hlt : n < 2 ^ 63) : int64 n = n := by
  unfold int64
  omega

/-! ### Removing an item -/

/-- Neither counters, nor the warning, nor the order of the list matter. -/
theorem Linked.perm (h : c.Linked) (horder : c'.order.Perm c.order) (hheap : c'.heap = c.heap)
    (hentries : c'.entries = c.entries) (hbytes : c'.bytes = c.bytes) (hcapacity : c'.capacity = c.capacity) :
    c'.Linked := by
  refine ⟨horder.nodup_iff.mpr h.nodup, fun el hel => ?_, fun key el => ?_, ?_, ?_, hcapacity ▸ h.capacity_lt⟩
  · rw [hheap]
    exact h.inHeap el (horder.mem_iff.mp hel)
  · rw [hentries, hheap, horder.mem_iff]
    exact h.entries key el
  · rw [hbytes, h.bytes, held, held, hheap]
    exact ((horder.filterMap _).map Item.size).sum_eq.symm
  · rw [hbytes, hcapacity]
    exact h.bounded

theorem held_congr (horder : c'.order = c.order) (hheap : c'.heap = c.heap) : c'.held = c.held := by
  rw [held, held, horder, hheap]

theorem remove_eq {el : ℕ} {it : Item V} (hit : c.heap[el]? = some it) :
    c.remove el = { c with order := c.order.erase el, entries := c.entries.delete it.key,
                           bytes := int64 (c.bytes - it.size) } := by
  rw [remove, hit]

theorem total_held_of_mem {el : ℕ} {it : Item V} (hel : el ∈ c.order)
    (hit : c.heap[el]? = some it) :
    total c.held = it.size + total ((c.order.erase el).filterMap fun el => c.heap[el]?) := by
  have hperm := (List.perm_cons_erase hel).filterMap fun el => c.heap[el]?
  rw [List.filterMap_cons, hit] at hperm
  exact (hperm.map Item.size).sum_eq

theorem Linked.remove (h : c.Linked) {el : ℕ} {it : Item V} (hel : el ∈ c.order)
    (hit : c.heap[el]? = some it) : (c.remove el).Linked := by
  have hheld := total_held_of_mem hel hit
  have hsub : ((c.order.erase el).filterMap fun el => c.heap[el]?).Sublist c.held :=
    List.erase_sublist.filterMap _
  have hpos := total_nonneg fun it hmem => h.size_nonneg it (hsub.subset hmem)
  have hsize := h.size_nonneg it (mem_held_iff.mpr ⟨el, hel, hit⟩)
  have hlt := h.capacity_lt
  have hbytes := h.bytes
  have hbounded := h.bounded
  rw [remove_eq hit]
  have hint : int64 (c.bytes - it.size) = c.bytes - it.size := int64_of_mem (by omega) (by omega)
  refine ⟨h.nodup.erase el, fun el' hel' => h.inHeap el' (List.mem_of_mem_erase hel'), fun key el' => ?_, ?_, ?_, hlt⟩
  · show (c.entries.delete it.key).get? key = some el' ↔ el' ∈ c.order.erase el ∧ _
    rw [OrderedMap.get?_delete, h.nodup.mem_erase_iff]
    split_ifs with hkey
    · -- no other element has this key
      constructor
      · intro hnone
        cases hnone
      · rintro ⟨⟨hne, hel'⟩, it', hit', hkey'⟩
        exact absurd (h.unique hel' hel hit' hit (hkey'.trans hkey)) hne
    · rw [h.entries]
      constructor
      · rintro ⟨hel', it', hit', hkey'⟩
        refine ⟨⟨?_, hel'⟩, it', hit', hkey'⟩
        rintro rfl
        obtain rfl := Option.some.inj (hit.symm.trans hit')
        exact hkey hkey'.symm
      · rintro ⟨⟨-, hel'⟩, hrest⟩
        exact ⟨hel', hrest⟩
  · show int64 (c.bytes - it.size) = total ((c.order.erase el).filterMap fun el => c.heap[el]?)
    omega
  · show int64 (c.bytes - it.size) ≤ c.capacity
    omega

/-- What a removal leaves in the list. -/
theorem Linked.held_remove (h : c.Linked) {el : ℕ} {it : Item V} (hel : el ∈ c.order)
    (hit : c.heap[el]? = some it) : (c.remove el).held = others it.key c.held := by
  rw [remove_eq hit]
  show (c.order.erase el).filterMap (fun el => c.heap[el]?) = _
  rw [h.nodup.erase_eq_filter]
  apply filterMap_filter_congr
  intro el' hel' it' hit'
  rw [Bool.eq_iff_iff, bne_iff_ne, decide_eq_true_eq]
  constructor
  · intro hne hkey
    exact hne (h.unique hel' hel hit' hit hkey)
  · rintro hkey rfl
    exact hkey (congrArg Item.key (Option.some.inj (hit'.symm.trans hit)))

/-- The cache after a removal, up to counters and the warning. -/
theorem Linked.removed (h : c.Linked) {el : ℕ} {it : Item V} (hel : el ∈ c.order) (hit : c.heap[el]? = some it)
    (horder : c'.order = c.order.erase el) (hheap : c'.heap = c.heap)
    (hentries : c'.entries = c.entries.delete it.key) (hbytes : c'.bytes = int64 (c.bytes - it.size))
    (hcapacity : c'.capacity = c.capacity) : c'.Linked ∧ c'.held = others it.key c.held := by
  have hlinked := h.remove hel hit
  have hheld := h.held_remove hel hit
  rw [remove_eq hit] at hlinked hheld
  have hperm : c'.order.Perm (c.order.erase el) := .of_eq horder
  refine ⟨hlinked.perm hperm hheap hentries hbytes hcapacity, Eq.trans ?_ hheld⟩
  exact held_congr horder hheap

/-! ### The steps of `Put` -/

theorem others_eq_self {key : Bytes} {l : List (Item V)} (h : key ∉ l.map Item.key) : others key l = l := by
  apply List.filter_eq_self.mpr
  intro it hit
  apply decide_eq_true
  rintro rfl
  exact h (List.mem_map_of_mem hit)

theorem Linked.forget (h : c.Linked) (key : Bytes) :
    (c.forget key).Linked ∧ (c.forget key).held = others key c.held ∧
      (c.forget key).entries.get? key = none := by
  unfold Cache.forget
  cases hentry : c.entries.get? key with
  | none =>
    refine ⟨h, (others_eq_self fun hmem => ?_).symm, hentry⟩
    obtain ⟨it, hit, rfl⟩ := List.mem_map.mp hmem
    obtain ⟨el, hel, heq⟩ := mem_held_iff.mp hit
    rw [(h.entries it.key el).mpr ⟨hel, it, heq, rfl⟩] at hentry
    cases hentry
  | some el =>
    obtain ⟨hel, it, hit, rfl⟩ := (h.entries key el).mp hentry
    exact ⟨h.remove hel hit, h.held_remove hel hit, get?_entries_remove hit⟩

/-- The element holds an item that has expired. -/
def deadAt (c : Cache V) (now : Time) (el : ℕ) : Bool :=
  match c.heap[el]? with
  | none => false
  | some it => it.dead now

theorem Linked.sweep (h : c.Linked) (now : Time) {el : ℕ} (hel : el ∈ c.order) :
    (c.sweep now el).Linked ∧
      (c.sweep now el).order = if c.deadAt now el then c.order.erase el else c.order := by
  obtain ⟨it, hit, -⟩ := h.inHeap el hel
  unfold Cache.sweep deadAt
  rw [hit]
  dsimp only
  split_ifs
  · rw [remove_eq hit]
    exact ⟨And.left (h.removed hel hit rfl rfl rfl rfl rfl), rfl⟩
  · exact ⟨h, rfl⟩

/-- The loop of the sweep over some elements of the list. -/
theorem Linked.sweeps (now : Time) {els : List ℕ} (hnodup : els.Nodup) (h : c.Linked)
    (hels : ∀ el ∈ els, el ∈ c.order) :
    (els.foldl (Cache.sweep now) c).Linked ∧ (els.foldl (Cache.sweep now) c).order =
      c.order.filter fun el => !(decide (el ∈ els) && c.deadAt now el) := by
  induction els generalizing c with
  | nil => exact ⟨h, by simp⟩
  | cons el els ih =>
    obtain ⟨hnot, hnodup⟩ := List.nodup_cons.mp hnodup
    obtain ⟨hel, hels⟩ := List.forall_mem_cons.mp hels
    obtain ⟨hlinked, horder⟩ := h.sweep now hel
    have hheap : (c.sweep now el).heap = c.heap := (sheds_sweep now c el).heap
    have hdead (el' : ℕ) : (c.sweep now el).deadAt now el' = c.deadAt now el' := by
      unfold deadAt
      rw [hheap]
    have hrest : ∀ el' ∈ els, el' ∈ (c.sweep now el).order := by
      intro el' hel'
      rw [horder]
      split_ifs
      · exact (h.nodup.mem_erase_iff).mpr ⟨fun heq => hnot (heq ▸ hel'), hels el' hel'⟩
      · exact hels el' hel'
    obtain ⟨hlinked', horder'⟩ := ih hnodup hlinked hrest
    refine ⟨hlinked', ?_⟩
    rw [List.foldl_cons, horder', horder]
    simp only [hdead]
    by_cases hd : c.deadAt now el = true
    · rw [if_pos hd, h.nodup.erase_eq_filter, List.filter_filter]
      apply List.filter_congr
      intro el' _
      by_cases heq : el' = el
      · simp [heq, hd]
      · simp [heq]
    · rw [if_neg hd]
      apply List.filter_congr
      intro el' _
      by_cases heq : el' = el
      · simp [heq, hd]
      · simp [heq]

theorem Linked.sweepExpired (h : c.Linked) (now : Time) :
    (c.sweepExpired now).Linked ∧ (c.sweepExpired now).held = c.held.filter fun it => !it.dead now := by
  obtain ⟨hlinked, horder⟩ := h.sweeps now (List.nodup_reverse.mpr h.nodup)
    fun el hel => List.mem_reverse.mp hel
  refine ⟨hlinked, ?_⟩
  unfold held
  rw [(c.sheds_sweepExpired now).heap, Cache.sweepExpired, horder]
  apply filterMap_filter_congr
  intro el hel it hit
  unfold deadAt
  rw [hit, decide_eq_true (List.mem_reverse.mpr hel), Bool.true_and]

/-- The comparison in `Put` is the one it means, as long as the sum is an `int64`. -/
theorem Linked.int64_le_iff (h : c.Linked) {size : ℤ} (hsize : 0 ≤ size) (hlt : total c.held + size < 2 ^ 63) :
    int64 (c.bytes + size) ≤ c.capacity ↔ Fits c.capacity size c.held := by
  have hpos := total_nonneg h.size_nonneg
  rw [h.bytes, int64_of_mem (by omega) hlt, Fits]

theorem Linked.reclaim (h : c.Linked) {size : ℤ} (hsize : 0 ≤ size) (hlt : total c.held + size < 2 ^ 63)
    (now : Time) : (c.reclaim size now).Linked ∧
      (c.reclaim size now).held = swept c.capacity size now c.held := by
  unfold Cache.reclaim swept
  by_cases hfits : Fits c.capacity size c.held
  · rw [if_pos hfits, if_neg (not_lt.mpr ((h.int64_le_iff hsize hlt).mpr hfits))]
    exact ⟨h, rfl⟩
  · rw [if_neg hfits, if_pos (not_le.mp fun hle => hfits ((h.int64_le_iff hsize hlt).mp hle))]
    exact h.sweepExpired now

theorem getLast?_eq_append {α : Type*} {l : List α} {a : α} (h : l.getLast? = some a) :
    l = l.dropLast ++ [a] := (List.dropLast_append_getLast? a h).symm

/-- The eviction loop drops the shortest suffix of the list that makes room. -/
theorem Linked.evict {size : ℤ} (hsize : 0 ≤ size) {n : ℕ} (h : c.Linked) (hn : c.order.length ≤ n)
    (hsmall : size ≤ c.capacity) (hlt : total c.held + size < 2 ^ 63) :
    (c.evict size n).2 = true ∧ (c.evict size n).1.Linked ∧
      ShortestCut (Fits c.capacity size) c.held (c.evict size n).1.held := by
  induction n generalizing c with
  | zero =>
    have hnil : c.order = [] := List.length_eq_zero_iff.mp (by omega)
    have hheld : c.held = [] := by rw [held, hnil, List.filterMap_nil]
    have hfits : Fits c.capacity size c.held := by rwa [hheld, Fits, total_nil, zero_add]
    unfold Cache.evict
    exact ⟨decide_eq_true ((h.int64_le_iff hsize hlt).mpr hfits), h, .self hfits⟩
  | succ n ih =>
    unfold Cache.evict
    by_cases hfits : Fits c.capacity size c.held
    · rw [if_neg (not_lt.mpr ((h.int64_le_iff hsize hlt).mpr hfits))]
      exact ⟨rfl, h, .self hfits⟩
    rw [if_pos (not_le.mp fun hle => hfits ((h.int64_le_iff hsize hlt).mp hle))]
    cases hlast : c.order.getLast? with
    | none =>
      -- an empty list has room
      have hheld : c.held = [] := by rw [held, List.getLast?_eq_none_iff.mp hlast, List.filterMap_nil]
      rw [hheld, Fits, total_nil, zero_add] at hfits
      exact absurd hsmall hfits
    | some back =>
      have hback : back ∈ c.order := List.mem_of_getLast? hlast
      obtain ⟨it, hit, -⟩ := h.inHeap back hback
      have hsplit : c.held = (c.order.dropLast.filterMap fun el => c.heap[el]?) ++ [it] := by
        rw [held, getLast?_eq_append hlast, List.filterMap_append, List.dropLast_concat]
        simp [hit]
      -- no item before the last one has its key
      have hothers : others it.key c.held = c.order.dropLast.filterMap fun el => c.heap[el]? := by
        have honce := h.accounted.once
        rw [hsplit, List.map_append, List.nodup_append] at honce
        rw [hsplit, others, List.filter_append, List.filter_singleton]
        simp only [ne_eq, not_true_eq_false, decide_false, cond_false, List.append_nil]
        apply others_eq_self
        intro hmem
        exact honce.2.2 it.key hmem it.key (by simp) rfl
      dsimp only
      rw [remove_eq (c := { c with warned := true }) hit]
      obtain ⟨hlinked, hheld⟩ := h.removed hback hit
        (rfl : (count { c with
          warned := true, order := c.order.erase back, entries := c.entries.delete it.key
          bytes := int64 (c.bytes - it.size) } fun m => { m with evictions := m.evictions + 1 }).order = _)
        rfl rfl rfl rfl
      rw [hothers] at hheld
      have hlength : (c.order.erase back).length ≤ n := by
        rw [List.length_erase_of_mem hback]
        omega
      have hsize' := h.size_nonneg it (mem_held_iff.mpr ⟨back, hback, hit⟩)
      have htotal : total c.held = it.size + total (c.order.dropLast.filterMap fun el => c.heap[el]?) := by
        rw [hsplit, total_append, total_cons, total_nil]
        omega
      obtain ⟨htrue, hlinked', hcut⟩ := ih hlinked hlength hsmall (by rw [hheld]; omega)
      refine ⟨htrue, hlinked', ?_⟩
      rw [hsplit] at hfits ⊢
      rw [hheld] at hcut
      exact hcut.concat hfits

theorem Linked.getElem?_store (h : c.Linked) (it : Item V) {el : ℕ} (hel : el ∈ c.order) :
    (c.heap ++ [it])[el]? = c.heap[el]? := by
  obtain ⟨it', hit', -⟩ := h.inHeap el hel
  exact List.getElem?_append_left (List.getElem?_eq_some_iff.mp hit').1

theorem Linked.held_store (h : c.Linked) (it : Item V) : (c.store it).held = it :: c.held := by
  show (c.heap.length :: c.order).filterMap (fun el => (c.heap ++ [it])[el]?) = _
  rw [List.filterMap_cons, List.getElem?_concat_length]
  show it :: c.order.filterMap (fun el => (c.heap ++ [it])[el]?) = _
  rw [held, List.filterMap_congr fun el hel => h.getElem?_store it hel]

theorem Linked.store (h : c.Linked) (it : Item V) (hsize : 0 ≤ it.size) (hfits : Fits c.capacity it.size c.held)
    (hfresh : c.entries.get? it.key = none) : (c.store it).Linked := by
  have hpos := total_nonneg h.size_nonneg
  have hlt := h.capacity_lt
  unfold Fits at hfits
  have hint : int64 (c.bytes + it.size) = total c.held + it.size := by
    rw [h.bytes]
    apply int64_of_mem <;> omega
  refine ⟨?_, ?_, fun key el => ?_, ?_, ?_, hlt⟩
  · refine List.nodup_cons.mpr ⟨fun hmem => ?_, h.nodup⟩
    obtain ⟨it', hit', -⟩ := h.inHeap _ hmem
    exact (List.getElem?_eq_some_iff.mp hit').1.false
  · intro el hel
    rcases List.mem_cons.mp hel with rfl | hel
    · exact ⟨it, List.getElem?_concat_length, hsize⟩
    · obtain ⟨it', hit', hrest⟩ := h.inHeap el hel
      exact ⟨it', (h.getElem?_store it hel).trans hit', hrest⟩
  · show (c.entries.set it.key c.heap.length).get? key = some el ↔
      el ∈ c.heap.length :: c.order ∧ ∃ it', (c.heap ++ [it])[el]? = some it' ∧ it'.key = key
    rw [OrderedMap.get?_set, List.mem_cons]
    constructor
    · intro hget
      split_ifs at hget with hkey
      · obtain rfl := Option.some.inj hget
        exact ⟨.inl rfl, it, List.getElem?_concat_length, hkey.symm⟩
      · obtain ⟨hel, it', hit', hkey'⟩ := (h.entries key el).mp hget
        exact ⟨.inr hel, it', (h.getElem?_store it hel).trans hit', hkey'⟩
    · rintro ⟨rfl | hel, it', hit', rfl⟩
      · rw [List.getElem?_concat_length] at hit'
        rw [if_pos (congrArg Item.key (Option.some.inj hit')).symm]
      · -- the key of an item already held is not the new one
        have hmem := (h.entries it'.key el).mpr ⟨hel, it', (h.getElem?_store it hel).symm.trans hit', rfl⟩
        rw [if_neg, hmem]
        intro hkey
        rw [hkey, hfresh] at hmem
        cases hmem
  · rw [h.held_store it]
    show int64 (c.bytes + it.size) = it.size + total c.held
    omega
  · show int64 (c.bytes + it.size) ≤ c.capacity
    omega

/-! ## Calls -/

theorem others_sublist (key : Bytes) (l : List (Item V)) : (others key l).Sublist l := List.filter_sublist

/-- What a `Put` that stores leaves in the list: the new item in front of what
    remains when the one it replaces, then, if room is short, the expired ones, and
    then the fewest of the last ones are dropped. -/
def Stored (c c' : Cache V) (it : Item V) (now : Time) : Prop :=
  ∃ kept, ShortestCut (Fits c.capacity it.size) (swept c.capacity it.size now (others it.key c.held)) kept ∧
    c'.held = it :: kept

theorem put_of_stores {size : V → ℤ} {key : Bytes} {v : V} {expires now : Time} (henabled : 0 < c.capacity)
    (hsmall : size v ≤ c.capacity) :
    c.put size key v expires now = match c.makeRoom key (size v) now with
      | (c, false) => c
      | (c, true) => c.store { key := key, value := v, size := size v, expires := expires } := by
  have henabled' : ¬¬c.enabled = true := by simpa [enabled] using henabled
  unfold Cache.put
  exact (if_neg henabled').trans (if_neg (not_lt.mpr hsmall))

/-- **A `Put` that stores** a value, as long as the sizes do not overflow. -/
theorem Linked.put (h : c.Linked) {size : V → ℤ} {key : Bytes} {v : V} (expires now : Time)
    (henabled : 0 < c.capacity) (hsize : 0 ≤ size v) (hsmall : size v ≤ c.capacity)
    (hlt : total (others key c.held) + size v < 2 ^ 63) :
    (c.put size key v expires now).Linked ∧
      Stored c (c.put size key v expires now) ⟨key, v, size v, expires⟩ now := by
  obtain ⟨hforget, hheldForget, hfresh⟩ := h.forget key
  have hcapForget := (c.sheds_forget key).capacity
  obtain ⟨hreclaim, hheldReclaim⟩ := hforget.reclaim hsize (hheldForget ▸ hlt) now
  have hsheds := (c.forget key).sheds_reclaim (size v) now
  have hcap := hsheds.capacity.trans hcapForget
  rw [hheldForget, hcapForget] at hheldReclaim
  have hless : total ((c.forget key).reclaim (size v) now).held ≤ total (others key c.held) := by
    rw [hheldReclaim]
    apply total_sublist
    · unfold swept
      split_ifs
      · exact List.Sublist.refl _
      · exact List.filter_sublist
    · exact fun it hit => h.size_nonneg it ((others_sublist key c.held).subset hit)
  obtain ⟨htrue, hevict, hcut⟩ := hreclaim.evict hsize le_rfl (by rwa [hcap]) (by omega)
  have hshedsEvict := sheds_evict (size v) ((c.forget key).reclaim (size v) now).order.length
    ((c.forget key).reclaim (size v) now)
  have hroom : c.makeRoom key (size v) now = (((c.forget key).reclaim (size v) now).evict (size v)
      ((c.forget key).reclaim (size v) now).order.length |>.1, true) := Prod.ext rfl htrue
  rw [put_of_stores henabled hsmall, hroom]
  have hnone : (((c.forget key).reclaim (size v) now).evict (size v)
      ((c.forget key).reclaim (size v) now).order.length).1.entries.get? key = none := by
    apply Option.eq_none_iff_forall_ne_some.mpr
    intro el hel
    have hmem := hsheds.entries key el (hshedsEvict.entries key el hel)
    rw [hfresh] at hmem
    cases hmem
  rw [hcap, hheldReclaim] at hcut
  have hlinked := hevict.store ⟨key, v, size v, expires⟩ hsize
    (by rw [hshedsEvict.capacity, hcap]; exact hcut.enough) hnone
  exact ⟨hlinked, _, hcut, hevict.held_store _⟩

theorem Linked.get (h : c.Linked) (key : Bytes) (now : Time) : (c.get key now).2.Linked := by
  unfold Cache.get
  by_cases henabled : c.enabled = true
  · rw [if_neg (not_not.mpr henabled)]
    cases hentry : c.entries.get? key with
    | none => exact h.perm (.refl _) rfl rfl rfl rfl
    | some el =>
      obtain ⟨hel, it, hit, -⟩ := (h.entries key el).mp hentry
      dsimp only
      rw [hit]
      dsimp only
      split_ifs
      · rw [remove_eq hit]
        exact And.left (h.removed hel hit rfl rfl rfl rfl rfl)
      · exact h.perm (List.perm_cons_erase hel).symm rfl rfl rfl rfl
  · rw [if_pos henabled]
    exact h

end Linked

/-! ## Runs -/

/-- A call; that of `Put` has the size that `Size` measured then. -/
inductive MeasuredCall (V : Type*)
  | put (key : Bytes) (v : V) (size : ℕ) (expires now : Time)
  | get (key : Bytes) (now : Time)

/-- The cache after a call. -/
def call (c : Cache V) : MeasuredCall V → Cache V
  | .put key v size expires now => c.put (fun _ => size) key v expires now
  | .get key now => (c.get key now).2

/-- The cache after a sequence of calls on a new one. -/
def after (megabytes : ℤ) (calls : List (MeasuredCall V)) : Cache V := calls.foldl call (new megabytes)

/-- A value of this size is not refused. -/
def Stores (c : Cache V) (size : ℕ) : Prop := 0 < c.capacity ∧ size ≤ c.capacity

/-- The sizes that the call brings together, if it stores its value, are an `int64`. -/
def Sums (c : Cache V) : MeasuredCall V → Prop
  | .put key _ size _ _ => c.Stores size → total (others key c.held) + size < 2 ^ 63
  | .get _ _ => True

/-- The call does to the list what it should. -/
def Follows (c c' : Cache V) : MeasuredCall V → Prop
  | .put key v size expires now => c.Stores size → Stored c c' ⟨key, v, size, expires⟩ now
  | .get _ _ => True

section Runs

variable {c : Cache V}

/-- **What a call preserves**, and what it does, as long as the sizes are an `int64`. -/
theorem Linked.call (h : c.Linked) {a : MeasuredCall V} (hsums : c.Sums a) :
    (c.call a).Linked ∧ c.Follows (c.call a) a := by
  cases a with
  | get key now => exact ⟨h.get key now, trivial⟩
  | put key v size expires now =>
    by_cases hstores : c.Stores size
    · have hput := @Linked.put V c h (fun _ => size) key v expires now hstores.1 (Nat.cast_nonneg size)
        hstores.2 (hsums hstores)
      exact ⟨hput.1, fun _ => hput.2⟩
    · refine ⟨?_, fun hstores' => absurd hstores' hstores⟩
      show (c.put (fun _ => (size : ℤ)) key v expires now).Linked
      unfold Cache.put
      by_cases henabled : c.enabled = true
      · rw [if_neg (not_not.mpr henabled), if_pos]
        · exact h.perm (.refl _) rfl rfl rfl rfl
        · exact not_le.mp fun hsmall => hstores ⟨of_decide_eq_true henabled, hsmall⟩
      · rw [if_pos henabled]
        exact h

end Runs

end Cache

end Http4.Server
