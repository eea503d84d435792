import Mathlib

/-!
# Maps in insertion order

A finite map as the list of its entries, one for each key, in the order in which
the keys were first set. Setting a key again keeps its place.

Main results:

* `get?_set`, `get?_delete`, `get?_modify`: each operation read back.
* `sum_set`, `sum_delete`, `sum_modify`: what an operation adds to a sum over the
  entries.
-/

/-- A map from `κ` to `α` that remembers insertion order. -/
@[ext]
structure OrderedMap (κ α : Type*) where
  entries : List (κ × α)
  nodup : (entries.map Prod.fst).Nodup

namespace OrderedMap

variable {κ α : Type*}

/-- The map without entries. -/
def empty : OrderedMap κ α := ⟨[], List.nodup_nil⟩

/-- The values, oldest first. -/
def values (m : OrderedMap κ α) : List α := m.entries.map Prod.snd

/-- The number of entries. -/
def size (m : OrderedMap κ α) : ℕ := m.entries.length

/-- The sum of `w` over the values. -/
def sum {M : Type*} [AddCommMonoid M] (w : α → M) (m : OrderedMap κ α) : M := (m.values.map w).sum

section Bounds

variable {M : Type*} [AddCommMonoid M] [PartialOrder M] [IsOrderedAddMonoid M] {w u : α → M}
  {m : OrderedMap κ α}

theorem sum_le_sum (h : ∀ v ∈ m.values, w v ≤ u v) : sum w m ≤ sum u m := List.sum_le_sum h

/-- An excess of `a` at most for each value with `p`. -/
theorem sum_le_sum_add {p : α → Bool} {a : M} (h : ∀ v ∈ m.values, w v ≤ u v + if p v then a else 0) :
    sum w m ≤ sum u m + (m.values.filter p).length • a := by
  refine (sum_le_sum h).trans_eq ?_
  rw [sum, List.sum_map_add, ← sum]
  congr 1
  induction m.values with
  | nil => exact (zero_nsmul a).symm
  | cons v l ih =>
    rw [List.map_cons, List.sum_cons, ih, List.filter_cons]
    split_ifs
    · rw [List.length_cons, succ_nsmul']
    · exact zero_add _

end Bounds

variable [DecidableEq κ]

instance [DecidableEq α] : DecidableEq (OrderedMap κ α) := fun m m' =>
  decidable_of_iff (m.entries = m'.entries) OrderedMap.ext_iff.symm

/-! ## Operations -/

/-- The value of a key. -/
def get? (m : OrderedMap κ α) (k : κ) : Option α := m.entries.lookup k

/-- Whether a key has a value. -/
def has (m : OrderedMap κ α) (k : κ) : Bool := (m.get? k).isSome

/-- A change to the value of `k`, if it has one. -/
def modify (m : OrderedMap κ α) (k : κ) (f : α → α) : OrderedMap κ α where
  entries := m.entries.map fun e => if e.1 = k then (e.1, f e.2) else e
  nodup := by
    have hkeys : (m.entries.map fun e => if e.1 = k then (e.1, f e.2) else e).map Prod.fst =
        m.entries.map Prod.fst := by
      rw [List.map_map]
      refine List.map_congr_left fun e _ => ?_
      rw [Function.comp_apply]
      split_ifs <;> rfl
    rw [hkeys]
    exact m.nodup

theorem lookup_eq_some_iff {l : List (κ × α)} (h : (l.map Prod.fst).Nodup) {k : κ} {v : α} :
    l.lookup k = some v ↔ (k, v) ∈ l := by
  induction l with
  | nil => simp
  | cons e l ih =>
    obtain ⟨hnot, h⟩ := List.nodup_cons.mp h
    rw [List.lookup_cons, List.mem_cons]
    split
    · rename_i heq
      obtain rfl := eq_of_beq heq
      constructor
      · intro hv
        exact .inl (Prod.ext rfl (Option.some.inj hv).symm)
      · rintro (he | hmem)
        · rw [← he]
        · exact absurd (List.mem_map_of_mem hmem) hnot
    · rename_i hne
      rw [ih h]
      refine ⟨.inr, fun hor => hor.resolve_left fun he => ?_⟩
      rw [← he, beq_self_eq_true] at hne
      cases hne

theorem get?_eq_some_iff {m : OrderedMap κ α} {k : κ} {v : α} :
    m.get? k = some v ↔ (k, v) ∈ m.entries := lookup_eq_some_iff m.nodup

theorem get?_eq_none_iff {m : OrderedMap κ α} {k : κ} :
    m.get? k = none ↔ ∀ e ∈ m.entries, e.1 ≠ k := by
  rw [Option.eq_none_iff_forall_ne_some]
  constructor
  · intro h e he hk
    exact h e.2 (get?_eq_some_iff.mpr (hk ▸ he))
  · intro h v hv
    exact h (k, v) (get?_eq_some_iff.mp hv) rfl

/-- Setting the value of `k`. -/
def set (m : OrderedMap κ α) (k : κ) (v : α) : OrderedMap κ α :=
  if h : m.get? k = none then
    { entries := m.entries ++ [(k, v)]
      nodup := by
        rw [List.map_append, List.map_singleton, List.nodup_append]
        refine ⟨m.nodup, List.nodup_singleton k, fun x hx y hy hxy => ?_⟩
        obtain ⟨e, he, rfl⟩ := List.mem_map.mp hx
        exact get?_eq_none_iff.mp h e he (hxy.trans (List.mem_singleton.mp hy)) }
  else m.modify k fun _ => v

/-- Removing `k`. -/
def delete (m : OrderedMap κ α) (k : κ) : OrderedMap κ α where
  entries := m.entries.filter fun e => e.1 ≠ k
  nodup := m.nodup.sublist (List.filter_sublist.map Prod.fst)

/-! ## Reading back -/

theorem entries_modify (m : OrderedMap κ α) (k : κ) (f : α → α) :
    (m.modify k f).entries = m.entries.map fun e => if e.1 = k then (e.1, f e.2) else e := rfl

theorem entries_delete (m : OrderedMap κ α) (k : κ) :
    (m.delete k).entries = m.entries.filter fun e => e.1 ≠ k := rfl

@[simp] theorem get?_empty (k : κ) : (empty : OrderedMap κ α).get? k = none := rfl

theorem mem_values {m : OrderedMap κ α} {v : α} : v ∈ m.values ↔ ∃ k, m.get? k = some v := by
  rw [values, List.mem_map]
  constructor
  · rintro ⟨e, he, rfl⟩
    exact ⟨e.1, get?_eq_some_iff.mpr he⟩
  · rintro ⟨k, hk⟩
    exact ⟨(k, v), get?_eq_some_iff.mp hk, rfl⟩

theorem get?_modify (m : OrderedMap κ α) (k k' : κ) (f : α → α) :
    (m.modify k f).get? k' = if k' = k then (m.get? k').map f else m.get? k' := by
  refine Option.ext fun v => ?_
  rw [get?_eq_some_iff, entries_modify, List.mem_map]
  constructor
  · rintro ⟨e, he, heq⟩
    have hget := get?_eq_some_iff.mpr he
    split_ifs at heq with hk
    · obtain ⟨rfl, rfl⟩ := Prod.ext_iff.mp heq
      rw [if_pos hk, hget]
      rfl
    · obtain ⟨rfl, rfl⟩ := Prod.ext_iff.mp heq
      rw [if_neg hk, hget]
  · intro hv
    split_ifs at hv with hk
    · obtain ⟨u, hu, rfl⟩ := Option.map_eq_some_iff.mp hv
      exact ⟨(k', u), get?_eq_some_iff.mp hu, if_pos hk⟩
    · exact ⟨(k', v), get?_eq_some_iff.mp hv, if_neg hk⟩

theorem modify_of_none {m : OrderedMap κ α} {k : κ} (h : m.get? k = none) (f : α → α) :
    m.modify k f = m := by
  refine OrderedMap.ext ((List.map_congr_left fun e he => ?_).trans (List.map_id _))
  have hne : e.1 ≠ k := by
    rintro rfl
    exact get?_eq_none_iff.mp h e he rfl
  exact if_neg hne

/-- Only the value that is there matters. -/
theorem modify_congr {m : OrderedMap κ α} {k : κ} {v : α} (h : m.get? k = some v) (f : α → α) :
    m.modify k f = m.modify k fun _ => f v := by
  refine OrderedMap.ext (List.map_congr_left fun e he => ?_)
  by_cases heq : e.1 = k
  · have hv : m.get? k = some e.2 := by rw [← heq]; exact get?_eq_some_iff.mpr he
    rw [if_pos heq, if_pos heq, Option.some.inj (hv.symm.trans h)]
  · rw [if_neg heq, if_neg heq]

theorem modify_of_fixed {m : OrderedMap κ α} {k : κ} {v : α} {f : α → α} (h : m.get? k = some v)
    (hv : f v = v) : m.modify k f = m := by
  rw [modify_congr h, hv]
  refine OrderedMap.ext ((List.map_congr_left fun e he => ?_).trans (List.map_id _))
  by_cases heq : e.1 = k
  · have he : m.get? k = some e.2 := by rw [← heq]; exact get?_eq_some_iff.mpr he
    rw [if_pos heq, ← Option.some.inj (he.symm.trans h)]
    rfl
  · exact if_neg heq

theorem get?_set (m : OrderedMap κ α) (k k' : κ) (v : α) :
    (m.set k v).get? k' = if k' = k then some v else m.get? k' := by
  rw [set]
  split_ifs with hnone hk hk
  · subst hk
    exact get?_eq_some_iff.mpr (List.mem_append_right _ List.mem_cons_self)
  · refine Option.ext fun u => ?_
    rw [get?_eq_some_iff, get?_eq_some_iff, List.mem_append, List.mem_singleton, Prod.mk.injEq]
    simp only [hk, false_and, or_false]
  · subst hk
    obtain ⟨u, hu⟩ := Option.ne_none_iff_exists'.mp hnone
    rw [get?_modify, if_pos rfl, hu]
    rfl
  · rw [get?_modify, if_neg hk]

/-- Keys set one after another to values that depend on the key alone. -/
theorem get?_foldl_set {β : Type*} (key : β → κ) (v : κ → α) (l : List β) (m : OrderedMap κ α) (k : κ) :
    (l.foldl (fun m b => m.set (key b) (v (key b))) m).get? k =
      if ∃ b ∈ l, key b = k then some (v k) else m.get? k := by
  induction l generalizing m with
  | nil => simp
  | cons b l ih =>
    rw [List.foldl_cons, ih, get?_set]
    by_cases hl : ∃ b ∈ l, key b = k
    · rw [if_pos hl, if_pos (hl.imp fun b h => ⟨List.mem_cons_of_mem _ h.1, h.2⟩)]
    · rw [if_neg hl]
      by_cases hk : k = key b
      · rw [if_pos hk, if_pos ⟨b, List.mem_cons_self, hk.symm⟩, hk]
      · rw [if_neg hk, if_neg]
        rintro ⟨b', hb', hk'⟩
        rcases List.mem_cons.mp hb' with rfl | hb'
        · exact hk hk'.symm
        · exact hl ⟨b', hb', hk'⟩

theorem get?_delete (m : OrderedMap κ α) (k k' : κ) :
    (m.delete k).get? k' = if k' = k then none else m.get? k' := by
  refine Option.ext fun v => ?_
  rw [get?_eq_some_iff, entries_delete, List.mem_filter]
  split_ifs with hk
  · simp [hk]
  · simp [hk, get?_eq_some_iff]

theorem delete_of_none {m : OrderedMap κ α} {k : κ} (h : m.get? k = none) : m.delete k = m := by
  refine OrderedMap.ext ?_
  rw [entries_delete, List.filter_eq_self]
  exact fun e he => decide_eq_true (get?_eq_none_iff.mp h e he)

theorem values_set_of_none {m : OrderedMap κ α} {k : κ} {v : α} (h : m.get? k = none) :
    (m.set k v).values = m.values ++ [v] := by
  rw [set, dif_pos h, values, values, List.map_append, List.map_singleton]

/-! ## Sums -/

section Sums

variable {M : Type*} [AddCommMonoid M] (w : α → M)

theorem sum_set {m : OrderedMap κ α} {k : κ} {v : α} (h : m.get? k = none) :
    sum w (m.set k v) = sum w m + w v := by
  rw [sum, values_set_of_none h, List.map_append, List.sum_append, List.map_singleton,
    List.sum_singleton, sum]

theorem exists_split {m : OrderedMap κ α} {k : κ} {v : α} (h : m.get? k = some v) :
    ∃ front back, m.entries = front ++ (k, v) :: back ∧ (∀ e ∈ front, e.1 ≠ k) ∧
      ∀ e ∈ back, e.1 ≠ k := by
  obtain ⟨front, back, heq⟩ := List.append_of_mem (get?_eq_some_iff.mp h)
  have hnodup := m.nodup
  rw [heq, List.map_append, List.map_cons, List.nodup_append] at hnodup
  obtain ⟨-, hback, hdisj⟩ := hnodup
  refine ⟨front, back, heq, fun e he hk => ?_, fun e he hk => ?_⟩
  · exact hdisj e.1 (List.mem_map_of_mem he) k List.mem_cons_self hk
  · exact (List.nodup_cons.mp hback).1 (List.mem_map.mpr ⟨e, he, hk⟩)

theorem sum_delete {m : OrderedMap κ α} {k : κ} {v : α} (h : m.get? k = some v) :
    sum w m = sum w (m.delete k) + w v := by
  obtain ⟨front, back, heq, hfront, hback⟩ := exists_split h
  have hdel : (m.delete k).entries = front ++ back := by
    rw [entries_delete, heq, List.filter_append, List.filter_cons_of_neg (by simp),
      List.filter_eq_self.mpr (by simpa using hfront), List.filter_eq_self.mpr (by simpa using hback)]
  rw [sum, sum, values, values, hdel, heq]
  simp only [List.map_append, List.map_cons, List.sum_append, List.sum_cons]
  abel

theorem entries_modify_of_some {m : OrderedMap κ α} {k : κ} {v : α} (f : α → α)
    (h : m.get? k = some v) : ∃ front back, m.entries = front ++ (k, v) :: back ∧
      (m.modify k f).entries = front ++ (k, f v) :: back := by
  obtain ⟨front, back, heq, hfront, hback⟩ := exists_split h
  have hsame {l : List (κ × α)} (hl : ∀ e ∈ l, e.1 ≠ k) :
      (l.map fun e => if e.1 = k then (e.1, f e.2) else e) = l :=
    (List.map_congr_left fun e he => if_neg (hl e he)).trans (List.map_id l)
  refine ⟨front, back, heq, ?_⟩
  rw [entries_modify, heq, List.map_append, List.map_cons, hsame hfront, hsame hback, if_pos rfl]

theorem sum_modify {m : OrderedMap κ α} {k : κ} {v : α} (f : α → α) (h : m.get? k = some v) :
    sum w (m.modify k f) + w v = sum w m + w (f v) := by
  obtain ⟨front, back, heq, hmod⟩ := entries_modify_of_some f h
  rw [sum, sum, values, values, hmod, heq]
  simp only [List.map_append, List.map_cons, List.sum_append, List.sum_cons]
  abel

/-- A change that no summand sees. -/
theorem sum_modify_of_eq {m : OrderedMap κ α} (k : κ) {f : α → α} (hf : ∀ v, w (f v) = w v) :
    sum w (m.modify k f) = sum w m := by
  rw [sum, sum, values, values, entries_modify, List.map_map, List.map_map, List.map_map]
  refine congrArg List.sum (List.map_congr_left fun e _ => ?_)
  dsimp only [Function.comp_apply]
  split_ifs
  · exact hf e.2
  · rfl

end Sums

end OrderedMap
