import Http4.Data.GoStd
import Http4.Data.OrderedMap

/-!
# The byte-bounded cache

Model of `server/internal/bytecache/bytecache.go`. List elements live in a `heap`
and are named by their position there, so that `order` is the list and `entries`
the map of `*list.Element`. `time.Time` is a number, zero for the zero time;
`int64` arithmetic wraps.

Main results:

* `Holds`: every key in the map has the value and expiry of its last `Put`.
* `coherent_iff`: `Get` returns the last values given for as long as no `Put` of a
  value larger than the whole budget finds its key in the map, and only then.
-/

namespace Http4.Server

open GoStd (int64)

/-- A `time.Time`, in nanoseconds after the zero time. -/
abbrev Time := ℤ

/-- `Metrics` (lines 44–53). -/
structure CacheMetrics where
  hits : ℕ := 0
  misses : ℕ := 0
  evictions : ℕ := 0
  expired : ℕ := 0
  stores : ℕ := 0
  tooLarge : ℕ := 0
  deriving DecidableEq

/-- `item` (lines 83–88). -/
structure Item (V : Type*) where
  key : Bytes
  value : V
  size : ℤ
  expires : Time
  deriving DecidableEq

/-- `Cache` (lines 72–81). -/
structure Cache (V : Type*) where
  capacity : ℤ
  bytes : ℤ
  entries : OrderedMap Bytes ℕ
  heap : List (Item V)
  order : List ℕ
  warned : Bool
  metrics : CacheMetrics

/-- `dead` (lines 181–183). -/
def Item.dead {V : Type*} (it : Item V) (now : Time) : Bool :=
  it.expires ≠ 0 && !decide (now < it.expires)

namespace Cache

variable {V : Type*}

/-- The fields `New` sets, for a capacity in bytes. -/
def ofCapacity (capacity : ℤ) : Cache V :=
  { capacity := capacity, bytes := 0, entries := .empty, heap := [], order := [], warned := false,
    metrics := {} }

/-- `New` (lines 92–102). -/
def new (megabytes : ℤ) : Cache V := ofCapacity (int64 (megabytes * 2 ^ 20))

/-- `Enabled`, of a cache that is not nil. -/
def enabled (c : Cache V) : Bool := decide (0 < c.capacity)

/-- A change to the counters. -/
def count (c : Cache V) (f : CacheMetrics → CacheMetrics) : Cache V := { c with metrics := f c.metrics }

/-- `removeLocked` (lines 197–202). -/
def remove (c : Cache V) (el : ℕ) : Cache V :=
  match c.heap[el]? with
  | none => c
  | some it =>
    { c with order := c.order.erase el
             entries := c.entries.delete it.key
             bytes := int64 (c.bytes - it.size) }

/-- `Get` (lines 113–135). -/
def get (c : Cache V) (key : Bytes) (now : Time) : Option V × Cache V :=
  if ¬ c.enabled then (none, c)
  else
    match c.entries.get? key with
    | none => (none, c.count fun m => { m with misses := m.misses + 1 })
    | some el =>
      match c.heap[el]? with
      | none => (none, c)
      | some it =>
        if it.dead now then
          (none, (c.remove el).count fun m => { m with expired := m.expired + 1
                                                       misses := m.misses + 1 })
        else
          (some it.value, { c with order := el :: c.order.erase el
                                   metrics := { c.metrics with hits := c.metrics.hits + 1 } })

/-- One step of the loop of `sweepExpiredLocked`. -/
def sweep (now : Time) (c : Cache V) (el : ℕ) : Cache V :=
  match c.heap[el]? with
  | none => c
  | some it =>
    if it.dead now then (c.remove el).count fun m => { m with expired := m.expired + 1 } else c

/-- `sweepExpiredLocked` (lines 186–195), from the back to the front. -/
def sweepExpired (c : Cache V) (now : Time) : Cache V := c.order.reverse.foldl (sweep now) c

/-- The loop of `Put` (lines 162–173), which runs at most once for each element of
    the list. The flag tells whether there is room in the end. -/
def evict (size : ℤ) : ℕ → Cache V → Cache V × Bool
  | 0, c => (c, decide (int64 (c.bytes + size) ≤ c.capacity))
  | n + 1, c =>
    if int64 (c.bytes + size) > c.capacity then
      match c.order.getLast? with
      | none => (c, false)
      | some back =>
        evict size n (({ c with warned := true }.remove back).count fun m =>
          { m with evictions := m.evictions + 1 })
    else (c, true)

/-- The replacement in `Put` (lines 154–156). -/
def forget (c : Cache V) (key : Bytes) : Cache V :=
  match c.entries.get? key with
  | some el => c.remove el
  | none => c

/-- The sweep in `Put` (lines 159–161). -/
def reclaim (c : Cache V) (size : ℤ) (now : Time) : Cache V :=
  if int64 (c.bytes + size) > c.capacity then c.sweepExpired now else c

/-- `Put` between its refusal and the storing (lines 154–173). -/
def makeRoom (c : Cache V) (key : Bytes) (size : ℤ) (now : Time) : Cache V × Bool :=
  let c := (c.forget key).reclaim size now
  c.evict size c.order.length

/-- The end of `Put` (lines 174–176). -/
def store (c : Cache V) (it : Item V) : Cache V :=
  { c with heap := c.heap ++ [it]
           order := c.heap.length :: c.order
           entries := c.entries.set it.key c.heap.length
           bytes := int64 (c.bytes + it.size)
           metrics := { c.metrics with stores := c.metrics.stores + 1 } }

/-- `Put` (lines 139–177); `size` is `Value.Size`. -/
def put (size : V → ℤ) (c : Cache V) (key : Bytes) (v : V) (expires now : Time) : Cache V :=
  if ¬ c.enabled then c
  else if size v > c.capacity then c.count fun m => { m with tooLarge := m.tooLarge + 1 }
  else
    match c.makeRoom key (size v) now with
    | (c, false) => c
    | (c, true) => c.store { key := key, value := v, size := size v, expires := expires }

/-! ## Removing entries -/

/-- `c'` is `c` after entries were removed from it. -/
structure Sheds (c c' : Cache V) : Prop where
  capacity : c'.capacity = c.capacity
  heap : c'.heap = c.heap
  entries : ∀ key el, c'.entries.get? key = some el → c.entries.get? key = some el

theorem Sheds.refl (c : Cache V) : Sheds c c := ⟨rfl, rfl, fun _ _ h => h⟩

theorem Sheds.trans {c c' c'' : Cache V} (h : Sheds c c') (h' : Sheds c' c'') : Sheds c c'' where
  capacity := h'.capacity.trans h.capacity
  heap := h'.heap.trans h.heap
  entries key el hel := h.entries key el (h'.entries key el hel)

theorem sheds_remove (c : Cache V) (el : ℕ) : Sheds c (c.remove el) := by
  rw [remove]
  cases c.heap[el]? with
  | none => exact .refl c
  | some it =>
    refine ⟨rfl, rfl, fun key el' h => ?_⟩
    simp only [OrderedMap.get?_delete] at h
    split_ifs at h
    exact h

theorem sheds_sweep (now : Time) (c : Cache V) (el : ℕ) : Sheds c (c.sweep now el) := by
  rw [sweep]
  cases c.heap[el]? with
  | none => exact .refl c
  | some it =>
    dsimp only
    split_ifs
    · have h := c.sheds_remove el
      exact ⟨h.capacity, h.heap, h.entries⟩
    · exact .refl c

theorem sheds_sweepExpired (c : Cache V) (now : Time) : Sheds c (c.sweepExpired now) := by
  rw [sweepExpired]
  induction c.order.reverse generalizing c with
  | nil => exact .refl c
  | cons el els ih => exact (c.sheds_sweep now el).trans (ih (c.sweep now el))

theorem sheds_reclaim (c : Cache V) (size : ℤ) (now : Time) : Sheds c (c.reclaim size now) := by
  rw [reclaim]
  split_ifs
  · exact c.sheds_sweepExpired now
  · exact .refl c

theorem sheds_evict (size : ℤ) (n : ℕ) (c : Cache V) : Sheds c (c.evict size n).1 := by
  induction n generalizing c with
  | zero => exact .refl c
  | succ n ih =>
    rw [evict]
    split_ifs
    · cases c.order.getLast? with
      | none => exact .refl c
      | some back =>
        have h := ({ c with warned := true } : Cache V).sheds_remove back
        refine Sheds.trans ?_ (ih _)
        exact ⟨h.capacity, h.heap, h.entries⟩
    · exact .refl c

theorem sheds_forget (c : Cache V) (key : Bytes) : Sheds c (c.forget key) := by
  rw [forget]
  cases c.entries.get? key with
  | none => exact .refl c
  | some el => exact c.sheds_remove el

theorem sheds_makeRoom (c : Cache V) (key : Bytes) (size : ℤ) (now : Time) :
    Sheds c (c.makeRoom key size now).1 :=
  ((c.sheds_forget key).trans ((c.forget key).sheds_reclaim size now)).trans (sheds_evict size _ _)

/-- A removed key is gone. -/
theorem get?_entries_remove {c : Cache V} {el : ℕ} {it : Item V} (h : c.heap[el]? = some it) :
    (c.remove el).entries.get? it.key = none := by
  simp only [remove, h, OrderedMap.get?_delete, if_true]

/-! ## Last writes -/

/-- A call. -/
inductive Call (V : Type*)
  | put (key : Bytes) (v : V) (expires now : Time)
  | get (key : Bytes) (now : Time)

/-- The cache after a call. -/
def step (size : V → ℤ) (c : Cache V) : Call V → Cache V
  | .put key v expires now => c.put size key v expires now
  | .get key now => (c.get key now).2

/-- The cache after a sequence of calls. -/
def run (size : V → ℤ) (capacity : ℤ) (calls : List (Call V)) : Cache V :=
  calls.foldl (step size) (ofCapacity capacity)

/-- What `Put` has last given for each key, with its expiry. -/
def lastPut (calls : List (Call V)) : Bytes → Option (V × Time) :=
  calls.foldl (fun last call => match call with
    | .put key v expires _ => Function.update last key (some (v, expires))
    | .get _ _ => last) fun _ => none

/-- Every key in the map has the value and the expiry that were last given for
    it. -/
structure Holds (size : V → ℤ) (c : Cache V) (last : Bytes → Option (V × Time)) : Prop where
  entry : ∀ key el, c.entries.get? key = some el → 0 < c.capacity ∧
    ∃ it, c.heap[el]? = some it ∧ it.key = key ∧ last key = some (it.value, it.expires) ∧
      size it.value ≤ c.capacity

section Holds

variable {size : V → ℤ} {c : Cache V} {last : Bytes → Option (V × Time)}

theorem holds_ofCapacity (capacity : ℤ) : Holds size (ofCapacity capacity) last :=
  ⟨fun key el h => by cases h⟩

theorem Holds.sheds {c' : Cache V} (h : Holds size c last) (hs : Sheds c c') : Holds size c' last := by
  refine ⟨fun key el hel => ?_⟩
  rw [hs.capacity, hs.heap]
  exact h.entry key el (hs.entries key el hel)

/-- The map may forget a key, and then anything may be the last value given. -/
theorem Holds.update {key : Bytes} (h : Holds size c last) (hnone : c.entries.get? key = none)
    (x : Option (V × Time)) : Holds size c (Function.update last key x) := by
  refine ⟨fun key' el hel => ?_⟩
  have hne : key' ≠ key := by
    rintro rfl
    rw [hnone] at hel
    cases hel
  rw [Function.update_of_ne hne]
  exact h.entry key' el hel

theorem Holds.get (h : Holds size c last) (key : Bytes) (now : Time) :
    Holds size (c.get key now).2 last := by
  rw [Cache.get]
  split_ifs
  · cases hel : c.entries.get? key with
    | none => exact ⟨h.entry⟩
    | some el =>
      dsimp only
      cases hit : c.heap[el]? with
      | none => exact h
      | some it =>
        dsimp only
        split_ifs
        · exact ⟨(h.sheds (c.sheds_remove el)).entry⟩
        · exact ⟨h.entry⟩
  · exact h

/-- What `Get` returns is the value last given, and it has not expired. -/
theorem Holds.hit (h : Holds size c last) {key : Bytes} {now : Time} {v : V}
    (hget : (c.get key now).1 = some v) :
    ∃ expires, last key = some (v, expires) ∧ (expires = 0 ∨ now < expires) := by
  rw [Cache.get] at hget
  split_ifs at hget
  cases hel : c.entries.get? key with
  | none => simp [hel] at hget
  | some el =>
    obtain ⟨-, it, hit, -, hlast, -⟩ := h.entry key el hel
    simp only [hel, hit] at hget
    split_ifs at hget with hdead
    obtain rfl := Option.some.inj hget
    refine ⟨it.expires, hlast, ?_⟩
    rw [Item.dead, Bool.and_eq_true, not_and, decide_eq_true_eq, Bool.not_eq_true',
      decide_eq_false_iff_not, not_not] at hdead
    exact or_iff_not_imp_left.mpr hdead

/-- Making room forgets the key. -/
theorem Holds.get?_makeRoom (h : Holds size c last) (key : Bytes) (n : ℤ) (now : Time) :
    (c.makeRoom key n now).1.entries.get? key = none := by
  have hforget : (c.forget key).entries.get? key = none := by
    rw [forget]
    cases hel : c.entries.get? key with
    | none => exact hel
    | some el =>
      obtain ⟨-, it, hit, hkey, -⟩ := h.entry key el hel
      exact hkey ▸ get?_entries_remove hit
  have hrest : Sheds (c.forget key) (c.makeRoom key n now).1 :=
    ((c.forget key).sheds_reclaim n now).trans (sheds_evict n _ _)
  refine Option.eq_none_iff_forall_ne_some.mpr fun el hel => ?_
  have hold := hrest.entries key el hel
  rw [hforget] at hold
  cases hold

theorem Holds.store {it : Item V} (h : Holds size c last)
    (hlast : last it.key = some (it.value, it.expires)) (hpos : 0 < c.capacity)
    (hsmall : it.size ≤ c.capacity) (hsize : it.size = size it.value) :
    Holds size (c.store it) last := by
  refine ⟨fun key el hel => ?_⟩
  rw [Cache.store, OrderedMap.get?_set] at hel
  split_ifs at hel with hkey
  · obtain rfl := Option.some.inj hel
    subst hkey
    exact ⟨hpos, it, List.getElem?_concat_length, rfl, hlast, hsize ▸ hsmall⟩
  · obtain ⟨-, it', hit, hrest⟩ := h.entry key el hel
    exact ⟨hpos, it', (List.getElem?_append_left (List.getElem?_eq_some_iff.mp hit).1).trans hit, hrest⟩

theorem Holds.put (h : Holds size c last) {key : Bytes} {v : V} (expires now : Time)
    (hfits : c.capacity < size v → c.entries.get? key = none) :
    Holds size (c.put size key v expires now) (Function.update last key (some (v, expires))) := by
  rw [Cache.put]
  by_cases henabled : ¬ c.enabled
  · -- a disabled cache holds no key
    rw [if_pos henabled]
    refine h.update (Option.eq_none_iff_forall_ne_some.mpr fun el hel => ?_) _
    exact henabled (decide_eq_true (h.entry key el hel).1)
  rw [if_neg henabled]
  by_cases hlarge : size v > c.capacity
  · rw [if_pos hlarge]
    exact ⟨(h.update (hfits hlarge) _).entry⟩
  rw [if_neg hlarge]
  have hsheds := c.sheds_makeRoom key (size v) now
  have hnone := h.get?_makeRoom key (size v) now
  have hold := (h.sheds hsheds).update hnone (some (v, expires))
  rcases hroom : c.makeRoom key (size v) now with ⟨c', _ | _⟩
  · rw [hroom] at hold
    exact hold
  · rw [hroom] at hold hsheds
    refine hold.store (Function.update_self _ _ _) ?_ ?_ rfl
    · rw [hsheds.capacity]
      simpa [enabled] using henabled
    · exact (not_lt.mp hlarge).trans_eq hsheds.capacity.symm

end Holds

/-! ## Coherence -/

section Coherence

variable (size : V → ℤ) (capacity : ℤ)

theorem run_concat (calls : List (Call V)) (call : Call V) :
    run size capacity (calls ++ [call]) = step size (run size capacity calls) call := by
  rw [run, List.foldl_append]
  rfl

theorem lastPut_concat_put (calls : List (Call V)) (key : Bytes) (v : V) (expires now : Time) :
    lastPut (calls ++ [.put key v expires now]) =
      Function.update (lastPut calls) key (some (v, expires)) := by
  rw [lastPut, List.foldl_append]
  rfl

theorem lastPut_concat_get (calls : List (Call V)) (key : Bytes) (now : Time) :
    lastPut (calls ++ [.get key now]) = lastPut calls := by
  rw [lastPut, List.foldl_append]
  rfl

theorem capacity_step (c : Cache V) (call : Call V) : (c.step size call).capacity = c.capacity := by
  cases call with
  | put key v expires now =>
    rw [step, Cache.put]
    have h := (c.sheds_makeRoom key (size v) now).capacity
    split_ifs
    · rfl
    · rcases hroom : c.makeRoom key (size v) now with ⟨c', _ | _⟩ <;> rw [hroom] at h <;> exact h
    · rfl
  | get key now =>
    rw [step, Cache.get]
    split_ifs
    · cases c.entries.get? key with
      | none => rfl
      | some el =>
        dsimp only
        cases c.heap[el]? with
        | none => rfl
        | some it =>
          dsimp only
          split_ifs
          · exact (c.sheds_remove el).capacity
          · rfl
    · rfl

theorem capacity_run (calls : List (Call V)) : (run size capacity calls).capacity = capacity := by
  induction calls using List.reverseRecOn with
  | nil => rfl
  | append_singleton calls call ih => rw [run_concat, capacity_step, ih]

/-- Whatever `Get` returns after these calls is the value that `Put` was last
    given for the key, and has not expired. -/
def Coherent (calls : List (Call V)) : Prop :=
  ∀ key now v, ((run size capacity calls).get key now).1 = some v →
    ∃ expires, lastPut calls key = some (v, expires) ∧ (expires = 0 ∨ now < expires)

/-- A `Put` that is refused for its size found its key in the map only if the
    calls are not coherent then: the value in the map is still served. -/
theorem get?_eq_none_of_coherent {calls : List (Call V)} {key : Bytes} {v : V} {expires now : Time}
    (h : Holds size (run size capacity calls) (lastPut calls)) (hlarge : capacity < size v)
    (hcoherent : Coherent size capacity (calls ++ [.put key v expires now])) :
    (run size capacity calls).entries.get? key = none := by
  have hcap := capacity_run size capacity calls
  by_contra hheld
  obtain ⟨el, hel⟩ := Option.ne_none_iff_exists'.mp hheld
  obtain ⟨hpos, it, hit, -, -, hsmall⟩ := h.entry key el hel
  rw [hcap] at hpos hsmall
  -- a moment at which the value in the map has not expired
  have hlive : it.dead (it.expires - 1) = false := by
    rw [Item.dead, decide_eq_true (sub_one_lt it.expires), Bool.not_true, Bool.and_false]
  have hrefused : run size capacity (calls ++ [.put key v expires now]) =
      (run size capacity calls).count fun m => { m with tooLarge := m.tooLarge + 1 } := by
    rw [run_concat, step, Cache.put, if_neg (by simpa [enabled, hcap] using hpos), if_pos (by rw [hcap]; exact hlarge)]
  have hget : ((run size capacity (calls ++ [.put key v expires now])).get key
      (it.expires - 1)).1 = some it.value := by
    rw [hrefused, Cache.get, if_neg (by simpa [enabled, hcap, count] using hpos)]
    simp only [count, hel, hit, hlive]
    rfl
  obtain ⟨expires', hlast, -⟩ := hcoherent key _ _ hget
  rw [lastPut_concat_put, Function.update_self, Option.some.injEq, Prod.mk.injEq] at hlast
  exact absurd hsmall (not_le.mpr (hlast.1 ▸ hlarge))

/-- **Cache coherence.** In every state on the way through a sequence of calls,
    what `Get` returns is the value last given for its key and has not expired, if
    and only if no `Put` on the way that is refused, its value being larger than
    the whole budget, finds its key in the map. -/
theorem coherent_iff (calls : List (Call V)) :
    (∀ front, front <+: calls → Coherent size capacity front) ↔
      ∀ front key v expires now, front ++ [.put key v expires now] <+: calls →
        capacity < size v → (run size capacity front).entries.get? key = none := by
  -- in both directions the map holds the last writes on the way
  have hholds (hput : ∀ front key v expires now, front ++ [.put key v expires now] <+: calls →
      Holds size (run size capacity front) (lastPut front) → capacity < size v →
      (run size capacity front).entries.get? key = none) :
      ∀ front, front <+: calls → Holds size (run size capacity front) (lastPut front) := by
    intro front
    induction front using List.reverseRecOn with
    | nil => exact fun _ => holds_ofCapacity capacity
    | append_singleton front call ih =>
      intro hprefix
      have h := ih ((List.prefix_append front [call]).trans hprefix)
      rw [run_concat]
      cases call with
      | put key v expires now =>
        rw [lastPut_concat_put]
        refine h.put expires now fun hlarge => hput front key v expires now hprefix h ?_
        rwa [capacity_run] at hlarge
      | get key now =>
        rw [lastPut_concat_get]
        exact h.get key now
  constructor
  · intro hcoherent front key v expires now hprefix hlarge
    have hput : ∀ front key v expires now, front ++ [.put key v expires now] <+: calls →
        Holds size (run size capacity front) (lastPut front) → capacity < size v →
        (run size capacity front).entries.get? key = none :=
      fun front key v expires now hprefix h hlarge =>
        get?_eq_none_of_coherent size capacity h hlarge
          (hcoherent _ hprefix)
    exact hput front key v expires now hprefix
      (hholds hput front ((List.prefix_append _ _).trans hprefix)) hlarge
  · intro hput front hprefix key now v hget
    exact (hholds (fun front key v expires now hprefix _ => hput front key v expires now hprefix)
      front hprefix).hit hget

/-- In a cache of ten bytes, a value of twenty bytes is refused and the one
    before it is served in its place. -/
theorem refused_put_serves_old :
    ¬ Coherent (fun v : Bytes => (v.length : ℤ)) 10
      [.put [1] [7, 7] 0 0, .put [1] (List.replicate 20 8) 0 0] := by
  intro h
  obtain ⟨expires, hlast, -⟩ := h [1] 0 [7, 7] (by decide +kernel)
  change some (List.replicate 20 (8 : UInt8), (0 : Time)) = _ at hlast
  rw [Option.some.injEq, Prod.mk.injEq] at hlast
  exact absurd hlast.1 (by decide)

end Coherence

end Cache

end Http4.Server
