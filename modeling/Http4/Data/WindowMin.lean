import Mathlib

/-!
# The minimum over a sliding window, kept as one sample

A sample is a value and the time it was taken at. `keep` remembers one of them: the
first, and then each that is no greater than the one it remembers, or finds that
one out of the window. After a call the remembered value should be the least of the
samples in the window.

Main results:

* `exact_iff`: the remembered value is right after every call exactly if no call
  `Forgets` a sample.
-/

namespace WindowMin

section Definitions

variable {α τ : Type*} [LinearOrder α] [AddCommGroup τ] [LinearOrder τ]

/-- The values of the samples in the window of length `w` before `now`. -/
def values (w now : τ) (xs : List (α × τ)) : Set α := {a | ∃ t, (a, t) ∈ xs ∧ now - t ≤ w}

/-- The sample remembered after the sample `x`. -/
def keep (w : τ) (held : Option (α × τ)) (x : α × τ) : Option (α × τ) :=
  match held with
  | none => some x
  | some h => if x.1 ≤ h.1 ∨ w < x.2 - h.2 then some x else some h

/-- The sample remembered after all of `xs`. -/
def held (w : τ) (xs : List (α × τ)) : Option (α × τ) := xs.foldl (keep w) none

/-- After the samples `xs` and `x` the remembered value is the least in the window. -/
def Exact (w : τ) (xs : List (α × τ)) (x : α × τ) : Prop :=
  ∃ h, held w (xs ++ [x]) = some h ∧ IsLeast (values w x.2 (xs ++ [x])) h.1

/-- After the samples `xs` and `l`, the sample `x` finds every sample that was the
    least out of the window, and one in the window that is smaller than itself. -/
def Forgets (w : τ) (xs : List (α × τ)) (l x : α × τ) : Prop :=
  (∀ y ∈ xs ++ [l], IsLeast (values w l.2 (xs ++ [l])) y.1 → w < x.2 - y.2) ∧
    ∃ z ∈ xs ++ [l], x.2 - z.2 ≤ w ∧ z.1 < x.1

/-- The remembered sample is the last of the least samples in the window at `now`. -/
structure Holds (w now : τ) (xs : List (α × τ)) (h : α × τ) : Prop where
  mem : h ∈ xs
  inside : now - h.2 ≤ w
  least : ∀ y ∈ xs, now - y.2 ≤ w → h.1 ≤ y.1
  last : ∀ y ∈ xs, y.1 = h.1 → y.2 ≤ h.2

variable {w now : τ} {xs : List (α × τ)} {l x h : α × τ}

theorem held_concat (w : τ) (xs : List (α × τ)) (x : α × τ) : held w (xs ++ [x]) = keep w (held w xs) x :=
  List.foldl_concat ..

theorem held_concat_of (hheld : held w xs = some h) :
    held w (xs ++ [x]) = if x.1 ≤ h.1 ∨ w < x.2 - h.2 then some x else some h := by
  rw [held_concat, hheld]
  rfl

theorem Holds.isLeast (hh : Holds w now xs h) : IsLeast (values w now xs) h.1 := by
  refine ⟨⟨h.2, hh.mem, hh.inside⟩, ?_⟩
  rintro a ⟨t, hmem, ht⟩
  exact hh.least (a, t) hmem ht

/-- The sample just taken is the last of the least, if none in the window is smaller. -/
theorem holds_concat (hw : 0 ≤ w) (hmono : ∀ y ∈ xs, y.2 ≤ x.2)
    (hleast : ∀ y ∈ xs, x.2 - y.2 ≤ w → x.1 ≤ y.1) : Holds w x.2 (xs ++ [x]) x where
  mem := List.mem_append_right _ List.mem_cons_self
  inside := by rwa [sub_self]
  least := List.forall_mem_append.mpr ⟨hleast, by simp⟩
  last := List.forall_mem_append.mpr ⟨fun y hy _ => hmono y hy, by simp⟩

end Definitions

section Calls

variable {α τ : Type*} [LinearOrder α] [AddCommGroup τ] [LinearOrder τ] [IsOrderedAddMonoid τ]
  {w : τ} {xs : List (α × τ)} {l x h : α × τ}

/-- What was the least is out of the window exactly if the remembered sample is. -/
theorem Holds.expired_iff (hh : Holds w l.2 (xs ++ [l]) h) :
    (∀ y ∈ xs ++ [l], IsLeast (values w l.2 (xs ++ [l])) y.1 → w < x.2 - y.2) ↔ w < x.2 - h.2 := by
  constructor
  · intro hall
    exact hall h hh.mem hh.isLeast
  · intro hold y hy hleast
    have hle := hh.last y hy (hleast.unique hh.isLeast)
    exact hold.trans_le (sub_le_sub_left hle _)

/-- A call that forgets a sample leaves the remembered one wrong. -/
theorem Holds.not_exact (hh : Holds w l.2 (xs ++ [l]) h) (hheld : held w (xs ++ [l]) = some h)
    (hforgets : Forgets w xs l x) : ¬ Exact w (xs ++ [l]) x := by
  obtain ⟨hold, z, hz, hage, hlt⟩ := hforgets
  rw [hh.expired_iff] at hold
  rintro ⟨h', hh', hleast⟩
  rw [held_concat_of hheld, if_pos (.inr hold), Option.some.injEq] at hh'
  subst hh'
  exact hlt.not_ge (hleast.2 ⟨z.2, List.mem_append_left _ hz, hage⟩)

/-- A call that forgets none leaves it right. -/
theorem Holds.next (hh : Holds w l.2 (xs ++ [l]) h) (hheld : held w (xs ++ [l]) = some h) (hw : 0 ≤ w)
    (hmono : ∀ y ∈ xs ++ [l], y.2 ≤ x.2) (hkeeps : ¬ Forgets w xs l x) :
    ∃ h', held w (xs ++ [l] ++ [x]) = some h' ∧ Holds w x.2 (xs ++ [l] ++ [x]) h' := by
  have hlx : l.2 ≤ x.2 := hmono l (List.mem_append_right _ List.mem_cons_self)
  -- what is in the window now was in it at the call before
  have hwindow : ∀ y ∈ xs ++ [l], x.2 - y.2 ≤ w → h.1 ≤ y.1 := fun y hy hage =>
    hh.least y hy ((sub_le_sub_right hlx _).trans hage)
  rw [Forgets, hh.expired_iff, not_and] at hkeeps
  rw [held_concat_of hheld]
  by_cases hle : x.1 ≤ h.1
  · rw [if_pos (.inl hle)]
    exact ⟨x, rfl, holds_concat hw hmono fun y hy hage => hle.trans (hwindow y hy hage)⟩
  by_cases hold : w < x.2 - h.2
  · rw [if_pos (.inr hold)]
    refine ⟨x, rfl, holds_concat hw hmono fun y hy hage => ?_⟩
    by_contra hlt
    exact hkeeps hold ⟨y, hy, hage, not_le.mp hlt⟩
  · rw [if_neg (not_or.mpr ⟨hle, hold⟩)]
    refine ⟨h, rfl, List.mem_append_left _ hh.mem, not_lt.mp hold, ?_, ?_⟩
    · exact List.forall_mem_append.mpr ⟨hwindow, by simpa using fun _ => (not_le.mp hle).le⟩
    · exact List.forall_mem_append.mpr ⟨hh.last, by simpa using fun heq => absurd heq.le hle⟩

/-- As long as every call is right or forgets no sample, the remembered one is the
    last of the least. -/
theorem exists_holds (hw : 0 ≤ w) (hmono : (xs ++ [x]).Pairwise fun a b => a.2 ≤ b.2)
    (hcalls : ∀ ys l y, ys ++ [l] ++ [y] <+: xs ++ [x] → Exact w (ys ++ [l]) y ∨ ¬ Forgets w ys l y) :
    ∃ h, held w (xs ++ [x]) = some h ∧ Holds w x.2 (xs ++ [x]) h := by
  induction xs using List.reverseRecOn generalizing x with
  | nil => exact ⟨x, rfl, (holds_concat hw (by simp) (by simp) : Holds w x.2 ([] ++ [x]) x)⟩
  | append_singleton xs l ih =>
    obtain ⟨hbefore, -, hlast⟩ := List.pairwise_append.mp hmono
    obtain ⟨h, hheld, hh⟩ := ih hbefore fun ys l' y hpre =>
      hcalls ys l' y (hpre.trans (List.prefix_append _ _))
    refine hh.next hheld hw (fun y hy => hlast y hy x List.mem_cons_self) fun hforgets => ?_
    rcases hcalls xs l x (List.prefix_refl _) with hexact | hkeeps
    · exact hh.not_exact hheld hforgets hexact
    · exact hkeeps hforgets

/-- **The remembered value is right after every call exactly if no call forgets a
    sample.** -/
theorem exact_iff (hw : 0 ≤ w) (hmono : xs.Pairwise fun a b => a.2 ≤ b.2) :
    (∀ ys y, ys ++ [y] <+: xs → Exact w ys y) ↔
      ∀ ys l y, ys ++ [l] ++ [y] <+: xs → ¬ Forgets w ys l y := by
  constructor
  · intro hexact ys l y hpre hforgets
    have hbefore : ys ++ [l] <+: xs := (List.prefix_append _ _).trans hpre
    obtain ⟨h, hheld, hh⟩ := exists_holds hw (hmono.sublist hbefore.sublist)
      fun zs l' z hz => .inl (hexact (zs ++ [l']) z (hz.trans hbefore))
    exact hh.not_exact hheld hforgets (hexact (ys ++ [l]) y hpre)
  · intro hkeeps ys y hpre
    obtain ⟨h, hheld, hh⟩ := exists_holds hw (hmono.sublist hpre.sublist)
      fun zs l z hz => .inr (hkeeps zs l z (hz.trans hpre))
    exact ⟨h, hheld, hh.isLeast⟩

end Calls

end WindowMin
