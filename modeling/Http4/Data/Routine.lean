import Mathlib

/-!
# Routines that may throw

A routine reads and changes a state and may throw. What it changed before the
throw stays changed, as in a language with exceptions and objects.

* `Follows R m s`: `m`, started in `s`, ends in a state that `R` relates to `s`,
  whether it returns or throws.
* `Blames E m s`: what `m`, started in `s`, throws is accounted for by `E` in the
  state it leaves.

Both have one rule for each way to build a routine.
-/

/-- A computation on a state `σ` that returns an `α` or throws an `ε`. -/
abbrev Routine (ε σ α : Type) := ExceptT ε (StateM σ) α

namespace Routine

variable {ε σ α β : Type}

/-- The result of a routine and the state it leaves. -/
def exec (m : Routine ε σ α) (s : σ) : Except ε α × σ := m.run.run s

/-! ## Running a routine -/

@[simp] theorem exec_pure (a : α) (s : σ) : exec (pure a : Routine ε σ α) s = (.ok a, s) := rfl

@[simp] theorem exec_modify (f : σ → σ) (s : σ) :
    exec (modify f : Routine ε σ Unit) s = (.ok (), f s) := rfl

theorem exec_bind (m : Routine ε σ α) (k : α → Routine ε σ β) (s : σ) :
    exec (m >>= k) s = match exec m s with
      | (.ok a, t) => exec (k a) t
      | (.error e, t) => (.error e, t) := by
  change (ExceptT.bindCont k (exec m s).1).run (exec m s).2 = _
  rcases exec m s with ⟨r, t⟩
  cases r <;> rfl

theorem exec_bind_eq_ok_iff {m : Routine ε σ α} {k : α → Routine ε σ β} {s u : σ} {b : β} :
    exec (m >>= k) s = (.ok b, u) ↔ ∃ a t, exec m s = (.ok a, t) ∧ exec (k a) t = (.ok b, u) := by
  rw [exec_bind]
  rcases exec m s with ⟨r, t⟩
  cases r <;> simp

@[simp] theorem exec_get_bind (k : σ → Routine ε σ β) (s : σ) : exec (get >>= k) s = exec (k s) s := rfl

@[simp] theorem exec_modify_bind (f : σ → σ) (k : Unit → Routine ε σ β) (s : σ) :
    exec (modify f >>= k) s = exec (k ()) (f s) := rfl

theorem exec_tryCatch (m : Routine ε σ α) (k : ε → Routine ε σ α) (s : σ) :
    exec (tryCatch m k) s = match exec m s with
      | (.ok a, t) => (.ok a, t)
      | (.error e, t) => exec (k e) t := by
  change StateT.run (match (exec m s).1 with
    | .ok a => pure (.ok a)
    | .error e => k e : StateM σ (Except ε α)) (exec m s).2 = _
  rcases exec m s with ⟨r, t⟩
  cases r <;> rfl

/-! ## Where a routine leads -/

/-- From `s` the routine leads to a state that `R` relates to `s`. -/
def Follows (R : σ → σ → Prop) (m : Routine ε σ α) (s : σ) : Prop := R s (exec m s).2

namespace Follows

variable {R : σ → σ → Prop} [Std.Refl R] [IsTrans σ R] {s : σ}

omit [Std.Refl R] [IsTrans σ R] in
theorem mono {R' : σ → σ → Prop} {m : Routine ε σ α} (h : ∀ s t, R s t → R' s t) (hm : Follows R m s) :
    Follows R' m s :=
  h _ _ hm

omit [IsTrans σ R] in
theorem pure (a : α) : Follows R (pure a : Routine ε σ α) s := refl_of R s

omit [IsTrans σ R] in
theorem throw (e : ε) : Follows R (throw e : Routine ε σ α) s := refl_of R s

omit [Std.Refl R] in
theorem modify_bind {f : σ → σ} {k : Unit → Routine ε σ β} (hf : R s (f s))
    (hk : Follows R (k ()) (f s)) : Follows R (modify f >>= k) s :=
  trans_of R hf hk

omit [Std.Refl R] [IsTrans σ R] in
theorem modify {f : σ → σ} (h : R s (f s)) : Follows R (modify f : Routine ε σ Unit) s := h

omit [Std.Refl R] [IsTrans σ R] in
theorem get_bind {k : σ → Routine ε σ β} (h : Follows R (k s) s) : Follows R (get >>= k) s := h

omit [Std.Refl R] [IsTrans σ R] in
theorem ite {P : Prop} [Decidable P] {m m' : Routine ε σ α} (h : P → Follows R m s)
    (h' : ¬ P → Follows R m' s) : Follows R (if P then m else m') s := by
  split_ifs with hP
  · exact h hP
  · exact h' hP

omit [Std.Refl R] in
theorem bind {m : Routine ε σ α} {k : α → Routine ε σ β}
    (hm : Follows R m s) (hk : ∀ a t, exec m s = (.ok a, t) → Follows R (k a) t) :
    Follows R (m >>= k) s := by
  rw [Follows, exec_bind]
  rw [Follows] at hm
  rcases hexec : exec m s with ⟨r, t⟩
  rw [hexec] at hm
  cases r with
  | error e => exact hm
  | ok a => exact trans_of R hm (hk a t hexec)

omit [Std.Refl R] in
theorem tryCatch {m : Routine ε σ α} {k : ε → Routine ε σ α}
    (hm : Follows R m s) (hk : ∀ e t, exec m s = (.error e, t) → Follows R (k e) t) :
    Follows R (tryCatch m k) s := by
  rw [Follows, exec_tryCatch]
  rw [Follows] at hm
  rcases hexec : exec m s with ⟨r, t⟩
  rw [hexec] at hm
  cases r with
  | error e => exact trans_of R hm (hk e t hexec)
  | ok a => exact hm

/-- A loop, as long as each round keeps `I`. -/
theorem forM_of {I : σ → Prop} {l : List α} {f : α → Routine ε σ PUnit} (hs : I s)
    (h : ∀ a ∈ l, ∀ s, I s → Follows R (f a) s ∧ I (exec (f a) s).2) : Follows R (l.forM f) s := by
  induction l generalizing s with
  | nil => exact pure _
  | cons a l ih =>
    obtain ⟨ha, hl⟩ := List.forall_mem_cons.mp h
    change Follows R (f a >>= fun _ => l.forM f) s
    refine bind (ha s hs).1 fun _ t hexec => ih ?_ hl
    have hI := (ha s hs).2
    rwa [hexec] at hI

theorem forM {l : List α} {f : α → Routine ε σ PUnit} (h : ∀ a ∈ l, ∀ s, Follows R (f a) s) :
    Follows R (l.forM f) s :=
  forM_of (I := fun _ => True) trivial fun a ha s _ => ⟨h a ha s, trivial⟩

end Follows

/-- A part of the state stays as it is. -/
def Keeps (f : σ → α) (s t : σ) : Prop := f t = f s

instance (f : σ → α) : Std.Refl (Keeps f) := ⟨fun _ => rfl⟩

instance (f : σ → α) : IsTrans σ (Keeps f) := ⟨fun _ _ _ h h' => Eq.trans h' h⟩

/-! ## What a routine throws -/

/-- What the routine throws, started in `s`, satisfies `E` in the state it leaves. -/
def Blames (E : ε → σ → Prop) (m : Routine ε σ α) (s : σ) : Prop :=
  ∀ e t, exec m s = (.error e, t) → E e t

namespace Blames

variable {E : ε → σ → Prop} {s : σ}

theorem pure (a : α) : Blames E (pure a : Routine ε σ α) s := by
  rintro e t ⟨⟩

theorem throw {e : ε} (h : E e s) : Blames E (throw e : Routine ε σ α) s := by
  rintro e' t ⟨⟩
  exact h

theorem modify_bind {f : σ → σ} {k : Unit → Routine ε σ β} (h : Blames E (k ()) (f s)) :
    Blames E (modify f >>= k) s := h

theorem modify (f : σ → σ) : Blames E (modify f : Routine ε σ Unit) s := by
  rintro e t ⟨⟩

theorem get_bind {k : σ → Routine ε σ β} (h : Blames E (k s) s) : Blames E (get >>= k) s := h

theorem ite {P : Prop} [Decidable P] {m m' : Routine ε σ α} (h : P → Blames E m s)
    (h' : ¬ P → Blames E m' s) : Blames E (if P then m else m') s := by
  split_ifs with hP
  · exact h hP
  · exact h' hP

theorem bind {m : Routine ε σ α} {k : α → Routine ε σ β} (hm : Blames E m s)
    (hk : ∀ a t, exec m s = (.ok a, t) → Blames E (k a) t) : Blames E (m >>= k) s := by
  intro e u h
  rw [exec_bind] at h
  rcases hexec : exec m s with ⟨r, t⟩
  rw [hexec] at h
  cases r with
  | error e' =>
    injection h with herr hst
    injection herr with herr
    subst herr hst
    exact hm e' t hexec
  | ok a => exact hk a t hexec e u h

theorem tryCatch {m : Routine ε σ α} {k : ε → Routine ε σ α}
    (hk : ∀ e t, exec m s = (.error e, t) → Blames E (k e) t) : Blames E (tryCatch m k) s := by
  intro e u h
  rw [exec_tryCatch] at h
  rcases hexec : exec m s with ⟨r, t⟩
  rw [hexec] at h
  cases r with
  | error e' => exact hk e' t hexec e u h
  | ok a => cases h

/-- A loop, as long as each round keeps `I`. -/
theorem forM_of {I : σ → Prop} {l : List α} {f : α → Routine ε σ PUnit} (hs : I s)
    (h : ∀ a ∈ l, ∀ s, I s → Blames E (f a) s ∧ I (exec (f a) s).2) : Blames E (l.forM f) s := by
  induction l generalizing s with
  | nil => exact pure _
  | cons a l ih =>
    obtain ⟨ha, hl⟩ := List.forall_mem_cons.mp h
    change Blames E (f a >>= fun _ => l.forM f) s
    refine bind (ha s hs).1 fun _ t hexec => ih ?_ hl
    have hI := (ha s hs).2
    rwa [hexec] at hI

end Blames

end Routine
