import Mathlib

/-!
# Machines with enabled actions

A machine is a function `step : σ → α → Option σ`: an action is taken, or it is
not enabled in that state. `run` takes a list of actions.

Main results:

* `run_invariant`: what every step preserves, every run preserves.
* `run_while`: the same for a property that each step preserves only as long as
  the actions meet a condition.
* `outputs_nodup`: no output is repeated, if each step puts out only what was not
  seen before.
* `run_total`, `total_eq_zero_iff`: what the steps of a run add to a number.
* `run_along`: an invariant of the runs whose steps meet a condition.
-/

namespace Machine

variable {σ α : Type*} (step : σ → α → Option σ)

/-- The state after a list of actions, if all of them are enabled. -/
def run (s : σ) : List α → Option σ
  | [] => some s
  | a :: as => (step s a).bind fun s' => run s' as

/-- `s` is reached from `init` by some run. -/
def Reachable (init s : σ) : Prop := ∃ as, run step init as = some s

variable {step}

@[simp] theorem run_nil (s : σ) : run step s [] = some s := rfl

theorem run_cons_iff {s s' : σ} {a : α} {as : List α} :
    run step s (a :: as) = some s' ↔ ∃ t, step s a = some t ∧ run step t as = some s' := by
  rw [run, Option.bind_eq_some_iff]

theorem run_append_iff {s s' : σ} {as bs : List α} :
    run step s (as ++ bs) = some s' ↔ ∃ t, run step s as = some t ∧ run step t bs = some s' := by
  induction as generalizing s with
  | nil => simp
  | cons a as ih =>
    rw [List.cons_append, run_cons_iff]
    simp only [run_cons_iff, ih]
    constructor
    · rintro ⟨t, ht, u, hu, hs⟩
      exact ⟨u, ⟨t, ht, hu⟩, hs⟩
    · rintro ⟨u, ⟨t, ht, hu⟩, hs⟩
      exact ⟨t, ht, u, hu, hs⟩

theorem run_concat_iff {s s' : σ} {as : List α} {a : α} :
    run step s (as ++ [a]) = some s' ↔ ∃ t, run step s as = some t ∧ step t a = some s' := by
  simp [run_append_iff, run_cons_iff]

/-- What every step preserves, every run preserves, as long as its actions meet
    the condition `C`. -/
theorem run_while {C : α → Prop} {P : σ → Prop}
    (hstep : ∀ s a s', C a → P s → step s a = some s' → P s') {s s' : σ} {as : List α}
    (hC : ∀ a ∈ as, C a) (hs : P s) (hrun : run step s as = some s') : P s' := by
  induction as generalizing s with
  | nil =>
    rw [run_nil, Option.some.injEq] at hrun
    exact hrun ▸ hs
  | cons a as ih =>
    obtain ⟨t, ht, hrun⟩ := run_cons_iff.mp hrun
    obtain ⟨ha, hC⟩ := List.forall_mem_cons.mp hC
    exact ih hC (hstep s a t ha hs ht) hrun

/-- What every step preserves, every run preserves. -/
theorem run_invariant {P : σ → Prop} (hstep : ∀ s a s', P s → step s a = some s' → P s')
    {s s' : σ} {as : List α} (hs : P s) (hrun : run step s as = some s') : P s' :=
  run_while (C := fun _ => True) (fun s a s' _ => hstep s a s') (fun _ _ => trivial) hs hrun

/-- The outputs of a run, where `f s a` is what taking `a` in `s` puts out. -/
def outputs {β : Type*} (step : σ → α → Option σ) (f : σ → α → List β) (s : σ) : List α → List β
  | [] => []
  | a :: as => f s a ++ match step s a with
    | some t => outputs step f t as
    | none => []

/-- No output is repeated in a run, if each step puts out only what was not seen
    before and remembers it. -/
theorem outputs_nodup {β : Type*} {f : σ → α → List β} {P : σ → Prop} {Seen : σ → β → Prop}
    (hP : ∀ s a s', P s → step s a = some s' → P s')
    (hseen : ∀ s a s' x, P s → step s a = some s' → Seen s x → Seen s' x)
    (hnew : ∀ s a, P s → (f s a).Nodup ∧ ∀ x ∈ f s a, ¬ Seen s x)
    (hput : ∀ s a s', P s → step s a = some s' → ∀ x ∈ f s a, Seen s' x) {s : σ} {as : List α}
    (hs : P s) : (outputs step f s as).Nodup ∧ ∀ x ∈ outputs step f s as, ¬ Seen s x := by
  induction as generalizing s with
  | nil => exact ⟨List.nodup_nil, by simp [outputs]⟩
  | cons a as ih =>
    obtain ⟨hnodup, hfresh⟩ := hnew s a hs
    rw [outputs]
    cases hstep : step s a with
    | none =>
      rw [List.append_nil]
      exact ⟨hnodup, hfresh⟩
    | some t =>
      obtain ⟨hnodup', hfresh'⟩ := ih (hP s a t hs hstep)
      refine ⟨List.nodup_append.mpr ⟨hnodup, hnodup', ?_⟩, List.forall_mem_append.mpr ⟨hfresh, ?_⟩⟩
      · intro x hx y hy hxy
        exact hfresh' y hy (hxy ▸ hput s a t hs hstep x hx)
      · intro x hx hold
        exact hfresh' x hx (hseen s a t x hs hstep hold)

/-- What a run adds up to, where `f s a` is what taking `a` in `s` adds. -/
def total (step : σ → α → Option σ) (f : σ → α → ℕ) (s : σ) : List α → ℕ
  | [] => 0
  | a :: as => f s a + match step s a with
    | some t => total step f t as
    | none => 0

theorem total_cons_of {f : σ → α → ℕ} {s t : σ} {a : α} (h : step s a = some t) (as : List α) :
    total step f s (a :: as) = f s a + total step f t as := by
  rw [total, h]

/-- Each action of the run `as` from `s` meets the condition `C` in the state it is
    taken in. -/
def Along (step : σ → α → Option σ) (s : σ) (as : List α) (C : σ → α → Prop) : Prop :=
  ∀ before a after t, as = before ++ a :: after → run step s before = some t → C t a

theorem along_of_mem {C : σ → α → Prop} {s : σ} {as : List α} (h : ∀ a ∈ as, ∀ t, C t a) :
    Along step s as C := by
  intro before a after t heq _
  exact h a (by rw [heq]; exact List.mem_append_right _ List.mem_cons_self) t

theorem along_cons_iff {C : σ → α → Prop} {s t : σ} {a : α} {as : List α} (h : step s a = some t) :
    Along step s (a :: as) C ↔ C s a ∧ Along step t as C := by
  constructor
  · intro hall
    refine ⟨hall [] a as s rfl rfl, fun before b after u heq hu => ?_⟩
    exact hall (a :: before) b after u (by rw [heq, List.cons_append]) (run_cons_iff.mpr ⟨t, h, hu⟩)
  · rintro ⟨hfirst, hrest⟩ before b after u heq hu
    cases before with
    | nil =>
      obtain ⟨rfl, -⟩ := List.cons.inj heq
      obtain rfl := Option.some.inj hu
      exact hfirst
    | cons c before =>
      obtain ⟨rfl, rfl⟩ := List.cons.inj heq
      obtain ⟨t', ht', hu⟩ := run_cons_iff.mp hu
      obtain rfl := Option.some.inj (h.symm.trans ht')
      exact hrest before b after u rfl hu

theorem along_cons_of_none {C : σ → α → Prop} {s : σ} {a : α} {as : List α} (h : step s a = none) :
    Along step s (a :: as) C ↔ C s a := by
  constructor
  · intro hall
    exact hall [] a as s rfl rfl
  · intro hfirst before b after u heq hu
    cases before with
    | nil =>
      obtain ⟨rfl, -⟩ := List.cons.inj heq
      obtain rfl := Option.some.inj hu
      exact hfirst
    | cons c before =>
      obtain ⟨rfl, -⟩ := List.cons.inj heq
      obtain ⟨t, ht, -⟩ := run_cons_iff.mp hu
      rw [h] at ht
      cases ht

/-- Whether the actions of a run meet a condition can be computed if the condition can. -/
instance decidableAlong {C : σ → α → Prop} [∀ s a, Decidable (C s a)] :
    (s : σ) → (as : List α) → Decidable (Along step s as C)
  | _, [] => .isTrue (along_of_mem fun _ h => absurd h List.not_mem_nil)
  | s, a :: as => match h : step s a with
    | none => decidable_of_iff (C s a) (along_cons_of_none h).symm
    | some t =>
      have : Decidable (Along step t as C) := decidableAlong t as
      decidable_of_iff (C s a ∧ Along step t as C) (along_cons_iff h).symm

/-- The actions of a run up to some point. -/
theorem along_left {C : σ → α → Prop} {s : σ} {as bs : List α}
    (h : Along step s (as ++ bs) C) : Along step s as C := by
  intro before a after t heq ht
  refine h before a (after ++ bs) t ?_ ht
  rw [heq, List.append_assoc, List.cons_append]

/-- A run that goes on for one step. -/
theorem along_concat {C : σ → α → Prop} {s t : σ} {a : α} {as : List α} (hrun : run step s as = some t)
    (has : Along step s as C) (ha : C t a) : Along step s (as ++ [a]) C := by
  intro before b after u heq hu
  rcases List.eq_nil_or_concat' after with rfl | ⟨after, c, rfl⟩
  · obtain ⟨rfl, hlast⟩ := List.append_inj' heq rfl
    obtain rfl := List.singleton_inj.mp hlast
    rw [hrun] at hu
    exact Option.some.inj hu ▸ ha
  · rw [← List.cons_append, ← List.append_assoc] at heq
    exact has before b after u (List.append_inj' heq rfl).1 hu

/-- A run adds up to nothing exactly if none of its steps adds anything. -/
theorem total_eq_zero_iff {f : σ → α → ℕ} {s s' : σ} {as : List α} (hrun : run step s as = some s') :
    total step f s as = 0 ↔ Along step s as fun t a => f t a = 0 := by
  induction as generalizing s with
  | nil => simp [total, Along]
  | cons a as ih =>
    obtain ⟨t, ht, hrun⟩ := run_cons_iff.mp hrun
    rw [total_cons_of ht, Nat.add_eq_zero_iff, ih hrun, along_cons_iff ht]

/-- What each step adds to a number, the run adds in total, as long as its steps
    meet the condition `C`. -/
theorem run_total {C : σ → α → Prop} {f : σ → α → ℕ} {P : σ → ℕ → Prop}
    (hstep : ∀ s a s' n, C s a → P s n → step s a = some s' → P s' (n + f s a)) {s s' : σ} {n : ℕ}
    {as : List α} (hC : Along step s as C) (hs : P s n) (hrun : run step s as = some s') :
    P s' (n + total step f s as) := by
  induction as generalizing s n with
  | nil =>
    rw [run_nil, Option.some.injEq] at hrun
    exact hrun ▸ hs
  | cons a as ih =>
    obtain ⟨t, ht, hrun⟩ := run_cons_iff.mp hrun
    obtain ⟨ha, hC⟩ := (along_cons_iff ht).mp hC
    rw [total_cons_of ht, ← Nat.add_assoc]
    exact ih hC (hstep s a t n ha hs ht) hrun

/-- What every step preserves, every run preserves, as long as its steps meet the
    condition `C`. -/
theorem run_along {C : σ → α → Prop} {P : σ → Prop}
    (hstep : ∀ s a s', C s a → P s → step s a = some s' → P s') {s s' : σ} {as : List α}
    (hC : Along step s as C) (hs : P s) (hrun : run step s as = some s') : P s' :=
  run_total (f := fun _ _ => 0) (P := fun s _ => P s) (n := 0) (fun s a s' _ => hstep s a s') hC hs hrun

/-- Every state on the way to a reachable state is reachable. -/
theorem Reachable.run {init s s' : σ} {as : List α} (h : Reachable step init s)
    (hrun : Machine.run step s as = some s') : Reachable step init s' := by
  obtain ⟨bs, hbs⟩ := h
  exact ⟨bs ++ as, run_append_iff.mpr ⟨s, hbs, hrun⟩⟩

theorem Reachable.next {init s s' : σ} {a : α} (h : Reachable step init s) (hstep : step s a = some s') :
    Reachable step init s' :=
  let ⟨as, has⟩ := h
  ⟨as ++ [a], run_concat_iff.mpr ⟨s, has, hstep⟩⟩

end Machine
