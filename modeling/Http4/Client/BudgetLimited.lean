import Http4.Client.Scheduler

/-!
# What `budgetLimited` says

`grants` sets its flag at three places. After a call the flag should say whether an
unpaused RPC is left wanting more. It says so whenever one is. It also says so when
less than a minimum increment was available and that was enough for all of them.

Main results:

* `limited_grants_iff`: when the flag is set.
* `limited_iff`: when the flag is right.
-/

namespace Http4.Client

namespace SrptScheduler

/-- What the candidates still want. -/
def need (s : SrptScheduler) : ℚ := (s.candidates.map fun c => c.2.size - c.2.granted).sum

/-- An unpaused RPC is left that is not fully granted. -/
def LeftWanting (s : SrptScheduler) : Prop :=
  ∃ id e, s.rpcs.get? id = some e ∧ e.paused = false ∧ e.granted < e.size

/-! ## One round after the other -/

section Loop

variable {μ o : ℚ}

/-- With room for all of them the loop grants every candidate whole. -/
theorem grantLoop_of_need_le {cs : List (ℤ × Entry)} (hwants : ∀ c ∈ cs, c.2.granted < c.2.size) {rank : ℕ}
    {a : ℚ} (ha : (cs.map fun c => c.2.size - c.2.granted).sum ≤ a) :
    (grantLoop μ o rank a cs).broke = false ∧
      ∀ c ∈ cs, ∃ d ∈ (grantLoop μ o rank a cs).out, d.rpcId = c.1 ∧ d.maxOffset = c.2.size := by
  induction cs generalizing rank a with
  | nil => exact ⟨rfl, by simp⟩
  | cons c rest ih =>
    obtain ⟨id, e⟩ := c
    obtain ⟨hfirst, hrest⟩ := List.forall_mem_cons.mp hwants
    rw [List.map_cons, List.sum_cons] at ha
    have hnonneg : 0 ≤ (rest.map fun c => c.2.size - c.2.granted).sum :=
      List.sum_nonneg fun x hx => by
        obtain ⟨c, hc, rfl⟩ := List.mem_map.mp hx
        exact sub_nonneg.mpr (hrest c hc).le
    simp only at hfirst ha
    have htarget : target e a = e.size := min_eq_left (by linarith)
    have hpos : ¬ a ≤ 0 := by linarith
    rw [grantLoop, if_neg hpos, htarget, if_neg fun h => lt_irrefl _ h.2.1]
    obtain ⟨hbroke, hall⟩ := @ih hrest (rank + 1) (a - (e.size - e.granted)) (by linarith)
    refine ⟨hbroke, List.forall_mem_cons.mpr ⟨⟨_, List.mem_cons_self, rfl, rfl⟩, fun c hc => ?_⟩⟩
    obtain ⟨d, hd, heq⟩ := hall c hc
    exact ⟨d, List.mem_cons_of_mem _ hd, heq⟩

/-- If every candidate was granted whole, there was room for all of them. -/
theorem Spent.need_le {a a' : ℚ} {cs : List (ℤ × Entry)} {out : List GrantDecision} (h : Spent μ a cs out a')
    (ha : 0 ≤ a) (hnodup : (cs.map Prod.fst).Nodup)
    (hall : ∀ c ∈ cs, ∃ d ∈ out, d.rpcId = c.1 ∧ d.maxOffset = c.2.size) :
    (cs.map fun c => c.2.size - c.2.granted).sum ≤ a := by
  induction h with
  | @stop a cs _ =>
    cases cs with
    | nil => exact ha
    | cons c rest =>
      obtain ⟨d, hd, -⟩ := hall c List.mem_cons_self
      exact absurd hd List.not_mem_nil
  | part priority hpos hlt =>
    obtain ⟨d, hd, -, hmax⟩ := hall _ List.mem_cons_self
    rw [List.mem_singleton.mp hd] at hmax
    exact absurd hmax hlt.ne
  | @whole a a' id e rest out priority hpos hsize hrest ih =>
    obtain ⟨hnot, hnodup⟩ := List.nodup_cons.mp hnodup
    rw [List.map_cons, List.sum_cons]
    have hle := ih (by linarith) hnodup fun c hc => by
      obtain ⟨d, hd, hid, hmax⟩ := hall c (List.mem_cons_of_mem _ hc)
      rcases List.mem_cons.mp hd with rfl | hd
      · exact absurd (List.mem_map.mpr ⟨c, hc, hid.symm⟩) hnot
      · exact ⟨d, hd, hid, hmax⟩
    linarith

/-- A loop that ends at its `break` leaves out a candidate. -/
theorem grantLoop_of_broke {cs : List (ℤ × Entry)} (hnodup : (cs.map Prod.fst).Nodup) {rank : ℕ} {a : ℚ}
    (hbroke : (grantLoop μ o rank a cs).broke = true) :
    ∃ c ∈ cs, c.1 ∉ (grantLoop μ o rank a cs).out.map GrantDecision.rpcId := by
  induction cs generalizing rank a with
  | nil => exact absurd hbroke Bool.false_ne_true
  | cons c rest ih =>
    obtain ⟨id, e⟩ := c
    obtain ⟨hnot, hnodup⟩ := List.nodup_cons.mp hnodup
    rw [grantLoop] at hbroke ⊢
    by_cases hle : a ≤ 0
    · rw [if_pos hle] at hbroke
      exact absurd hbroke Bool.false_ne_true
    rw [if_neg hle] at hbroke ⊢
    by_cases hbreak : target e a - e.granted < μ ∧ target e a < e.size ∧ ¬ (o = 0 ∧ rank = 0)
    · rw [if_pos hbreak]
      exact ⟨_, List.mem_cons_self, List.not_mem_nil⟩
    · rw [if_neg hbreak] at hbroke ⊢
      obtain ⟨c, hc, hout⟩ := ih hnodup hbroke
      refine ⟨c, List.mem_cons_of_mem _ hc, fun hmem => ?_⟩
      rcases List.mem_cons.mp hmem with heq | hmem
      · exact hnot (List.mem_map.mpr ⟨c, hc, heq⟩)
      · exact hout hmem

/-- A loop that neither ends at its `break` nor runs out grants every candidate
    whole. -/
theorem grantLoop_of_available {cs : List (ℤ × Entry)} {rank : ℕ} {a : ℚ}
    (hbroke : (grantLoop μ o rank a cs).broke = false) (hleft : 0 < (grantLoop μ o rank a cs).available) :
    ∀ c ∈ cs, ∃ d ∈ (grantLoop μ o rank a cs).out, d.rpcId = c.1 ∧ d.maxOffset = c.2.size := by
  induction cs generalizing rank a with
  | nil => simp
  | cons c rest ih =>
    obtain ⟨id, e⟩ := c
    rw [grantLoop] at hbroke hleft ⊢
    by_cases hle : a ≤ 0
    · rw [if_pos hle] at hleft
      exact absurd hleft hle.not_gt
    rw [if_neg hle] at hbroke hleft ⊢
    by_cases hbreak : target e a - e.granted < μ ∧ target e a < e.size ∧ ¬ (o = 0 ∧ rank = 0)
    · rw [if_pos hbreak] at hbroke
      exact absurd hbroke.symm Bool.false_ne_true
    rw [if_neg hbreak] at hbroke hleft ⊢
    have hwhole : target e a = e.size := by
      -- a part of what is wanted takes all that is available
      by_contra hne
      have hpart : target e a = e.granted + a :=
        min_eq_right ((min_choice _ _).resolve_left hne ▸ min_le_left _ _)
      have hnone : a - (target e a - e.granted) = 0 := by rw [hpart]; ring
      have hnonpos := ((spent_grantLoop μ o (rank + 1) 0 rest).eq_of_nonpos (le_refl 0)).2
      simp only [hnone] at hleft
      rw [hnonpos] at hleft
      exact lt_irrefl _ hleft
    refine List.forall_mem_cons.mpr ⟨⟨_, List.mem_cons_self, rfl, hwhole⟩, fun c hc => ?_⟩
    obtain ⟨d, hd, heq⟩ := ih hbroke hleft c hc
    exact ⟨d, List.mem_cons_of_mem _ hd, heq⟩

end Loop

/-! ## The flag after a call -/

section Call

variable {s : SrptScheduler} {reserved : ℚ}

/-- What a call may hand out. -/
def available (s : SrptScheduler) (reserved : ℚ) : ℚ := s.budget - reserved - s.outstanding

/-- Less than a minimum increment was available, and it was enough for every
    candidate. -/
def EnoughBelowIncrement (s : SrptScheduler) (reserved : ℚ) : Prop :=
  s.candidates ≠ [] ∧ s.available reserved < s.effectiveMinIncrement ∧ s.need ≤ s.available reserved

/-- The loop of a call. -/
def loop (s : SrptScheduler) (reserved : ℚ) : LoopResult :=
  grantLoop s.effectiveMinIncrement s.outstanding 0 (s.available reserved) s.candidates

theorem grants_fst_eq (h : ¬ s.available reserved ≤ 0) : (s.grants reserved).1 = (s.loop reserved).out := by
  rw [grants]
  exact congrArg Prod.fst (if_neg h)

theorem effectiveMinIncrement_pos (h : 0 < s.minIncrement) : 0 < s.effectiveMinIncrement :=
  lt_min h (lt_of_lt_of_le one_pos (le_max_left _ _))

theorem need_pos (h : s.candidates ≠ []) : 0 < s.need := by
  refine List.sum_pos _ (fun x hx => ?_) (by simpa using h)
  obtain ⟨c, hc, rfl⟩ := List.mem_map.mp hx
  exact sub_pos.mpr (s.granted_lt_of_mem_candidates c hc)

/-- An RPC left wanting more was a candidate. -/
theorem exists_candidate_of_wanting {id : ℤ} {e' : Entry}
    (he' : (s.grants reserved).2.rpcs.get? id = some e') (hpaused : e'.paused = false)
    (hlt : e'.granted < e'.size) : ∃ e, (id, e) ∈ s.candidates ∧ e'.size = e.size := by
  obtain ⟨e, he, hsame⟩ := exists_of_get?_grants he'
  have hwants : e.granted < e.size := by
    by_cases hid : id ∈ (s.grants reserved).1.map GrantDecision.rpcId
    · obtain ⟨d, hd, rfl⟩ := List.mem_map.mp hid
      obtain ⟨e₁, he₁, -, hlt₁, hle₁⟩ := exists_of_mem_grants hd
      obtain rfl := Option.some.inj (he.symm.trans he₁)
      exact hlt₁.trans_le hle₁
    · obtain rfl := Option.some.inj (he.symm.trans ((get?_grants_of_notMem hid).symm.trans he'))
      exact hlt
  rw [hsame] at hpaused ⊢
  exact ⟨e, mem_candidates.mpr ⟨he, hwants, hpaused⟩, rfl⟩

/-- An RPC is left wanting more if a candidate was not granted whole. -/
theorem leftWanting_grants_iff :
    (s.grants reserved).2.LeftWanting ↔
      ∃ c ∈ s.candidates, ¬ ∃ d ∈ (s.grants reserved).1, d.rpcId = c.1 ∧ d.maxOffset = c.2.size := by
  constructor
  · rintro ⟨id, e', he', hpaused, hlt⟩
    obtain ⟨e, hc, -⟩ := exists_candidate_of_wanting he' hpaused hlt
    refine ⟨(id, e), hc, fun hwhole => ?_⟩
    obtain ⟨e₂, he₂, hfull⟩ := fully_granted_of (mem_candidates.mp hc).1 (.inr hwhole)
    obtain rfl := Option.some.inj (he'.symm.trans he₂)
    exact hlt.ne hfull
  · rintro ⟨⟨id, e⟩, hc, hnot⟩
    obtain ⟨he, hwants, hpaused⟩ := mem_candidates.mp hc
    by_cases hid : id ∈ (s.grants reserved).1.map GrantDecision.rpcId
    · obtain ⟨d, hd, rfl⟩ := List.mem_map.mp hid
      obtain ⟨e₁, he₁, -, -, hle⟩ := exists_of_mem_grants hd
      obtain rfl := Option.some.inj (he.symm.trans he₁)
      have hne : d.maxOffset ≠ e.size := fun heq => hnot ⟨d, hd, rfl, heq⟩
      exact ⟨_, _, get?_grants_of_mem hd he, hpaused, lt_of_le_of_ne hle hne⟩
    · exact ⟨id, e, (get?_grants_of_notMem hid).trans he, hpaused, hwants⟩

/-- The candidates the code finds wanting are the RPCs left wanting more. -/
theorem any_wanting_iff :
    (s.candidates.any fun c =>
      match (s.grants reserved).2.rpcs.get? c.1 with
      | some e => decide (e.granted < e.size)
      | none => false) = true ↔ (s.grants reserved).2.LeftWanting := by
  rw [List.any_eq_true]
  constructor
  · rintro ⟨c, hc, hwanting⟩
    cases he' : (s.grants reserved).2.rpcs.get? c.1 with
    | none => simp [he'] at hwanting
    | some e' =>
      rw [he'] at hwanting
      obtain ⟨e, he, hsame⟩ := exists_of_get?_grants he'
      obtain rfl := Option.some.inj ((mem_candidates.mp hc).1.symm.trans he)
      exact ⟨c.1, e', he', by rw [hsame]; exact (mem_candidates.mp hc).2.2, of_decide_eq_true hwanting⟩
  · rintro ⟨id, e', he', hpaused, hlt⟩
    obtain ⟨e, hc, -⟩ := exists_candidate_of_wanting he' hpaused hlt
    exact ⟨(id, e), hc, by simpa only [he'] using decide_eq_true hlt⟩

/-- The flag is set exactly if less than a minimum increment was available to
    some candidates, or an RPC is left wanting more. -/
theorem limited_grants_iff (h : 0 < s.minIncrement) :
    (s.grants reserved).2.limited = true ↔
      s.candidates ≠ [] ∧ s.available reserved < s.effectiveMinIncrement ∨
        (s.grants reserved).2.LeftWanting := by
  by_cases hle : s.available reserved ≤ 0
  · have hnone := grants_eq_nil hle
    have hlimited : (s.grants reserved).2.limited =
        decide (s.candidates ≠ [] ∧ s.available reserved < s.effectiveMinIncrement) := by
      rw [grants]
      exact congrArg (fun p : List GrantDecision × SrptScheduler => p.2.limited) (if_pos hle)
    rw [hlimited, decide_eq_true_eq, leftWanting_grants_iff, hnone]
    refine ⟨.inl, fun hor => hor.elim id ?_⟩
    rintro ⟨c, hc, -⟩
    exact ⟨List.ne_nil_of_mem hc, hle.trans_lt (effectiveMinIncrement_pos h)⟩
  · have hout := grants_fst_eq hle
    have hlimited : (s.grants reserved).2.limited =
        (decide (s.candidates ≠ [] ∧ s.available reserved < s.effectiveMinIncrement) ||
          (s.loop reserved).broke || (decide ((s.loop reserved).available ≤ 0) &&
            s.candidates.any fun c =>
              match (s.grants reserved).2.rpcs.get? c.1 with
              | some e => decide (e.granted < e.size)
              | none => false)) := by
      obtain ⟨a', -, hrpcs⟩ := s.spent_grants reserved
      rw [hrpcs, hout, grants]
      exact congrArg (fun p : List GrantDecision × SrptScheduler => p.2.limited) (if_neg hle)
    rw [hlimited, Bool.or_eq_true, Bool.or_eq_true, Bool.and_eq_true, any_wanting_iff, decide_eq_true_eq,
      decide_eq_true_eq]
    constructor
    · rintro ((hlow | hbroke) | ⟨-, hwanting⟩)
      · exact .inl hlow
      · obtain ⟨c, hc, hleft⟩ := grantLoop_of_broke s.nodup_candidates hbroke
        refine .inr (leftWanting_grants_iff.mpr ⟨c, hc, ?_⟩)
        rintro ⟨d, hd, hid, -⟩
        rw [hout] at hd
        exact hleft (List.mem_map.mpr ⟨d, hd, hid⟩)
      · exact .inr hwanting
    · rintro (hlow | hwanting)
      · exact .inl (.inl hlow)
      by_cases hbroke : (s.loop reserved).broke = true
      · exact .inl (.inr hbroke)
      refine .inr ⟨?_, hwanting⟩
      by_contra hleft
      obtain ⟨c, hc, hnot⟩ := leftWanting_grants_iff.mp hwanting
      rw [hout] at hnot
      exact hnot (grantLoop_of_available (Bool.not_eq_true _ ▸ hbroke) (not_le.mp hleft) c hc)

/-- **What `budgetLimited` says.** After a call the flag says whether an unpaused
    RPC is left wanting more, unless less than the effective minimum increment was
    available and that was enough for all of them: then it is set and no RPC is
    left. -/
theorem limited_iff (s : SrptScheduler) (reserved : ℚ) (h : 0 < s.minIncrement) :
    ((s.grants reserved).2.limited = true ↔ (s.grants reserved).2.LeftWanting) ↔
      ¬ s.EnoughBelowIncrement reserved := by
  rw [limited_grants_iff h]
  obtain ⟨a', hspent, -⟩ := s.spent_grants reserved
  constructor
  · rintro hiff ⟨hne, hlt, hneed⟩
    obtain ⟨c, hc, hnot⟩ := leftWanting_grants_iff.mp (hiff.mp (.inl ⟨hne, hlt⟩))
    have hpos : ¬ s.available reserved ≤ 0 := ((need_pos hne).trans_le hneed).not_ge
    rw [grants_fst_eq hpos] at hnot
    exact hnot ((grantLoop_of_need_le s.granted_lt_of_mem_candidates hneed).2 c hc)
  · intro henough
    refine ⟨fun hor => hor.elim (fun ⟨hne, hlt⟩ => ?_) id, .inr⟩
    by_contra hnone
    rw [leftWanting_grants_iff] at hnone
    push Not at hnone
    have hpos : 0 ≤ s.available reserved := by
      by_contra hneg
      obtain ⟨c, hc⟩ := List.exists_mem_of_ne_nil _ hne
      obtain ⟨d, hd, -⟩ := hnone c hc
      rw [grants_eq_nil (not_le.mp hneg).le] at hd
      exact List.not_mem_nil hd
    exact henough ⟨hne, hlt, hspent.need_le hpos s.nodup_candidates hnone⟩

end Call

/-- One byte is left to grant. -/
def oneByteLeft : SrptScheduler := (new 100 10).add 1 1 0 0 .normal

/-- With 95 of 100 bytes reserved the byte is granted, and the flag is set. -/
theorem limited_oneByteLeft :
    ¬ ∀ (s : SrptScheduler) (reserved : ℚ), 0 < s.minIncrement →
      ((s.grants reserved).2.limited = true ↔ (s.grants reserved).2.LeftWanting) := by
  intro h
  have hnone : ∀ e ∈ (oneByteLeft.grants 95).2.rpcs.values, ¬ e.granted < e.size := by decide +kernel
  obtain ⟨id, e, he, -, hlt⟩ := (h oneByteLeft 95 (by decide +kernel)).mp (by decide +kernel)
  exact hnone e (OrderedMap.mem_values.mpr ⟨id, he⟩) hlt

/-- With a minimum increment of one byte the flag is right. -/
theorem limited_iff_one :
    (((twoRpcs 1).grants 0).2.limited = true ↔ ((twoRpcs 1).grants 0).2.LeftWanting) :=
  (limited_iff (twoRpcs 1) 0 (by decide +kernel)).mpr fun h => absurd h.2.1 (by decide +kernel)

end SrptScheduler

end Http4.Client
