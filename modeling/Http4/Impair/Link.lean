import Http4.Data.GoStd

/-!
# The link of the impairment proxy

`server/internal/impair/link.go`: what happens to a packet, and when it is
delivered. Times are nanoseconds since the zero `time.Time`; durations are `int64`.
Probabilities are of any type with an order, and the random source is a parameter.

Main results:

* `Link.admitPacket_deliver`: what a delivery does to the link; without reordering its
  time is no earlier than any before.
* `Link.admitPacket_drop`: a drop leaves the latest delivery time as it is.
-/

namespace Http4.Impair

open GoStd

/-- `GilbertElliott` (lines 35–38). -/
structure GilbertElliott (F : Type*) where
  p : F
  r : F
  lossBad : F

/-- `Direction` (lines 18–30). -/
structure Direction (F : Type*) where
  delay : ℤ
  jitter : ℤ
  reorder : Bool
  loss : F
  burst : Option (GilbertElliott F)
  rateBytesPerSec : ℤ
  queueBytes : ℤ

/-- What the code uses of `rand.Rand`, on states of type `G`. -/
structure Rng (G F : Type*) where
  float64 : G → F × G
  int64N : ℤ → G → ℤ × G

/-- `link` (lines 49–56). -/
structure Link (G F : Type*) where
  d : Direction F
  rng : G
  bad : Bool
  linkFreeAt : ℤ
  lastDeliver : ℤ

/-- `Verdict` (lines 41–47), with the delivery time that `admit` returns beside it. -/
inductive Verdict
  | deliver (time : ℤ)
  | dropLoss
  | dropQueue
deriving DecidableEq

def second : ℤ := 1000000000

/-- `time.Time.Sub`: a difference that does not fit is cut off. -/
def timeSub (t u : ℤ) : ℤ := max (-2 ^ 63) (min (2 ^ 63 - 1) (t - u))

variable {G F : Type*}

/-- `newLink` (lines 58–65); the random source starts in state `g`. -/
def newLink [BEq F] [Zero F] [One F] (d : Direction F) (g : G) : Link G F where
  d := { d with burst := d.burst.map fun b => if b.lossBad == 0 then { b with lossBad := 1 } else b }
  rng := g
  bad := false
  linkFreeAt := 0
  lastDeliver := 0

namespace Link

/-- The loss probability of this packet: the burst chain moves first (lines 71–81). -/
def chain [LT F] [DecidableLT F] [LE F] [DecidableLE F] (R : Rng G F) (l : Link G F) : F × Link G F :=
  match l.d.burst with
  | none => (l.d.loss, l)
  | some ge =>
    let (x, rng) := R.float64 l.rng
    let bad : Bool := if l.bad then decide (ge.r ≤ x) else decide (x < ge.p)
    (if bad then ge.lossBad else l.d.loss, { l with rng := rng, bad := bad })

/-- When the packet leaves the transmitter; `none` if the queue is full (lines 86–98). -/
def transmit (l : Link G F) (now : ℤ) (size : ℕ) : Option (ℤ × Link G F) :=
  if 0 < l.d.rateBytesPerSec then
    let start := if now < l.linkFreeAt then l.linkFreeAt else now
    let queued := (int64 (timeSub start now * l.d.rateBytesPerSec)).tdiv second
    if 0 < l.d.queueBytes ∧ l.d.queueBytes < int64 (queued + size) then none
    else
      let depart := start + (int64 (size * second)).tdiv l.d.rateBytesPerSec
      some (depart, { l with linkFreeAt := depart })
  else some (now, l)

/-- The delay of this packet; `none` is the panic of `Int64N` (lines 100–104). -/
def spread (R : Rng G F) (l : Link G F) : Option (ℤ × Link G F) :=
  if 0 < l.d.jitter then
    let n := int64 (int64 (2 * l.d.jitter) + 1)
    if n ≤ 0 then none
    else
      let (x, rng) := R.int64N n l.rng
      let delay := int64 (l.d.delay + int64 (x - l.d.jitter))
      some (max delay 0, { l with rng := rng })
  else some (l.d.delay, l)

/-- The end of `admit`: delivery in order, and the latest time so far (lines 105–112). -/
def schedule (l : Link G F) (time : ℤ) : ℤ × Link G F :=
  let time := if ¬ l.d.reorder ∧ time < l.lastDeliver then l.lastDeliver else time
  (time, if l.lastDeliver < time then { l with lastDeliver := time } else l)

/-- `admit` (lines 70–113); `none` is a panic. -/
def admitPacket [LT F] [DecidableLT F] [LE F] [DecidableLE F] [Zero F] (R : Rng G F) (l : Link G F) (now : ℤ)
    (size : ℕ) : Option (Verdict × Link G F) :=
  let (loss, l) := l.chain R
  let (lost, l) : Bool × Link G F :=
    if 0 < loss then
      let (x, rng) := R.float64 l.rng
      (decide (x < loss), { l with rng := rng })
    else (false, l)
  if lost then some (.dropLoss, l)
  else
    match l.transmit now size with
    | none => some (.dropQueue, l)
    | some (depart, l) =>
      match l.spread R with
      | none => none
      | some (delay, l) =>
        let (time, l) := l.schedule (depart + delay)
        some (.deliver time, l)

/-! ## What `admit` does -/

/-- What the parts of `admit` before `schedule` keep. -/
structure Keeps (l l' : Link G F) : Prop where
  d : l'.d = l.d
  lastDeliver : l'.lastDeliver = l.lastDeliver

theorem Keeps.trans {l l' l'' : Link G F} (h : Keeps l l') (h' : Keeps l' l'') : Keeps l l'' :=
  ⟨h'.d.trans h.d, h'.lastDeliver.trans h.lastDeliver⟩

variable [LT F] [DecidableLT F] [LE F] [DecidableLE F] {R : Rng G F} {l l' : Link G F}

theorem keeps_chain (l : Link G F) : Keeps l (l.chain R).2 := by
  unfold chain
  split <;> exact ⟨rfl, rfl⟩

omit [LT F] [DecidableLT F] [LE F] [DecidableLE F] in
theorem keeps_transmit {now depart : ℤ} {size : ℕ} (h : l.transmit now size = some (depart, l')) : Keeps l l' := by
  unfold transmit at h
  dsimp only at h
  split_ifs at h <;>
    (obtain ⟨-, rfl⟩ := Prod.mk.inj (Option.some.inj h)
     exact ⟨rfl, rfl⟩)

omit [LT F] [DecidableLT F] [LE F] [DecidableLE F] in
theorem keeps_spread {delay : ℤ} (h : l.spread R = some (delay, l')) : Keeps l l' := by
  unfold spread at h
  dsimp only at h
  split_ifs at h
  · obtain ⟨-, rfl⟩ := Prod.mk.inj (Option.some.inj h)
    exact ⟨rfl, rfl⟩
  · obtain ⟨-, rfl⟩ := Prod.mk.inj (Option.some.inj h)
    exact ⟨rfl, rfl⟩

omit [LT F] [DecidableLT F] [LE F] [DecidableLE F] in
theorem of_schedule {time time' : ℤ} (h : l.schedule time = (time', l')) :
    l'.d = l.d ∧ l'.lastDeliver = max l.lastDeliver time' ∧
      (l.d.reorder = false → l.lastDeliver ≤ time') := by
  have hlast : ∀ t, (if l.lastDeliver < t then { l with lastDeliver := t } else l).lastDeliver =
      max l.lastDeliver t := by
    intro t
    split_ifs with ht
    · exact (max_eq_right ht.le).symm
    · exact (max_eq_left (not_lt.mp ht)).symm
  unfold schedule at h
  obtain ⟨rfl, rfl⟩ := Prod.mk.inj h
  refine ⟨?_, hlast _, ?_⟩
  · split_ifs <;> rfl
  · intro hreorder
    rw [hreorder]
    simp only [Bool.false_eq_true, not_false_eq_true, true_and]
    split_ifs <;> omega

variable [Zero F] {now : ℤ} {size : ℕ}

/-- What `admit` comes to: the parts before `schedule` keep the configuration and the
    latest delivery time. -/
theorem admitPacket_cases {v : Verdict} (h : l.admitPacket R now size = some (v, l')) :
    (Keeps l l' ∧ (v = .dropLoss ∨ v = .dropQueue)) ∨
    ∃ l₁ time time', Keeps l l₁ ∧ l₁.schedule time = (time', l') ∧ v = .deliver time' := by
  unfold admitPacket at h
  have hchain := keeps_chain (R := R) l
  generalize l.chain R = c at h hchain
  obtain ⟨loss, l₀⟩ := c
  dsimp only at h hchain
  have hloss : ∀ b l₁, (if 0 < loss then (decide ((R.float64 l₀.rng).1 < loss), { l₀ with rng := (R.float64 l₀.rng).2 })
      else (false, l₀)) = (b, l₁) → Keeps l l₁ := by
    intro b l₁ hl
    split_ifs at hl
    · obtain ⟨-, rfl⟩ := Prod.mk.inj hl
      exact ⟨hchain.d, hchain.lastDeliver⟩
    · obtain ⟨-, rfl⟩ := Prod.mk.inj hl
      exact hchain
  generalize hl : (if 0 < loss then (decide ((R.float64 l₀.rng).1 < loss), { l₀ with rng := (R.float64 l₀.rng).2 })
      else (false, l₀)) = c at h
  obtain ⟨lost, l₁⟩ := c
  have hkeep := hloss lost l₁ hl
  dsimp only at h
  split_ifs at h
  · obtain ⟨rfl, rfl⟩ := Prod.mk.inj (Option.some.inj h)
    exact .inl ⟨hkeep, .inl rfl⟩
  · cases ht : l₁.transmit now size with
    | none =>
      rw [ht] at h
      obtain ⟨rfl, rfl⟩ := Prod.mk.inj (Option.some.inj h)
      exact .inl ⟨hkeep, .inr rfl⟩
    | some c =>
      obtain ⟨depart, l₂⟩ := c
      rw [ht] at h
      dsimp only at h
      cases hs : l₂.spread R with
      | none => simp [hs] at h
      | some c =>
        obtain ⟨delay, l₃⟩ := c
        rw [hs] at h
        dsimp only at h
        obtain ⟨rfl, rfl⟩ := Prod.mk.inj (Option.some.inj h)
        exact .inr ⟨l₃, depart + delay, _, (hkeep.trans (keeps_transmit ht)).trans (keeps_spread hs), rfl, rfl⟩

theorem admitPacket_drop {v : Verdict} (h : l.admitPacket R now size = some (v, l'))
    (hv : ∀ time, v ≠ .deliver time) :
    Keeps l l' := by
  rcases admitPacket_cases h with ⟨hkeep, -⟩ | ⟨l₁, time, time', -, -, rfl⟩
  · exact hkeep
  · exact absurd rfl (hv time')

/-- A delivery is the latest so far if packets are not to be reordered. -/
theorem admitPacket_deliver {time : ℤ} (h : l.admitPacket R now size = some (.deliver time, l')) :
    l'.d = l.d ∧ l'.lastDeliver = max l.lastDeliver time ∧ (l.d.reorder = false → l.lastDeliver ≤ time) := by
  rcases admitPacket_cases h with ⟨-, hv | hv⟩ | ⟨l₁, t, time', hkeep, hsched, hv⟩
  · cases hv
  · cases hv
  · obtain rfl := Verdict.deliver.inj hv
    obtain ⟨h1, h2, h3⟩ := of_schedule hsched
    rw [hkeep.lastDeliver] at h2 h3
    rw [hkeep.d] at h1 h3
    exact ⟨h1, h2, h3⟩

end Link

end Http4.Impair
