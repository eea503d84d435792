import Http4.Data.Bytes

/-!
# Go's integers and string functions

What the modelled Go code uses of `int64` arithmetic and of the packages
`strings` and `strconv`. A Go string is its bytes, which need not be UTF-8.

Main results:

* `trimSpace_word`: white space around a text with visible ends is cut off, and
  nothing else.
* `trimSpace_blanks`, `map_trimSpace_splitOn`: blanks around a text play no part.
* `mem_splitOn_of_between`: what stands between two separators is one of the parts.
-/

namespace GoStd

/-- The `int64` of a number, whose arithmetic wraps. -/
def int64 (n : ℤ) : ℤ := (n + 2 ^ 63) % 2 ^ 64 - 2 ^ 63

/-! ## Letters -/

/-- The lower case of an ASCII byte; other bytes are kept. -/
def asciiLower (c : UInt8) : UInt8 := if 0x41 ≤ c.toNat ∧ c.toNat ≤ 0x5A then c + 0x20 else c

/-- `strings.ToLower`, for comparison with ASCII texts. Of the characters outside
    ASCII only U+0130 and U+212A have an ASCII letter for lower case; the others
    stay outside ASCII and keep their bytes here. -/
def toLower : Bytes → Bytes
  | 0xC4 :: 0xB0 :: rest => 0x69 :: toLower rest
  | 0xE2 :: 0x84 :: 0xAA :: rest => 0x6B :: toLower rest
  | c :: rest => asciiLower c :: toLower rest
  | [] => []

/-- `strings.EqualFold`, where one side is ASCII without the letters k and s, the
    only ones that fold with characters outside ASCII. -/
def equalFold (a b : Bytes) : Bool := a.map asciiLower == b.map asciiLower

/-- A byte that is neither a blank nor outside ASCII. -/
def Visible (c : UInt8) : Prop := 0x21 ≤ c.toNat ∧ c.toNat ≤ 0x7E

instance (c : UInt8) : Decidable (Visible c) := inferInstanceAs (Decidable (_ ∧ _))

/-- A space or a tab. -/
def Blank (c : UInt8) : Prop := c = 0x20 ∨ c = 0x09

/-! ## Trimming -/

/-- The UTF-8 encodings of the characters with the property White_Space. -/
def spaces : List Bytes :=
  [[0x09], [0x0A], [0x0B], [0x0C], [0x0D], [0x20], [0xC2, 0x85], [0xC2, 0xA0],
    [0xE1, 0x9A, 0x80], [0xE2, 0x80, 0x80], [0xE2, 0x80, 0x81], [0xE2, 0x80, 0x82],
    [0xE2, 0x80, 0x83], [0xE2, 0x80, 0x84], [0xE2, 0x80, 0x85], [0xE2, 0x80, 0x86],
    [0xE2, 0x80, 0x87], [0xE2, 0x80, 0x88], [0xE2, 0x80, 0x89], [0xE2, 0x80, 0x8A],
    [0xE2, 0x80, 0xA8], [0xE2, 0x80, 0xA9], [0xE2, 0x80, 0xAF], [0xE2, 0x81, 0x9F],
    [0xE3, 0x80, 0x80]]

/-- Cuts off texts of the list `cut` from the front, at most `n` times. -/
def trimPrefixes (cut : List Bytes) : ℕ → Bytes → Bytes
  | 0, b => b
  | n + 1, b =>
    match cut.find? fun p => p.isPrefixOf b with
    | none => b
    | some p => trimPrefixes cut n (b.drop p.length)

/-- White space cut off the front. -/
def trimLeft (b : Bytes) : Bytes := trimPrefixes spaces b.length b

/-- White space cut off the end. -/
def trimRight (b : Bytes) : Bytes :=
  (trimPrefixes (spaces.map List.reverse) b.length b.reverse).reverse

/-- `strings.TrimSpace`. -/
def trimSpace (b : Bytes) : Bytes := trimRight (trimLeft b)

/-- `strings.Trim` with a one-byte cut set. -/
def trimByte (c : UInt8) (b : Bytes) : Bytes :=
  (((b.dropWhile (· == c)).reverse).dropWhile (· == c)).reverse

/-- `strings.Cut` without its flag. -/
def cut (sep : UInt8) (b : Bytes) : Bytes × Bytes :=
  (b.takeWhile (· != sep), (b.dropWhile (· != sep)).drop 1)

/-! ## Numbers -/

/-- The value of decimal digits. -/
def digits (b : Bytes) : Option ℕ :=
  if b ≠ [] ∧ ∀ c ∈ b, 0x30 ≤ c.toNat ∧ c.toNat ≤ 0x39 then
    some (b.foldl (fun n c => 10 * n + (c.toNat - 0x30)) 0)
  else none

/-- `strconv.Itoa` of a number that is not negative. -/
def itoa (n : ℕ) : Bytes :=
  if n = 0 then [0x30] else ((Nat.digits 10 n).map fun d => UInt8.ofNat (0x30 + d)).reverse

/-- `strconv.ParseInt(s, 10, 64)`; `none` is an error. -/
def parseInt64 (b : Bytes) : Option ℤ :=
  match b with
  | 0x2B :: rest => (digits rest).bind fun n => if n < 2 ^ 63 then some n else none
  | 0x2D :: rest => (digits rest).bind fun n => if n ≤ 2 ^ 63 then some (-n) else none
  | rest => (digits rest).bind fun n => if n < 2 ^ 63 then some n else none

/-- The text of a number holds its digits. -/
theorem digits_itoa (n : ℕ) : digits (itoa n) = some n := by
  unfold itoa
  split_ifs with h0
  · subst h0
    simp [digits]
  · have hdigit : ∀ d ∈ Nat.digits 10 n, (UInt8.ofNat (0x30 + d)).toNat = 0x30 + d := by
      intro d hd
      have hlt : d < 10 := Nat.digits_lt_base (by omega) hd
      rw [UInt8.toNat_ofNat']
      omega
    unfold digits
    rw [if_pos]
    · rw [List.foldl_reverse, List.foldr_map]
      apply congrArg some
      have hfold : ∀ ds : List ℕ, (∀ d ∈ ds, (UInt8.ofNat (0x30 + d)).toNat = 0x30 + d) →
          ds.foldr (fun d n => 10 * n + ((UInt8.ofNat (0x30 + d)).toNat - 0x30)) 0 = Nat.ofDigits 10 ds := by
        intro ds
        induction ds with
        | nil => intro _; rfl
        | cons d ds ih =>
          intro hds
          rw [List.foldr_cons, ih fun x hx => hds x (List.mem_cons_of_mem _ hx), hds d List.mem_cons_self,
            Nat.ofDigits_cons]
          omega
      exact (hfold _ hdigit).trans (Nat.ofDigits_digits 10 n)
    · constructor
      · simpa [Nat.digits_eq_nil_iff_eq_zero] using h0
      · intro c hc
        rw [List.mem_reverse, List.mem_map] at hc
        obtain ⟨d, hd, rfl⟩ := hc
        have hlt : d < 10 := Nat.digits_lt_base (by omega) hd
        rw [hdigit d hd]
        omega

theorem itoa_inj {n m : ℕ} : itoa n = itoa m ↔ n = m := by
  constructor
  · intro h
    have hdig : digits (itoa n) = digits (itoa m) := by rw [h]
    rw [digits_itoa, digits_itoa] at hdig
    exact Option.some.inj hdig
  · rintro rfl
    rfl

/-- A number that is read has digits only. -/
theorem of_digits {b : Bytes} {n : ℕ} (h : digits b = some n) :
    b ≠ [] ∧ ∀ c ∈ b, 0x30 ≤ c.toNat ∧ c.toNat ≤ 0x39 := by
  unfold digits at h
  split_ifs at h with hb
  exact hb

theorem notMem_of_digits {b : Bytes} {n : ℕ} (h : digits b = some n) : (0x3A : UInt8) ∉ b := by
  intro hc
  have := (of_digits h).2 _ hc
  simp at this

/-! ## What trimming leaves -/

/-- Texts to cut off: they hold no visible byte, and a blank only by itself. -/
structure WhiteSpace (cut : List Bytes) : Prop where
  ne_nil : ∀ p ∈ cut, p ≠ []
  hidden : ∀ p ∈ cut, ∀ c ∈ p, ¬ Visible c
  blank : [0x20] ∈ cut ∧ [0x09] ∈ cut
  single : ∀ p ∈ cut, ∀ c ∈ p, c = 0x20 ∨ c = 0x09 → p = [c]

theorem whiteSpace_spaces : WhiteSpace spaces where
  ne_nil := by simp [spaces]
  hidden := by simp [spaces, Visible]
  blank := by simp [spaces]
  single := by simp [spaces]

theorem whiteSpace_reverse : WhiteSpace (spaces.map List.reverse) where
  ne_nil p hp := by
    obtain ⟨q, hq, rfl⟩ := List.mem_map.mp hp
    rw [ne_eq, List.reverse_eq_nil_iff]
    exact whiteSpace_spaces.ne_nil q hq
  hidden p hp c hc := by
    obtain ⟨q, hq, rfl⟩ := List.mem_map.mp hp
    exact whiteSpace_spaces.hidden q hq c (List.mem_reverse.mp hc)
  blank := ⟨List.mem_map.mpr ⟨_, whiteSpace_spaces.blank.1, rfl⟩,
    List.mem_map.mpr ⟨_, whiteSpace_spaces.blank.2, rfl⟩⟩
  single p hp c hc hblank := by
    obtain ⟨q, hq, rfl⟩ := List.mem_map.mp hp
    rw [whiteSpace_spaces.single q hq c (List.mem_reverse.mp hc) hblank]
    rfl

section Trim

variable {cut : List Bytes} (h : WhiteSpace cut)
include h

/-- Trimming stops at a visible byte at the latest. -/
theorem exists_trimPrefixes (n : ℕ) (a : Bytes) {c : UInt8} (hc : Visible c) (rest : Bytes) :
    ∃ a', trimPrefixes cut n (a ++ c :: rest) = a' ++ c :: rest ∧ a' <:+ a := by
  induction n generalizing a with
  | zero => exact ⟨a, rfl, List.suffix_refl a⟩
  | succ n ih =>
    rw [trimPrefixes]
    cases hfind : cut.find? fun p => p.isPrefixOf (a ++ c :: rest) with
    | none => exact ⟨a, rfl, List.suffix_refl a⟩
    | some p =>
      have hp := List.mem_of_find?_eq_some hfind
      have hprefix : p <+: a ++ c :: rest := by simpa using List.find?_some hfind
      -- the text cut off ends before the visible byte
      have hlen : p.length ≤ a.length := by
        by_contra hlt
        rw [not_le] at hlt
        have hget : p[a.length]? = some c := by
          obtain ⟨t, ht⟩ := hprefix
          have := congrArg (·[a.length]?) ht
          simpa [List.getElem?_append_left hlt, List.getElem?_append_right (le_refl a.length)] using this
        exact h.hidden p hp c (List.mem_of_getElem? hget) hc
      obtain ⟨a', ha', hsuffix⟩ := ih (a.drop p.length)
      refine ⟨a', ?_, hsuffix.trans (List.drop_suffix _ _)⟩
      simp only
      rw [List.drop_append_of_le_length hlen, ha']

/-- Blanks in front of a visible byte are cut off, and nothing else. -/
theorem trimPrefixes_blanks {lead : Bytes} (hlead : ∀ b ∈ lead, Blank b) {c : UInt8} (hc : Visible c)
    (rest : Bytes) {n : ℕ} (hn : lead.length ≤ n) :
    trimPrefixes cut n (lead ++ c :: rest) = c :: rest := by
  induction lead generalizing n with
  | nil =>
    obtain ⟨a', ha', hsuffix⟩ := exists_trimPrefixes h n [] hc rest
    rw [List.suffix_nil.mp hsuffix] at ha'
    exact ha'
  | cons b lead ih =>
    obtain ⟨hb, hlead⟩ := List.forall_mem_cons.mp hlead
    obtain ⟨n, rfl⟩ : ∃ m, n = m + 1 := ⟨n - 1, by simp only [List.length_cons] at hn; omega⟩
    have hmem : [b] ∈ cut := by
      rcases hb with rfl | rfl
      · exact h.blank.1
      · exact h.blank.2
    rw [trimPrefixes]
    cases hfind : cut.find? fun p => p.isPrefixOf (b :: lead ++ c :: rest) with
    | none =>
      have := List.find?_eq_none.mp hfind [b] hmem
      simp at this
    | some p =>
      have hp := List.mem_of_find?_eq_some hfind
      have hprefix : p <+: b :: (lead ++ c :: rest) := by simpa using List.find?_some hfind
      have hsingle : p = [b] := by
        cases p with
        | nil => exact absurd rfl (h.ne_nil [] hp)
        | cons x xs =>
          obtain rfl := (List.cons_prefix_cons.mp hprefix).1
          exact h.single _ hp x List.mem_cons_self hb
      subst hsingle
      exact ih hlead (by simp only [List.length_cons] at hn; omega)

/-- A text to cut off ends before a visible byte. -/
theorem prefix_append_visible {p : Bytes} (hp : p ∈ cut) {a : Bytes} {c : UInt8} (hc : Visible c)
    {rest : Bytes} : p <+: a ++ c :: rest ↔ p <+: a := by
  constructor
  · intro hprefix
    refine List.prefix_of_prefix_length_le hprefix (List.prefix_append a _) ?_
    by_contra hlt
    rw [not_le] at hlt
    obtain ⟨t, ht⟩ := hprefix
    have hget : p[a.length]? = some c := by
      have := congrArg (·[a.length]?) ht
      simpa [List.getElem?_append_left hlt, List.getElem?_append_right (le_refl a.length)] using this
    exact h.hidden p hp c (List.mem_of_getElem? hget) hc
  · intro hprefix
    exact hprefix.trans (List.prefix_append a _)

/-- A text to cut off ends before blanks that follow. -/
theorem prefix_append_blanks {p : Bytes} (hp : p ∈ cut) {a trail : Bytes} (ha : a ≠ [])
    (htrail : ∀ b ∈ trail, Blank b) : p <+: a ++ trail ↔ p <+: a := by
  constructor
  · intro hprefix
    refine List.prefix_of_prefix_length_le hprefix (List.prefix_append a _) ?_
    by_contra hlt
    rw [not_le] at hlt
    obtain ⟨t, ht⟩ := List.prefix_of_prefix_length_le (List.prefix_append a trail) hprefix hlt.le
    obtain ⟨b, t, rfl⟩ : ∃ b t', t = b :: t' := by
      apply List.exists_cons_of_ne_nil
      rintro rfl
      rw [List.append_nil] at ht
      exact absurd hlt (by rw [ht]; exact lt_irrefl _)
    subst ht
    have hb : Blank b := by
      have hsub : b :: t <+: trail := (List.prefix_append_right_inj a).mp hprefix
      exact htrail b (hsub.subset List.mem_cons_self)
    have hsingle := h.single _ hp b (List.mem_append_right a List.mem_cons_self) hb
    have hlength := congrArg List.length hsingle
    simp only [List.length_append, List.length_cons, List.length_nil] at hlength
    exact ha (List.length_eq_zero_iff.mp (by omega))
  · intro hprefix
    exact hprefix.trans (List.prefix_append a _)

omit h in
/-- Trimming looks at what the texts to cut off are prefixes of. -/
theorem find?_congr {a b : Bytes} (hab : ∀ p ∈ cut, p <+: a ↔ p <+: b) :
    (cut.find? fun p => p.isPrefixOf a) = cut.find? fun p => p.isPrefixOf b := by
  induction cut with
  | nil => rfl
  | cons p cut ih =>
    obtain ⟨hp, hcut⟩ := List.forall_mem_cons.mp hab
    have heq : p.isPrefixOf a = p.isPrefixOf b := by
      rw [Bool.eq_iff_iff, List.isPrefixOf_iff_prefix, List.isPrefixOf_iff_prefix]
      exact hp
    rw [List.find?_cons, List.find?_cons, heq, ih hcut]

theorem find?_cases (b : Bytes) :
    (cut.find? fun p => p.isPrefixOf b) = none ∨
      ∃ p, (cut.find? fun p => p.isPrefixOf b) = some p ∧ p <+: b ∧ 0 < p.length ∧ p.length ≤ b.length := by
  cases hfind : cut.find? fun p => p.isPrefixOf b with
  | none => exact .inl rfl
  | some p =>
    have hprefix : p <+: b := by simpa using List.find?_some hfind
    have hne := h.ne_nil p (List.mem_of_find?_eq_some hfind)
    exact .inr ⟨p, rfl, hprefix, List.length_pos_iff.mpr hne, hprefix.length_le⟩

/-- Enough steps are enough. -/
theorem trimPrefixes_fuel {n m : ℕ} {b : Bytes} (hn : b.length ≤ n) (hm : b.length ≤ m) :
    trimPrefixes cut n b = trimPrefixes cut m b := by
  induction n generalizing m b with
  | zero =>
    obtain rfl : b = [] := List.length_eq_zero_iff.mp (by omega)
    cases m with
    | zero => rfl
    | succ m =>
      unfold trimPrefixes
      rcases find?_cases h [] with hfind | ⟨p, -, -, hpos, hle⟩
      · rw [hfind]
      · simp only [List.length_nil] at hle
        omega
  | succ n ih =>
    rcases find?_cases h b with hfind | ⟨p, hfind, -, hpos, hle⟩
    · cases m with
      | zero =>
        unfold trimPrefixes
        rw [hfind]
      | succ m => rw [trimPrefixes, trimPrefixes, hfind]
    · cases m with
      | zero => omega
      | succ m =>
        rw [trimPrefixes, trimPrefixes, hfind]
        apply ih <;> (rw [List.length_drop]; omega)

/-- Nothing is left to cut off. -/
theorem find?_trimPrefixes {n : ℕ} {b : Bytes} (hn : b.length ≤ n) :
    (cut.find? fun p => p.isPrefixOf (trimPrefixes cut n b)) = none := by
  induction n generalizing b with
  | zero =>
    obtain rfl : b = [] := List.length_eq_zero_iff.mp (by omega)
    rcases find?_cases h [] with hfind | ⟨p, -, -, hpos, hle⟩
    · exact hfind
    · simp only [List.length_nil] at hle
      omega
  | succ n ih =>
    rcases find?_cases h b with hfind | ⟨p, hfind, -, hpos, hle⟩
    · rw [trimPrefixes, hfind]
      exact hfind
    · rw [trimPrefixes, hfind]
      apply ih
      rw [List.length_drop]
      omega

theorem trimPrefixes_append (n : ℕ) (a : Bytes) {c : UInt8} (hc : Visible c) (rest : Bytes) :
    trimPrefixes cut n (a ++ c :: rest) = trimPrefixes cut n a ++ c :: rest := by
  induction n generalizing a with
  | zero => rfl
  | succ n ih =>
    rw [trimPrefixes, trimPrefixes, find?_congr fun p hp => prefix_append_visible h hp hc]
    rcases find?_cases h a with hfind | ⟨p, hfind, -, -, hle⟩
    · rw [hfind]
    · rw [hfind]
      dsimp only
      rw [List.drop_append_of_le_length hle, ih]

theorem trimPrefixes_lead {lead : Bytes} (hlead : ∀ b ∈ lead, Blank b) (n : ℕ) (y : Bytes) :
    trimPrefixes cut (lead.length + n) (lead ++ y) = trimPrefixes cut n y := by
  induction lead with
  | nil => rw [List.length_nil, zero_add, List.nil_append]
  | cons b lead ih =>
    obtain ⟨hb, hlead⟩ := List.forall_mem_cons.mp hlead
    have hmem : [b] ∈ cut := by
      rcases hb with rfl | rfl
      · exact h.blank.1
      · exact h.blank.2
    rw [List.length_cons, Nat.succ_add_eq_add_succ, Nat.add_succ, trimPrefixes]
    cases hfind : cut.find? fun p => p.isPrefixOf (b :: lead ++ y) with
    | none =>
      have := List.find?_eq_none.mp hfind [b] hmem
      simp at this
    | some p =>
      have hp := List.mem_of_find?_eq_some hfind
      have hprefix : p <+: b :: (lead ++ y) := by simpa using List.find?_some hfind
      obtain rfl : p = [b] := by
        cases p with
        | nil => exact absurd rfl (h.ne_nil [] hp)
        | cons x xs =>
          obtain rfl := (List.cons_prefix_cons.mp hprefix).1
          exact h.single _ hp x List.mem_cons_self hb
      exact ih hlead

theorem trimPrefixes_trail {trail : Bytes} (htrail : ∀ b ∈ trail, Blank b) {n : ℕ} {a : Bytes}
    (hn : (a ++ trail).length ≤ n) :
    trimPrefixes cut n (a ++ trail) = if trimPrefixes cut n a = [] then [] else trimPrefixes cut n a ++ trail := by
  induction n generalizing a with
  | zero =>
    obtain ⟨rfl, rfl⟩ := List.append_eq_nil_iff.mp (List.length_eq_zero_iff.mp (Nat.le_zero.mp hn))
    rfl
  | succ n ih =>
    by_cases ha : a = []
    · subst ha
      have hnil : trimPrefixes cut (n + 1) [] = [] := by
        rw [trimPrefixes_fuel h (m := 0) (Nat.zero_le _) le_rfl]
        rfl
      have hall := trimPrefixes_lead h htrail 0 []
      rw [List.nil_append] at hn
      rw [List.append_nil, Nat.add_zero] at hall
      rw [if_pos hnil, List.nil_append, trimPrefixes_fuel h hn le_rfl]
      exact hall
    rw [trimPrefixes, trimPrefixes, find?_congr fun p hp => prefix_append_blanks h hp ha htrail]
    rcases find?_cases h a with hfind | ⟨p, hfind, -, hpos, hle⟩
    · rw [hfind]
      dsimp only
      rw [if_neg ha]
    · rw [hfind]
      dsimp only
      rw [List.drop_append_of_le_length hle]
      apply ih
      rw [List.length_append] at hn ⊢
      rw [List.length_drop]
      omega

end Trim

/-- Blanks before a visible byte are cut off the front. -/
theorem trimLeft_blanks {lead : Bytes} (hlead : ∀ b ∈ lead, Blank b) {c : UInt8} (hc : Visible c)
    (rest : Bytes) : trimLeft (lead ++ c :: rest) = c :: rest :=
  trimPrefixes_blanks whiteSpace_spaces hlead hc rest (by rw [List.length_append]; omega)

/-- Blanks after a visible byte are cut off the end. -/
theorem trimRight_blanks {trail : Bytes} (htrail : ∀ b ∈ trail, Blank b) {c : UInt8} (hc : Visible c)
    (front : Bytes) : trimRight (front ++ c :: trail) = front ++ [c] := by
  have hrev : (front ++ c :: trail).reverse = trail.reverse ++ c :: front.reverse := by simp
  rw [trimRight, hrev, trimPrefixes_blanks whiteSpace_reverse (fun b hb => htrail b (List.mem_reverse.mp hb))
    hc _ (by simp; omega), List.reverse_cons, List.reverse_reverse]

/-- A text of visible bytes between blanks is what trimming leaves. -/
theorem trimSpace_word {lead : Bytes} (trail : Bytes) {word : Bytes} (hlead : ∀ b ∈ lead, Blank b)
    (htrail : ∀ b ∈ trail, Blank b) (hne : word ≠ []) (hword : ∀ c ∈ word, Visible c) :
    trimSpace (lead ++ word ++ trail) = word := by
  obtain ⟨x, xs, hfront⟩ := List.exists_cons_of_ne_nil hne
  obtain ⟨ys, y, hback⟩ := List.eq_nil_or_concat' word |>.resolve_left hne
  have hx : Visible x := hword x (by rw [hfront]; exact List.mem_cons_self)
  have hy : Visible y := hword y (by rw [hback]; exact List.mem_concat_self)
  have hleft : trimLeft (lead ++ word ++ trail) = word ++ trail := by
    rw [hfront, List.append_assoc, List.cons_append, trimLeft_blanks hlead hx]
  rw [trimSpace, hleft, hback, List.append_assoc, List.singleton_append, trimRight_blanks htrail hy]

/-- The same where something follows that starts with a visible byte: only the end
    of that may be cut off. -/
theorem exists_trimSpace_append {lead word : Bytes} (hlead : ∀ b ∈ lead, Blank b) (hne : word ≠ [])
    (hword : ∀ c ∈ word, Visible c) (middle : Bytes) {c : UInt8} (hc : Visible c) (rest : Bytes) :
    ∃ rest', trimSpace (lead ++ word ++ middle ++ c :: rest) = word ++ middle ++ c :: rest' := by
  obtain ⟨x, xs, rfl⟩ := List.exists_cons_of_ne_nil hne
  have hx := hword x List.mem_cons_self
  have hleft : trimLeft (lead ++ x :: xs ++ middle ++ c :: rest) = x :: xs ++ middle ++ c :: rest := by
    rw [List.append_assoc, List.append_assoc, List.cons_append, trimLeft_blanks hlead hx]
    simp
  obtain ⟨a', ha', -⟩ := exists_trimPrefixes whiteSpace_reverse
    (x :: xs ++ middle ++ c :: rest).length rest.reverse hc (x :: xs ++ middle).reverse
  have hrev : (x :: xs ++ middle ++ c :: rest).reverse =
      rest.reverse ++ c :: (x :: xs ++ middle).reverse := by simp
  refine ⟨a'.reverse, ?_⟩
  rw [trimSpace, hleft, trimRight, hrev, ha']
  simp

/-- Only the part after a visible byte is trimmed at the end. -/
theorem trimRight_append (a : Bytes) {c : UInt8} (hc : Visible c) (x : Bytes) :
    trimRight (a ++ c :: x) = a ++ c :: trimRight x := by
  have hrev : (a ++ c :: x).reverse = x.reverse ++ c :: a.reverse := by simp
  have hfuel : trimPrefixes (spaces.map List.reverse) (a ++ c :: x).length x.reverse =
      trimPrefixes (spaces.map List.reverse) x.length x.reverse :=
    trimPrefixes_fuel whiteSpace_reverse (by simp; omega) (by simp)
  rw [trimRight, hrev, trimPrefixes_append whiteSpace_reverse _ _ hc, hfuel, trimRight]
  simp

theorem trimRight_trimRight (b : Bytes) : trimRight (trimRight b) = trimRight b := by
  have hstop := find?_trimPrefixes whiteSpace_reverse (n := b.length) (b := b.reverse) (by simp)
  unfold trimRight
  rw [List.reverse_reverse]
  generalize trimPrefixes (spaces.map List.reverse) b.length b.reverse = t at hstop ⊢
  congr 1
  cases t.reverse.length with
  | zero => rfl
  | succ n => rw [trimPrefixes, hstop]

/-- Trimming from a visible byte on changes the end alone. -/
theorem trimSpace_cons {c : UInt8} (hc : Visible c) (x : Bytes) : trimSpace (c :: x) = c :: trimRight x := by
  have hleft := @trimLeft_blanks [] (by simp) c hc x
  rw [List.nil_append] at hleft
  rw [trimSpace, hleft]
  exact trimRight_append [] hc x

/-- Blanks around a text play no part. -/
theorem trimSpace_blanks {lead trail : Bytes} (hlead : ∀ b ∈ lead, Blank b) (htrail : ∀ b ∈ trail, Blank b)
    (b : Bytes) : trimSpace (lead ++ b ++ trail) = trimSpace b := by
  have hleft : trimLeft (lead ++ b ++ trail) = trimLeft (b ++ trail) := by
    rw [trimLeft, List.append_assoc, List.length_append]
    exact trimPrefixes_lead whiteSpace_spaces hlead _ _
  have htail : trimLeft (b ++ trail) = if trimLeft b = [] then [] else trimLeft b ++ trail := by
    have hfuel : trimPrefixes spaces (b ++ trail).length b = trimLeft b :=
      trimPrefixes_fuel whiteSpace_spaces (by simp) le_rfl
    rw [trimLeft, trimPrefixes_trail whiteSpace_spaces htrail le_rfl, hfuel]
  have hright (t : Bytes) : trimRight (t ++ trail) = trimRight t := by
    have hblank : ∀ b ∈ trail.reverse, Blank b := fun b hb => htrail b (List.mem_reverse.mp hb)
    have := trimPrefixes_lead whiteSpace_reverse hblank t.length t.reverse
    rw [trimRight, List.reverse_append, List.length_append, add_comm, ← @List.length_reverse _ trail, this,
      trimRight]
  rw [trimSpace, hleft, htail]
  split_ifs with hnil
  · rw [trimSpace, hnil]
  · rw [hright, trimSpace]

/-! ## Parts -/

/-- Blanks around a text play no part in its trimmed parts. -/
theorem map_trimSpace_splitOn {sep : UInt8} (hsep : ¬ Blank sep) {lead trail : Bytes}
    (hlead : ∀ b ∈ lead, Blank b) (htrail : ∀ b ∈ trail, Blank b) (b : Bytes) :
    ((lead ++ b ++ trail).splitOn sep).map trimSpace = (b.splitOn sep).map trimSpace := by
  have hnot {bs : Bytes} (hbs : ∀ b ∈ bs, Blank b) : sep ∉ bs := fun hmem => hsep (hbs sep hmem)
  induction hn : b.length using Nat.strong_induction_on generalizing b lead with
  | _ n ih =>
    by_cases hmem : sep ∈ b
    · obtain ⟨x, y, rfl, hx⟩ := List.eq_append_cons_of_mem hmem
      have hfront : sep ∉ lead ++ x := by
        rw [List.mem_append, not_or]
        exact ⟨hnot hlead, hx⟩
      have hsplit : lead ++ (x ++ sep :: y) ++ trail = (lead ++ x) ++ sep :: (y ++ trail) := by simp
      have hfirst := @trimSpace_blanks lead [] hlead (by simp) x
      have hrest := @ih y.length (by rw [← hn]; simp; omega) [] (by simp) y rfl
      rw [List.append_nil] at hfirst
      rw [List.nil_append] at hrest
      rw [hsplit, List.splitOn_append_cons_self_of_not_mem hfront, List.splitOn_append_cons_self_of_not_mem hx,
        List.map_cons, List.map_cons, hfirst, hrest]
    · have hall : sep ∉ lead ++ b ++ trail := by
        rw [List.mem_append, List.mem_append, not_or, not_or]
        exact ⟨⟨hnot hlead, hmem⟩, hnot htrail⟩
      rw [List.splitOn_eq_singleton hall, List.splitOn_eq_singleton hmem, List.map_singleton,
        List.map_singleton, trimSpace_blanks hlead htrail]

/-- What stands between two separators, or between one and an end of the text, is
    one of the parts. -/
theorem mem_splitOn_of_between {sep : UInt8} {before part after : Bytes}
    (hbefore : before = [] ∨ ∃ front, before = front ++ [sep]) (hpart : sep ∉ part)
    (hafter : after = [] ∨ ∃ back, after = sep :: back) :
    part ∈ (before ++ part ++ after).splitOn sep := by
  have hend : part ∈ (part ++ after).splitOn sep := by
    rcases hafter with rfl | ⟨back, rfl⟩
    · rw [List.append_nil, List.splitOn_eq_singleton hpart]
      exact List.mem_cons_self
    · rw [List.splitOn_append_cons_self, List.splitOn_eq_singleton hpart]
      exact List.mem_cons_self
  rcases hbefore with rfl | ⟨front, rfl⟩
  · exact hend
  · rw [List.append_assoc, List.append_assoc, List.singleton_append, List.splitOn_append_cons_self]
    exact List.mem_append_right _ hend

/-- A text without separators in front of another becomes part of its first part. -/
theorem splitOn_append_of_notMem {sep : UInt8} {a : Bytes} (ha : sep ∉ a) (b : Bytes) :
    (a ++ b).splitOn sep = (a ++ b.takeWhile (· != sep)) :: (b.splitOn sep).tail := by
  have hwhile {x : Bytes} (hx : sep ∉ x) : ∀ c ∈ x, (c != sep) = true := by
    intro c hc
    rw [bne_iff_ne]
    rintro rfl
    exact hx hc
  by_cases hmem : sep ∈ b
  · obtain ⟨x, y, rfl, hx⟩ := List.eq_append_cons_of_mem hmem
    have hfront : sep ∉ a ++ x := by
      rw [List.mem_append, not_or]
      exact ⟨ha, hx⟩
    rw [← List.append_assoc, List.splitOn_append_cons_self_of_not_mem hfront,
      List.splitOn_append_cons_self_of_not_mem hx, List.takeWhile_append_of_pos (hwhile hx)]
    simp
  · have hall : sep ∉ a ++ b := by
      rw [List.mem_append, not_or]
      exact ⟨ha, hmem⟩
    rw [List.splitOn_eq_singleton hall, List.splitOn_eq_singleton hmem,
      List.takeWhile_eq_self_iff.mpr (hwhile hmem)]
    rfl

/-- What is left after the part that holds no separator starts with one. -/
theorem eq_nil_or_cons_dropWhile (sep : UInt8) (b : Bytes) :
    b.dropWhile (· != sep) = [] ∨ ∃ back, b.dropWhile (· != sep) = sep :: back := by
  cases hrest : b.dropWhile (· != sep) with
  | nil => exact .inl rfl
  | cons c back =>
    have hc : (c != sep) = false := by
      have := List.head?_dropWhile_not (· != sep) b
      rw [hrest] at this
      simpa using this
    rw [bne_eq_false_iff_eq] at hc
    exact .inr ⟨back, by rw [hc]⟩

/-- Cutting at a separator that is there. -/
theorem cut_append {sep : UInt8} {a : Bytes} (h : sep ∉ a) (b : Bytes) : cut sep (a ++ sep :: b) = (a, b) := by
  have hne : ∀ c ∈ a, (c != sep) = true := by
    intro c hc
    rw [bne_iff_ne]
    rintro rfl
    exact h hc
  rw [cut, List.takeWhile_append_of_pos hne, List.dropWhile_append_of_pos hne]
  simp

/-- Two texts agree only where their first separators stand. -/
theorem append_sep_inj {sep : UInt8} {a a' : Bytes} (h : sep ∉ a) (h' : sep ∉ a') (b b' : Bytes) :
    a ++ sep :: b = a' ++ sep :: b' ↔ a = a' ∧ b = b' := by
  constructor
  · intro heq
    have hcut : cut sep (a ++ sep :: b) = cut sep (a' ++ sep :: b') := by rw [heq]
    rw [cut_append h, cut_append h'] at hcut
    exact Prod.mk.inj hcut
  · rintro ⟨rfl, rfl⟩
    rfl

/-- Two texts agree only where their last separators stand. -/
theorem append_sep_inj_right {sep : UInt8} {b b' : Bytes} (h : sep ∉ b) (h' : sep ∉ b') (a a' : Bytes) :
    a ++ sep :: b = a' ++ sep :: b' ↔ a = a' ∧ b = b' := by
  have hrev : ∀ x y : Bytes, (x ++ sep :: y).reverse = y.reverse ++ sep :: x.reverse := by
    intro x y
    simp
  rw [← List.reverse_inj, hrev, hrev, append_sep_inj (by simpa using h) (by simpa using h')]
  simp only [List.reverse_inj]
  exact and_comm

/-- Cutting where there is no separator. -/
theorem cut_of_notMem {sep : UInt8} {a : Bytes} (h : sep ∉ a) : cut sep a = (a, []) := by
  have hne : ∀ c ∈ a, (c != sep) = true := by
    intro c hc
    rw [bne_iff_ne]
    rintro rfl
    exact h hc
  rw [cut, List.takeWhile_eq_self_iff.mpr hne, List.dropWhile_eq_nil_iff.mpr hne]
  rfl

/-- Lower case, of ASCII texts. -/
theorem toLower_eq_map {b : Bytes} (h : ∀ c ∈ b, c.toNat < 0x80) : toLower b = b.map asciiLower := by
  induction b with
  | nil => rfl
  | cons c b ih =>
    obtain ⟨hc, hb⟩ := List.forall_mem_cons.mp h
    rw [toLower, ih hb, List.map_cons]
    · rintro rest rfl
      exact absurd hc (by decide)
    · rintro rest rfl
      exact absurd hc (by decide)

end GoStd
