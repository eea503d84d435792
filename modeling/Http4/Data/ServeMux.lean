import Http4.Data.GoStd

/-!
# Patterns of `http.ServeMux`

How `net/http` reads a pattern, compares two patterns and registers them. Only
patterns without a method and a host are read. What is a wildcard's name is left
to the parameter `validName`.

Main results:

* `registerAll_eq_some_iff`: registration goes through exactly if all patterns can
  be read and none conflicts with an earlier one.
* `parsePattern_dir`: how the pattern of a directory is read.
* `comparePaths_dir_leaf`, `comparePaths_dir_root`, `comparePaths_dir_dir`: how it
  compares with a file, with the root and with a directory at the root.
-/

namespace ServeMux

open GoStd

/-! ## The code -/

/-- A segment of a pattern: a literal, a wildcard, or a wildcard for all that is left. -/
@[ext]
structure Segment where
  s : Bytes
  wild : Bool
  multi : Bool
deriving DecidableEq

/-- A pattern without method and host: the segments of its path. -/
abbrev Pattern := List Segment

/-- `unhex`, of a byte that is a hexadecimal digit. -/
def hexValue (c : UInt8) : Option UInt8 :=
  if 0x30 ≤ c.toNat ∧ c.toNat ≤ 0x39 then some (c - 0x30)
  else if 0x61 ≤ c.toNat ∧ c.toNat ≤ 0x66 then some (c - 0x61 + 10)
  else if 0x41 ≤ c.toNat ∧ c.toNat ≤ 0x46 then some (c - 0x41 + 10)
  else none

/-- `url.PathUnescape`; `none` is an error. -/
def unescape : Bytes → Option Bytes
  | [] => some []
  | 0x25 :: a :: b :: rest =>
    match hexValue a, hexValue b, unescape rest with
    | some x, some y, some out => some ((x * 16 + y) :: out)
    | _, _, _ => none
  | c :: rest => if c = 0x25 then none else (unescape rest).map (c :: ·)

/-- `pathUnescape`: a text that cannot be unescaped is kept. -/
def pathUnescape (seg : Bytes) : Bytes := (unescape seg).getD seg

/-- The wildcard at the end of a pattern for a directory. -/
def subtree : Segment := ⟨[], true, true⟩

section

variable (validName : Bytes → Bool)

/-- A segment as `parsePattern` reads it; `last` says that nothing follows. -/
def parseSegment (last : Bool) (seg : Bytes) : Option Segment :=
  if last ∧ seg = [] then some subtree
  else if 0x7B ∉ seg then some ⟨pathUnescape seg, false, false⟩
  else if seg.head? ≠ some 0x7B ∨ seg.getLast? ≠ some 0x7D then none
  else
    let name := (seg.drop 1).dropLast
    if name = [0x24] then if last then some ⟨[0x2F], false, false⟩ else none
    else
      let multi : Bool := [0x2E, 0x2E, 0x2E].isSuffixOf name
      let name := if multi then name.take (name.length - 3) else name
      if multi ∧ ¬ last then none
      else if name = [] ∨ ¬ validName name then none
      else some ⟨name, true, multi⟩

/-- The segments of a path; `seen` are the names of the wildcards before. -/
def parseSegments : List Bytes → List Bytes → Option Pattern
  | _, [] => some []
  | seen, seg :: rest =>
    match parseSegment validName rest.isEmpty seg with
    | none => none
    | some s =>
      if s.wild ∧ s.s ≠ [] then
        if s.s ∈ seen then none else (parseSegments (s.s :: seen) rest).map (s :: ·)
      else (parseSegments seen rest).map (s :: ·)

/-- `parsePattern`, for patterns that start with their path. A blank ends a method,
    and no method has a slash. -/
def parsePattern (pattern : Bytes) : Option Pattern :=
  if 0x20 ∈ pattern ∨ 0x09 ∈ pattern then none
  else
    match pattern with
    | 0x2F :: path => parseSegments validName [] (path.splitOn 0x2F)
    | _ => none

end

/-- `relationship`: how the sets of paths that two patterns match lie to one another. -/
inductive Relationship
  | equivalent
  | moreGeneral
  | moreSpecific
  | disjoint
  | overlaps
deriving DecidableEq

open Relationship

/-- `combineRelationships`. -/
def combine : Relationship → Relationship → Relationship
  | equivalent, r => r
  | disjoint, _ => disjoint
  | overlaps, r => if r = disjoint then disjoint else overlaps
  | moreGeneral, equivalent => moreGeneral
  | moreGeneral, moreSpecific => overlaps
  | moreGeneral, r => r
  | moreSpecific, equivalent => moreSpecific
  | moreSpecific, moreGeneral => overlaps
  | moreSpecific, r => r

/-- `compareSegments`. -/
def compareSegments (s1 s2 : Segment) : Relationship :=
  if s1.multi ∧ s2.multi then equivalent
  else if s1.multi then moreGeneral
  else if s2.multi then moreSpecific
  else if s1.wild ∧ s2.wild then equivalent
  else if s1.wild then if s2.s = [0x2F] then disjoint else moreGeneral
  else if s2.wild then if s1.s = [0x2F] then disjoint else moreSpecific
  else if s1.s = s2.s then equivalent
  else disjoint

/-- The last segment takes all that is left. -/
def lastMulti (p : Pattern) : Bool := p.getLast?.any (·.multi)

/-- The loop of `comparePaths`; `m1` and `m2` say how the patterns end. -/
def compareLoop (m1 m2 : Bool) : Relationship → Pattern → Pattern → Relationship
  | rel, [], [] => rel
  | rel, a :: as, b :: bs =>
    let rel := combine rel (compareSegments a b)
    if rel = disjoint then disjoint else compareLoop m1 m2 rel as bs
  | rel, [], _ :: _ => if m1 then combine rel moreGeneral else disjoint
  | rel, _ :: _, [] => if m2 then combine rel moreSpecific else disjoint

/-- `comparePaths`. -/
def comparePaths (p1 p2 : Pattern) : Relationship :=
  if p1.length ≠ p2.length ∧ ¬ lastMulti p1 ∧ ¬ lastMulti p2 then disjoint
  else compareLoop (lastMulti p1) (lastMulti p2) equivalent p1 p2

/-- `conflictsWith`, without hosts and methods. -/
def conflictsWith (p1 p2 : Pattern) : Bool :=
  comparePaths p1 p2 == equivalent || comparePaths p1 p2 == overlaps

/-- A segment without the name of its wildcard. -/
def Segment.anonymous (s : Segment) : Segment := if s.wild then { s with s := [] } else s

/-- Two patterns are the same, up to the names of wildcards. -/
def Coincide (p1 p2 : Pattern) : Prop := p1.map Segment.anonymous = p2.map Segment.anonymous

/-- `ServeMux.Handle`; `none` is a panic. -/
def handle (validName : Bytes → Bool) (mux : List Pattern) (pattern : Bytes) : Option (List Pattern) :=
  match parsePattern validName pattern with
  | none => none
  | some p => if mux.any fun q => conflictsWith p q then none else some (mux ++ [p])

/-- A row of calls of `Handle`. -/
def registerAll (validName : Bytes → Bool) : List Pattern → List Bytes → Option (List Pattern)
  | mux, [] => some mux
  | mux, pattern :: rest =>
    match handle validName mux pattern with
    | none => none
    | some mux => registerAll validName mux rest

/-! ## Registration -/

/-- All patterns can be read, and none has the relation `R` to a later one. -/
def Fits (validName : Bytes → Bool) (R : Pattern → Pattern → Prop) (patterns : List Bytes) : Prop :=
  ∃ ps, patterns.mapM (parsePattern validName) = some ps ∧ ps.Pairwise fun p q => ¬ R q p

theorem registerAll_eq_some_iff {validName : Bytes → Bool} {mux : List Pattern} {patterns : List Bytes}
    (hmux : mux.Pairwise fun p q => ¬ conflictsWith q p = true) :
    (registerAll validName mux patterns).isSome ↔
      ∃ ps, patterns.mapM (parsePattern validName) = some ps ∧
        (mux ++ ps).Pairwise fun p q => ¬ conflictsWith q p = true := by
  induction patterns generalizing mux with
  | nil => simpa [registerAll] using hmux
  | cons pattern rest ih =>
    unfold registerAll handle
    cases hp : parsePattern validName pattern with
    | none => simp [List.mapM_cons, hp]
    | some p =>
      have happ : ∀ ps, (mux ++ p :: ps).Pairwise (fun p q => ¬ conflictsWith q p = true) ↔
          ((mux ++ [p]) ++ ps).Pairwise fun p q => ¬ conflictsWith q p = true := by
        intro ps
        rw [List.append_assoc, List.singleton_append]
      have hrest : (∃ ps, (pattern :: rest).mapM (parsePattern validName) = some ps ∧
            (mux ++ ps).Pairwise fun p q => ¬ conflictsWith q p = true) ↔
          ∃ ps, rest.mapM (parsePattern validName) = some ps ∧
            ((mux ++ [p]) ++ ps).Pairwise fun p q => ¬ conflictsWith q p = true := by
        constructor
        · rintro ⟨ps, hps, hpair⟩
          rw [List.mapM_cons, hp] at hps
          cases hr : rest.mapM (parsePattern validName) with
          | none => simp [hr] at hps
          | some out =>
            rw [hr] at hps
            obtain rfl : p :: out = ps := Option.some.inj hps
            exact ⟨out, rfl, (happ out).mp hpair⟩
        · rintro ⟨ps, hps, hpair⟩
          refine ⟨p :: ps, ?_, (happ ps).mpr hpair⟩
          rw [List.mapM_cons, hp, hps]
          rfl
      rw [hrest]
      by_cases hany : (mux.any fun q => conflictsWith p q) = true
      · simp only [hany, if_true, Option.isSome_none, Bool.false_eq_true, false_iff]
        rintro ⟨ps, -, hpair⟩
        obtain ⟨q, hq, hconf⟩ := List.any_eq_true.mp hany
        have hpre := (List.pairwise_append.mp (List.pairwise_append.mp hpair).1).2.2
        exact hpre q hq p (List.mem_singleton_self p) hconf
      · simp only [hany]
        apply ih
        rw [List.pairwise_append]
        refine ⟨hmux, List.pairwise_singleton _ _, ?_⟩
        intro q hq r hr
        rw [List.mem_singleton.mp hr]
        intro hconf
        exact hany (List.any_eq_true.mpr ⟨q, hq, hconf⟩)

/-- No panic: the patterns fit a new mux. -/
theorem registerAll_nil_iff (validName : Bytes → Bool) (patterns : List Bytes) :
    (registerAll validName [] patterns).isSome ↔
      Fits validName (fun p q => conflictsWith p q = true) patterns :=
  registerAll_eq_some_iff List.Pairwise.nil

/-! ## The pattern of a directory -/

section Directory

variable {validName : Bytes → Bool}

/-- What may stand between the braces of a wildcard that is not the last segment. -/
structure WildcardName (validName : Bytes → Bool) (name : Bytes) : Prop where
  ne_end : name ≠ [0x24]
  not_multi : ¬ [0x2E, 0x2E, 0x2E] <:+ name
  ne_nil : name ≠ []
  valid : validName name = true

/-- A name between braces. -/
def braced (name : Bytes) : Bytes := 0x7B :: name ++ [0x7D]

theorem braced_injective : Function.Injective braced := by
  intro a b h
  exact List.append_cancel_right (List.cons.inj h).2

theorem mem_braced (name : Bytes) : 0x7B ∈ braced name := List.mem_cons_self

theorem exists_braced {seg : Bytes} (hhead : seg.head? = some 0x7B) (hlast : seg.getLast? = some 0x7D) :
    seg = braced ((seg.drop 1).dropLast) := by
  cases seg with
  | nil => simp at hhead
  | cons c rest =>
    obtain rfl := Option.some.inj hhead
    rcases List.eq_nil_or_concat rest with rfl | ⟨init, d, rfl⟩
    · simp at hlast
    · rw [List.concat_eq_append, ← List.cons_append, List.getLast?_concat] at hlast
      obtain rfl := Option.some.inj hlast
      simp [braced]

/-- How a segment is read that is not the last. -/
theorem parseSegment_false_iff {seg : Bytes} {s : Segment} :
    parseSegment validName false seg = some s ↔
      (0x7B ∉ seg ∧ s = ⟨pathUnescape seg, false, false⟩) ∨
      ∃ name, seg = braced name ∧ WildcardName validName name ∧ s = ⟨name, true, false⟩ := by
  unfold parseSegment
  by_cases hbrace : (0x7B : UInt8) ∈ seg
  · by_cases hform : seg.head? ≠ some 0x7B ∨ seg.getLast? ≠ some 0x7D
    · simp only [Bool.false_eq_true, false_and, if_false, hbrace, not_true_eq_false, hform, if_true,
        reduceCtorEq, false_or, false_iff]
      rintro ⟨name, rfl, -, -⟩
      rcases hform with h | h
      · exact h rfl
      · apply h
        unfold braced
        exact List.getLast?_concat
    · push Not at hform
      have hseg := exists_braced hform.1 hform.2
      simp only [Bool.false_eq_true, false_and, if_false, hbrace, not_true_eq_false, hform.1, hform.2, ne_eq,
        or_self, not_false_eq_true, and_true, false_or]
      generalize (seg.drop 1).dropLast = name at hseg
      subst hseg
      constructor
      · intro h
        split_ifs at h with h1 h2 h3
        push Not at h3
        refine ⟨name, rfl, ⟨h1, ?_, h3.1, h3.2⟩, ?_⟩
        · rwa [Bool.not_eq_true, ← Bool.not_eq_true, List.isSuffixOf_iff_suffix] at h2
        · rw [Bool.not_eq_true] at h2
          simpa [h2] using h.symm
      · rintro ⟨name', heq, hname, rfl⟩
        obtain rfl := braced_injective heq
        have hsuffix : [0x2E, 0x2E, 0x2E].isSuffixOf name = false := by
          rw [← Bool.not_eq_true, List.isSuffixOf_iff_suffix]
          exact hname.not_multi
        simp [hsuffix, hname.ne_end, hname.ne_nil, hname.valid]
  · have hno : ¬ ∃ name, seg = braced name ∧ WildcardName validName name ∧ s = ⟨name, true, false⟩ := by
      rintro ⟨name, rfl, -, -⟩
      exact hbrace (mem_braced name)
    simp [hbrace, hno, eq_comm]

/-- The names of the wildcards. -/
def wildNames (p : Pattern) : List Bytes := (p.filter (·.wild)).map (·.s)

theorem parseSegments_dir {seen front : List Bytes} {p : Pattern} :
    parseSegments validName seen (front ++ [[]]) = some p ↔
      ∃ init, p = init ++ [subtree] ∧ front.mapM (parseSegment validName false) = some init ∧
        (wildNames init).Nodup ∧ ∀ name ∈ wildNames init, name ∉ seen := by
  induction front generalizing seen p with
  | nil =>
    have hlast : parseSegments validName seen [[]] = some [subtree] := by
      simp [parseSegments, parseSegment, subtree]
    rw [List.nil_append, hlast]
    constructor
    · intro h
      exact ⟨[], (Option.some.inj h).symm, rfl, List.nodup_nil, by simp [wildNames]⟩
    · rintro ⟨init, rfl, hinit, -⟩
      obtain rfl : [] = init := Option.some.inj hinit
      rfl
  | cons seg rest ih =>
    have hlast : (rest ++ [[]]).isEmpty = false := by simp
    rw [List.cons_append]
    unfold parseSegments
    rw [hlast]
    cases hs : parseSegment validName false seg with
    | none => simp [List.mapM_cons, hs]
    | some s =>
      have hmapM : ∀ init, (seg :: rest).mapM (parseSegment validName false) = some init ↔
          ∃ out, rest.mapM (parseSegment validName false) = some out ∧ init = s :: out := by
        intro init
        rw [List.mapM_cons, hs]
        cases rest.mapM (parseSegment validName false) with
        | none => simp
        | some out => simp [eq_comm]
      simp only [hmapM]
      rcases parseSegment_false_iff.mp hs with ⟨-, rfl⟩ | ⟨name, -, hname, rfl⟩
      · simp only [Bool.false_eq_true, false_and, if_false, Option.map_eq_some_iff, ih]
        constructor
        · rintro ⟨q, ⟨out, rfl, hout, hdup, hseen⟩, rfl⟩
          exact ⟨_, rfl, ⟨out, hout, rfl⟩, by simpa [wildNames] using hdup, by simpa [wildNames] using hseen⟩
        · rintro ⟨_, rfl, ⟨out, hout, rfl⟩, hdup, hseen⟩
          exact ⟨_, ⟨out, rfl, hout, by simpa [wildNames] using hdup, by simpa [wildNames] using hseen⟩, rfl⟩
      · have hnames : ∀ out, wildNames (⟨name, true, false⟩ :: out) = name :: wildNames out := by
          intro out
          simp [wildNames]
        simp only [hname.ne_nil, ne_eq, not_false_eq_true, and_self, if_true]
        constructor
        · intro h
          split_ifs at h with hmem
          rw [Option.map_eq_some_iff] at h
          obtain ⟨q, hq, rfl⟩ := h
          obtain ⟨out, rfl, hout, hdup, hseen⟩ := ih.mp hq
          refine ⟨_, rfl, ⟨out, hout, rfl⟩, ?_, ?_⟩
          · rw [hnames, List.nodup_cons]
            exact ⟨fun hin => hseen name hin List.mem_cons_self, hdup⟩
          · rw [hnames]
            intro n hn
            rcases List.mem_cons.mp hn with rfl | hn
            · exact hmem
            · exact fun hin => hseen n hn (List.mem_cons_of_mem _ hin)
        · rintro ⟨_, rfl, ⟨out, hout, rfl⟩, hdup, hseen⟩
          rw [hnames, List.nodup_cons] at hdup
          rw [hnames] at hseen
          rw [if_neg (hseen name List.mem_cons_self), Option.map_eq_some_iff]
          refine ⟨out ++ [subtree], ih.mpr ⟨out, rfl, hout, hdup.2, ?_⟩, rfl⟩
          intro n hn hin
          rcases List.mem_cons.mp hin with rfl | hin
          · exact hdup.1 hn
          · exact hseen n (List.mem_cons_of_mem _ hn) hin

/-- The text starts and ends with a slash. -/
def IsDir (pattern : Bytes) : Prop := [0x2F] <+: pattern ∧ [0x2F] <:+ pattern

/-- The segments of a directory. -/
def dirSegments (pattern : Bytes) : List Bytes := ((pattern.drop 1).splitOn 0x2F).dropLast

theorem IsDir.splitOn {pattern : Bytes} (h : IsDir pattern) :
    ∃ path, pattern = 0x2F :: path ∧ path.splitOn 0x2F = dirSegments pattern ++ [[]] ∧
      (dirSegments pattern = [] ↔ pattern = [0x2F]) := by
  obtain ⟨⟨path, rfl⟩, hsuf⟩ := h
  refine ⟨path, rfl, ?_⟩
  have hseg : dirSegments ([0x2F] ++ path) = (path.splitOn 0x2F).dropLast := rfl
  rw [hseg]
  rcases List.eq_nil_or_concat path with rfl | ⟨body, c, rfl⟩
  · exact ⟨by decide, by decide⟩
  · rw [List.concat_eq_append] at hsuf ⊢
    obtain ⟨front, hfront⟩ := hsuf
    rw [← List.append_assoc] at hfront
    obtain rfl : 0x2F = c := List.singleton_inj.mp (List.append_inj_right' hfront rfl)
    have hsplit : (body ++ [0x2F]).splitOn 0x2F = body.splitOn 0x2F ++ [[]] := by
      exact List.splitOn_append_cons_self body []
    rw [hsplit, List.dropLast_concat]
    refine ⟨rfl, ?_⟩
    constructor
    · intro hnil
      exact absurd hnil (List.splitOn_ne_nil _ _)
    · intro hroot
      simp at hroot

/-- A directory that can be a pattern: it has no blank, and braces stand only around
    whole segments, which name different wildcards. -/
structure PatternDir (validName : Bytes → Bool) (pattern : Bytes) : Prop where
  blank : 0x20 ∉ pattern ∧ 0x09 ∉ pattern
  segments : ∀ seg ∈ dirSegments pattern, 0x7B ∉ seg ∨ ∃ name, seg = braced name ∧ WildcardName validName name
  distinct : ((dirSegments pattern).filter fun seg => 0x7B ∈ seg).Nodup

theorem mapM_parseSegment_isSome {front : List Bytes} :
    (∃ init, front.mapM (parseSegment validName false) = some init) ↔
      ∀ seg ∈ front, 0x7B ∉ seg ∨ ∃ name, seg = braced name ∧ WildcardName validName name := by
  induction front with
  | nil => simp
  | cons seg rest ih =>
    rw [List.forall_mem_cons, ← ih]
    have hseg : (0x7B ∉ seg ∨ ∃ name, seg = braced name ∧ WildcardName validName name) ↔
        ∃ s, parseSegment validName false seg = some s := by
      simp only [parseSegment_false_iff]
      constructor
      · rintro (h | ⟨name, hseg, hname⟩)
        · exact ⟨_, .inl ⟨h, rfl⟩⟩
        · exact ⟨_, .inr ⟨name, hseg, hname, rfl⟩⟩
      · rintro ⟨s, ⟨h, -⟩ | ⟨name, hseg, hname, -⟩⟩
        · exact .inl h
        · exact .inr ⟨name, hseg, hname⟩
    rw [hseg, List.mapM_cons]
    cases parseSegment validName false seg with
    | none => simp
    | some s =>
      cases rest.mapM (parseSegment validName false) with
      | none => simp
      | some out => simp

theorem of_mapM_parseSegment {front : List Bytes} {init : Pattern}
    (h : front.mapM (parseSegment validName false) = some init) :
    (∀ s ∈ init, s.multi = false) ∧ init.length = front.length := by
  induction front generalizing init with
  | nil =>
    obtain rfl : [] = init := Option.some.inj h
    exact ⟨by simp, rfl⟩
  | cons seg rest ih =>
    rw [List.mapM_cons] at h
    cases hs : parseSegment validName false seg with
    | none => simp [hs] at h
    | some s =>
      cases hr : rest.mapM (parseSegment validName false) with
      | none => simp [hs, hr] at h
      | some out =>
        rw [hs, hr] at h
        obtain rfl : s :: out = init := Option.some.inj h
        obtain ⟨hout, hlen⟩ := ih hr
        rw [List.forall_mem_cons, List.length_cons, List.length_cons, hlen]
        refine ⟨⟨?_, hout⟩, rfl⟩
        rcases parseSegment_false_iff.mp hs with ⟨-, rfl⟩ | ⟨name, -, -, rfl⟩ <;> rfl

/-- Segments with braces stand for the wildcards. -/
theorem filter_braced {front : List Bytes} {init : Pattern}
    (h : front.mapM (parseSegment validName false) = some init) :
    (front.filter fun seg => 0x7B ∈ seg) = (wildNames init).map braced := by
  induction front generalizing init with
  | nil =>
    obtain rfl : [] = init := Option.some.inj h
    rfl
  | cons seg rest ih =>
    rw [List.mapM_cons] at h
    cases hs : parseSegment validName false seg with
    | none => simp [hs] at h
    | some s =>
      cases hr : rest.mapM (parseSegment validName false) with
      | none => simp [hs, hr] at h
      | some out =>
        rw [hs, hr] at h
        obtain rfl : s :: out = init := Option.some.inj h
        rcases parseSegment_false_iff.mp hs with ⟨hno, rfl⟩ | ⟨name, rfl, -, rfl⟩
        · simpa [hno, wildNames] using ih hr
        · simpa [mem_braced, wildNames] using ih hr

/-- How the pattern of a directory is read. -/
theorem parsePattern_dir {pattern : Bytes} (hdir : IsDir pattern) {p : Pattern} :
    parsePattern validName pattern = some p ↔
      (0x20 ∉ pattern ∧ 0x09 ∉ pattern) ∧ ∃ init, p = init ++ [subtree] ∧
        (dirSegments pattern).mapM (parseSegment validName false) = some init ∧ (wildNames init).Nodup := by
  obtain ⟨path, rfl, hsplit, -⟩ := hdir.splitOn
  unfold parsePattern
  rw [← not_or]
  by_cases hblank : (0x20 : UInt8) ∈ 0x2F :: path ∨ (0x09 : UInt8) ∈ 0x2F :: path
  · rw [if_pos hblank]
    constructor
    · intro h
      cases h
    · rintro ⟨hno, -⟩
      exact absurd hblank hno
  · rw [if_neg hblank]
    simp only [hblank, not_false_eq_true, true_and, hsplit, parseSegments_dir, List.not_mem_nil,
      imp_true_iff, and_true]

theorem parsePattern_dir_isSome {pattern : Bytes} (hdir : IsDir pattern) :
    (∃ p, parsePattern validName pattern = some p) ↔ PatternDir validName pattern := by
  simp only [parsePattern_dir hdir]
  constructor
  · rintro ⟨p, hblank, init, -, hinit, hdup⟩
    refine ⟨hblank, mapM_parseSegment_isSome.mp ⟨init, hinit⟩, ?_⟩
    rw [filter_braced hinit]
    exact hdup.map braced_injective
  · intro h
    obtain ⟨init, hinit⟩ := mapM_parseSegment_isSome.mpr h.segments
    have hdup := h.distinct
    rw [filter_braced hinit] at hdup
    exact ⟨_, h.blank, init, rfl, hinit, hdup.of_map braced⟩

end Directory

/-! ## How a directory compares with other patterns -/

section Compare

/-- A literal segment. -/
def literal (s : Bytes) : Segment := ⟨s, false, false⟩

theorem lastMulti_dir (init : Pattern) : lastMulti (init ++ [subtree]) = true := by
  simp [lastMulti, subtree]

theorem compareSegments_subtree {s : Segment} (hs : s.multi = false) :
    compareSegments s subtree = moreSpecific ∧ compareSegments subtree s = moreGeneral := by
  simp [compareSegments, subtree, hs]

/-- A directory and a file at the root are disjoint. -/
theorem comparePaths_dir_leaf (s : Segment) (more : Pattern) (c : Bytes) :
    comparePaths (s :: more ++ [subtree]) [literal c] = disjoint := by
  have hlen : (s :: more ++ [subtree]).length ≠ [literal c].length := by simp
  unfold comparePaths
  rw [lastMulti_dir]
  simp only [not_true_eq_false, false_and, and_false, if_false]
  show (if combine equivalent (compareSegments s (literal c)) = disjoint then disjoint
    else compareLoop true (lastMulti [literal c]) (combine equivalent (compareSegments s (literal c)))
      (more ++ [subtree]) []) = disjoint
  split_ifs with h
  · rfl
  · cases more <;> rfl

variable {s : Segment} {more : Pattern} (hs : s.multi = false) (hmore : ∀ t ∈ more, t.multi = false)
include hs

/-- The root is more general than any other directory. -/
theorem comparePaths_root_dir : comparePaths [subtree] (s :: more ++ [subtree]) = moreGeneral := by
  unfold comparePaths
  rw [lastMulti_dir, show lastMulti [subtree] = true from rfl]
  simp only [not_true_eq_false, and_false, if_false]
  show (if combine equivalent (compareSegments subtree s) = disjoint then disjoint
    else compareLoop true true (combine equivalent (compareSegments subtree s)) [] (more ++ [subtree])) =
      moreGeneral
  rw [(compareSegments_subtree hs).2]
  cases more <;> rfl

include hmore

/-- How a directory compares with one directly under the root, which has a literal name. -/
theorem comparePaths_dir_dir {d : Bytes} (hd : d ≠ [0x2F]) :
    comparePaths (s :: more ++ [subtree]) [literal d, subtree] =
      if s.wild then (if more = [] then moreGeneral else overlaps)
      else if s.s = d then (if more = [] then equivalent else moreSpecific)
      else disjoint := by
  have hfirst : compareSegments s (literal d) =
      if s.wild then moreGeneral else if s.s = d then equivalent else disjoint := by
    unfold compareSegments literal
    simp only [hs, hd, Bool.false_eq_true, and_false, if_false]
  unfold comparePaths
  rw [lastMulti_dir, show lastMulti [literal d, subtree] = true from rfl]
  simp only [not_true_eq_false, and_false, if_false]
  show (if combine equivalent (compareSegments s (literal d)) = disjoint then disjoint
    else compareLoop true true (combine equivalent (compareSegments s (literal d))) (more ++ [subtree]) [subtree]) = _
  rw [show combine equivalent (compareSegments s (literal d)) = compareSegments s (literal d) from rfl, hfirst]
  cases more with
  | nil =>
    -- The directory is `/s/`: its rest is the same as the other's.
    have hrest : ∀ r, compareLoop true true r ([] ++ [subtree]) [subtree] =
        if combine r equivalent = disjoint then disjoint else combine r equivalent := fun r => rfl
    rw [hrest]
    split_ifs <;> first | rfl | simp_all [combine]
  | cons t more =>
    have hrest : ∀ r, compareLoop true true r (t :: more ++ [subtree]) [subtree] =
        if combine r moreSpecific = disjoint then disjoint
        else combine (combine r moreSpecific) moreSpecific := by
      intro r
      show (if combine r (compareSegments t subtree) = disjoint then disjoint
        else compareLoop true true (combine r (compareSegments t subtree)) (more ++ [subtree]) []) = _
      rw [(compareSegments_subtree (hmore t List.mem_cons_self)).1]
      cases more <;> rfl
    rw [hrest]
    split_ifs <;> first | rfl | simp_all [combine]

end Compare

end ServeMux
