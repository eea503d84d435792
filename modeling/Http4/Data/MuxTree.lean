import Http4.Data.ServeMux

/-!
# How `http.ServeMux` finds a handler

The routing tree of Go's mux, over the patterns of `ServeMux`: a literal comes before a
wildcard, and a wildcard for one segment before one for all that is left. Patterns are
without method and host. A redirect enters without its target.

Main results:

* `exists_of_matchPath`, `matchPath_isSome`: the tree finds a pattern that matches, if
  there is one.
* `find_dir`: when a directory is found.
-/

namespace ServeMux

variable {α : Type}

/-! ## Paths -/

/-- The segments that a path is matched by; a slash at the end is one of its own. -/
def unescapeSegments : List Bytes → List Bytes
  | [] => []
  | [seg] => if seg = [] then [[0x2F]] else [pathUnescape seg]
  | seg :: rest => pathUnescape seg :: unescapeSegments rest

/-- What `firstSegment` takes off a path, until nothing is left. -/
def segments (path : Bytes) : List Bytes := unescapeSegments ((path.drop 1).splitOn 0x2F)

/-- One element of `path.Clean`, for a path that starts with a slash. -/
def cleanElement (out : List Bytes) (seg : Bytes) : List Bytes :=
  if seg = [] ∨ seg = [0x2E] then out
  else if seg = [0x2E, 0x2E] then out.dropLast
  else out ++ [seg]

/-- `path.Clean` of a path that starts with a slash. -/
def pathClean (path : Bytes) : Bytes :=
  0x2F :: List.intercalate [0x2F] ((path.splitOn 0x2F).foldl cleanElement [])

/-- `cleanPath`. -/
def cleanPath (path : Bytes) : Bytes :=
  if path = [] then [0x2F]
  else
    let path := if path.head? = some 0x2F then path else 0x2F :: path
    let np := pathClean path
    if path.getLast? = some 0x2F ∧ np ≠ [0x2F] then np ++ [0x2F] else np

/-! ## The tree -/

/-- `findChild`: what is left of the patterns that go on with the segment. -/
def children (s : Segment) (t : List (Pattern × α)) : List (Pattern × α) :=
  t.filterMap fun e => if e.1.head? = some s then some (e.1.tail, e.2) else none

/-- `emptyChild`: what is left of the patterns that go on with a wildcard. -/
def emptyChild (t : List (Pattern × α)) : List (Pattern × α) :=
  t.filterMap fun e => if e.1.head?.any fun s => s.wild && !s.multi then some (e.1.tail, e.2) else none

/-- `multiChild`. -/
def multiChild (t : List (Pattern × α)) : Option α :=
  (t.find? fun e => e.1.head?.any (·.multi)).map Prod.snd

/-- `matchPath`, over the segments of the path. -/
def matchPath : List (Pattern × α) → List Bytes → Option α
  | t, [] => (t.find? fun e => e.1.isEmpty).map Prod.snd
  | t, seg :: rest =>
    (matchPath (children ⟨seg, false, false⟩ t) rest).or
      ((if seg = [0x2F] then none else matchPath (emptyChild t) rest).or (multiChild t))

/-- `exactMatch`. -/
def exactMatch (p : Pattern) (path : Bytes) : Bool :=
  if ¬ lastMulti p then true
  else if path ≠ [] ∧ path.getLast? ≠ some 0x2F then false
  else p.length == path.count 0x2F

/-- What `findHandler` returns. -/
inductive Found (α : Type)
  | handler (a : α)
  | redirect
  | notFound
  deriving DecidableEq

/-- `findHandler`, for other methods than CONNECT. `path` is the path as it was sent:
    where Go escapes it anew, it has the same segments. -/
def find (mux : List (Pattern × α)) (path : Bytes) : Found α :=
  let clean := cleanPath path
  let t := mux.map fun e => (e.1, e)
  let n := matchPath t (segments clean)
  let dir := clean ++ [0x2F]
  if ¬ n.any (fun e => exactMatch e.1 clean) ∧ clean.getLast? ≠ some 0x2F ∧
      (matchPath t (segments dir)).any (fun e => exactMatch e.1 dir) then .redirect
  else if clean ≠ path then .redirect
  else
    match n with
    | some e => .handler e.2
    | none => .notFound

/-! ## What the tree finds -/

/-- The pattern matches the segments. -/
def Matches : Pattern → List Bytes → Prop
  | [], [] => True
  | s :: p, seg :: rest => s.multi = true ∨ s.multi = false ∧ (if s.wild then seg ≠ [0x2F] else s.s = seg) ∧ Matches p rest
  | [], _ :: _ | _ :: _, [] => False

section Tree

variable {t : List (Pattern × α)} {p : Pattern} {segs : List Bytes} {a : α}

theorem mem_children {s : Segment} : (p, a) ∈ children s t ↔ (s :: p, a) ∈ t := by
  unfold children
  rw [List.mem_filterMap]
  constructor
  · rintro ⟨⟨q, b⟩, hmem, heq⟩
    split_ifs at heq with hhead
    obtain ⟨rfl, rfl⟩ := Prod.mk.inj (Option.some.inj heq)
    rwa [← List.eq_cons_of_mem_head? hhead]
  · intro hmem
    exact ⟨(s :: p, a), hmem, if_pos rfl⟩

theorem mem_emptyChild : (p, a) ∈ emptyChild t ↔ ∃ s, s.wild = true ∧ s.multi = false ∧ (s :: p, a) ∈ t := by
  unfold emptyChild
  rw [List.mem_filterMap]
  constructor
  · rintro ⟨⟨q, b⟩, hmem, heq⟩
    cases q with
    | nil => cases heq
    | cons s q =>
      change (if (s.wild && !s.multi) = true then some (q, b) else none) = some (p, a) at heq
      split_ifs at heq with hwild
      obtain ⟨rfl, rfl⟩ := Prod.mk.inj (Option.some.inj heq)
      rw [Bool.and_eq_true, Bool.not_eq_true'] at hwild
      exact ⟨s, hwild.1, hwild.2, hmem⟩
  · rintro ⟨s, hwild, hmulti, hmem⟩
    refine ⟨(s :: p, a), hmem, ?_⟩
    show (if (s.wild && !s.multi) = true then some (p, a) else none) = some (p, a)
    rw [hwild, hmulti]
    rfl

theorem exists_of_multiChild (h : multiChild t = some a) : ∃ s p, s.multi = true ∧ (s :: p, a) ∈ t := by
  obtain ⟨⟨q, b⟩, hfind, rfl⟩ := Option.map_eq_some_iff.mp h
  have hmem := List.mem_of_find?_eq_some hfind
  have hmulti := List.find?_some hfind
  cases q with
  | nil => cases hmulti
  | cons s q => exact ⟨s, q, hmulti, hmem⟩

theorem multiChild_isSome {s : Segment} (hmulti : s.multi = true) (hmem : (s :: p, a) ∈ t) :
    (multiChild t).isSome := by
  unfold multiChild
  rw [Option.isSome_map, List.find?_isSome]
  exact ⟨_, hmem, hmulti⟩

/-- The tree finds a pattern that matches. -/
theorem exists_of_matchPath (h : matchPath t segs = some a) : ∃ p, (p, a) ∈ t ∧ Matches p segs := by
  induction segs generalizing t with
  | nil =>
    obtain ⟨⟨q, b⟩, hfind, rfl⟩ := Option.map_eq_some_iff.mp h
    have hmem := List.mem_of_find?_eq_some hfind
    have hempty := List.find?_some hfind
    obtain rfl : q = [] := List.isEmpty_iff.mp hempty
    exact ⟨[], hmem, trivial⟩
  | cons seg rest ih =>
    rw [matchPath, Option.or_eq_some_iff] at h
    rcases h with h | ⟨-, h⟩
    · obtain ⟨p, hmem, hmatch⟩ := ih h
      exact ⟨_, mem_children.mp hmem, .inr ⟨rfl, rfl, hmatch⟩⟩
    rw [Option.or_eq_some_iff] at h
    rcases h with h | ⟨-, h⟩
    · split_ifs at h with hseg
      obtain ⟨p, hmem, hmatch⟩ := ih h
      obtain ⟨s, hwild, hmulti, hmem⟩ := mem_emptyChild.mp hmem
      refine ⟨_, hmem, .inr ⟨hmulti, ?_, hmatch⟩⟩
      rw [hwild]
      exact hseg
    · obtain ⟨s, p, hmulti, hmem⟩ := exists_of_multiChild h
      exact ⟨_, hmem, .inl hmulti⟩

/-- The tree finds a pattern if there is one that matches. -/
theorem matchPath_isSome (hmem : (p, a) ∈ t) (hmatch : Matches p segs) : (matchPath t segs).isSome := by
  induction segs generalizing t p with
  | nil =>
    cases p with
    | nil =>
      rw [matchPath, Option.isSome_map, List.find?_isSome]
      exact ⟨_, hmem, rfl⟩
    | cons s p => exact hmatch.elim
  | cons seg rest ih =>
    cases p with
    | nil => exact hmatch.elim
    | cons s p =>
      rw [matchPath, Option.isSome_or, Option.isSome_or, Bool.or_eq_true, Bool.or_eq_true]
      rcases hmatch with hmulti | ⟨hmulti, hseg, hmatch⟩
      · exact .inr (.inr (multiChild_isSome hmulti hmem))
      · cases hwild : s.wild with
        | true =>
          rw [hwild] at hseg
          refine .inr (.inl ?_)
          rw [if_neg hseg]
          exact ih (mem_emptyChild.mpr ⟨s, hwild, hmulti, hmem⟩) hmatch
        | false =>
          rw [hwild] at hseg
          obtain rfl : s.s = seg := hseg
          have hs : s = ⟨s.s, false, false⟩ := Segment.ext rfl hwild hmulti
          refine .inl (ih (mem_children.mpr ?_) hmatch)
          rwa [← hs]

/-- A pattern is found after its literals, if no other one matches the rest. -/
theorem matchPath_literals {lits more : List Bytes} {q : Pattern} (hmem : (lits.map literal ++ q, a) ∈ t)
    (hmatch : Matches q more)
    (honly : ∀ q' b, (lits.map literal ++ q', b) ∈ t → Matches q' more → b = a) :
    matchPath t (lits ++ more) = some a := by
  induction lits generalizing t with
  | nil =>
    obtain ⟨b, hb⟩ := Option.isSome_iff_exists.mp (matchPath_isSome hmem hmatch)
    obtain ⟨q', hmem', hmatch'⟩ := exists_of_matchPath hb
    rw [← honly q' b hmem' hmatch']
    exact hb
  | cons s lits ih =>
    have hfound : matchPath (children ⟨s, false, false⟩ t) (lits ++ more) = some a := by
      apply ih (mem_children.mpr hmem)
      intro q' b hmem' hmatch'
      exact honly q' b (mem_children.mp hmem') hmatch'
    rw [List.cons_append, matchPath, hfound]
    rfl

end Tree

/-! ## Directories -/

theorem length_splitOn (sep : UInt8) (b : Bytes) : (b.splitOn sep).length = b.count sep + 1 := by
  induction b with
  | nil => rfl
  | cons c b ih =>
    rw [List.splitOn_cons_eq_if_modifyHead, List.count_cons]
    split_ifs
    · rw [List.length_cons, ih]
    · rw [List.length_modifyHead, ih]

theorem length_unescapeSegments (l : List Bytes) : (unescapeSegments l).length = l.length := by
  fun_induction unescapeSegments l with
  | case1 | case2 | case3 => rfl
  | case4 seg rest _ ih => rw [List.length_cons, ih, List.length_cons]

/-- The segments of a path are as many as its slashes. -/
theorem length_segments {path : Bytes} (h : path.head? = some 0x2F) : (segments path).length = path.count 0x2F := by
  cases path with
  | nil => cases h
  | cons c path =>
    obtain rfl := Option.some.inj h
    show (unescapeSegments (path.splitOn 0x2F)).length = _
    rw [length_unescapeSegments, length_splitOn, List.count_cons_self]

theorem unescapeSegments_append {l m : List Bytes} (hm : m ≠ []) :
    unescapeSegments (l ++ m) = l.map pathUnescape ++ unescapeSegments m := by
  induction l with
  | nil => rfl
  | cons seg l ih =>
    rw [List.cons_append, List.map_cons, List.cons_append, ← ih]
    cases hrest : l ++ m with
    | nil => exact absurd (List.append_eq_nil_iff.mp hrest).2 hm
    | cons s rest => rfl

/-- The segments of a path that has no empty one. -/
theorem unescapeSegments_eq_map {l : List Bytes} (h : [] ∉ l) : unescapeSegments l = l.map pathUnescape := by
  fun_induction unescapeSegments l with
  | case1 => rfl
  | case2 => exact absurd (List.mem_singleton_self _) h
  | case3 => rfl
  | case4 seg rest _ ih =>
    rw [List.mem_cons, not_or] at h
    rw [ih h.2, List.map_cons]

theorem cleanPath_eq (path : Bytes) : cleanPath (0x2F :: path) =
    if (0x2F :: path).getLast? = some 0x2F ∧ pathClean (0x2F :: path) ≠ [0x2F] then pathClean (0x2F :: path) ++ [0x2F]
    else pathClean (0x2F :: path) := by
  unfold cleanPath
  rw [if_neg (List.cons_ne_nil _ _)]
  rfl

section Path

variable {path : Bytes} (h : [] ∉ path.splitOn 0x2F)
include h

/-- A path without empty segments does not end with a slash. -/
theorem getLast?_ne_slash : (0x2F :: path).getLast? ≠ some 0x2F := by
  rcases List.eq_nil_or_concat path with rfl | ⟨body, c, rfl⟩
  · exact absurd (List.mem_singleton_self _) h
  · rw [List.concat_eq_append] at h ⊢
    intro hlast
    rw [← List.cons_append, List.getLast?_concat] at hlast
    obtain rfl := Option.some.inj hlast
    rw [List.splitOn_append_cons_self] at h
    exact h (List.mem_append_right _ (List.mem_singleton_self _))

theorem segments_cons : segments (0x2F :: path) = (path.splitOn 0x2F).map pathUnescape :=
  unescapeSegments_eq_map h

/-- A slash at the end is a segment more. -/
theorem segments_slash : segments (0x2F :: path ++ [0x2F]) = segments (0x2F :: path) ++ [[0x2F]] := by
  rw [segments_cons h]
  show unescapeSegments ((path ++ [0x2F]).splitOn 0x2F) = _
  rw [List.splitOn_append_cons_self, unescapeSegments_append (by simp)]
  rfl

/-- A path without empty segments and dots is clean. -/
theorem cleanPath_cons (hdot : [0x2E] ∉ path.splitOn 0x2F) (hdots : [0x2E, 0x2E] ∉ path.splitOn 0x2F) :
    cleanPath (0x2F :: path) = 0x2F :: path := by
  have hfold (l out : List Bytes) (hl : ∀ seg ∈ l, seg ≠ [] ∧ seg ≠ [0x2E] ∧ seg ≠ [0x2E, 0x2E]) :
      l.foldl cleanElement out = out ++ l := by
    induction l generalizing out with
    | nil => exact (List.append_nil out).symm
    | cons seg l ih =>
      obtain ⟨⟨h1, h2, h3⟩, hl⟩ := List.forall_mem_cons.mp hl
      rw [List.foldl_cons, cleanElement, if_neg (not_or.mpr ⟨h1, h2⟩), if_neg h3, ih _ hl, List.append_assoc]
      rfl
  have hall : ∀ seg ∈ path.splitOn 0x2F, seg ≠ [] ∧ seg ≠ [0x2E] ∧ seg ≠ [0x2E, 0x2E] := by
    intro seg hseg
    refine ⟨?_, ?_, ?_⟩ <;> rintro rfl
    · exact h hseg
    · exact hdot hseg
    · exact hdots hseg
  have hclean : pathClean (0x2F :: path) = 0x2F :: path := by
    unfold pathClean
    rw [← List.nil_append (0x2F :: path), List.splitOn_append_cons_self]
    show 0x2F :: List.intercalate [0x2F] ((path.splitOn 0x2F).foldl cleanElement []) = _
    rw [hfold _ _ hall, List.nil_append, List.intercalate_splitOn]
    rfl
  rw [cleanPath_eq, hclean, if_neg fun hlast => getLast?_ne_slash h hlast.1]

end Path

/-- A handler is found for a clean path only, and by the tree. -/
theorem of_find_handler {mux : List (Pattern × α)} {path : Bytes} {a : α} (h : find mux path = .handler a) :
    cleanPath path = path ∧ ∃ q, matchPath (mux.map fun e => (e.1, e)) (segments path) = some (q, a) := by
  unfold find at h
  dsimp only at h
  split_ifs at h with hdir hclean
  rw [not_not] at hclean
  rw [hclean] at h
  refine ⟨hclean, ?_⟩
  cases hmatch : matchPath (mux.map fun e => (e.1, e)) (segments path) with
  | none => rw [hmatch] at h; cases h
  | some e =>
    rw [hmatch] at h
    exact ⟨e.1, by rw [← Found.handler.inj h]⟩

/-- A path is redirected to the directory of its name. -/
theorem find_slash {mux : List (Pattern × α)} {path : Bytes} {q q' : Pattern} {a a' : α} (hclean : cleanPath path = path)
    (hlast : path.getLast? ≠ some 0x2F) (hne : path ≠ [])
    (hn : matchPath (mux.map fun e => (e.1, e)) (segments path) = some (q, a)) (hq : lastMulti q = true)
    (hdir : matchPath (mux.map fun e => (e.1, e)) (segments (path ++ [0x2F])) = some (q', a'))
    (hq' : exactMatch q' (path ++ [0x2F]) = true) : find mux path = .redirect := by
  unfold find
  dsimp only
  have hexact : exactMatch q path = false := by
    unfold exactMatch
    rw [if_neg (not_not.mpr hq), if_pos ⟨hne, hlast⟩]
  rw [hclean, hn, hdir, if_pos]
  refine ⟨?_, hlast, hq'⟩
  rw [Option.any_some, hexact]
  exact Bool.false_ne_true

/-- The tree finds a directory for what lies below it, if no longer pattern matches. -/
theorem matchPath_dir {mux : List (Pattern × α)} {a : α} {lits segs : List Bytes} (hsegs : segs ≠ [])
    (hmem : (lits.map literal ++ [subtree], a) ∈ mux)
    (honly : ∀ q b, (lits.map literal ++ q, b) ∈ mux → Matches q segs → q = [subtree] ∧ b = a) :
    matchPath (mux.map fun e => (e.1, e)) (lits ++ segs) = some (lits.map literal ++ [subtree], a) := by
  have hmatch : Matches [subtree] segs := by
    cases segs with
    | nil => exact absurd rfl hsegs
    | cons => exact .inl rfl
  refine matchPath_literals (List.mem_map.mpr ⟨_, hmem, rfl⟩) hmatch fun q' e hq' hmatch' => ?_
  obtain ⟨e', hmem', heq⟩ := List.mem_map.mp hq'
  obtain ⟨hpattern, rfl⟩ := Prod.mk.inj heq
  obtain ⟨rfl, ha⟩ := honly q' e'.2 (hpattern ▸ hmem') hmatch'
  exact Prod.ext hpattern ha

/-- **A directory is found** for what lies below it, if no longer pattern matches, with a
    slash at the end or without. -/
theorem find_dir {mux : List (Pattern × α)} {a : α} {path : Bytes} {lits more : List Bytes}
    (hempty : [] ∉ path.splitOn 0x2F) (hdot : [0x2E] ∉ path.splitOn 0x2F) (hdots : [0x2E, 0x2E] ∉ path.splitOn 0x2F)
    (hsegs : segments (0x2F :: path) = lits ++ more) (hmore : more ≠ [])
    (hmem : (lits.map literal ++ [subtree], a) ∈ mux)
    (honly : ∀ q b, (lits.map literal ++ q, b) ∈ mux → Matches q more ∨ Matches q (more ++ [[0x2F]]) →
      q = [subtree] ∧ b = a) :
    find mux (0x2F :: path) = .handler a := by
  set found : Pattern × α := (lits.map literal ++ [subtree], a) with hfound
  have hn : matchPath (mux.map fun e => (e.1, e)) (segments (0x2F :: path)) = some found := by
    rw [hsegs]
    exact matchPath_dir hmore hmem fun q b hq hmatch => honly q b hq (.inl hmatch)
  have hdir : matchPath (mux.map fun e => (e.1, e)) (segments (0x2F :: path ++ [0x2F])) = some found := by
    rw [segments_slash hempty, hsegs, List.append_assoc]
    exact matchPath_dir (by simp) hmem fun q b hq hmatch => honly q b hq (.inr hmatch)
  have hlast := getLast?_ne_slash hempty
  have hexact : exactMatch found.1 (0x2F :: path) = false := by
    unfold exactMatch
    rw [hfound, lastMulti_dir, if_neg (by simp), if_pos ⟨List.cons_ne_nil _ _, hlast⟩]
  have hexact' : exactMatch found.1 (0x2F :: path ++ [0x2F]) = false := by
    have hlen : (segments (0x2F :: path ++ [0x2F])).length = (0x2F :: path ++ [0x2F]).count 0x2F :=
      length_segments rfl
    rw [segments_slash hempty, hsegs, List.length_append, List.length_append] at hlen
    have hpos := List.length_pos_of_ne_nil hmore
    unfold exactMatch
    rw [hfound, lastMulti_dir, if_neg (by simp), if_neg fun h => h.2 List.getLast?_concat, beq_eq_false_iff_ne,
      ← hlen, List.length_append, List.length_map]
    simp only [List.length_singleton]
    omega
  unfold find
  dsimp only
  rw [cleanPath_cons hempty hdot hdots, hn, hdir, if_neg, if_neg (by simp)]
  rintro ⟨-, -, hany⟩
  rw [Option.any_some, hexact'] at hany
  cases hany

end ServeMux
