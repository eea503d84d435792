import Mathlib

/-!
# Heaps

What a slice is used for that is kept as a heap: an element is pushed, the first
element is looked at, and the first element is popped. `HeapOps` collects the
operations with what is relied on of them; `insertionHeap` has them on sorted lists.

Main results:

* `HeapOps.root_least`: the first element is least.
* `HeapOps.eq_head_of_least`: it is the head of any arrangement of the heap in which
  earlier elements are less.
-/

/-- Operations on a heap for the order `less`. `pop` leaves the first element out. -/
structure HeapOps {α : Type*} (less : α → α → Bool) where
  IsHeap : List α → Prop
  push : List α → α → List α
  pop : List α → List α
  isHeap_nil : IsHeap []
  isHeap_push : ∀ q x, IsHeap q → IsHeap (push q x)
  push_perm : ∀ q x, (push q x).Perm (x :: q)
  isHeap_pop : ∀ x q, IsHeap (x :: q) → IsHeap (pop (x :: q))
  pop_perm : ∀ x q, IsHeap (x :: q) → (pop (x :: q)).Perm q
  root_least : ∀ x q, IsHeap (x :: q) → ∀ y ∈ q, less y x = false

namespace HeapOps

variable {α : Type*} {less : α → α → Bool} (H : HeapOps less)

/-- In an arrangement where earlier elements are less, the first element of the heap
    comes first. -/
theorem eq_head_of_least {x : α} {q : List α} (hq : H.IsHeap (x :: q)) {y : α} {rest : List α}
    (hperm : (x :: q).Perm (y :: rest)) (hsorted : ∀ z ∈ rest, less y z = true) : x = y := by
  rcases List.mem_cons.mp (hperm.subset List.mem_cons_self) with hxy | hx
  · exact hxy
  · have hy : y ∈ x :: q := hperm.symm.subset List.mem_cons_self
    rcases List.mem_cons.mp hy with hyx | hyq
    · exact hyx.symm
    · have hleast := H.root_least x q hq y hyq
      rw [hsorted x hx] at hleast
      cases hleast

end HeapOps

section InsertionHeap

variable {α : Type*} {less : α → α → Bool}

/-- Heaps as sorted lists. -/
def insertionHeap (hasymm : ∀ x y, less x y = true → less y x = false)
    (htrans : ∀ x y z, less y x = false → less z y = false → less z x = false) : HeapOps less where
  IsHeap q := q.Pairwise fun x y => less y x = false
  push q x := q.takeWhile (fun y => !less x y) ++ x :: q.dropWhile (fun y => !less x y)
  pop q := q.tail
  isHeap_nil := List.Pairwise.nil
  isHeap_push q x hq := by
    induction q with
    | nil => simp
    | cons y q ih =>
      obtain ⟨hy, hq⟩ := List.pairwise_cons.mp hq
      by_cases hxy : less x y = true
      · simp only [List.takeWhile_cons, List.dropWhile_cons, hxy, Bool.not_true, Bool.false_eq_true, if_false,
          List.nil_append, List.pairwise_cons]
        refine ⟨?_, hy, hq⟩
        intro z hz
        rcases List.mem_cons.mp hz with rfl | hz
        · exact hasymm x z hxy
        · exact htrans x y z (hasymm x y hxy) (hy z hz)
      · rw [Bool.not_eq_true] at hxy
        simp only [List.takeWhile_cons, List.dropWhile_cons, hxy, Bool.not_false, if_true, List.cons_append,
          List.pairwise_cons]
        refine ⟨?_, ih hq⟩
        intro z hz
        rw [List.mem_append, List.mem_cons] at hz
        rcases hz with hz | rfl | hz
        · exact hy z ((List.takeWhile_sublist _).subset hz)
        · exact hxy
        · exact hy z ((List.dropWhile_sublist _).subset hz)
  push_perm q x := by
    refine List.perm_middle.trans ?_
    rw [List.takeWhile_append_dropWhile]
  isHeap_pop x q hq := (List.pairwise_cons.mp hq).2
  pop_perm x q _ := List.Perm.refl q
  root_least x q hq := (List.pairwise_cons.mp hq).1

end InsertionHeap
