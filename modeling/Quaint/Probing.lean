import Mathlib

/-!
Searching a row of places from a start round its end.

The search goes from the start to the last place and on from the first one, so it comes to every
place once. If not all places are taken it finds a free one, and to take it adds one item to
those in the row.
-/

namespace Quaint.Probing

/-! ### The order of a search -/

/-- The places from a start round the end. -/
def order (count pos : Nat) : List Nat := List.range' pos (count - pos) ++ List.range pos

/-- **A search comes to every place once.** -/
theorem order_perm {count pos : Nat} (h : pos ≤ count) : (order count pos).Perm (List.range count) := by
  have hrow : List.range count = List.range pos ++ List.range' pos (count - pos) := by
    rw [List.range_eq_range', List.range_eq_range', ← Nat.add_sub_cancel' h, ← List.range'_append]
    simp
  rw [order, hrow]
  exact List.perm_append_comm

lemma mem_order {count pos i : Nat} (h : pos ≤ count) : i ∈ order count pos ↔ i < count := by
  rw [(order_perm h).mem_iff, List.mem_range]

/-! ### Taken and free places -/

section Row

variable {σ : Type*} {taken : σ → Bool} {xs : List σ} {x a : σ} {i : Nat}

/-- Where fewer are taken than there are places, one is free. -/
lemma exists_free (taken : σ → Bool) (h : (xs.filter taken).length < xs.length) :
    ∃ x ∈ xs, taken x = false := by
  by_contra hall
  push Not at hall
  have hfull : xs.filter taken = xs := List.filter_eq_self.mpr fun x hx => by simpa using hall x hx
  rw [hfull] at h
  exact lt_irrefl _ h

/-- **To take a free place adds one item.** -/
theorem filter_set_perm (hi : xs[i]? = some x) (hx : taken x = false) (ha : taken a = true) :
    ((xs.set i a).filter taken).Perm (a :: xs.filter taken) := by
  induction xs generalizing i with
  | nil => cases hi
  | cons y ys ih =>
    cases i with
    | zero =>
      obtain rfl : y = x := by simpa using hi
      simp [hx, ha]
    | succ i =>
      have hrest := ih (i := i) (by simpa using hi)
      rw [List.set_cons_succ, List.filter_cons, List.filter_cons]
      split
      · exact (hrest.cons y).trans (List.Perm.swap a y _)
      · exact hrest

end Row

end Quaint.Probing
