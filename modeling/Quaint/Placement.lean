import Mathlib

/-!
Serial placement.

Items of given alignments and sizes are put one behind the other, each at the first place that its
alignment allows. A whole that is to hold them is aligned like the most aligned of them.
-/

namespace Quaint.Placement

/-- The multiples of `a` from `lo` on. -/
def Multiples (a lo : ℕ) : Set ℕ := {x | a ∣ x ∧ lo ≤ x}

/-- The items, with their alignments and sizes, lie at these offsets, from `lo` to `hi`. -/
inductive Packed : ℕ → List (ℕ × ℕ) → List ℕ → ℕ → Prop
  | nil {lo : ℕ} : Packed lo [] [] lo
  | cons {lo hi a n off : ℕ} {items : List (ℕ × ℕ)} {offs : List ℕ}
      (first : IsLeast (Multiples a lo) off) (rest : Packed (off + n) items offs hi) :
      Packed lo ((a, n) :: items) (off :: offs) hi

variable {lo hi a n b k off o i j : ℕ} {items : List (ℕ × ℕ)} {offs : List ℕ}

/-- The next multiple is less than one step away. -/
lemma least_lt (ha : 0 < a) (h : IsLeast (Multiples a lo) off) : off < lo + a := by
  by_contra hge
  have hback : off - a ∈ Multiples a lo := ⟨Nat.dvd_sub h.1.1 (Nat.dvd_refl a), by omega⟩
  have := h.2 hback
  omega

/-- The greatest number of a list, found by one pass. -/
lemma foldl_max_greatest {l : List ℕ} (h : l ≠ []) : IsGreatest {x | x ∈ l} (l.foldl max 0) := by
  rw [List.foldl_max_eq_max h, Nat.zero_max]
  exact ⟨List.max_mem h, fun x hx => List.le_max_of_mem hx⟩

namespace Packed

lemma le (h : Packed lo items offs hi) : lo ≤ hi := by
  induction h with
  | nil => exact le_refl _
  | cons first _ ih =>
    have := first.1.2
    omega

/-- **An item lies at a multiple of its alignment.** -/
theorem aligned (h : Packed lo items offs hi) (hit : items[i]? = some (a, n))
    (hof : offs[i]? = some o) : a ∣ o := by
  induction h generalizing i with
  | nil => cases hit
  | cons first _ ih =>
    cases i with
    | zero => cases hit; cases hof; exact first.1.1
    | succ i => exact ih hit hof

/-- **An item lies between the two ends.** -/
theorem inside (h : Packed lo items offs hi) (hit : items[i]? = some (a, n))
    (hof : offs[i]? = some o) : lo ≤ o ∧ o + n ≤ hi := by
  induction h generalizing i with
  | nil => cases hit
  | cons first rest ih =>
    have hge := first.1.2
    cases i with
    | zero => cases hit; cases hof; exact ⟨hge, rest.le⟩
    | succ i =>
      have := ih hit hof
      omega

/-- **A later item lies behind an earlier one.** -/
theorem ordered (h : Packed lo items offs hi) (hij : i < j) (hi' : items[i]? = some (a, n))
    (ho : offs[i]? = some o) (hj : items[j]? = some (b, k)) (hp : offs[j]? = some off) :
    o + n ≤ off := by
  induction h generalizing i j with
  | nil => cases hi'
  | cons first rest ih =>
    obtain ⟨j, rfl⟩ := Nat.exists_eq_add_one_of_ne_zero (Nat.ne_of_gt (Nat.zero_lt_of_lt hij))
    cases i with
    | zero => cases hi'; cases ho; exact (rest.inside hj hp).1
    | succ i => exact ih (Nat.lt_of_succ_lt_succ hij) hi' ho hj hp

/-- **Between two neighbours there is less room than the alignment of the second.** -/
theorem padding (h : Packed lo items offs hi) (hb : 0 < b) (hi' : items[i]? = some (a, n))
    (ho : offs[i]? = some o) (hj : items[i + 1]? = some (b, k)) (hp : offs[i + 1]? = some off) :
    off < o + n + b := by
  induction h generalizing i with
  | nil => cases hi'
  | cons first rest ih =>
    cases i with
    | zero =>
      cases hi'; cases ho
      cases rest with
      | nil => cases hj
      | cons second _ => cases hj; cases hp; exact least_lt hb second
    | succ i => exact ih hi' ho hj hp

/-- **The items end where the last of them ends.** -/
theorem last (h : Packed lo items offs hi) (hi' : items[i]? = some (a, n))
    (ho : offs[i]? = some o) (hl : i + 1 = items.length) : o + n = hi := by
  induction h generalizing i with
  | nil => cases hi'
  | cons first rest ih =>
    cases i with
    | zero =>
      cases hi'; cases ho
      cases rest with
      | nil => rfl
      | cons _ _ => cases hl
    | succ i => exact ih hi' ho (by simpa using hl)

end Packed

end Quaint.Placement
