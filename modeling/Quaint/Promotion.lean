import Quaint.Exec

/-!
The arithmetic of the machine as C evaluates it.

The operands of `ARITH_OP` are read at their width, but C turns what is narrower than an `int` into
a signed `int` before it computes. The product of two numbers of two bytes need not be an `int`.
-/

namespace Quaint.Promotion

open Code Exec

/-! ### Integers of C -/

/-- An integer type, by its sign and its bits. -/
structure CInt where
  signd : Bool
  bits : Nat

def CInt.holds (t : CInt) (z : Int) : Bool :=
  if t.signd then decide (-2 ^ (t.bits - 1) ≤ z) && decide (z < 2 ^ (t.bits - 1))
  else decide (0 ≤ z) && decide (z < 2 ^ t.bits)

def int : CInt := ⟨true, 32⟩

/-- The integer promotions: an `int` holds every number of a narrower type. -/
def promote (t : CInt) : CInt := if t.bits < int.bits then int else t

/-- The operators that the exact numbers have too. -/
inductive RingOp
  | add | sub | mul
  deriving DecidableEq

def RingOp.arith : RingOp → ArithOp
  | .add => .add | .sub => .sub | .mul => .mul

def RingOp.exact : RingOp → Int → Int → Int
  | .add, x, y => x + y | .sub, x, y => x - y | .mul, x, y => x * y

/-- An operator on two numbers of one type: a signed result that the type does not hold has no
meaning, an unsigned one wraps around. -/
def cOp (op : RingOp) (t : CInt) (x y : Int) : Option Int :=
  if t.signd then if t.holds (op.exact x y) then some (op.exact x y) else none
  else some (op.exact x y % 2 ^ t.bits)

/-- `(type) (*(type *) src1 op *(type *) src2)`, nothing where the expression has no meaning -/
def arithExpr (op : RingOp) (signd : Bool) (size a b : Nat) : Option Nat :=
  (cOp op (promote ⟨signd, 8 * size⟩) (toInt signd size a) (toInt signd size b)).map (ofInt size)

section Arith

variable {op : RingOp} {signd : Bool} {size a b n : Nat}

lemma arithOp_exact : arithOp op.arith signd size a b =
    some (ofInt size (op.exact (toInt signd size a) (toInt signd size b))) := by
  cases op <;> rfl

/-- The machine stores what C says, wherever C says something. -/
theorem arithOp_of_expr (h : arithExpr op signd size a b = some n) :
    arithOp op.arith signd size a b = some n := by
  rw [arithExpr, Option.map_eq_some_iff] at h
  obtain ⟨z, hz, rfl⟩ := h
  rw [arithOp_exact]
  unfold cOp at hz
  split at hz
  · split at hz
    · rw [Option.some.inj hz]
    · cases hz
  · rename_i hsignd
    have hbits : (promote ⟨signd, 8 * size⟩).bits = 8 * size := by
      unfold promote at hsignd ⊢
      split at hsignd
      · exact absurd rfl hsignd
      · rename_i hwide
        rw [if_neg hwide]
    rw [← Option.some.inj hz, hbits, ofInt, ofInt, Int.emod_emod_of_dvd _ (dvd_refl _)]

/-! ### Unsigned operands -/

/-- The expression has a meaning, and the machine stores the exact result up to a multiple of the
numbers there are of that width. -/
def Wraps (op : RingOp) (size a b : Nat) : Prop :=
  ∃ n : Nat, arithExpr op false size a b = some n ∧ arithOp op.arith false size a b = some n ∧
    (n : Int) = op.exact a b % 2 ^ (8 * size)

/-- The stored result is right wherever there is one. -/
lemma wraps_iff : Wraps op size a b ↔ (cOp op (promote ⟨false, 8 * size⟩) a b).isSome = true := by
  have hint : ∀ c : Nat, toInt false size c = c := fun c => rfl
  constructor
  · rintro ⟨n, h, -⟩
    rw [arithExpr, hint, hint] at h
    cases hc : cOp op (promote ⟨false, 8 * size⟩) a b with
    | none => simp [hc] at h
    | some z => rfl
  · intro h
    obtain ⟨z, hz⟩ := Option.isSome_iff_exists.mp h
    have hexpr : arithExpr op false size a b = some (ofInt size z) := by
      rw [arithExpr, hint, hint, hz, Option.map_some]
    have hstored := arithOp_of_expr hexpr
    refine ⟨_, hexpr, hstored, ?_⟩
    rw [arithOp_exact, hint, hint, Option.some.injEq] at hstored
    rw [← hstored, ofInt]
    exact Int.toNat_of_nonneg (Int.emod_nonneg _ (Int.ne_of_gt (Int.pow_pos (by decide))))

/-- The operators on promoted operands. -/
lemma cOp_int (x y : Int) :
    (cOp op int x y).isSome = true ↔ -2 ^ 31 ≤ op.exact x y ∧ op.exact x y < 2 ^ 31 := by
  have hholds : int.holds (op.exact x y) = true ↔ -2 ^ 31 ≤ op.exact x y ∧ op.exact x y < 2 ^ 31 :=
    (Bool.and_eq_true_iff).trans (and_congr decide_eq_true_iff decide_eq_true_iff)
  have hop : cOp op int x y = if int.holds (op.exact x y) then some (op.exact x y) else none := rfl
  rw [hop, ← hholds]
  split <;> simp_all

/-- A number of a width is below the bound of the width. -/
lemma exact_bounds {m : Nat} (ha : a ≤ m) (hb : b ≤ m) (hm : 2 * m < 2 ^ 31) (hop : op ≠ .mul) :
    -2 ^ 31 ≤ op.exact a b ∧ op.exact a b < 2 ^ 31 := by
  cases op with
  | add | sub =>
    simp only [RingOp.exact]
    omega
  | mul => exact absurd rfl hop

/-- **When unsigned arithmetic wraps**: for every width and operator but the product of two numbers
of two bytes, and for that one exactly if it is below 2^31. -/
theorem unsigned_wraps_iff (hw : isWidth size = true) (ha : a < 256 ^ size) (hb : b < 256 ^ size) :
    Wraps op size a b ↔ ¬(op = .mul ∧ size = 2 ∧ 2 ^ 31 ≤ a * b) := by
  rw [wraps_iff]
  simp only [isWidth, Bool.or_eq_true, beq_iff_eq] at hw
  rcases hw with ((rfl | rfl) | rfl) | rfl
  · have hle : a * b ≤ 255 * 255 := Nat.mul_le_mul (by omega) (by omega)
    rw [show promote ⟨false, 8 * 1⟩ = int from rfl, cOp_int]
    refine iff_of_true ?_ (by simp)
    by_cases hop : op = .mul
    · subst hop
      simp only [RingOp.exact]
      omega
    · exact exact_bounds (m := 255) (by omega) (by omega) (by decide) hop
  · rw [show promote ⟨false, 8 * 2⟩ = int from rfl, cOp_int]
    by_cases hop : op = .mul
    · subst hop
      simp only [RingOp.exact, true_and]
      omega
    · exact iff_of_true (exact_bounds (m := 65535) (by omega) (by omega) (by decide) hop)
        fun h => hop h.1
  · exact iff_of_true rfl (by simp)
  · exact iff_of_true rfl (by simp)

/-- Two numbers of two bytes whose product is an `int`. -/
theorem product_wraps : Wraps .mul 2 46340 46340 :=
  (unsigned_wraps_iff (by decide) (by decide) (by decide)).mpr (by decide)

/-- The greatest numbers of two bytes. -/
theorem product_overflows : arithExpr .mul false 2 65535 65535 = none ∧ ¬ Wraps .mul 2 65535 65535 := by
  have hnone : arithExpr .mul false 2 65535 65535 = none := by decide
  refine ⟨hnone, fun ⟨n, h, _⟩ => ?_⟩
  cases hnone.symm.trans h

end Arith

end Quaint.Promotion
