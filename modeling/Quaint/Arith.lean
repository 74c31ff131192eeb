import Quaint.Casting
import Quaint.Operand
import Quaint.Source

/-!
The arithmetic of the machine.

The machine computes on bit patterns, and the source on numbers. Where an operator of the source has
a number, the machine has its pattern.
-/

namespace Quaint.Arith

open Types Ast Bytes Code Exec Codegen Casting Emit Operand Source

/-! ### Wrapping around -/

section Wrapping

variable {t : Ty} {n : Nat} {signd : Bool} {v : Int} {bs : List UInt8}

lemma ofInt_cast (n : Nat) (v : Int) : (ofInt n v : Int) = v % 2 ^ (8 * n) :=
  Int.toNat_of_nonneg (Int.emod_nonneg v (pow_ne_zero _ (by decide)))

lemma ofInt_lt (n : Nat) (v : Int) : ofInt n v < 2 ^ (8 * n) := by
  have hlt : v % 2 ^ (8 * n) < 2 ^ (8 * n) := Int.emod_lt_of_pos v (Int.pow_pos (by decide))
  rw [← ofInt_cast] at hlt
  exact_mod_cast hlt

/-- The number of the pattern of a number is the number wrapped around. -/
lemma toInt_ofInt (hn : n ≠ 0) : toInt signd n (ofInt n v) =
    if signd then v.bmod (2 ^ (8 * n)) else v % 2 ^ (8 * n) := by
  cases signd with
  | false => simp only [toInt, Bool.false_and, Bool.false_eq_true, if_false, ofInt_cast]
  | true =>
    have hpow : 2 ^ (8 * n) = 2 * 2 ^ (8 * n - 1) := by
      rw [← pow_succ']
      congr 1
      omega
    have hhalf : (((2 ^ (8 * n) : Nat) : Int) + 1) / 2 = ((2 ^ (8 * n - 1) : Nat) : Int) := by
      rw [hpow]
      omega
    rw [Int.bmod_eq_emod, hhalf, Nat.cast_pow, Nat.cast_ofNat, ← ofInt_cast]
    simp only [toInt, Bool.true_and, if_true]
    by_cases h : 2 ^ (8 * n - 1) ≤ ofInt n v
    · rw [if_pos (by simpa using h), if_pos (by exact_mod_cast h), Nat.cast_pow, Nat.cast_ofNat]
    · rw [if_neg (by simpa using h), if_neg (by exact_mod_cast h), Nat.cast_zero, sub_zero]

/-- The pattern of a number represents the number wrapped around. -/
lemma represents_wrap (ht : t.bytes ≠ 0) (v : Int) :
    Represents t (leBytes t.bytes (ofInt t.bytes v)) (wrap t v) := by
  refine ⟨leBytes_length _ _, ?_⟩
  rw [leNat_leBytes, Nat.mod_eq_of_lt (by rw [← pow_bytes]; exact ofInt_lt _ _), toInt_ofInt ht, wrap,
    bits]

lemma ofInt_of_represents (h : Represents t bs v) : ofInt t.bytes v = leNat bs := by
  have hv := h.emod
  rw [← ofInt_cast] at hv
  exact_mod_cast hv

lemma represents_of_wrap (ht : t.bytes ≠ 0) (h : wrap t v = v) :
    Represents t (leBytes t.bytes (ofInt t.bytes v)) v := by
  have hw := represents_wrap ht v
  rwa [h] at hw

lemma nonneg_of_represents (hs : t.signd = false) (h : Represents t bs v) : v = leNat bs := by
  rw [← h.2, toInt, hs]
  rfl

lemma bounds_of_represents (ht : t.bytes ≠ 0) (hs : t.signd = true) (h : Represents t bs v) :
    -2 ^ (bits t - 1) ≤ v ∧ v < 2 ^ (bits t - 1) := by
  have hlt : (leNat bs : Int) < 2 ^ bits t := by exact_mod_cast h.lt
  have hpow : (2 : Int) ^ bits t = 2 * 2 ^ (bits t - 1) := by
    rw [← pow_succ']
    congr 1
    rw [bits]
    omega
  have hv := h.2
  rw [toInt, hs, Bool.true_and] at hv
  split at hv
  · rename_i hle
    have hle' : (2 : Int) ^ (bits t - 1) ≤ leNat bs := by exact_mod_cast of_decide_eq_true hle
    rw [← show bits t = 8 * t.bytes from rfl] at hv
    omega
  · rename_i hle
    have hlt' : (leNat bs : Int) < 2 ^ (bits t - 1) := by
      exact_mod_cast Nat.lt_of_not_le fun hge => hle (decide_eq_true hge)
    have hpos : (0 : Int) < 2 ^ (bits t - 1) := Int.pow_pos (by decide)
    omega

lemma wrap_signed (ht : t.bytes ≠ 0) (hs : t.signd = true) (hlo : -2 ^ (bits t - 1) ≤ v)
    (hhi : v < 2 ^ (bits t - 1)) : wrap t v = v := by
  have hpow : 2 ^ bits t = 2 * 2 ^ (bits t - 1) := by
    rw [← pow_succ']
    congr 1
    rw [bits]
    omega
  have hcast : ((2 ^ bits t : Nat) : Int) = 2 * 2 ^ (bits t - 1) := by exact_mod_cast hpow
  rw [wrap, if_pos hs]
  refine Int.bmod_eq_of_le ?_ ?_
  · rw [hcast]
    omega
  · rw [hcast]
    omega

lemma wrap_unsigned (hs : t.signd = false) (hlo : 0 ≤ v) (hhi : v < 2 ^ bits t) : wrap t v = v := by
  rw [wrap, hs]
  exact Int.emod_eq_of_lt hlo hhi

end Wrapping

/-! ### Binary operators -/

/-- The operator of the machine. -/
def arithOf : BOp → Option ArithOp
  | .plus => some .add
  | .mins => some .sub
  | .mult => some .mul
  | .divi => some .div
  | .modu => some .mod
  | .lshf => some .lsh
  | .rshf => some .rsh
  | .amps => some .and
  | .care => some .xor
  | .pipe => some .or
  | _ => none

/-- The operator works on bits. -/
def onBits : BOp → Bool
  | .lshf | .rshf | .amps | .care | .pipe => true
  | _ => false

section Binary

variable {t : Ty} {op : BOp} {aop : ArithOp} {x y v : Int} {bs cs : List UInt8}

lemma undivided_of_overflow (h : y = 0 ∨ (t.signd && decide (4 ≤ t.bytes) &&
    decide (x = -(2 ^ (8 * t.bytes - 1))) && decide (y = -1)) = true) : Undivided t x y := by
  rcases h with h | h
  · exact .inl h
  · simp only [Bool.and_eq_true, decide_eq_true_eq] at h
    exact .inr ⟨h.1.1.1, h.1.2, h.2⟩

/-- A quotient is a number of the type. -/
lemma wrap_tdiv (ht : t.bytes ≠ 0) (hx : Represents t bs x) (hy : Represents t cs y)
    (h : ¬ Undivided t x y) : wrap t (x.tdiv y) = x.tdiv y := by
  have hle : (x.tdiv y).natAbs ≤ x.natAbs := Int.natAbs_tdiv_le_natAbs x y
  cases hs : t.signd with
  | false =>
    have hx0 := nonneg_of_represents hs hx
    have hlt : (leNat bs : Int) < 2 ^ bits t := by exact_mod_cast hx.lt
    have hnn : 0 ≤ x.tdiv y := Int.tdiv_nonneg (by omega) (nonneg_of_represents hs hy ▸ by omega)
    exact wrap_unsigned hs hnn (by omega)
  | true =>
    obtain ⟨hlo, hhi⟩ := bounds_of_represents ht hs hx
    refine wrap_signed ht hs (by omega) ?_
    by_contra hge
    -- only the least number has a quotient as large, by one or by minus one
    have hpos : (0 : Int) < 2 ^ (bits t - 1) := Int.pow_pos (by decide)
    have hxlo : x = -2 ^ (bits t - 1) := by omega
    have hy1 : y.natAbs < 2 := by
      by_contra hy2
      have hlt : x.natAbs / y.natAbs < x.natAbs := Nat.div_lt_self (by omega) (by omega)
      have habs : (x.tdiv y).natAbs = x.natAbs / y.natAbs := Int.natAbs_tdiv x y
      omega
    have hy : y = 0 ∨ y = 1 ∨ y = -1 := by omega
    rcases hy with rfl | rfl | rfl
    · exact h (.inl rfl)
    · rw [Int.tdiv_one] at hge
      omega
    · exact h (.inr ⟨hs, hxlo, rfl⟩)

/-- A remainder is a number of the type. -/
lemma wrap_tmod (ht : t.bytes ≠ 0) (hx : Represents t bs x) : wrap t (x.tmod y) = x.tmod y := by
  have habs : (x.tmod y).natAbs = x.natAbs % y.natAbs := Int.natAbs_tmod x y
  have hle : x.natAbs % y.natAbs ≤ x.natAbs := Nat.mod_le _ _
  cases hs : t.signd with
  | false =>
    have hx0 := nonneg_of_represents hs hx
    have hlt : (leNat bs : Int) < 2 ^ bits t := by exact_mod_cast hx.lt
    exact wrap_unsigned hs (Int.tmod_nonneg y (by omega)) (by omega)
  | true =>
    obtain ⟨hlo, hhi⟩ := bounds_of_represents ht hs hx
    refine wrap_signed ht hs (by omega) ?_
    rcases Int.lt_or_le x 0 with hneg | hnn
    · have hle0 : 0 ≤ (-x).tmod y := Int.tmod_nonneg y (by omega)
      rw [Int.neg_tmod] at hle0
      have hpos : (0 : Int) < 2 ^ (bits t - 1) := Int.pow_pos (by decide)
      omega
    · omega

lemma bits_le_promoted (hw : isWidth t.bytes = true) : bits t ≤ promoted t.bytes := by
  simp only [isWidth, Bool.or_eq_true, beq_iff_eq] at hw
  rcases hw with ((hw | hw) | hw) | hw <;> rw [bits, hw] <;> decide

/-- A pattern stands for itself in an unsigned type. -/
lemma represents_nat {k : Nat} (hs : t.signd = false) (hlt : k < 2 ^ bits t) :
    Represents t (leBytes t.bytes k) k := by
  refine ⟨leBytes_length _ _, ?_⟩
  rw [leNat_leBytes, ← pow_bytes, ← bits, Nat.mod_eq_of_lt hlt, toInt, hs]
  rfl

/-- **The machine computes the number of an operator**, if the numbers are not negative where it
works on bits. -/
theorem arithOp_represents (hop : arithOf op = some aop) (hw : isWidth t.bytes = true)
    (hbits : onBits op = true → t.signd = false) (hx : Represents t bs x) (hy : Represents t cs y)
    (hv : binary op t x y = some v) :
    ∃ n, arithOp aop t.signd t.bytes (leNat bs) (leNat cs) = some n ∧
      Represents t (leBytes t.bytes n) v := by
  have ht : t.bytes ≠ 0 := isWidth_pos hw
  have hx' := hx.2
  have hy' := hy.2
  cases op <;> simp only [arithOf, reduceCtorEq, Option.some.injEq] at hop <;> subst hop <;>
    simp only [binary, Option.some.injEq, Option.ite_none_left_eq_some] at hv <;>
    simp only [arithOp, hx', hy']
  case plus | mins | mult =>
    subst hv
    exact ⟨_, rfl, represents_wrap ht _⟩
  case divi =>
    obtain ⟨hdiv, rfl⟩ := hv
    refine ⟨_, if_neg fun h => hdiv (undivided_of_overflow h), ?_⟩
    exact represents_of_wrap ht (wrap_tdiv ht hx hy hdiv)
  case modu =>
    obtain ⟨hdiv, rfl⟩ := hv
    refine ⟨_, if_neg fun h => hdiv (undivided_of_overflow h), ?_⟩
    exact represents_of_wrap ht (wrap_tmod ht hx)
  all_goals
    have hs := hbits rfl
    obtain rfl := nonneg_of_represents hs hx
    obtain rfl := nonneg_of_represents hs hy
  case lshf =>
    obtain ⟨hlt, rfl⟩ := hv
    have hle := bits_le_promoted hw
    exact ⟨_, if_neg (by omega), represents_wrap ht _⟩
  case rshf =>
    obtain ⟨hlt, rfl⟩ := hv
    have hle := bits_le_promoted hw
    refine ⟨_, if_neg (by omega), represents_of_wrap ht ?_⟩
    have hdiv : leNat bs / 2 ^ leNat cs < 2 ^ bits t := (Nat.div_le_self _ _).trans_lt hx.lt
    exact wrap_unsigned hs (Int.natCast_nonneg (leNat bs / 2 ^ leNat cs)) (by exact_mod_cast hdiv)
  case amps =>
    subst hv
    exact ⟨_, rfl, represents_nat hs (Nat.and_lt_two_pow _ hy.lt)⟩
  case care =>
    subst hv
    exact ⟨_, rfl, represents_nat hs (Nat.xor_lt_two_pow hx.lt hy.lt)⟩
  case pipe =>
    subst hv
    exact ⟨_, rfl, represents_nat hs (Nat.or_lt_two_pow hx.lt hy.lt)⟩

/-- The instruction of a binary operator is that of an operator of the machine, a comparison of
numbers or one of bytes. -/
lemma bexpInsn_op {mk : Opd → Opd → Opd → Insn} (hop : bexpInsn op = some mk) :
    (∃ aop, mk = .arith aop ∧ arithOf op = some aop) ∨
      (∃ cop, mk = .cmp cop ∧ ∀ t x y, binary op t x y = some (if cmpOp cop x y then 1 else 0)) ∨
      ∃ neq, mk = .equ neq ∧ ∀ t x y, binary op t x y = some (if decide (x = y) != neq then 1 else 0) := by
  cases op <;> simp only [bexpInsn, reduceCtorEq, Option.some.injEq] at hop <;> subst hop
  case equl | neql =>
    refine .inr (.inr ⟨_, rfl, fun t x y => ?_⟩)
    by_cases h : x = y <;> simp [binary, h]
  case lthn | gthn | lteq | gteq => exact .inr (.inl ⟨_, rfl, fun t x y => by simp [binary, cmpOp]⟩)
  all_goals exact .inl ⟨_, rfl, rfl⟩

lemma plusOp_op (hop : plusOp op = some (aop, false)) : arithOf op = some aop := by
  cases op <;> simp_all [plusOp, arithOf]

/-- Patterns are equal if their numbers are. -/
lemma beq_represents (hx : Represents t bs x) (hy : Represents t cs y) :
    (bs == cs) = decide (x = y) := by
  by_cases h : x = y
  · subst h
    simp [hx.unique hy]
  · have hne : bs ≠ cs := fun heq => h (hx.2.symm.trans (heq ▸ hy.2))
    simp [h, hne]

end Binary

/-! ### Unary operators, casts and conditions -/

section Unary

variable {t S D : Ty} {v : Int} {bs : List UInt8}

/-- A pattern is zero if its number is. -/
lemma leNat_eq_zero (h : Represents t bs v) : leNat bs = 0 ↔ v = 0 := by
  constructor
  · intro hz
    rw [← h.2, hz, toInt, if_neg]
    · rfl
    · simp
  · rintro rfl
    rw [← ofInt_of_represents h, ofInt, Int.zero_emod]
    rfl

/-- A flag stands for itself in any type. -/
lemma represents_flag (hw : isWidth t.bytes = true) (b : Bool) :
    Represents t (leBytes t.bytes (if b then 1 else 0)) (if b then 1 else 0) := by
  refine ⟨leBytes_length _ _, ?_⟩
  simp only [isWidth, Bool.or_eq_true, beq_iff_eq] at hw
  rcases hw with ((hw | hw) | hw) | hw <;> rw [hw] <;> cases t.signd <;> cases b <;> decide

/-- The complement of an unsigned number. -/
lemma represents_compl (hs : t.signd = false) (h : Represents t bs v) :
    Represents t (leBytes t.bytes (2 ^ (8 * t.bytes) - 1 - leNat bs)) (2 ^ bits t - 1 - v) := by
  have hlt := h.lt
  obtain rfl := nonneg_of_represents hs h
  have hcast : ((2 ^ bits t - 1 - leNat bs : Nat) : Int) = 2 ^ bits t - 1 - leNat bs := by
    rw [Nat.cast_sub (by rw [bits]; omega), Nat.cast_sub Nat.one_le_two_pow]
    norm_cast
  have hk := represents_nat (k := 2 ^ bits t - 1 - leNat bs) hs (by rw [bits]; omega)
  rwa [hcast] at hk

/-- The lower bytes, and zeros, are the number converted, unless that widens a negative one. -/
lemma represents_cast (hD : D.bytes ≠ 0) (h : Represents S bs v) (hv : 0 ≤ v ∨ D.bytes ≤ S.bytes) :
    Represents D (bs.take (min S.bytes D.bytes) ++ List.replicate (D.bytes - S.bytes) 0) (wrap D v) := by
  have hlow := h.low hv
  rw [← ofInt_cast] at hlow
  have hnum : leNat (bs.take (min S.bytes D.bytes) ++ List.replicate (D.bytes - S.bytes) 0) =
      ofInt D.bytes v := by
    rw [leNat_append, leNat_zeros, Nat.mul_zero, Nat.add_zero]
    exact_mod_cast hlow
  refine ⟨by simp [h.1]; omega, ?_⟩
  rw [hnum, toInt_ofInt hD, wrap, bits]

lemma represents_nmbr {k : Nat} (hk : k < 2 ^ 64) (h : TExpr.nmbr k t = TypeCheck.typeFromNmbr k) :
    t.bytes = t.size ∧ Represents t (leBytes t.size k) k := by
  have hrep {c : IntT} (hs : (Ty.int c 1).signd = false) (hb : (Ty.int c 1).bytes = c.size)
      (hlt : k < 2 ^ (8 * c.size)) : (Ty.int c 1).bytes = (Ty.int c 1).size ∧
        Represents (.int c 1) (leBytes (Ty.int c 1).size k) k := by
    refine ⟨hb, ?_⟩
    have hr := represents_nat (t := .int c 1) (k := k) hs (by rwa [bits, hb])
    rwa [hb] at hr
  simp only [TypeCheck.typeFromNmbr, TExpr.nmbr.injEq, true_and] at h
  subst h
  split
  · exact hrep rfl rfl (by simp only [IntT.size]; omega)
  · split
    · exact hrep rfl rfl (by simp only [IntT.size]; omega)
    · split
      · exact hrep rfl rfl (by simp only [IntT.size]; omega)
      · exact hrep rfl rfl hk

end Unary

end Quaint.Arith
