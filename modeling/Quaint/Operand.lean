import Quaint.Quantify
import Quaint.Listing

/-!
The operand an expression leaves: its size and signedness are those of the type, it is an
immediate only for a scalar, and for an lvalue it is a variable or a place behind a pointer.
-/

namespace Quaint.Operand

open Types Ast Scope TypeCheck Code Codegen Exec Typing Layout Quantify Emit Listing

/-! ### Types -/

section Sizes

variable {t u : Ty}

mutual
lemma typeEquals_sizes : ∀ {t u : Ty}, typeEquals t u = true →
    t.t = u.t ∧ t.count = u.count ∧ t.size = u.size ∧ t.alignment = u.alignment := by
  intro t u h
  match t, u with
  | .void c, .void c' | .vptr c, .vptr c' =>
    have : c = c' := by simpa [typeEquals] using h
    exact ⟨rfl, this, rfl, rfl⟩
  | .int k c, .int k' c' =>
    obtain ⟨rfl, rfl⟩ : k = k' ∧ c = c' := by simpa [typeEquals] using h
    exact ⟨rfl, rfl, rfl, rfl⟩
  | .enum c vs tv, .enum c' vs' tv' =>
    simp only [typeEquals, Bool.and_eq_true, beq_iff_eq] at h
    obtain ⟨⟨rfl, rfl⟩, -⟩ := h
    exact ⟨rfl, rfl, rfl, rfl⟩
  | .ptr c s, .ptr c' s' | .quaint c s, .quaint c' s' =>
    simp only [typeEquals, Bool.and_eq_true, beq_iff_eq] at h
    exact ⟨rfl, h.1, rfl, rfl⟩
  | .struct c ms, .struct c' ms' =>
    simp only [typeEquals, Bool.and_eq_true, beq_iff_eq] at h
    obtain ⟨ha, he, -⟩ := fieldsEqual_sizes h.2
    exact ⟨rfl, h.1, by rw [Ty.size, Ty.size, ha, he], ha 0⟩
  | .union c ms, .union c' ms' =>
    simp only [typeEquals, Bool.and_eq_true, beq_iff_eq] at h
    obtain ⟨ha, -, hg⟩ := fieldsEqual_sizes h.2
    exact ⟨rfl, h.1, hg 0, ha 0⟩
  | .fptr c ps r, .fptr c' ps' r' =>
    simp only [typeEquals, Bool.and_eq_true, beq_iff_eq] at h
    exact ⟨rfl, h.1.1, rfl, rfl⟩
lemma fieldsEqual_sizes : ∀ {ms ns : Fields}, fieldsEqual ms ns = true →
    (∀ g, ms.greatestAlignment g = ns.greatestAlignment g) ∧
      (∀ off, ms.endOffset off = ns.endOffset off) ∧ ∀ g, ms.greatestSize g = ns.greatestSize g := by
  intro ms ns h
  match ms, ns with
  | .nil, .nil => exact ⟨fun _ => rfl, fun _ => rfl, fun _ => rfl⟩
  | .cons _ t r, .cons _ t' r' =>
    simp only [fieldsEqual, Bool.and_eq_true] at h
    obtain ⟨-, hc, hs, ha⟩ := typeEquals_sizes h.1
    obtain ⟨h1, h2, h3⟩ := fieldsEqual_sizes h.2
    refine ⟨fun g => ?_, fun off => ?_, fun g => ?_⟩
    · rw [Fields.greatestAlignment, Fields.greatestAlignment, ha, h1]
    · rw [Fields.endOffset, Fields.endOffset, ha, hs, hc, h2]
    · rw [Fields.greatestSize, Fields.greatestSize, hs, hc, h3]
end

lemma bytes_of_equals (h : typeEquals t u = true) : t.bytes = u.bytes := by
  obtain ⟨-, hc, hs, -⟩ := typeEquals_sizes h
  rw [Ty.bytes, Ty.bytes, hc, hs]

lemma signd_of_equals (h : typeEquals t u = true) : t.signd = u.signd := by
  rw [Ty.signd, Ty.signd, (typeEquals_sizes h).1]

/-- A value the machine can compute with. -/
def Scalar (t : Ty) : Prop :=
  t.count = 1 ∧ (typeIsIntegral t.t = true ∨ typeIsPtr t.t = true ∨ typeIsQuaint t.t = true)

lemma width_of_scalar (h : Scalar t) : t.bytes = t.size ∧ isWidth t.bytes = true := by
  obtain ⟨hc, hk⟩ := h
  have hw : isWidth t.size = true := by
    cases t with
    | int k c => cases k <;> rfl
    | enum c vs tv => cases tv <;> rfl
    | vptr _ | ptr _ _ | quaint _ _ | fptr _ _ _ => rfl
    | void _ | struct _ _ | union _ _ => rcases hk with h | h | h <;> cases h
  have hb : t.bytes = t.size := by
    rw [Ty.bytes, hc, Nat.one_mul]
    refine wrap64_of_lt ?_
    simp only [isWidth, Bool.or_eq_true, beq_iff_eq] at hw
    omega
  exact ⟨hb, hb ▸ hw⟩

lemma isWidth_pos {n : Nat} (h : isWidth n = true) : n ≠ 0 := by
  rintro rfl
  cases h

lemma bytes_pos_of_scalar (h : Scalar t) : t.bytes ≠ 0 := isWidth_pos (width_of_scalar h).2

end Sizes

/-! ### What the checks of the operators ask -/

section Checks

variable {op : BOp} {l r b o c tv fv : TExpr} {t : Ty}

/-- Two operands the machine computes with. -/
structure Alike (a b : Ty) : Prop where
  left : Scalar a
  right : Scalar b
  size : a.size = b.size
  signd : a.signd = b.signd

lemma Alike.bytes {a b : Ty} (h : Alike a b) : a.bytes = b.bytes := by
  rw [(width_of_scalar h.left).1, (width_of_scalar h.right).1, h.size]

lemma signd_of_unsigned {t : Ty} (h : typeIsUnsigned t.t = true) : t.signd = false := by
  simp only [typeIsUnsigned, bne_iff_ne] at h
  simp [Ty.signd, typeIsSigned, h]

lemma assn_checked (h : typeFromBexp .assn l r = .ok (.bexp .assn l r t)) :
    exprIsLvalue l = none ∧ typeEquals (typeOfExpr l) (typeOfExpr r) = true ∧ t = typeOfExpr r := by
  simp only [typeFromBexp, requireLvalue_ok, require_ok, TRes.ok.injEq, TExpr.bexp.injEq, true_and] at h
  exact ⟨h.1, h.2.1, h.2.2.symm⟩

lemma asmu_checked {aop : ArithOp} (hop : asmuOp op = some aop)
    (h : typeFromBexp op l r = .ok (.bexp op l r t)) :
    exprIsLvalue l = none ∧ Alike (typeOfExpr l) (typeOfExpr r) ∧ t = typeOfExpr l := by
  cases op <;> simp only [asmuOp, reduceCtorEq] at hop <;>
    simp only [typeFromBexp, requireScalars, requireArith, requireBits, requireLvalue_ok, require_ok,
      TRes.ok.injEq, TExpr.bexp.injEq, Bool.and_eq_true, beq_iff_eq, true_and, Bool.false_eq_true,
      if_false] at h
  case asmu | asdi | asmo =>
    obtain ⟨⟨hl, hr⟩, hlv, hil, hir, hsz, hsg, ht⟩ := h
    exact ⟨hlv, ⟨⟨hl, .inl hil⟩, ⟨hr, .inl hir⟩, hsz, hsg⟩, ht.symm⟩
  all_goals
    obtain ⟨⟨hl, hr⟩, hlv, hil, hir, hul, hur, hsz, ht⟩ := h
    exact ⟨hlv, ⟨⟨hl, .inl hil⟩, ⟨hr, .inl hir⟩, hsz,
      (signd_of_unsigned hul).trans (signd_of_unsigned hur).symm⟩, ht.symm⟩

lemma plus_checked {aop : ArithOp} {assigns : Bool} (hop : plusOp op = some (aop, assigns))
    (h : typeFromBexp op l r = .ok (.bexp op l r t)) :
    (assigns = true → exprIsLvalue l = none) ∧ Alike (typeOfExpr l) (typeOfExpr r) ∧
      t = typeOfExpr l := by
  cases op <;> simp only [plusOp, reduceCtorEq, Option.some.injEq, Prod.mk.injEq] at hop <;>
    simp only [typeFromBexp, requireScalars, requireArith, requireLvalue_ok, require_ok,
      TRes.ok.injEq, TExpr.bexp.injEq, Bool.and_eq_true, beq_iff_eq, true_and, if_true,
      Bool.or_eq_true] at h
  case aspl | asmi =>
    obtain ⟨⟨hl, hr⟩, hlv, hil, -, -, hir, hsz, hsg, ht⟩ := h
    exact ⟨fun _ => hlv, ⟨⟨hl, hil.imp id .inl⟩, ⟨hr, .inl hir⟩, hsz, hsg⟩, ht.symm⟩
  all_goals
    obtain ⟨⟨hl, hr⟩, hil, -, -, hir, hsz, hsg, ht⟩ := h
    exact ⟨fun ha => (by simp [ha] at hop), ⟨⟨hl, hil.imp id .inl⟩, ⟨hr, .inl hir⟩, hsz, hsg⟩, ht.symm⟩

lemma conj_checked {disj : Bool} (hop : conjOp op = some disj)
    (h : typeFromBexp op l r = .ok (.bexp op l r t)) :
    Alike (typeOfExpr l) (typeOfExpr r) ∧ t = .int .u8 1 := by
  cases op <;> simp only [conjOp, reduceCtorEq] at hop <;>
    simp only [typeFromBexp, requireScalars, require_ok, TRes.ok.injEq, TExpr.bexp.injEq,
      Bool.and_eq_true, beq_iff_eq, true_and, reduceCtorEq, or_self, if_false, Bool.or_eq_true] at h
  all_goals
    obtain ⟨⟨hl, hr⟩, hil, hir, hsz, hsg, ht⟩ := h
    exact ⟨⟨⟨hl, hil.imp id .inl⟩, ⟨hr, hir.imp id .inl⟩, hsz, hsg⟩, ht.symm⟩

/-- `==` and `!=` also compare arrays. -/
lemma equ_op {neq : Bool} (hop : bexpInsn op = some (.equ neq)) : op = .equl ∨ op = .neql := by
  cases op <;> simp [bexpInsn, funext_iff] at hop ⊢ <;>
    exact hop (opdImm false 0 0) (opdImm false 0 0) (opdImm false 0 0)

lemma equ_checked {neq : Bool} (hop : bexpInsn op = some (.equ neq))
    (h : typeFromBexp op l r = .ok (.bexp op l r t)) :
    (typeOfExpr l).bytes = (typeOfExpr r).bytes ∧ t = .int .u8 1 := by
  rcases equ_op hop with rfl | rfl <;>
  · simp only [typeFromBexp, require_ok, TRes.ok.injEq, TExpr.bexp.injEq, beq_iff_eq, true_and,
      true_or, or_true, if_true, Bool.or_eq_true] at h
    obtain ⟨hc, -, -, hsz, -, ht⟩ := h
    exact ⟨by rw [Ty.bytes, Ty.bytes, hc, hsz], ht.symm⟩

lemma cmp_checked {cop : CmpOp} (hop : bexpInsn op = some (.cmp cop))
    (h : typeFromBexp op l r = .ok (.bexp op l r t)) :
    Alike (typeOfExpr l) (typeOfExpr r) ∧ t = .int .u8 1 := by
  have hop' : op = .lthn ∨ op = .gthn ∨ op = .lteq ∨ op = .gteq := by
    cases op <;> simp [bexpInsn, funext_iff] at hop ⊢ <;>
      exact hop (opdImm false 0 0) (opdImm false 0 0) (opdImm false 0 0)
  rcases hop' with rfl | rfl | rfl | rfl <;>
  · simp only [typeFromBexp, requireScalars, require_ok, TRes.ok.injEq, TExpr.bexp.injEq,
      Bool.and_eq_true, beq_iff_eq, true_and, reduceCtorEq, or_self, if_false, Bool.or_eq_true] at h
    obtain ⟨⟨hl, hr⟩, hil, hir, hsz, hsg, ht⟩ := h
    exact ⟨⟨⟨hl, hil.imp id .inl⟩, ⟨hr, hir.imp id .inl⟩, hsz, hsg⟩, ht.symm⟩

lemma arith_checked {aop : ArithOp} (hop : bexpInsn op = some (.arith aop))
    (h : typeFromBexp op l r = .ok (.bexp op l r t)) :
    Alike (typeOfExpr l) (typeOfExpr r) ∧ t = typeOfExpr l := by
  have hop' : (op = .mult ∨ op = .divi ∨ op = .modu) ∨
      (op = .lshf ∨ op = .rshf ∨ op = .amps ∨ op = .care ∨ op = .pipe) := by
    cases op <;> simp [bexpInsn, funext_iff] at hop ⊢ <;>
      exact hop (opdImm false 0 0) (opdImm false 0 0) (opdImm false 0 0)
  rcases hop' with (rfl | rfl | rfl) | (rfl | rfl | rfl | rfl | rfl) <;>
    simp only [typeFromBexp, requireScalars, requireArith, requireBits, require_ok,
      TRes.ok.injEq, TExpr.bexp.injEq, Bool.and_eq_true, beq_iff_eq, true_and, Bool.false_eq_true,
      if_false] at h
  iterate 3
    obtain ⟨⟨hl, hr⟩, hil, hir, hsz, hsg, ht⟩ := h
    exact ⟨⟨⟨hl, .inl hil⟩, ⟨hr, .inl hir⟩, hsz, hsg⟩, ht.symm⟩
  all_goals
    obtain ⟨⟨hl, hr⟩, hil, hir, hul, hur, hsz, ht⟩ := h
    exact ⟨⟨⟨hl, .inl hil⟩, ⟨hr, .inl hir⟩, hsz,
      (signd_of_unsigned hul).trans (signd_of_unsigned hur).symm⟩, ht.symm⟩

lemma unary_checked {op : UOp} {mk : Opd → Opd → Insn} (hop : unaryInsn op = some mk)
    (h : typeFromUexp op r = .ok (.uexp op r t)) :
    Scalar (typeOfExpr r) ∧ Scalar t ∧ t.bytes = (typeOfExpr r).bytes ∧
      ((mk = .neg ∧ t.signd = true) ∨ (mk = .not ∧ t = typeOfExpr r) ∨
        mk = .bneg ∧ t = typeOfExpr r ∧ t.signd = false) := by
  cases op <;> simp only [unaryInsn, reduceCtorEq, Option.some.injEq] at hop <;> subst hop <;>
    simp only [typeFromUexp, require_ok, TRes.ok.injEq, TExpr.uexp.injEq, beq_iff_eq, true_and,
      Bool.or_eq_true, Bool.not_eq_true'] at h
  case mins =>
    obtain ⟨hc, hi, h⟩ := h
    cases hr : typeOfExpr r <;> rw [hr] at h hc hi <;> simp only [TRes.ok.injEq, reduceCtorEq] at h
    case int k n =>
      simp only [TExpr.uexp.injEq, true_and] at h
      subst h
      have hn : n = 1 := hc
      subst hn
      have hs : ∀ k : IntT, (IntT.next k).size = k.size ∧ Scalar (.int (IntT.next k) 1) ∧
          (Ty.int (IntT.next k) 1).signd = true := by
        intro k
        cases k <;> exact ⟨rfl, ⟨rfl, .inl rfl⟩, rfl⟩
      obtain ⟨h1, h2, h3⟩ := hs k
      refine ⟨⟨rfl, .inl hi⟩, h2, ?_, .inl ⟨rfl, h3⟩⟩
      rw [Ty.bytes, Ty.bytes, Ty.size, Ty.size, h1]
      rfl
  case excl =>
    obtain ⟨hc, hk, rfl⟩ := h
    have hs : Scalar (typeOfExpr r) := ⟨hc, or_assoc.mp hk⟩
    exact ⟨hs, hs, rfl, .inr (.inl ⟨rfl, rfl⟩)⟩
  case care =>
    obtain ⟨hc, hi, hu, rfl⟩ := h
    have hs : Scalar (typeOfExpr r) := ⟨hc, .inl hi⟩
    exact ⟨hs, hs, rfl, .inr (.inr ⟨rfl, rfl, by simp [Ty.signd, hu]⟩)⟩

lemma incr_checked {op : UOp} {dec : Bool} (hop : incrOp op = some dec)
    (h : typeFromUexp op r = .ok (.uexp op r t)) :
    exprIsLvalue r = none ∧ Scalar (typeOfExpr r) ∧ t = typeOfExpr r := by
  cases op <;> simp only [incrOp, reduceCtorEq, Option.some.injEq] at hop <;>
    simp only [typeFromUexp, requireLvalue_ok, require_ok, TRes.ok.injEq, TExpr.uexp.injEq, beq_iff_eq,
      true_and, Bool.or_eq_true] at h
  all_goals
    obtain ⟨hlv, hc, hk, -, -, rfl⟩ := h
    exact ⟨hlv, ⟨hc, hk.imp id .inl⟩, rfl⟩

lemma xexp_checked {op : XOp} (h : typeFromXexp op l = .ok (.xexp op l t)) :
    exprIsLvalue l = none ∧ Scalar (typeOfExpr l) ∧ t = typeOfExpr l := by
  simp only [typeFromXexp, requireLvalue_ok, require_ok, TRes.ok.injEq, TExpr.xexp.injEq, beq_iff_eq,
    true_and, Bool.or_eq_true] at h
  obtain ⟨hlv, hc, hk, -, -, rfl⟩ := h
  exact ⟨hlv, ⟨hc, hk.imp id .inl⟩, rfl⟩

lemma uplus_checked (h : typeFromUexp .plus r = .ok (.uexp .plus r t)) :
    Scalar (typeOfExpr r) ∧ t = typeOfExpr r := by
  simp only [typeFromUexp, require_ok, TRes.ok.injEq, TExpr.uexp.injEq, beq_iff_eq, true_and] at h
  exact ⟨⟨h.1, .inl h.2.1⟩, h.2.2.symm⟩

lemma mult_checked (h : typeFromUexp .mult r = .ok (.uexp .mult r t)) :
    Scalar (typeOfExpr r) ∧ (typeOfExpr r = .ptr 1 t ∨
      typeOfExpr r = .quaint 1 t ∧ exprIsLvalue r = none) := by
  simp only [typeFromUexp] at h
  by_cases hq : typeIsQuaint (typeOfExpr r).t = true
  · simp only [hq, if_true, requireLvalue_ok, require_ok, beq_iff_eq] at h
    obtain ⟨hlv, hc, h⟩ := h
    cases hr : typeOfExpr r <;> rw [hr] at h hc hq
    case quaint n s =>
      simp only [TRes.ok.injEq, TExpr.uexp.injEq, true_and] at h
      obtain rfl : n = 1 := hc
      exact ⟨⟨rfl, .inr (.inr rfl)⟩, .inr ⟨by rw [h], hlv⟩⟩
    case int k n => cases k <;> cases hq
    all_goals cases hq
  · simp only [hq, Bool.false_eq_true, if_false, require_ok, beq_iff_eq] at h
    obtain ⟨hc, h⟩ := h
    cases hr : typeOfExpr r <;> rw [hr] at h hc hq <;> simp only [reduceCtorEq] at h
    case ptr n s =>
      simp only [TRes.ok.injEq, TExpr.uexp.injEq, true_and] at h
      obtain rfl : n = 1 := hc
      exact ⟨⟨rfl, .inr (.inl rfl)⟩, .inl (by rw [h])⟩
    case quaint n s => exact absurd rfl hq

lemma amps_checked (h : typeFromUexp .amps r = .ok (.uexp .amps r t)) :
    exprIsLvalue r = none ∧ t = .ptr 1 (typeOfExpr r) := by
  simp only [typeFromUexp, requireLvalue_ok, TRes.ok.injEq, TExpr.uexp.injEq, true_and] at h
  exact ⟨h.1, h.2.symm⟩

lemma tild_checked (h : typeFromUexp .tild r = .ok (.uexp .tild r t)) :
    t = .quaint 1 (typeOfExpr r) := by
  simp only [typeFromUexp, TRes.ok.injEq, TExpr.uexp.injEq, true_and] at h
  exact h.symm

lemma aexp_checked (h : typeFromAexp b o = .ok (.aexp b o t)) :
    t = (typeOfExpr b).setCount 1 ∧ typeIsIntegral (typeOfExpr o).t = true ∧
      (typeOfExpr o).signd = false ∧ (typeOfExpr b).count ≠ 1 := by
  simp only [typeFromAexp, require_ok, TRes.ok.injEq, TExpr.aexp.injEq, true_and, bne_iff_ne,
    Bool.not_eq_true'] at h
  obtain ⟨hc, hi, hu, ht⟩ := h
  exact ⟨ht.symm, hi, by simp [Ty.signd, hu], hc⟩

lemma texp_checked (h : typeFromTexp c tv fv = .ok (.texp c tv fv t)) :
    (typeIsIntegral (typeOfExpr c).t = true ∨ typeIsPtr (typeOfExpr c).t = true ∨
      typeIsQuaint (typeOfExpr c).t = true) ∧
      typeEquals (typeOfExpr tv) (typeOfExpr fv) = true ∧ t = typeOfExpr tv := by
  simp only [typeFromTexp, require_ok, TRes.ok.injEq, TExpr.texp.injEq, true_and, Bool.or_eq_true,
    or_assoc] at h
  exact ⟨h.1, h.2.1, h.2.2.symm⟩

lemma findMember_get {field : Sym} {ms : Fields} {i j : Nat} {m : Ty}
    (h : findMember field ms i = some (j, m)) :
    ∃ k n, j = i + k ∧ ms.toList[k]? = some (n, m) := by
  match ms with
  | .nil => cases h
  | .cons n t rest =>
    rw [findMember] at h
    split at h
    · cases h
      exact ⟨0, n, rfl, rfl⟩
    · obtain ⟨k, n', hj, hk⟩ := findMember_get h
      exact ⟨k + 1, n', by omega, hk⟩

/-- A member the checker finds has an offset. -/
lemma memberAt_some {t m : Ty} {field : Sym} {i : Nat} (ht : isAggregate t.t = true)
    (h : findMember field t.members 0 = some (i, m)) : ∃ off, memberAt t i = some (m, off) := by
  obtain ⟨k, n, rfl, hk⟩ := findMember_get h
  rw [Nat.zero_add] at *
  have hlen := (List.getElem?_eq_some_iff.mp hk).1
  have hoff : k < t.offsets.length := by
    cases t <;> simp only [isAggregate, Ty.t, reduceCtorEq, beq_iff_eq, or_self, Bool.or_eq_true]
      at ht
    case int k n => exact absurd hlen (Nat.not_lt_zero _)
    case struct c ms => rw [Ty.offsets, offsets_length]; exact hlen
    case union c ms => rw [Ty.offsets, List.length_replicate, ← toList_length]; exact hlen
  refine ⟨t.offsets[k], ?_⟩
  rw [memberAt, hk, List.getElem?_eq_getElem hoff]

lemma memb_checked {i : Nat} {rhs : Expr} (h : typeFromMemb false l rhs = .ok (.memb l i t)) :
    (typeOfExpr l).count = 1 ∧ isAggregate (typeOfExpr l).t = true ∧
      ∃ off, memberAt (typeOfExpr l) i = some (t, off) := by
  simp only [typeFromMemb, require_ok, beq_iff_eq] at h
  obtain ⟨hc, h⟩ := h
  cases rhs <;> simp only [reduceCtorEq, Bool.false_eq_true, if_false, require_ok] at h
  obtain ⟨ha, h⟩ := h
  split at h
  · cases h
  · rename_i hm
    cases h
    exact ⟨hc, ha, memberAt_some ha hm⟩

lemma arow_checked {i : Nat} {rhs : Expr} (h : typeFromMemb true l rhs = .ok (.arow l i t)) :
    ∃ s, typeOfExpr l = .ptr 1 s ∧ s.count = 1 ∧ isAggregate s.t = true ∧
      ∃ off, memberAt s i = some (t, off) := by
  simp only [typeFromMemb, require_ok, beq_iff_eq] at h
  obtain ⟨hc, h⟩ := h
  cases rhs <;> simp only [reduceCtorEq, if_true] at h
  cases hl : typeOfExpr l <;> rw [hl] at h hc <;> simp only [reduceCtorEq, require_ok] at h
  case ptr n s =>
    obtain ⟨ha, hsc, h⟩ := h
    obtain rfl : n = 1 := hc
    split at h
    · cases h
    · rename_i hm
      cases h
      exact ⟨s, rfl, by simpa using hsc, ha, memberAt_some ha hm⟩

/-- A scalar pointer or quaint is an unsigned word. -/
lemma ptr_word {s : Ty} : (Ty.ptr 1 s).bytes = 8 ∧ (Ty.ptr 1 s).signd = false := ⟨rfl, rfl⟩
lemma quaint_word {s : Ty} : (Ty.quaint 1 s).bytes = 8 ∧ (Ty.quaint 1 s).signd = false := ⟨rfl, rfl⟩
lemma fptr_word {ps : Fields} {r : RetTy} :
    (Ty.fptr 1 ps r).bytes = 8 ∧ (Ty.fptr 1 ps r).signd = false := ⟨rfl, rfl⟩

/-- What `@`, `wait` and the reaps ask of a quaint. -/
lemma quaint_scalar (hc : t.count = 1) (hq : typeIsQuaint t.t = true) : t.bytes = 8 ∧ t.signd = false := by
  cases t with
  | quaint c s =>
    obtain rfl : c = 1 := hc
    exact quaint_word
  | int k c => cases k <;> cases hq
  | _ => cases hq

lemma atsi_checked {unit : List ScopeObj} {rhs : Expr} {label : WlabRef} {l : TExpr}
    (h : typeFromAtsi unit l rhs = .ok (.atsi l label t)) :
    (typeOfExpr l).bytes = 8 ∧ (typeOfExpr l).signd = false ∧ t = .int .u8 1 := by
  simp only [typeFromAtsi, require_ok, res_bind_ok, beq_iff_eq, TRes.ok.injEq, TExpr.atsi.injEq] at h
  obtain ⟨hc, hq, w, -, -, -, rfl⟩ := h
  exact ⟨(quaint_scalar hc hq).1, (quaint_scalar hc hq).2, rfl⟩

end Checks

/-! ### Operands -/

/-- What the names of a function stand for. -/
abbrev KnownIn (tops : List TTop) (f : TFunc) : ScopeObj → Ty → Prop :=
  Known tops f.params (stmtsLocals f.stmts)

/-- The statics while a function of an accepted unit is generated. -/
structure InUnit (tops : List TTop) (f : TFunc) (cx : Cx) : Prop where
  accepted : Accepted tops
  func : TTop.func f ∈ tops
  globals : cx.globals = (globalsOf tops).layout
  ftag : cx.ftag = funcTag f
  dataSize : cx.dataSize = (globalsOf tops).size

/-- The address of every function is known. -/
def Resolves (locs : List (Nat × Nat)) (tops : List TTop) : Prop :=
  ∀ g, TTop.func g ∈ tops → (locs.lookup (nodeAddr g.name)).isSome

/-- An immediate that can be called: the address of a function, not yet found, or the number of a
built-in. -/
def Starts (a : Opd) : Prop := a.opd = .imm → a.size = 0 ∨ a.off < scopeBfunIdCount

/-- The operand of an expression. -/
structure OperandOk (locs : List (Nat × Nat)) (e : TExpr) (n : Bool) (a : Opd) : Prop where
  size : (printOpd locs a).size = (typeOfExpr e).bytes
  signd : a.signd = (typeOfExpr e).signd
  imm : a.opd = .imm → a.indirect = false ∧ (typeOfExpr e).count = 1 ∧
    (typeIsIntegral (typeOfExpr e).t = true ∨ (typeOfExpr e).t = .vptr ∨ (typeOfExpr e).t = .fptr)
  func : (typeOfExpr e).t = .fptr → Starts a
  lvalue : n = true → exprIsLvalue e = none → a.indirect = true ∨ a.opd = .auto ∨ a.opd = .glob
  resolved : opdResolved locs a = true

section Operands

variable {locs : List (Nat × Nat)} {tops : List TTop} {f : TFunc} {cx : Cx} {e : TExpr} {n : Bool}
  {a : Opd} {p : Pt} {t : Ty}

lemma printOpd_of_ne (h : a.opd ≠ .imm ∨ a.size ≠ 0) : printOpd locs a = a := by
  unfold printOpd
  rw [if_neg]
  rintro ⟨h1, h2⟩
  rcases h with h | h
  · exact h h1
  · exact h h2

lemma resolved_of_ne (h : a.opd ≠ .imm ∨ a.size ≠ 0) : opdResolved locs a = true := by
  have : ¬(a.opd = .imm ∧ a.size = 0) := by
    rintro ⟨h1, h2⟩
    rcases h with h | h
    · exact h h1
    · exact h h2
  simp [opdResolved, this]

@[simp] lemma printOpd_signd : (printOpd locs a).signd = a.signd := by
  unfold printOpd
  split
  · split <;> rfl
  · rfl

@[simp] lemma printOpd_opd : (printOpd locs a).opd = a.opd := by
  unfold printOpd
  split
  · split <;> rfl
  · rfl

@[simp] lemma printOpd_indirect : (printOpd locs a).indirect = a.indirect := by
  unfold printOpd
  split
  · split <;> rfl
  · rfl

/-- An operand that is no immediate. -/
lemma operandOk_mem (hk : a.opd ≠ .imm) (hs : a.size = (typeOfExpr e).bytes)
    (hsg : a.signd = (typeOfExpr e).signd)
    (hlv : n = true → exprIsLvalue e = none → a.indirect = true ∨ a.opd = .auto ∨ a.opd = .glob) :
    OperandOk locs e n a where
  size := by rw [printOpd_of_ne (.inl hk), hs]
  signd := hsg
  imm := fun h => absurd h hk
  func := fun _ h => absurd h hk
  lvalue := hlv
  resolved := resolved_of_ne (.inl hk)

/-- An immediate, which is never an lvalue. -/
lemma operandOk_imm {v size : Nat} {signd : Bool} (h0 : size ≠ 0)
    (hs : size = (typeOfExpr e).bytes) (hsg : signd = (typeOfExpr e).signd)
    (ht : (typeOfExpr e).count = 1 ∧
      (typeIsIntegral (typeOfExpr e).t = true ∨ (typeOfExpr e).t = .vptr ∨ (typeOfExpr e).t = .fptr))
    (hf : (typeOfExpr e).t = .fptr → v < scopeBfunIdCount) (hlv : exprIsLvalue e ≠ none) :
    OperandOk locs e n (opdImm signd v size) where
  size := by
    rw [printOpd_of_ne (.inr h0)]
    exact hs
  signd := hsg
  imm := fun _ => ⟨rfl, ht⟩
  func := fun h _ => .inr (hf h)
  lvalue := fun _ h => absurd h hlv
  resolved := resolved_of_ne (.inr h0)

/-- An operand that stands for an expression of the same type. -/
lemma OperandOk.of_same {e' : TExpr} {n' : Bool} (h : OperandOk locs e n a)
    (hb : (typeOfExpr e').bytes = (typeOfExpr e).bytes)
    (hs : (typeOfExpr e').signd = (typeOfExpr e).signd)
    (hc : (typeOfExpr e').count = (typeOfExpr e).count) (ht : (typeOfExpr e').t = (typeOfExpr e).t)
    (hlv : exprIsLvalue e' ≠ none) : OperandOk locs e' n' a where
  size := by rw [hb]; exact h.size
  signd := by rw [hs]; exact h.signd
  imm := fun hi => by rw [hc, ht]; exact h.imm hi
  func := fun hi => h.func (ht ▸ hi)
  lvalue := fun _ h => absurd h hlv
  resolved := h.resolved

lemma size_of_ne (h : OperandOk locs e n a) (hk : a.opd ≠ .imm) : a.size = (typeOfExpr e).bytes := by
  rw [← h.size, printOpd_of_ne (.inl hk)]

/-- **The operand of a name.** -/
theorem name_operand (hu : InUnit tops f cx) (hr : Resolves locs tops) {so : ScopeObj}
    (hK : KnownIn tops f so t) :
    ∃ a, nameOpd cx so t = some a ∧ OperandOk locs (.name so t) n a := by
  obtain ⟨hty, hobj⟩ := hK
  rcases so with ⟨name, obj⟩
  cases obj with
  | dupl => cases hty
  | gvar d =>
    cases hty
    obtain ⟨off, hoff⟩ := global_found hu.accepted hobj.2 hobj.1
    refine ⟨opdGlob d.type.signd off d.type.bytes, ?_,
      operandOk_mem (by simp [opdGlob]) rfl rfl fun _ _ => .inr (.inr rfl)⟩
    rw [nameOpd, hu.globals]
    simp only [globalsOf]
    rw [hoff]
    rfl
  | avar d =>
    cases hty
    obtain ⟨off, hoff⟩ := local_found hu.accepted hu.func hobj.2 hobj.1
    refine ⟨opdAuto d.type.signd off d.type.bytes, ?_,
      operandOk_mem (by simp [opdAuto]) rfl rfl fun _ _ => .inr (.inl rfl)⟩
    rw [nameOpd, hu.ftag]
    simp only
    rw [hoff]
    rfl
  | parm pt =>
    cases hty
    obtain ⟨off, hoff⟩ := param_found hu.accepted hu.func hobj
    refine ⟨opdAuto t.signd off t.bytes, ?_,
      operandOk_mem (by simp [opdAuto]) rfl rfl fun _ _ => .inr (.inl rfl)⟩
    rw [nameOpd, hu.ftag]
    simp only
    rw [hoff]
    rfl
  | bcon id =>
    obtain _ | _ | _ | id := id
    · cases hty
      exact ⟨_, rfl, operandOk_imm (by decide) rfl rfl ⟨rfl, .inr (.inl rfl)⟩ (fun h => by cases h)
        (by simp [exprIsLvalue])⟩
    · cases hty
      exact ⟨_, rfl, operandOk_imm (by decide) rfl rfl ⟨rfl, .inl rfl⟩ (fun h => by cases h)
        (by simp [exprIsLvalue])⟩
    · cases hty
      exact ⟨_, rfl, operandOk_imm (by decide) rfl rfl ⟨rfl, .inl rfl⟩ (fun h => by cases h)
        (by simp [exprIsLvalue])⟩
    · simp [objType, scopeBuiltinConsts] at hty
  | bfun id =>
    rw [objType, Option.map_eq_some_iff] at hty
    obtain ⟨g, hg, rfl⟩ := hty
    exact ⟨_, rfl, operandOk_imm (by decide) rfl rfl ⟨rfl, .inr (.inr rfl)⟩
      (fun _ => (List.getElem?_eq_some_iff.mp hg).1) (by simp [exprIsLvalue])⟩
  | func sig =>
    cases hty
    obtain ⟨g, hg, hn, -, -⟩ := hobj
    have hl := hr g hg
    rw [hn] at hl
    obtain ⟨loc, hloc⟩ := Option.isSome_iff_exists.mp hl
    refine ⟨_, rfl, ?_⟩
    constructor
    · rw [printOpd, if_pos ⟨rfl, rfl⟩]
      simp only [opdImm, hloc]
      rfl
    · rfl
    · exact fun _ => ⟨rfl, rfl, .inr (.inr rfl)⟩
    · exact fun _ _ => .inl rfl
    · exact fun _ h => by cases h
    · rw [opdResolved]
      simp only [opdImm, hloc]
      rfl

/-- What the operand of an item has to be. -/
def ItemOk (locs : List (Nat × Nat)) (K : ScopeObj → Ty → Prop) : Item → Option Opd → Prop
  | .expr e n, some a => Checked K e → OperandOk locs e n a
  | _, _ => True

/-- The operand of an expression the checker takes for an lvalue is no immediate. -/
lemma not_imm_of_lvalue {e : TExpr} (h : OperandOk locs e true a) (hlv : exprIsLvalue e = none) :
    a.opd ≠ .imm := by
  intro hi
  rcases h.lvalue rfl hlv with hind | ha | hg
  · rw [(h.imm hi).1] at hind
    cases hind
  · rw [hi] at ha
    cases ha
  · rw [hi] at hg
    cases hg

/-- The operand of an assignment, which is that of its left side. -/
lemma operandOk_target {l e : TExpr} (h : OperandOk locs l true a) (hlv : exprIsLvalue l = none)
    (hb : (typeOfExpr e).bytes = (typeOfExpr l).bytes)
    (hs : (typeOfExpr e).signd = (typeOfExpr l).signd) (he : exprIsLvalue e ≠ none) :
    OperandOk locs e n a := by
  have hk := not_imm_of_lvalue h hlv
  exact operandOk_mem hk (by rw [hb, size_of_ne h hk]) (by rw [hs, h.signd]) fun _ hn => absurd hn he

/-- A temporary with the size and the signedness of the type. -/
lemma operandOk_temp {signd : Bool} {size : Nat} (hs : size = (typeOfExpr e).bytes)
    (hsg : signd = (typeOfExpr e).signd) (he : exprIsLvalue e ≠ none) :
    OperandOk locs e n (p.temp signd size) :=
  operandOk_mem (by simp [Pt.temp]) hs hsg fun _ hn => absurd hn he

/-- A place behind a pointer. -/
lemma operandOk_indirect {b : Opd} (hk : b.opd ≠ .imm) (ht : typeOfExpr e = t) :
    OperandOk locs e n (b.setIndirect t.signd t.bytes) := by
  subst ht
  exact operandOk_mem hk rfl rfl fun _ _ => .inl rfl

/-- The item is checked, and its declarations are among those of the function. -/
def ItemChecked (K : ScopeObj → Ty → Prop) (locals : List (List Sym × Ty)) : Item → Prop
  | .expr e _ => Checked K e
  | .args as => ∃ ps, CheckedArgs K ps as
  | .stmt s => (∃ ret, CheckedStmt K ret s) ∧ stmtLocals s ⊆ locals
  | .stmts b => (∃ ret, CheckedStmts K ret b) ∧ stmtsLocals b ⊆ locals
  | .elifs r _ => (∃ ret, CheckedElifs K ret r) ∧ elifsLocals r ⊆ locals

lemma checked_retn {K : ScopeObj → Ty → Prop} {ret : RetTy} (h : CheckedStmt K ret (.retn (some e))) :
    Checked K e := by
  cases ret with
  | none => exact h.elim
  | some rt => exact h.1

lemma usize_signd : false = (Ty.int .usize 1).signd := by decide

/-- **The operand of an expression has the size and the signedness of its type.** -/
theorem emit_item (hu : InUnit tops f cx) (hr : Resolves locs tops) {x : Item} {r : Option Opd}
    {code : List Insn} {p' : Pt} (h : Emit cx x p code r p') : ItemOk locs (KnownIn tops f) x r := by
  induction h with
  | assn hl hr ihl ihr =>
    rintro ⟨ht, hcl, -⟩
    obtain ⟨hlv, heq, rfl⟩ := assn_checked ht
    exact operandOk_target (ihl hcl) hlv (bytes_of_equals heq).symm (signd_of_equals heq).symm
      (by simp [exprIsLvalue])
  | asmu hop hl hr ihl ihr =>
    rintro ⟨ht, hcl, -⟩
    obtain ⟨hlv, -, rfl⟩ := asmu_checked hop ht
    exact operandOk_target (ihl hcl) hlv rfl rfl (by simp [exprIsLvalue])
  | plus hop hl hr hs ht ihl ihr =>
    rintro ⟨hc, hcl, -⟩
    obtain ⟨-, -, rfl⟩ := plus_checked hop hc
    exact operandOk_temp rfl (ihl hcl).signd (by simp [exprIsLvalue])
  | aspl hop hl hr hs ht ihl ihr =>
    rintro ⟨hc, hcl, -⟩
    obtain ⟨hlv, -, rfl⟩ := plus_checked hop hc
    exact operandOk_target (ihl hcl) (hlv rfl) rfl rfl (by simp [exprIsLvalue])
  | conj | equl | atsi => exact fun _ => operandOk_temp rfl rfl (by simp [exprIsLvalue])
  | @coma l r t n p p1 p2 cl cr a b hl hr ihl ihr =>
    cases b with
    | none => trivial
    | some b =>
      rintro ⟨hc, -, hcr⟩
      simp only [typeFromBexp, TRes.ok.injEq, TExpr.bexp.injEq, true_and] at hc
      subst hc
      exact (ihr hcr).of_same rfl rfl rfl rfl (by simp [exprIsLvalue])
  | @scop v c values tv n p =>
    rintro ⟨values', tv', ht, -⟩
    obtain ⟨rfl, -, -⟩ := Ty.enum.inj ht
    have hb : (Ty.enum 1 values tv).bytes ≠ 0 := bytes_pos_of_scalar ⟨rfl, .inl rfl⟩
    exact operandOk_imm hb rfl (by simp [typeOfExpr, Ty.signd, Ty.t, typeIsSigned, TypeT.code])
      ⟨rfl, .inl rfl⟩ (fun h => by cases h) (by simp [exprIsLvalue])
  | memb hl hm ha ihl =>
    rintro ⟨⟨rhs, hc⟩, hcl⟩
    obtain ⟨-, hagg, off, hm'⟩ := memb_checked hc
    rw [hm] at hm'
    cases hm'
    have hlo := ihl hcl
    refine operandOk_mem ?_ rfl rfl fun hn hlv => ?_
    · intro hi
      obtain ⟨-, -, hk⟩ := hlo.imm hi
      simp only [isAggregate, Bool.or_eq_true, beq_iff_eq] at hagg
      rcases hagg with hg | hg <;> rw [hg] at hk <;> revert hk <;> decide
    · exact hlo.lvalue hn hlv
  | membIndirect hl hm ha ihl =>
    rintro ⟨⟨rhs, hc⟩, -⟩
    obtain ⟨-, -, off, hm'⟩ := memb_checked hc
    rw [hm] at hm'
    cases hm'
    exact operandOk_indirect (by simp [Pt.word, Pt.temp]) rfl
  | arow htl hl hf hm ihl =>
    rintro ⟨⟨rhs, hc⟩, -⟩
    obtain ⟨s, hs, -, -, off, hm'⟩ := arow_checked hc
    rw [htl] at hs
    cases hs
    rw [hm] at hm'
    cases hm'
    exact operandOk_indirect (by simp [Pt.word, Pt.temp]) rfl
  | cast hl hc ihl =>
    rintro ⟨rfl, -, -, -⟩
    exact operandOk_temp rfl rfl (by simp [exprIsLvalue])
  | tildCall ht ha hl iha ihl =>
    rintro ⟨hc, -⟩
    obtain rfl := tild_checked hc
    exact operandOk_temp rfl rfl (by simp [exprIsLvalue])
  | tild hne ht h ih =>
    rintro ⟨hc, -⟩
    obtain rfl := tild_checked hc
    exact operandOk_temp rfl rfl (by simp [exprIsLvalue])
  | @uplus r t n p p1 cr a h ih =>
    cases a with
    | none => trivial
    | some a =>
      rintro ⟨hc, hcr⟩
      obtain ⟨-, rfl⟩ := uplus_checked hc
      exact (ih hcr).of_same rfl rfl rfl rfl (by simp [exprIsLvalue])
  | unary hop h ht ih => exact fun _ => operandOk_temp rfl rfl (by cases ‹UOp› <;> simp [unaryInsn, exprIsLvalue] at hop ⊢)
  | multLvalue hp h ih =>
    rintro ⟨hc, hcr⟩
    refine operandOk_indirect ?_ rfl
    intro hi
    obtain ⟨-, -, hk⟩ := (ih hcr).imm hi
    rw [hp] at hk
    revert hk
    decide
  | multRvalue hp h ht ih =>
    exact fun _ => operandOk_mem (by simp [Pt.temp]) rfl rfl fun hn _ => absurd hn (by simp)
  | multValue hp h ht ih =>
    rintro ⟨hc, -⟩
    refine operandOk_mem (by simp [Pt.temp]) rfl rfl fun hn hlv => ?_
    obtain ⟨-, hq | ⟨hq, -⟩⟩ := mult_checked hc
    · rw [hq] at hp
      exact absurd rfl hp
    · rw [exprIsLvalue, hq] at hlv
      cases hlv
  | amps h ht ih =>
    rintro ⟨hc, -⟩
    obtain ⟨-, rfl⟩ := amps_checked hc
    exact operandOk_temp rfl rfl (by simp [exprIsLvalue])
  | incr hop h hs ih =>
    rintro ⟨hc, hcr⟩
    obtain ⟨hlv, -, rfl⟩ := incr_checked hop hc
    exact operandOk_target (ih hcr) hlv rfl rfl (by cases ‹UOp› <;> simp [incrOp, exprIsLvalue] at hop ⊢)
  | incrBy hop h hs ih =>
    rintro ⟨hc, hcr⟩
    obtain ⟨hlv, -, rfl⟩ := incr_checked hop hc
    exact operandOk_target (ih hcr) hlv rfl rfl (by cases ‹UOp› <;> simp [incrOp, exprIsLvalue] at hop ⊢)
  | szof =>
    rintro ⟨rfl, -⟩
    exact operandOk_imm (by decide) rfl usize_signd ⟨rfl, .inl rfl⟩ (fun h => by cases h) (by simp [exprIsLvalue])
  | callv => exact fun _ => operandOk_temp rfl rfl (by simp [exprIsLvalue])
  | xexp | xexpBy => exact fun _ => operandOk_temp rfl rfl (by simp [exprIsLvalue])
  | aexp hb ho hi ha ihb iho =>
    exact fun _ => operandOk_indirect (by simp [Pt.word, Pt.temp]) rfl
  | texp => exact fun _ => operandOk_temp rfl rfl (by simp [exprIsLvalue])
  | name hn =>
    intro hK
    obtain ⟨a, ha, hok⟩ := name_operand hu hr hK
    rw [hn] at ha
    cases ha
    exact hok
  | @nmbr v t n p =>
    rintro ⟨-, hv⟩
    obtain ⟨k, ht⟩ : ∃ k : IntT, t = .int k 1 := by
      simp only [typeFromNmbr, TExpr.nmbr.injEq, true_and] at hv
      exact ⟨_, hv⟩
    subst ht
    have hs : Scalar (.int k 1) := ⟨rfl, .inl (by cases k <;> rfl)⟩
    rw [← (width_of_scalar hs).1]
    exact operandOk_imm (bytes_pos_of_scalar hs) rfl rfl ⟨rfl, hs.2.imp id (by cases k <;> simp [Ty.t, IntT.t, typeIsPtr, typeIsQuaint])⟩
      (fun h => by cases k <;> cases h) (by simp [exprIsLvalue])
  | strl =>
    rintro rfl
    exact operandOk_temp rfl rfl (by simp [exprIsLvalue])
  | _ => trivial

end Operands

/-! ### Listings -/

section Listings

variable {tops : List TTop} {fns : List Fn} {o : Obj} {fn : Fn}

lemma resolves_of_placed {d : Nat} {g : Layout} {p p' : Pt} (h : Placed d g tops p fns p') :
    Resolves (locsOf fns) tops := by
  intro f hf
  obtain ⟨fn, hfn, rfl⟩ := placed_of_func h hf
  rw [List.lookup_isSome_iff]
  exact ⟨(nodeAddr fn.func.name, fn.entry), List.mem_map.mpr ⟨fn, hfn, rfl⟩, by simp⟩

lemma resolves_of_listed (h : Listed tops fns o) : Resolves (locsOf fns) tops := by
  obtain ⟨p, hp, -⟩ := h.placed
  exact resolves_of_placed hp

lemma inUnit_of_listed (hA : Accepted tops) (h : Listed tops fns o) (hfn : fn ∈ fns) :
    InUnit tops fn.func (fn.cx (globalsOf tops).size (globalsOf tops).layout) := by
  obtain ⟨p, hp, -⟩ := h.placed
  exact ⟨hA, placed_func hp hfn, rfl, rfl, rfl⟩

lemma emitted_of_listed (h : Listed tops fns o) (hfn : fn ∈ fns) :
    fn.Emitted (globalsOf tops).size (globalsOf tops).layout := by
  obtain ⟨p, hp, -⟩ := h.placed
  exact (placed_at hp hfn).1

end Listings

end Quaint.Operand
