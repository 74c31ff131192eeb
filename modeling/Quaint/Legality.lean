import Quaint.Operand
import Quaint.Program
import Quaint.Step
import Quaint.Partial

/-!
The static tests of the machine, and which programs pass them.

The machine tests the operands of an instruction before it looks at the state. The checker
and the generator choose them so that every test holds, except in two places: the checker
accepts a `wait` on an array of quaints, and an index that is an array of words.
-/

namespace Quaint.Legality

open Types Ast Scope TypeCheck Code Codegen Exec Step Program Partial Typing Layout Emit Listing Operand

/-! ### The tests -/

/-- The tests of `isWord`, with what they print. -/
def wordTests (k : OpdKind) (name isKind : String) (o : Opd) : List (Bool × String) :=
  [(o.opd == k, name ++ isKind ++ " == 1"), (o.signd == false, name ++ "_signd == 0"),
   (o.indirect == false, name ++ "_indirect == 0"), (o.size == 8, name ++ "_size == 8")]

/-- The tests of its operands that an instruction makes, in order. -/
def tests : Insn → List (Bool × String)
  | .mov d s => [(d.size = s.size, "dst_size == src_size")]
  | .arith _ d s1 s2 =>
    [(d.signd == s1.signd && s1.signd == s2.signd,
       "insn->bin.dst.signd == insn->bin.src1.signd && insn->bin.src1.signd == insn->bin.src2.signd"),
     (isWidth d.size, "powerof2(dst_size) && dst_size <= 8"),
     (isWidth s1.size, "powerof2(src1_size) && src1_size <= 8"),
     (isWidth s2.size, "powerof2(src2_size) && src2_size <= 8"),
     (d.size = s1.size ∧ s1.size = s2.size, "dst_size == src1_size && src1_size == src2_size")]
  | .equ _ d s1 s2 =>
    [(d.signd == false, "dst_signd == 0"), (d.size = 1, "dst_size == 1"),
     (s1.size = s2.size, "src1_size == src2_size")]
  | .cmp _ d s1 s2 =>
    [(d.signd == false, "dst_signd == 0"), (d.size = 1, "dst_size == 1"),
     (s1.signd == s2.signd, "src1_signd == src2_signd"),
     (isWidth s1.size, "powerof2(src1_size) && src1_size <= 8"),
     (isWidth s2.size, "powerof2(src2_size) && src2_size <= 8"),
     (s1.size = s2.size, "src1_size == src2_size")]
  | .not d s =>
    [(isWidth d.size, "powerof2(dst_size) && dst_size <= 8"),
     (s.signd == d.signd, "src_signd == dst_signd"),
     (isWidth s.size, "powerof2(src_size) && src_size <= 8"),
     (d.size = s.size, "dst_size == src_size")]
  | .neg d s =>
    [(d.signd == true, "dst_signd == 1"), (isWidth d.size, "powerof2(dst_size) && dst_size <= 8"),
     (isWidth s.size, "powerof2(src_size) && src_size <= 8"),
     (d.size = s.size, "dst_size == src_size")]
  | .bneg d s =>
    [(d.signd == false, "dst_signd == 0"), (isWidth d.size, "powerof2(dst_size) && dst_size <= 8"),
     (s.signd == false, "src_signd == 0"), (isWidth s.size, "powerof2(src_size) && src_size <= 8"),
     (d.size = s.size, "dst_size == src_size")]
  | .oz d s =>
    [(d.signd == false, "dst_signd == 0"), (d.size = 1, "dst_size == 1"),
     (isWidth s.size, "powerof2(src_size) && src_size <= 8")]
  | .inc _ d => [(isWidth d.size, "powerof2(dst_size) && dst_size <= 8")]
  | .incp _ d s =>
    [(isWidth d.size, "powerof2(dst_size) && dst_size <= 8"),
     (s.signd == d.signd, "src_signd == dst_signd"),
     (isWidth s.size, "powerof2(src_size) && src_size <= 8"),
     (d.size = s.size, "dst_size == src_size")]
  | .jz _ c _ => [(c.size > 0, "cond_size > 0")]
  | .pushr v ssp => wordTests .imm "retip" "_is_imm" v ++ wordTests .temp "ssp" "_is_temp" ssp
  | .push v => [(v.size > 0, "val_size > 0")]
  | .call loc bp | .callv _ loc bp =>
    [(loc.signd == false, "loc_signd == 0"), (decide (loc.size = 8), "loc_size == 8")] ++
      wordTests .temp "bp" "_is_temp" bp
  | .incsp a t =>
    wordTests .imm "addend" "_is_imm" a ++ wordTests .imm "tsize" "_is_imm" t ++
      [(decide (a.off % 8 = 0), "addend % 8 == 0")]
  | .ret size | .retv _ size => wordTests .imm "size" "_is_imm" size
  | .ref d _ =>
    [(d.signd == false, "dst_signd == 0"), (d.indirect == false, "dst_indirect == 0"),
     (d.size = 8, "dst_size == 8")]
  | .drf d s =>
    [(d.indirect == false, "dst_indirect == 0"), (d.size > 0, "dst_size > 0"),
     (s.size = 8, "src_size == 8")]
  | .rte s => [(s.signd == false, "qnt_signd == 0"), (s.size = 8, "qnt_size == 8")]
  | .rtev d s =>
    [(d.indirect == false, "dst_indirect == 0"), (d.size > 0, "dst_size > 0"),
     (s.signd == false, "qnt_signd == 0"), (s.size = 8, "qnt_size == 8")]
  | .qat d q _ _ =>
    [(d.signd == false, "dst_signd == 0"), (d.indirect == false, "dst_indirect == 0"),
     (d.size = 1, "dst_size == 1"), (q.signd == false, "qnt_signd == 0"),
     (decide (q.size = 8), "qnt_size == 8")]
  | .wait q t _ _ _ _ hasTimeout =>
    [(q.signd == false, "qnt_signd == 0"), (decide (q.size = 8), "qnt_size == 8")] ++
      if hasTimeout then
        [(t.signd == false, "tm_signd == 0"), (isWidth t.size, "powerof2(tm_size) && tm_size <= 8")]
      else []
  | .getsp d => wordTests .temp "dst" "_is_temp" d
  | .qnt d loc sp =>
    [(d.signd == false, "dst_signd == 0"), (d.indirect == false, "dst_indirect == 0"),
     (d.size = 8, "dst_size == 8"), (loc.signd == false, "loc_signd == 0"),
     (decide (loc.size = 8), "loc_size == 8")] ++ wordTests .temp "ssp" "_is_temp" sp
  | .qntv d v =>
    [(d.signd == false, "dst_signd == 0"), (d.indirect == false, "dst_indirect == 0"),
     (d.size = 8, "dst_size == 8"), (v.size > 0, "val_size > 0")]
  | .nop | .cast _ _ | .jmp _ | .wlab _ _ | .noint | .int | .bfun => []

/-- Every test of its operands holds. -/
def legal (i : Insn) : Bool := (tests i).all Prod.fst

/-! ### The tests are those of the machine -/

/-- The tests that look at the state of the machine. -/
def stateTests : List String :=
  ["vm->sp % 8 == 0", "vm->bp % 8 == 0", "vm->sp + 16 <= STACK_SIZE", "vm->sp <= STACK_SIZE",
   "vm->sp + val_size <= STACK_SIZE", "vm->sp >= size", "vm->sp >= 16", "vm->temps != NULL",
   "vm->ip < o->insn_count", "vm->bp <= STACK_SIZE", "null function call",
   "retval_size == cval_size", "insn->op == CODEGEN_OP_CALLV", returnOpTest]

/-- The stop is not the failure of a test of operands. -/
def OfState : Stop → Prop
  | .illegal c =>
    c ∈ stateTests ∨ (∃ n : Nat, c = "vm->sp >= 16 + " ++ toString n) ∨
      ∃ n : Nat, c = "vm->bp + " ++ toString n ++ " <= STACK_SIZE"
  | _ => True

section Stops

variable {α : Type} {s : State} {inp : Inp} {o : Obj}

lemma legalIf_stops {c : Bool} {t : String} (h : c = true ∨ OfState (.illegal t)) :
    Stops (legalIf c t) OfState := by
  cases c with
  | true => exact stops_ok
  | false =>
    refine stops_error (h.resolve_left ?_)
    decide

lemma stateTest {c : Bool} {t : String} (h : t ∈ stateTests) : Stops (legalIf c t) OfState :=
  legalIf_stops (.inr (.inl h))

lemma ubUnless_stops {c : Bool} : Stops (ubUnless c) OfState := by
  cases c
  · exact stops_error trivial
  · exact stops_ok

lemma orUb_stops {x : Option α} : Stops (orUb x) OfState := by
  cases x
  · exact stops_error trivial
  · exact stops_ok

lemma orNomem_stops {x : Option α} : Stops (orNomem x) OfState := by
  cases x
  · exact stops_error trivial
  · exact stops_ok

lemma loadNat_stops {l : Loc} {n : Nat} : Stops (s.loadNat l n) OfState := orUb_stops

lemma opdBase_stops {a : Opd} : Stops (s.opdBase a) OfState := by
  unfold State.opdBase
  split <;> try exact stops_ok
  split
  · exact stops_error trivial
  · exact stops_ok

lemma opdVal_stops {a : Opd} : Stops (s.opdVal a) OfState := by
  refine stops_bind opdBase_stops fun _ => stops_ite ?_ stops_pure
  exact stops_bind loadNat_stops fun _ => stops_pure

lemma loadOpd_stops {a : Opd} : Stops (loadOpd s a) OfState :=
  stops_bind opdVal_stops fun _ => orUb_stops

lemma loadOpdNat_stops {a : Opd} : Stops (loadOpdNat s a) OfState :=
  stops_bind loadOpd_stops fun _ => stops_pure

lemma storeOpd_stops {a : Opd} {bs : List UInt8} : Stops (storeOpd s a bs) OfState :=
  stops_bind opdVal_stops fun _ => orUb_stops

lemma loadWord_stops {a : Opd} : Stops (loadWord s a) OfState :=
  stops_bind opdVal_stops fun _ => loadNat_stops

lemma storeWord_stops {a : Opd} {v : Nat} : Stops (storeWord s a v) OfState :=
  stops_bind opdVal_stops fun _ => orUb_stops

lemma memcpy_stops {d a : Loc} {n : Nat} : Stops (s.memcpy d a n) OfState :=
  stops_bind orUb_stops fun _ => orUb_stops

lemma legalWord_stops {k : OpdKind} {name isKind : String} {a : Opd}
    (h : (wordTests k name isKind a).all Prod.fst = true) :
    Stops (legalWord k name isKind a) OfState := by
  simp only [wordTests, List.all_cons, List.all_nil, Bool.and_true, Bool.and_eq_true] at h
  obtain ⟨h1, h2, h3, h4⟩ := h
  exact stops_bind (legalIf_stops (.inl h1)) fun _ => stops_bind (legalIf_stops (.inl h2)) fun _ =>
    stops_bind (legalIf_stops (.inl h3)) fun _ => legalIf_stops (.inl h4)

lemma savedWords_stops : Stops (savedWords s) OfState :=
  stops_bind loadNat_stops fun _ => stops_bind loadNat_stops fun _ => stops_pure

attribute [local simp] tests

variable {i : Insn} {d a b : Opd}

lemma test_stops {c : Bool} {t : String} (h : legal i = true) (hm : (c, t) ∈ tests i) :
    Stops (legalIf c t) OfState :=
  legalIf_stops (.inl (List.all_eq_true.mp h _ hm))

lemma mov_stops (h : legal (.mov d a) = true) : Stops (insnMov s d a) OfState :=
  stops_bind (test_stops h (by simp)) fun _ => stops_bind opdVal_stops fun _ =>
    stops_bind opdVal_stops fun _ => memcpy_stops

lemma cast_stops : Stops (insnCast s d a) OfState :=
  stops_bind opdVal_stops fun _ => stops_bind opdVal_stops fun _ =>
    stops_bind orUb_stops fun _ => memcpy_stops

lemma arith_stops {op : ArithOp} (h : legal (.arith op d a b) = true) :
    Stops (insnBinArith s op d a b) OfState :=
  stops_bind (test_stops h (by simp)) fun _ => stops_bind (test_stops h (by simp)) fun _ =>
    stops_bind (test_stops h (by simp)) fun _ => stops_bind (test_stops h (by simp)) fun _ =>
    stops_bind (test_stops h (by simp)) fun _ => stops_bind loadOpdNat_stops fun _ =>
    stops_bind loadOpdNat_stops fun _ => stops_bind orUb_stops fun _ => storeOpd_stops

lemma equ_stops {neq : Bool} (h : legal (.equ neq d a b) = true) :
    Stops (insnEquNeq s neq d a b) OfState :=
  stops_bind (test_stops h (by simp)) fun _ => stops_bind (test_stops h (by simp)) fun _ =>
    stops_bind (test_stops h (by simp)) fun _ => stops_bind loadOpd_stops fun _ =>
    stops_bind loadOpd_stops fun _ => storeOpd_stops

lemma cmp_stops {op : CmpOp} (h : legal (.cmp op d a b) = true) :
    Stops (insnBinLogic s op d a b) OfState :=
  stops_bind (test_stops h (by simp)) fun _ => stops_bind (test_stops h (by simp)) fun _ =>
    stops_bind (test_stops h (by simp)) fun _ => stops_bind (test_stops h (by simp)) fun _ =>
    stops_bind (test_stops h (by simp)) fun _ => stops_bind (test_stops h (by simp)) fun _ =>
    stops_bind loadOpdNat_stops fun _ => stops_bind loadOpdNat_stops fun _ => storeOpd_stops

lemma not_stops (h : legal (.not d a) = true) : Stops (insnNot s d a) OfState :=
  stops_bind (test_stops h (by simp)) fun _ => stops_bind (test_stops h (by simp)) fun _ =>
    stops_bind (test_stops h (by simp)) fun _ => stops_bind (test_stops h (by simp)) fun _ =>
    stops_bind loadOpdNat_stops fun _ => storeOpd_stops

lemma neg_stops (h : legal (.neg d a) = true) : Stops (insnNeg s d a) OfState :=
  stops_bind (test_stops h (by simp)) fun _ => stops_bind (test_stops h (by simp)) fun _ =>
    stops_bind (test_stops h (by simp)) fun _ => stops_bind (test_stops h (by simp)) fun _ =>
    stops_bind loadOpdNat_stops fun _ => storeOpd_stops

lemma bneg_stops (h : legal (.bneg d a) = true) : Stops (insnBneg s d a) OfState :=
  stops_bind (test_stops h (by simp)) fun _ => stops_bind (test_stops h (by simp)) fun _ =>
    stops_bind (test_stops h (by simp)) fun _ => stops_bind (test_stops h (by simp)) fun _ =>
    stops_bind (test_stops h (by simp)) fun _ => stops_bind loadOpdNat_stops fun _ => storeOpd_stops

lemma oz_stops (h : legal (.oz d a) = true) : Stops (insnOz s d a) OfState :=
  stops_bind (test_stops h (by simp)) fun _ => stops_bind (test_stops h (by simp)) fun _ =>
    stops_bind (test_stops h (by simp)) fun _ => stops_bind loadOpdNat_stops fun _ => storeOpd_stops

lemma inc_stops {dec : Bool} (h : legal (.inc dec d) = true) : Stops (insnIncDec s dec d) OfState :=
  stops_bind (test_stops h (by simp)) fun _ => stops_bind loadOpdNat_stops fun _ => storeOpd_stops

lemma incp_stops {dec : Bool} (h : legal (.incp dec d a) = true) :
    Stops (insnIncpDecp s dec d a) OfState :=
  stops_bind (test_stops h (by simp)) fun _ => stops_bind (test_stops h (by simp)) fun _ =>
    stops_bind (test_stops h (by simp)) fun _ => stops_bind (test_stops h (by simp)) fun _ =>
    stops_bind loadOpdNat_stops fun _ => stops_bind storeOpd_stops fun _ => storeOpd_stops

lemma jz_stops {jnz : Bool} {loc : Nat} (h : legal (.jz jnz a loc) = true) :
    Stops (insnCjmp s jnz a loc) OfState :=
  stops_bind (test_stops h (by simp)) fun _ => stops_bind loadOpdNat_stops fun _ =>
    stops_ite stops_pure stops_pure

lemma ref_stops (h : legal (.ref d a) = true) : Stops (insnRef s d a) OfState :=
  stops_bind (test_stops h (by simp)) fun _ => stops_bind (test_stops h (by simp)) fun _ =>
    stops_bind (test_stops h (by simp)) fun _ => stops_bind opdVal_stops fun _ =>
    stops_bind orUb_stops fun _ => storeWord_stops

lemma drf_stops (h : legal (.drf d a) = true) : Stops (insnDrf s d a) OfState :=
  stops_bind (test_stops h (by simp)) fun _ => stops_bind (test_stops h (by simp)) fun _ =>
    stops_bind (test_stops h (by simp)) fun _ => stops_bind opdVal_stops fun _ =>
    stops_bind loadWord_stops fun _ => memcpy_stops

lemma pushr_stops (h : legal (.pushr a b) = true) : Stops (insnPushr s a b) OfState := by
  rw [legal, tests, List.all_append, Bool.and_eq_true] at h
  exact stops_bind (legalWord_stops h.1) fun _ => stops_bind (legalWord_stops h.2) fun _ =>
    stops_bind (stateTest (by decide)) fun _ => stops_bind (stateTest (by decide)) fun _ =>
    stops_bind orUb_stops fun _ => stops_bind orUb_stops fun _ => storeWord_stops

lemma push_stops (h : legal (.push a) = true) : Stops (insnPush s a) OfState :=
  stops_bind (test_stops h (by simp)) fun _ => stops_bind (stateTest (by decide)) fun _ =>
    stops_bind (stateTest (by decide)) fun _ => stops_bind opdVal_stops fun _ =>
    stops_bind memcpy_stops fun _ => stops_bind (stateTest (by decide)) fun _ => stops_pure

lemma call_stops (h : legal (.call a b) = true) : Stops (insnCall s a b) OfState := by
  have hw : (wordTests .temp "bp" "_is_temp" b).all Prod.fst = true := by
    rw [legal, tests, List.all_append, Bool.and_eq_true] at h
    exact h.2
  exact stops_bind (test_stops h (by simp)) fun _ => stops_bind (test_stops h (by simp)) fun _ =>
    stops_bind (legalWord_stops hw) fun _ => stops_bind loadWord_stops fun _ =>
    stops_bind loadWord_stops fun _ => stops_pure

lemma incsp_stops (h : legal (.incsp a b) = true) : Stops (insnIncsp inp s a b) OfState := by
  have hmod : Stops (legalIf (decide (a.off % 8 = 0)) "addend % 8 == 0") OfState :=
    test_stops h (by simp)
  rw [legal, tests, List.all_append, List.all_append, Bool.and_eq_true, Bool.and_eq_true] at h
  refine stops_bind (legalWord_stops h.1.1) fun _ => stops_bind (legalWord_stops h.1.2) fun _ =>
    stops_bind hmod fun _ => stops_bind (stateTest (by decide)) fun _ =>
    stops_bind (stateTest (by decide)) fun _ => stops_bind orNomem_stops fun _ =>
    stops_bind ubUnless_stops fun _ => stops_pure

/-! ### Returns -/

lemma returnToParent_stops {v : List UInt8} : Stops (returnToParent o s v) OfState := by
  refine stops_bind ubUnless_stops fun _ => stops_bind orUb_stops fun j => ?_
  split
  · exact stops_bind (stateTest (by decide)) fun _ => stops_bind (stateTest (by decide)) fun _ =>
      stops_bind storeOpd_stops fun _ => stops_bind storeWord_stops fun _ => stops_pure
  · exact stops_bind (stateTest (by decide)) fun _ => stops_bind storeWord_stops fun _ => stops_pure
  · exact stops_bind ubUnless_stops fun _ => stops_pure
  · exact stops_error (.inl (by decide))

lemma returnFromMain_stops {g : Bool} {v : List UInt8} : Stops (returnFromMain s g v) OfState :=
  stops_bind savedWords_stops fun _ => stops_ite (stops_error trivial) stops_pure

lemma returnToCaller_stops {v : List UInt8} : Stops (returnToCaller o s v) OfState := by
  refine stops_bind ubUnless_stops fun _ => stops_bind savedWords_stops fun _ =>
    stops_bind (stateTest (by decide)) fun _ => stops_bind (stateTest (by decide)) fun _ =>
    stops_ite stops_pure (stops_bind orUb_stops fun j => ?_)
  split
  · exact stops_bind (stateTest (by decide)) fun _ => stops_bind storeOpd_stops fun _ => stops_pure
  · exact stops_error (.inl (by decide))

lemma handleReturn_stops {g : Bool} {v : List UInt8} : Stops (handleReturn o s g v) OfState :=
  stops_ite returnToParent_stops (stops_ite returnFromMain_stops returnToCaller_stops)

lemma ret_stops {val : Option Opd} (h : (wordTests .imm "size" "_is_imm" a).all Prod.fst = true) :
    Stops (insnRet o s val a) OfState := by
  refine stops_bind ?_ fun _ => ?_
  · exact stops_bind (stateTest (by decide)) fun _ => stops_bind (stateTest (by decide)) fun _ =>
      stops_bind (legalWord_stops h) fun _ => stops_bind (stateTest (by decide)) fun _ =>
      stops_bind (stateTest (by decide)) fun _ => stops_pure
  · cases val with
    | none => exact handleReturn_stops
    | some v => exact stops_bind loadOpd_stops fun _ => handleReturn_stops

/-! ### Quaints -/

lemma reap_stops {dst : Option Opd} (h : Stops (reapLegal.{0} dst a) OfState) :
    Stops (insnRte s dst a) OfState := by
  refine stops_bind h fun _ => stops_bind loadWord_stops fun q => stops_ite ?_ ?_
  · refine stops_bind ?_ fun _ => stops_pure
    cases dst with
    | none => exact stops_pure
    | some d => exact storeOpd_stops
  · refine stops_bind ubUnless_stops fun _ => stops_ite ?_ stops_pure
    refine stops_bind ?_ fun _ => stops_bind storeWord_stops fun _ => stops_pure
    cases dst with
    | none => exact stops_pure
    | some d => exact stops_bind opdVal_stops fun _ => memcpy_stops

lemma rte_stops (h : legal (.rte a) = true) : Stops (insnRte s none a) OfState :=
  reap_stops (stops_bind (test_stops h (by simp)) fun _ => test_stops h (by simp))

lemma rtev_stops (h : legal (.rtev d a) = true) : Stops (insnRte s (some d) a) OfState :=
  reap_stops (stops_bind (test_stops h (by simp)) fun _ =>
    stops_bind (test_stops h (by simp)) fun _ => stops_bind (test_stops h (by simp)) fun _ =>
    test_stops h (by simp))

lemma qat_stops {fn id : Nat} (h : legal (.qat d a fn id) = true) :
    Stops (insnQat s d a fn id) OfState :=
  stops_bind (test_stops h (by simp)) fun _ => stops_bind (test_stops h (by simp)) fun _ =>
    stops_bind (test_stops h (by simp)) fun _ => stops_bind (test_stops h (by simp)) fun _ =>
    stops_bind (test_stops h (by simp)) fun _ => stops_bind loadWord_stops fun _ =>
    stops_ite storeOpd_stops (stops_bind ubUnless_stops fun _ => storeOpd_stops)

lemma startWaiting_stops {q fn id : Nat} {nb un : Bool} {t : Option Nat} :
    Stops (startWaiting inp s q fn id nb un t) OfState := by
  cases t with
  | none => exact stops_ite stops_pure stops_pure
  | some t => exact stops_bind orNomem_stops fun _ => stops_pure

lemma wait_stops {fn id : Nat} {nb un ht : Bool} (h : legal (.wait a b fn id nb un ht) = true) :
    Stops (insnWait inp s a b fn id nb un ht) OfState := by
  refine stops_bind (test_stops h (by simp)) fun _ => stops_bind (test_stops h (by simp)) fun _ =>
    stops_bind loadWord_stops fun _ => stops_ite stops_pure (stops_bind ubUnless_stops fun _ =>
    stops_ite stops_pure (stops_bind ?_ fun _ => stops_ite stops_pure startWaiting_stops))
  cases ht with
  | false => exact stops_pure
  | true =>
    exact stops_bind (test_stops h (by simp)) fun _ => stops_bind (test_stops h (by simp)) fun _ =>
      stops_bind loadOpdNat_stops fun _ => stops_pure

lemma getsp_stops (h : legal (.getsp d) = true) : Stops (insnGetsp s d) OfState :=
  stops_bind (legalWord_stops h) fun _ => storeWord_stops

lemma qnt_stops (h : legal (.qnt d a b) = true) : Stops (insnQnt inp s d a b) OfState := by
  have hw : (wordTests .temp "ssp" "_is_temp" b).all Prod.fst = true := by
    rw [legal, tests, List.all_append, Bool.and_eq_true] at h
    exact h.2
  exact stops_bind (test_stops h (by simp)) fun _ => stops_bind (test_stops h (by simp)) fun _ =>
    stops_bind (test_stops h (by simp)) fun _ => stops_bind (test_stops h (by simp)) fun _ =>
    stops_bind (test_stops h (by simp)) fun _ => stops_bind (legalWord_stops hw) fun _ =>
    stops_bind loadWord_stops fun _ => stops_bind loadWord_stops fun _ => stops_bind orNomem_stops fun _ =>
    stops_bind ubUnless_stops fun _ => stops_bind orUb_stops fun _ => stops_bind ubUnless_stops fun _ =>
    stops_bind storeWord_stops fun _ => stops_pure

lemma qntv_stops (h : legal (.qntv d a) = true) : Stops (insnQntv inp s d a) OfState :=
  stops_bind (test_stops h (by simp)) fun _ => stops_bind (test_stops h (by simp)) fun _ =>
    stops_bind (test_stops h (by simp)) fun _ => stops_bind (test_stops h (by simp)) fun _ =>
    stops_bind loadOpd_stops fun _ => stops_bind orNomem_stops fun _ => stops_bind ubUnless_stops fun _ =>
    storeWord_stops

/-! ### Built-in functions -/

lemma paramsLegal_stops {pops reads : Nat} : Stops (paramsLegal s pops reads) OfState :=
  stops_bind (legalIf_stops (.inr (.inr (.inl ⟨pops, rfl⟩)))) fun _ =>
    legalIf_stops (.inr (.inr (.inr ⟨reads, rfl⟩)))

lemma printNum_stops {g : Bool} {size : Nat} : Stops (printNum s g size) OfState :=
  stops_bind paramsLegal_stops fun _ => stops_bind loadNat_stops fun _ => stops_pure

lemma bfunBody_stops : Stops (bfunBody inp s) OfState := by
  unfold bfunBody
  split
  · exact stops_error (.inl (by decide))
  · exact stops_bind orNomem_stops fun _ => stops_pure
  · exact stops_bind paramsLegal_stops fun _ => stops_bind loadNat_stops fun _ => stops_pure
  · exact stops_bind paramsLegal_stops fun _ => stops_bind loadNat_stops fun _ => stops_pure
  · exact stops_bind paramsLegal_stops fun _ => stops_bind loadNat_stops fun _ =>
      stops_bind loadNat_stops fun _ => stops_bind orUb_stops fun _ => stops_pure
  · exact stops_bind paramsLegal_stops fun _ => stops_bind loadNat_stops fun _ =>
      stops_bind orUb_stops fun _ => stops_pure
  · exact stops_bind paramsLegal_stops fun _ => stops_bind loadNat_stops fun _ =>
      stops_bind orUb_stops fun _ => stops_pure
  iterate 8 exact stops_bind printNum_stops fun _ => stops_pure
  · exact stops_pure
  · exact stops_bind paramsLegal_stops fun _ => stops_bind loadNat_stops fun _ => stops_error trivial
  · exact stops_pure

lemma bfun_stops : Stops (insnBfun inp o s) OfState :=
  stops_bind (stateTest (by decide)) fun _ => stops_bind (stateTest (by decide)) fun _ =>
    stops_bind (stateTest (by decide)) fun _ => stops_bind bfunBody_stops fun _ =>
    stops_bind orNomem_stops fun _ => handleReturn_stops

/-- **The tests are all the machine makes of operands.** A legal instruction is stopped by no
other test than one of the state. -/
theorem execInsn_stops (h : legal i = true) : Stops (execInsn inp o s i) OfState := by
  cases i with
  | nop | jmp | wlab | noint | int => exact stops_pure
  | mov => exact stops_map (mov_stops h)
  | cast => exact stops_map cast_stops
  | arith => exact stops_map (arith_stops h)
  | equ => exact stops_map (equ_stops h)
  | cmp => exact stops_map (cmp_stops h)
  | not => exact stops_map (not_stops h)
  | neg => exact stops_map (neg_stops h)
  | bneg => exact stops_map (bneg_stops h)
  | oz => exact stops_map (oz_stops h)
  | inc => exact stops_map (inc_stops h)
  | incp => exact stops_map (incp_stops h)
  | jz => exact jz_stops h
  | pushr => exact stops_map (pushr_stops h)
  | push => exact stops_map (push_stops h)
  | call | callv => exact call_stops h
  | incsp => exact stops_map (incsp_stops h)
  | ret size => exact (ret_stops h : Stops (insnRet o s none size) OfState)
  | retv v size => exact (ret_stops h : Stops (insnRet o s (some v) size) OfState)
  | ref => exact stops_map (ref_stops h)
  | drf => exact stops_map (drf_stops h)
  | rte => exact rte_stops h
  | rtev => exact rtev_stops h
  | qat => exact stops_map (qat_stops h)
  | wait => exact wait_stops h
  | getsp => exact stops_map (getsp_stops h)
  | qnt => exact stops_map (qnt_stops h)
  | qntv => exact stops_map (qntv_stops h)
  | bfun => exact bfun_stops

end Stops

/-! ### Rules about values -/

/-- Tests of the expressions of a unit: of each one, of the arguments of calls, of the conditions
of statements, and of the quaints waited for. -/
structure Rule where
  node : TExpr → Bool
  arg : TExpr → Bool
  cond : TExpr → Bool
  quaint : TExpr → Bool

namespace Rule

variable (R : Rule)

mutual
def expr : TExpr → Bool
  | .bexp op l r t => R.node (.bexp op l r t) && expr l && expr r
  | .scop v t => R.node (.scop v t)
  | .atsi l w t => R.node (.atsi l w t) && expr l
  | .memb l i t => R.node (.memb l i t) && expr l
  | .arow l i t => R.node (.arow l i t) && expr l
  | .cast l c t => R.node (.cast l c t) && expr l
  | .uexp op r t => R.node (.uexp op r t) && expr r
  | .szof al c t => R.node (.szof al c t)
  | .fexp l as t => R.node (.fexp l as t) && expr l && args as
  | .xexp op l t => R.node (.xexp op l t) && expr l
  | .aexp b o t => R.node (.aexp b o t) && expr b && expr o
  | .texp c tv fv t => R.node (.texp c tv fv t) && expr c && expr tv && expr fv
  | .name so t => R.node (.name so t)
  | .nmbr v t => R.node (.nmbr v t)
  | .strl s t => R.node (.strl s t)
def args : TArgs → Bool
  | .nil => true
  | .cons a rest => R.arg a && expr a && args rest
end

def opt : Option TExpr → Bool
  | none => true
  | some e => R.expr e

mutual
def stmt : TStmt → Bool
  | .decl _ _ init => R.opt init
  | .cond e b rest => R.cond e && R.expr e && stmts b && elifs rest
  | .blok b | .noin b => stmts b
  | .whil e b => R.cond e && R.expr e && stmts b
  | .dowh b e => stmts b && R.cond e && R.expr e
  | .retn e => R.opt e
  | .wait q f _ _ _ => R.quaint q && R.expr q && R.opt f
  | .wlab _ _ => true
  | .expr e => R.expr e
def stmts : TStmts → Bool
  | .nil => true
  | .cons s rest => stmt s && stmts rest
def elifs : TElifs → Bool
  | .none => true
  | .els b => stmts b
  | .elif e b rest => R.cond e && R.expr e && stmts b && elifs rest
end

def unit (tops : List TTop) : Bool :=
  tops.all fun t => match t with
    | .func f => R.stmts f.stmts
    | _ => true

def item : Item → Bool
  | .expr e _ => R.expr e
  | .args as => R.args as
  | .stmt s => R.stmt s
  | .stmts b => R.stmts b
  | .elifs r _ => R.elifs r

end Rule

def sized (e : TExpr) : Bool := (typeOfExpr e).bytes != 0

/-- A value that is made a quaint or tested has a size. -/
def nodeSized : TExpr → Bool
  | .uexp .tild (.fexp _ _ _) _ => true
  | .uexp .tild r _ => sized r
  | .texp c _ _ _ => sized c
  | _ => true

/-- No argument, condition or value made a quaint is of size zero. -/
def valuesSized : Rule := ⟨nodeSized, sized, sized, fun _ => true⟩

/-- An index of words is one word. -/
def indexScalar : TExpr → Bool
  | .aexp _ o _ => decide ((typeOfExpr o).size = 8 → (typeOfExpr o).bytes = 8)
  | _ => true

/-- What the checker leaves out: a quaint waited for is one word, and so is an index of words. -/
def wordsScalar : Rule :=
  ⟨indexScalar, fun _ => true, fun _ => true, fun q => decide ((typeOfExpr q).bytes = 8)⟩

@[simp] lemma wordsScalar_node {e : TExpr} : wordsScalar.node e = indexScalar e := rfl
@[simp] lemma wordsScalar_arg {e : TExpr} : wordsScalar.arg e = true := rfl
@[simp] lemma wordsScalar_cond {e : TExpr} : wordsScalar.cond e = true := rfl
@[simp] lemma wordsScalar_quaint {e : TExpr} :
    wordsScalar.quaint e = decide ((typeOfExpr e).bytes = 8) := rfl

/-! ### The emitted instructions -/

section Emitted

variable {locs : List (Nat × Nat)} {tops : List TTop} {f : TFunc} {cx : Cx} {p p' : Pt}
  {code c1 c2 : List Insn} {i : Insn} {a b d : Opd} {e : TExpr} {n : Bool} {t : Ty}

attribute [local simp] Insn.mapOpds tests

/-- The code is legal once the addresses of functions are filled in. -/
def LegalCode (locs : List (Nat × Nat)) (code : List Insn) : Prop :=
  ∀ i ∈ code, legal (i.mapOpds (printOpd locs)) = true

@[simp] lemma legalCode_nil : LegalCode locs [] := by simp [LegalCode]

@[simp] lemma legalCode_append : LegalCode locs (c1 ++ c2) ↔ LegalCode locs c1 ∧ LegalCode locs c2 := by
  simp [LegalCode, or_imp, forall_and]

@[simp] lemma legalCode_cons :
    LegalCode locs (i :: code) ↔ legal (i.mapOpds (printOpd locs)) = true ∧ LegalCode locs code := by
  simp [LegalCode]

@[simp] lemma temp_size {s : Bool} {size : Nat} : (p.temp s size).size = size := rfl
@[simp] lemma temp_signd {s : Bool} {size : Nat} : (p.temp s size).signd = s := rfl
@[simp] lemma temp_indirect {s : Bool} {size : Nat} : (p.temp s size).indirect = false := rfl
@[simp] lemma word_size : p.word.size = 8 := rfl
@[simp] lemma word_signd : p.word.signd = false := rfl
@[simp] lemma word_indirect : p.word.indirect = false := rfl
@[simp] lemma imm_size {s : Bool} {v size : Nat} : (opdImm s v size).size = size := rfl
@[simp] lemma imm_signd {s : Bool} {v size : Nat} : (opdImm s v size).signd = s := rfl
@[simp] lemma setDirect_size : a.setDirect.size = 8 := rfl
@[simp] lemma setDirect_signd : a.setDirect.signd = false := rfl

@[simp] lemma printOpd_temp {s : Bool} {size : Nat} : printOpd locs (p.temp s size) = p.temp s size :=
  printOpd_of_ne (.inl (by simp [Pt.temp]))

@[simp] lemma printOpd_word : printOpd locs p.word = p.word := printOpd_temp

@[simp] lemma printOpd_imm {s : Bool} {v size : Nat} (h : size ≠ 0) :
    printOpd locs (opdImm s v size) = opdImm s v size := printOpd_of_ne (.inr h)

@[simp] lemma printOpd_setDirect : printOpd locs a.setDirect = a.setDirect :=
  printOpd_of_ne (.inr (by simp [Opd.setDirect]))

@[simp] lemma printOpd_auto {s : Bool} {off size : Nat} :
    printOpd locs (opdAuto s off size) = opdAuto s off size := printOpd_of_ne (.inl (by simp [opdAuto]))

@[simp] lemma printOpd_glob {s : Bool} {off size : Nat} :
    printOpd locs (opdGlob s off size) = opdGlob s off size := printOpd_of_ne (.inl (by simp [opdGlob]))

@[simp] lemma wordTests_all {k : OpdKind} {name isKind : String} :
    (wordTests k name isKind a).all Prod.fst = isWord k a := by
  simp [wordTests, isWord, Bool.and_assoc]

@[simp] lemma isWord_word : isWord .temp p.word = true := by simp [isWord, Pt.word, Pt.temp]

@[simp] lemma isWord_imm {v : Nat} : isWord .imm (opdImm false v 8) = true := by simp [isWord, opdImm]

lemma legal_arith {op : ArithOp} : legal (.arith op d a b) = true ↔
    d.signd = a.signd ∧ a.signd = b.signd ∧ isWidth d.size = true ∧ d.size = a.size ∧ a.size = b.size := by
  simp only [legal, tests, List.all_cons, List.all_nil, Bool.and_true, Bool.and_eq_true, beq_iff_eq,
    decide_eq_true_eq]
  constructor
  · rintro ⟨⟨h1, h2⟩, h3, -, -, h4, h5⟩
    exact ⟨h1, h2, h3, h4, h5⟩
  · rintro ⟨h1, h2, h3, h4, h5⟩
    exact ⟨⟨h1, h2⟩, h3, h4 ▸ h3, h5 ▸ h4 ▸ h3, h4, h5⟩

/-- What the operand of a scalar passes. -/
lemma scalar_operand (h : OperandOk locs e n a) (hs : Scalar (typeOfExpr e)) :
    isWidth (printOpd locs a).size = true := by
  rw [h.size]
  exact (width_of_scalar hs).2

/-- Two operands of the same size and signedness. -/
lemma alike_operands {e' : TExpr} {n' : Bool} (h : OperandOk locs e n a) (h' : OperandOk locs e' n' b)
    (ha : Alike (typeOfExpr e) (typeOfExpr e')) :
    (printOpd locs a).size = (printOpd locs b).size ∧ a.signd = b.signd ∧
      isWidth (printOpd locs a).size = true ∧ isWidth (printOpd locs b).size = true := by
  refine ⟨?_, ?_, scalar_operand h ha.left, scalar_operand h' ha.right⟩
  · rw [h.size, h'.size, ha.bytes]
  · rw [h.signd, h'.signd, ha.signd]

lemma u8_bytes : (Ty.int .u8 1).bytes = 1 := by decide
lemma u8_signd : (Ty.int .u8 1).signd = false := by decide
lemma isWidth_eight : isWidth 8 = true := rfl

lemma legal_mov : legal (.mov d a) = true ↔ d.size = a.size := by simp [legal]

lemma legal_jz {jnz : Bool} {loc : Nat} : legal (.jz jnz a loc) = true ↔ a.size ≠ 0 := by
  simp [legal, Nat.pos_iff_ne_zero]

lemma isWidth_one : isWidth 1 = true := rfl

lemma legal_oz : legal (.oz d a) = true ↔ d.signd = false ∧ d.size = 1 ∧ isWidth a.size = true := by
  simp [legal]

lemma legal_push : legal (.push a) = true ↔ a.size ≠ 0 := by
  simp [legal, Nat.pos_iff_ne_zero]

lemma legal_ref : legal (.ref p.word a) = true := by simp [legal]

lemma legal_drf : legal (.drf d a) = true ↔ d.indirect = false ∧ d.size ≠ 0 ∧ a.size = 8 := by
  simp [legal, Nat.pos_iff_ne_zero]

/-- The scaled operand of a pointer addition. -/
lemma scaled_legal {tl : Ty} {cs : List Insn} (hs : Scaled p (stepOf tl) b cs d p')
    (hb : OperandOk locs e n b) (hal : Alike tl (typeOfExpr e)) :
    LegalCode locs cs ∧ (printOpd locs d).size = tl.bytes ∧ d.signd = tl.signd := by
  have hsz : (printOpd locs b).size = tl.bytes := hb.size.trans hal.bytes.symm
  have hsg : b.signd = tl.signd := hb.signd.trans hal.signd.symm
  cases hs with
  | one hm => exact ⟨legalCode_nil, hsz, hsg⟩
  | many hm =>
    cases tl with
    | ptr c s =>
      obtain rfl : c = 1 := hal.left.1
      refine ⟨?_, by rw [printOpd_word]; rfl, rfl⟩
      simp [legal_arith, hsz, hsg, ptr_word, isWidth_eight]
    | _ => exact absurd rfl hm

lemma legal_jmp {loc : Nat} : legal (.jmp loc) = true := rfl

lemma fetched_legal {l : TExpr} {s : Ty} {cf : List Insn} (hf : Fetched p a cf b p')
    (hl : OperandOk locs l n a) (ht : typeOfExpr l = .ptr 1 s) :
    LegalCode locs cf ∧ (printOpd locs b).size = 8 ∧ b.signd = false := by
  cases hf with
  | direct ha =>
    rw [hl.size, hl.signd, ht]
    exact ⟨legalCode_nil, rfl, rfl⟩
  | indirect ha => simp [legal_drf]

lemma base_legal {cr : List Insn} (h : Base p a cr b p') :
    LegalCode locs cr ∧ (printOpd locs b).size = 8 ∧ b.signd = false := by
  cases h with
  | indirect ha => simp
  | direct ha => simp [legal_ref]

/-- An index used as it is has to be a word. -/
lemma indexed_legal {elem : Nat} {ci : List Insn} (hi : Indexed p elem (typeOfExpr e).size a ci b p')
    (ho : OperandOk locs e n a) (hu : (typeOfExpr e).signd = false) :
    LegalCode locs ci ∧ (printOpd locs b).size = 8 ∧ b.signd = false ↔
      ((typeOfExpr e).size = 8 → (typeOfExpr e).bytes = 8) := by
  have hsz := ho.size
  have hsg := ho.signd.trans hu
  cases hi with
  | byte he hs => simp [hsz, hsg, hs]
  | widen he hs => simp [legal, hs]
  | scale he hs =>
    simp only [legalCode_cons, legalCode_nil, Insn.mapOpds, legal_arith, hsz, hsg, hs, printOpd_word,
      word_size, word_signd, printOpd_signd, and_true, true_and, forall_const, imm_signd, isWidth_eight,
      printOpd_imm (show (8 : Nat) ≠ 0 by decide), imm_size]
    exact ⟨And.right, fun h => ⟨h.symm, h⟩⟩
  | both he hs => simp [hs, isWidth_eight, legal]

lemma bytes_of_tild {r : TExpr} (hne : ∀ l as tc, r ≠ .fexp l as tc)
    (h : valuesSized.node (.uexp .tild r t) = true) : (typeOfExpr r).bytes ≠ 0 := by
  cases r <;> simp_all [valuesSized, nodeSized, sized]

lemma sized_ne (h : valuesSized.cond e = true) : (typeOfExpr e).bytes ≠ 0 := by
  simpa [valuesSized, sized] using h

lemma signd_of_quaint (h : t.t = .quaint) : t.signd = false := by
  rw [Ty.signd, h]
  rfl

lemma signd_of_even (h : typeIsSigned t.t = false) : t.signd = false := by simp [Ty.signd, h]

/-- The copies of an initial value are as long as the variables. -/
lemma inits_legal (hu : InUnit tops f cx) {names ns : List Sym} (hi : Inits cx t a ns code)
    (ho : OperandOk locs e n a) (heq : typeEquals t (typeOfExpr e) = true)
    (hd : (names, t) ∈ stmtsLocals f.stmts) (hsub : ns ⊆ names) : LegalCode locs code := by
  induction hi with
  | nil => exact legalCode_nil
  | cons nm ns ofs code hn hr ih =>
    obtain ⟨off, hoff⟩ := local_found hu.accepted hu.func hd (hsub List.mem_cons_self)
    rw [hu.ftag, hoff] at hn
    cases hn
    rw [legalCode_cons, Insn.mapOpds, legal_mov, ho.size, printOpd_auto, ← bytes_of_equals heq]
    exact ⟨rfl, ih fun x hx => hsub (List.mem_cons_of_mem _ hx)⟩

@[simp] lemma item_expr {R : Rule} : R.item (.expr e n) = R.expr e := rfl

/-- **The tests an item's code passes.** -/
theorem legal_item (hu : InUnit tops f cx) (hr : Resolves locs tops) {x : Item} {r : Option Opd}
    (h : Emit cx x p code r p') (hc : ItemChecked (KnownIn tops f) (stmtsLocals f.stmts) x)
    (hv : valuesSized.item x = true) : LegalCode locs code ↔ wordsScalar.item x = true := by
  have hop {e : TExpr} {n : Bool} {p p' : Pt} {code : List Insn} {a : Opd}
      (h : Emit cx (.expr e n) p code (some a) p') (hc : Checked (KnownIn tops f) e) :
      OperandOk locs e n a := emit_item hu hr h hc
  induction h with
  | assn hl hr' ihl ihr =>
    obtain ⟨ht, hcl, hcr⟩ := hc
    obtain ⟨hlv, heq, -⟩ := assn_checked ht
    simp only [Rule.item, Rule.expr, Bool.and_eq_true] at hv
    simp [ihl hcl hv.1.2, ihr hcr hv.2, Rule.item, Rule.expr, legal_mov, indexScalar,
      (hop hl hcl).size, (hop hr' hcr).size, bytes_of_equals heq]
  | asmu hop' hl hr' ihl ihr =>
    obtain ⟨ht, hcl, hcr⟩ := hc
    obtain ⟨-, hal, -⟩ := asmu_checked hop' ht
    simp only [Rule.item, Rule.expr, Bool.and_eq_true] at hv
    obtain ⟨h1, h2, h3, h4⟩ := alike_operands (hop hl hcl) (hop hr' hcr) hal
    simp [ihl hcl hv.1.2, ihr hcr hv.2, Rule.item, Rule.expr, legal_arith, h1, h2, h4,
      indexScalar]
  | plus hop' hl hr' hs htn ihl ihr =>
    obtain ⟨ht, hcl, hcr⟩ := hc
    obtain ⟨-, hal, rfl⟩ := plus_checked hop' ht
    simp only [Rule.item, Rule.expr, Bool.and_eq_true] at hv
    obtain ⟨h1, h2, h3⟩ := scaled_legal hs (hop hr' hcr) hal
    simp [ihl hcl hv.1.2, ihr hcr hv.2, Rule.item, Rule.expr, legal_arith, h1, h2, h3,
      indexScalar, (hop hl hcl).size, (hop hl hcl).signd, (width_of_scalar hal.left).2]
  | aspl hop' hl hr' hs htn ihl ihr =>
    obtain ⟨ht, hcl, hcr⟩ := hc
    obtain ⟨-, hal, rfl⟩ := plus_checked hop' ht
    simp only [Rule.item, Rule.expr, Bool.and_eq_true] at hv
    obtain ⟨h1, h2, h3⟩ := scaled_legal hs (hop hr' hcr) hal
    simp [ihl hcl hv.1.2, ihr hcr hv.2, Rule.item, Rule.expr, legal_arith, h1, h2, h3,
      indexScalar, (hop hl hcl).size, (hop hl hcl).signd, (width_of_scalar hal.left).2]
  | conj hop' hl htn hr' ihl ihr =>
    obtain ⟨ht, hcl, hcr⟩ := hc
    obtain ⟨hal, rfl⟩ := conj_checked hop' ht
    simp only [Rule.item, Rule.expr, Bool.and_eq_true] at hv
    obtain ⟨h1, h2, h3, h4⟩ := alike_operands (hop hl hcl) (hop hr' hcr) hal
    simp [ihl hcl hv.1.2, ihr hcr hv.2, Rule.item, Rule.expr, legal_arith, legal_jz,
      legal_oz, indexScalar, u8_bytes, u8_signd, h3, h4, isWidth_pos h3, isWidth_one]
  | coma hl hr' ihl ihr =>
    obtain ⟨-, hcl, hcr⟩ := hc
    simp only [Rule.item, Rule.expr, Bool.and_eq_true] at hv
    simp [ihl hcl hv.1.2, ihr hcr hv.2, Rule.item, Rule.expr, indexScalar]
  | equl hop' hl hr' htn ihl ihr =>
    obtain ⟨ht, hcl, hcr⟩ := hc
    simp only [Rule.item, Rule.expr, Bool.and_eq_true] at hv
    have h1 := hop hl hcl
    have h2 := hop hr' hcr
    obtain ⟨neq, rfl⟩ | ⟨cop, rfl⟩ | ⟨aop, rfl⟩ := bexpInsn_cases hop'
    · obtain ⟨hsz, rfl⟩ := equ_checked hop' ht
      simp [ihl hcl hv.1.2, ihr hcr hv.2, Rule.item, Rule.expr, legal, indexScalar,
        h1.size, h2.size, hsz, u8_bytes, u8_signd]
    · obtain ⟨hal, rfl⟩ := cmp_checked hop' ht
      obtain ⟨h3, h4, h5, h6⟩ := alike_operands h1 h2 hal
      simp [ihl hcl hv.1.2, ihr hcr hv.2, Rule.item, Rule.expr, legal, indexScalar,
        h3, h4, h6, u8_bytes, u8_signd]
    · obtain ⟨hal, rfl⟩ := arith_checked hop' ht
      obtain ⟨h3, h4, h5, h6⟩ := alike_operands h1 h2 hal
      simp [ihl hcl hv.1.2, ihr hcr hv.2, Rule.item, Rule.expr, legal_arith, indexScalar,
        h1.size, h1.signd, h2.size, h2.signd, hal.bytes, hal.signd, (width_of_scalar hal.right).2]
  | scop | name | nmbr | szof => simp [Rule.item, Rule.expr, indexScalar]
  | atsi hl hlab htn ihl =>
    obtain ⟨⟨unit, rhs, ht⟩, hcl⟩ := hc
    obtain ⟨h1, h2, rfl⟩ := atsi_checked ht
    simp only [Rule.item, Rule.expr, Bool.and_eq_true] at hv
    simp [ihl hcl hv.2, Rule.item, Rule.expr, legal, indexScalar,
      (hop hl hcl).size, (hop hl hcl).signd, h1, h2, u8_bytes, u8_signd]
  | memb hl hm ha ihl =>
    simp only [Rule.item, Rule.expr, Bool.and_eq_true] at hv
    simp [ihl hc.2 hv.2, Rule.item, Rule.expr, indexScalar]
  | membIndirect hl hm ha ihl =>
    simp only [Rule.item, Rule.expr, Bool.and_eq_true] at hv
    simp [ihl hc.2 hv.2, Rule.item, Rule.expr, indexScalar, legal_drf, legal_arith,
      isWidth_eight]
  | arow htl hl hf hm ihl =>
    obtain ⟨⟨rhs, ht⟩, hcl⟩ := hc
    obtain ⟨s, hs, -⟩ := arow_checked ht
    simp only [Rule.item, Rule.expr, Bool.and_eq_true] at hv
    obtain ⟨h1, h2, h3⟩ := fetched_legal hf (hop hl hcl) hs
    simp [ihl hcl hv.2, Rule.item, Rule.expr, indexScalar, legal_arith, h1, h2, h3,
      isWidth_eight]
  | cast hl hct ihl =>
    simp only [Rule.item, Rule.expr, Bool.and_eq_true] at hv
    simp [ihl hc.2.2.2 hv.2, Rule.item, Rule.expr, indexScalar, legal]
  | tildCall htn ha hl iha ihl =>
    obtain ⟨ht, params, ret, htl, -, hcl, hca⟩ := hc
    obtain rfl := tild_checked ht
    simp only [Rule.item, Rule.expr, Bool.and_eq_true] at hv
    simp [ihl hcl hv.2.1.2, iha ⟨_, hca⟩ hv.2.2, Rule.item, Rule.expr, indexScalar, legal,
      quaint_word, (hop hl hcl).size, (hop hl hcl).signd, htl, fptr_word, and_comm]
  | tild hne htn h ih =>
    obtain ⟨ht, hcr⟩ := hc
    obtain rfl := tild_checked ht
    simp only [Rule.item, Rule.expr, Bool.and_eq_true] at hv
    have hs : (typeOfExpr _).bytes ≠ 0 := bytes_of_tild hne hv.1
    simp [ih hcr hv.2, Rule.item, Rule.expr, indexScalar, legal, quaint_word,
      (hop h hcr).size, Nat.pos_of_ne_zero hs]
  | uplus h ih =>
    simp only [Rule.item, Rule.expr, Bool.and_eq_true] at hv
    simp [ih hc.2 hv.2, Rule.item, Rule.expr, indexScalar]
  | unary hop' h htn ih =>
    obtain ⟨ht, hcr⟩ := hc
    obtain ⟨hs, hst, hb, hk⟩ := unary_checked hop' ht
    simp only [Rule.item, Rule.expr, Bool.and_eq_true] at hv
    have hw := (width_of_scalar hs).2
    have hsz := (hop h hcr).size
    have hsg := (hop h hcr).signd
    obtain ⟨rfl, hg⟩ | ⟨rfl, rfl⟩ | ⟨rfl, rfl, hg⟩ := hk <;>
      simp [ih hcr hv.2, Rule.item, Rule.expr, indexScalar, legal, *]
  | multLvalue hp h ih =>
    simp only [Rule.item, Rule.expr, Bool.and_eq_true] at hv
    simp [ih hc.2 hv.2, Rule.item, Rule.expr, indexScalar]
  | multRvalue hp h htn ih =>
    obtain ⟨ht, hcr⟩ := hc
    simp only [Rule.item, Rule.expr, Bool.and_eq_true] at hv
    obtain ⟨-, hq | ⟨hq, -⟩⟩ := mult_checked ht
    · simp [ih hcr hv.2, Rule.item, Rule.expr, indexScalar, legal_drf, htn,
        (hop h hcr).size, hq, ptr_word]
    · rw [hq] at hp
      cases hp
  | multValue hp h htn ih =>
    obtain ⟨ht, hcr⟩ := hc
    simp only [Rule.item, Rule.expr, Bool.and_eq_true] at hv
    obtain ⟨-, hq | ⟨hq, -⟩⟩ := mult_checked ht
    · exact absurd (by rw [hq]; rfl) hp
    · simp [ih hcr hv.2, Rule.item, Rule.expr, indexScalar, legal,
        Nat.pos_of_ne_zero htn, (hop h hcr).size, (hop h hcr).signd, hq, quaint_word]
  | multVoid hp h htn ih =>
    obtain ⟨ht, hcr⟩ := hc
    simp only [Rule.item, Rule.expr, Bool.and_eq_true] at hv
    obtain ⟨-, hq | ⟨hq, -⟩⟩ := mult_checked ht
    · exact absurd (by rw [hq]; rfl) hp
    · simp [ih hcr hv.2, Rule.item, Rule.expr, indexScalar, legal,
        (hop h hcr).size, (hop h hcr).signd, hq, quaint_word]
  | amps h htn ih =>
    obtain ⟨ht, hcr⟩ := hc
    obtain ⟨-, rfl⟩ := amps_checked ht
    simp only [Rule.item, Rule.expr, Bool.and_eq_true] at hv
    simp [ih hcr hv.2, Rule.item, Rule.expr, indexScalar, legal, ptr_word]
  | incr hop' h hs ih =>
    obtain ⟨ht, hcr⟩ := hc
    obtain ⟨-, hsc, rfl⟩ := incr_checked hop' ht
    simp only [Rule.item, Rule.expr, Bool.and_eq_true] at hv
    simp [ih hcr hv.2, Rule.item, Rule.expr, indexScalar, legal,
      (hop h hcr).size, (width_of_scalar hsc).2]
  | incrBy hop' h hs ih =>
    obtain ⟨ht, hcr⟩ := hc
    obtain ⟨-, hsc, rfl⟩ := incr_checked hop' ht
    simp only [Rule.item, Rule.expr, Bool.and_eq_true] at hv
    simp [ih hcr hv.2, Rule.item, Rule.expr, indexScalar, legal_arith,
      (hop h hcr).size, (hop h hcr).signd, bytes_pos_of_scalar hsc, (width_of_scalar hsc).2]
  | callv htn ha hl iha ihl =>
    obtain ⟨params, ret, htl, -, hcl, hca⟩ := hc
    simp only [Rule.item, Rule.expr, Bool.and_eq_true] at hv
    simp [ihl hcl hv.1.2, iha ⟨_, hca⟩ hv.2, Rule.item, Rule.expr, indexScalar, legal,
      (hop hl hcl).size, (hop hl hcl).signd, htl, fptr_word, and_comm]
  | call htn ha hl iha ihl =>
    obtain ⟨params, ret, htl, -, hcl, hca⟩ := hc
    simp only [Rule.item, Rule.expr, Bool.and_eq_true] at hv
    simp [ihl hcl hv.1.2, iha ⟨_, hca⟩ hv.2, Rule.item, Rule.expr, indexScalar, legal,
      (hop hl hcl).size, (hop hl hcl).signd, htl, fptr_word, and_comm]
  | xexp h hs htn ih =>
    obtain ⟨ht, hcr⟩ := hc
    obtain ⟨-, hsc, rfl⟩ := xexp_checked ht
    simp only [Rule.item, Rule.expr, Bool.and_eq_true] at hv
    simp [ih hcr hv.2, Rule.item, Rule.expr, indexScalar, legal,
      (hop h hcr).size, (hop h hcr).signd, (width_of_scalar hsc).2]
  | xexpBy h hs htn ih =>
    obtain ⟨ht, hcr⟩ := hc
    obtain ⟨-, hsc, rfl⟩ := xexp_checked ht
    simp only [Rule.item, Rule.expr, Bool.and_eq_true] at hv
    simp [ih hcr hv.2, Rule.item, Rule.expr, indexScalar, legal_arith, legal_mov, htn,
      (hop h hcr).size, (hop h hcr).signd, (width_of_scalar hsc).2]
  | @aexp b o t n p p1 p2 p3 p4 cb co ci cr a i i' a' hb ho hi ha ihb iho =>
    obtain ⟨ht, hcb, hco⟩ := hc
    obtain ⟨-, hk, hu', -⟩ := aexp_checked ht
    simp only [Rule.item, Rule.expr, Bool.and_eq_true] at hv
    have hix := indexed_legal hi (hop ho hco) hu'
    obtain ⟨h3, h4, h5⟩ : LegalCode locs cr ∧ _ := base_legal ha
    have hadd : legal ((Insn.arith .add p4.word a' i').mapOpds (printOpd locs)) = true ↔
        (printOpd locs i').size = 8 ∧ i'.signd = false := by
      simp only [Insn.mapOpds, legal_arith, printOpd_word, word_size, word_signd, printOpd_signd, h4, h5,
        isWidth_eight, true_and]
      exact ⟨fun h => ⟨h.2.symm, h.1.symm⟩, fun h => ⟨h.2.symm, h.1.symm⟩⟩
    have hnode : wordsScalar.node (.aexp b o t) = true ↔
        ((typeOfExpr o).size = 8 → (typeOfExpr o).bytes = 8) := by
      simp only [wordsScalar_node, indexScalar, decide_eq_true_eq]
    simp only [legalCode_append, legalCode_cons, legalCode_nil, ihb hcb hv.1.2, iho hco hv.2, h3, hadd,
      item_expr, Rule.expr, Bool.and_eq_true, hnode, ← hix, and_true]
    constructor
    · rintro ⟨⟨⟨hb, ho⟩, hi⟩, ha⟩
      exact ⟨⟨⟨hi, ha⟩, hb⟩, ho⟩
    · rintro ⟨⟨⟨hi, ha⟩, hb⟩, ho⟩
      exact ⟨⟨⟨hb, ho⟩, hi⟩, ha⟩
  | texp hc' htn htv hfv ihc iht ihf =>
    obtain ⟨ht, hcc, hct, hcf⟩ := hc
    obtain ⟨-, heq, rfl⟩ := texp_checked ht
    simp only [Rule.item, Rule.expr, Bool.and_eq_true] at hv
    have hs := hv.1.1.1
    simp only [valuesSized, nodeSized, sized, bne_iff_ne] at hs
    simp [ihc hcc hv.1.1.2, iht hct hv.1.2, ihf hcf hv.2, Rule.item, Rule.expr, indexScalar,
      legal_jz, legal_mov, legal_jmp, (hop hc' hcc).size, (hop htv hct).size, (hop hfv hcf).size, hs,
      bytes_of_equals heq, and_assoc]
  | strl => simp [Rule.item, Rule.expr, indexScalar, legal_ref]
  | argsNil => simp [Rule.item, Rule.args]
  | argsCons h hr' ih ihr =>
    obtain ⟨ps, hc⟩ := hc
    cases ps with
    | nil => exact hc.elim
    | cons nm pt ps =>
      obtain ⟨hce, -, hcr⟩ := hc
      simp only [Rule.item, Rule.args, Bool.and_eq_true] at hv
      have hs := hv.1.1
      simp only [valuesSized, sized, bne_iff_ne] at hs
      simp [ih hce hv.1.2, ihr ⟨ps, hcr⟩ hv.2, Rule.item, Rule.args, legal_push,
        (hop h hce).size, hs]
  | decl | stmtsNil | elifsNone => simp [Rule.item, Rule.stmt, Rule.opt, Rule.stmts, Rule.elifs]
  | declInit h hi ih =>
    obtain ⟨⟨ret, -, -, hce⟩, hsub⟩ := hc
    obtain ⟨hce, heq⟩ := hce _ rfl
    have hm := inits_legal hu hi (hop h hce) heq (hsub List.mem_cons_self) (List.Subset.refl _)
    simp [ih hce hv, hm, Rule.item, Rule.stmt, Rule.opt]
  | cond he hb hr' ihe ihb ihr =>
    obtain ⟨⟨ret, hce, hcb, hcr⟩, hsub⟩ := hc
    obtain ⟨hsb, hsr⟩ := List.append_subset.mp hsub
    simp only [Rule.item, Rule.stmt, Bool.and_eq_true] at hv
    simp [ihe hce hv.1.1.2, ihb ⟨⟨_, hcb⟩, hsb⟩ hv.1.2, ihr ⟨⟨_, hcr⟩, hsr⟩ hv.2, Rule.item, Rule.stmt,
      legal_jz, legal_jmp, (hop he hce).size, sized_ne hv.1.1.1, and_assoc]
  | blok h ih =>
    obtain ⟨⟨ret, hcb⟩, hsub⟩ := hc
    exact ih ⟨⟨ret, hcb⟩, hsub⟩ hv
  | noin h ih =>
    obtain ⟨⟨ret, hcb⟩, hsub⟩ := hc
    simp [ih ⟨⟨ret, hcb⟩, hsub⟩ hv, Rule.item, Rule.stmt, legal]
  | whil he hb ihe ihb =>
    obtain ⟨⟨ret, hce, hcb⟩, hsub⟩ := hc
    simp only [Rule.item, Rule.stmt, Bool.and_eq_true] at hv
    simp [ihe hce hv.1.2, ihb ⟨⟨_, hcb⟩, hsub⟩ hv.2, Rule.item, Rule.stmt, legal_jz,
      legal_jmp, (hop he hce).size, sized_ne hv.1.1]
  | dowh hb he ihb ihe =>
    obtain ⟨⟨ret, hce, hcb⟩, hsub⟩ := hc
    simp only [Rule.item, Rule.stmt, Bool.and_eq_true] at hv
    simp [ihe hce hv.2, ihb ⟨⟨_, hcb⟩, hsub⟩ hv.1.1, Rule.item, Rule.stmt, legal_jz,
      (hop he hce).size, sized_ne hv.1.2]
  | retn => simp [Rule.item, Rule.stmt, Rule.opt, retSize, legal]
  | retnValue h ih =>
    obtain ⟨⟨ret, hret⟩, -⟩ := hc
    have hce : Checked (KnownIn tops f) _ := checked_retn hret
    simp [ih hce hv, Rule.item, Rule.stmt, Rule.opt, retSize, legal]
  | wait hq hlab ih =>
    obtain ⟨⟨ret, hcq, htq, -⟩, -⟩ := hc
    simp only [Rule.item, Rule.stmt, Bool.and_eq_true] at hv
    simp [ih hcq hv.1.2, Rule.item, Rule.stmt, Rule.opt, legal, (hop hq hcq).size,
      (hop hq hcq).signd, signd_of_quaint htq, and_comm]
  | waitFor hq hf hlab ihq ihf =>
    obtain ⟨⟨ret, hcq, htq, -, hcf⟩, -⟩ := hc
    obtain ⟨hcf, hcount, hint, hsigned⟩ := hcf _ rfl
    have hs : Scalar (typeOfExpr _) := ⟨hcount, .inl hint⟩
    simp only [Rule.item, Rule.stmt, Bool.and_eq_true] at hv
    simp [ihq hcq hv.1.2, ihf hcf hv.2, Rule.item, Rule.stmt, Rule.opt, legal,
      (hop hq hcq).size, (hop hq hcq).signd, signd_of_quaint htq, (hop hf hcf).size, (hop hf hcf).signd,
      signd_of_even hsigned, (width_of_scalar hs).2, and_comm, and_left_comm]
  | wlab => simp [Rule.item, Rule.stmt, legal]
  | exprStmt h ih =>
    obtain ⟨⟨ret, hce⟩, -⟩ := hc
    simp [ih hce hv, Rule.item, Rule.stmt, legal]
  | stmtsCons hs hr' ihs ihr =>
    obtain ⟨⟨ret, hcs, hcr⟩, hsub⟩ := hc
    obtain ⟨hss, hsr⟩ := List.append_subset.mp hsub
    simp only [Rule.item, Rule.stmts, Bool.and_eq_true] at hv
    simp [ihs ⟨⟨_, hcs⟩, hss⟩ hv.1, ihr ⟨⟨_, hcr⟩, hsr⟩ hv.2, Rule.item, Rule.stmts]
  | els h ih =>
    obtain ⟨⟨ret, hcb⟩, hsub⟩ := hc
    exact ih ⟨⟨ret, hcb⟩, hsub⟩ hv
  | elif he hb hr' ihe ihb ihr =>
    obtain ⟨⟨ret, hce, hcb, hcr⟩, hsub⟩ := hc
    obtain ⟨hsb, hsr⟩ := List.append_subset.mp hsub
    simp only [Rule.item, Rule.elifs, Bool.and_eq_true] at hv
    simp [ihe hce hv.1.1.2, ihb ⟨⟨_, hcb⟩, hsb⟩ hv.1.2, ihr ⟨⟨_, hcr⟩, hsr⟩ hv.2, Rule.item, Rule.elifs,
      legal_jz, legal_jmp, (hop he hce).size, sized_ne hv.1.1.1, and_assoc]

end Emitted

/-! ### Units -/

/-- The rule holds of the unit the checker accepts. -/
def Rule.holds (R : Rule) (u : Ast.Unit) : Bool :=
  match accept u with
  | some tops => R.unit tops
  | none => true

lemma rule_unit {R : Rule} {tops : List TTop} :
    R.unit tops = true ↔ ∀ f, TTop.func f ∈ tops → R.stmts f.stmts = true := by
  rw [Rule.unit, List.all_eq_true]
  constructor
  · exact fun h f hf => h _ hf
  · intro h t ht
    cases t with
    | func f => exact h f ht
    | _ => rfl

lemma alignUp_eight (n : Nat) : wrap64 (alignUp n 8) % 8 = 0 := by
  have h := alignUp_mod (n := n) (k := 8) (by decide)
  simp only [wrap64]
  omega

lemma layoutParams_mod : ∀ (ps : Fields) (fr : Frame), fr.size % 8 = 0 → fr.size < 2 ^ 64 →
    (layoutParams ps fr).size % 8 = 0 ∧ (layoutParams ps fr).size < 2 ^ 64
  | .nil, _, h, hlt => ⟨h, hlt⟩
  | .cons n t rest, fr, _, _ =>
    layoutParams_mod rest _ (alignUp_eight _) (Nat.mod_lt _ (by decide))

/-- What a function adds to its arguments is a multiple of a word. -/
lemma incsp_legal (locs : List (Nat × Nat)) (fn : Fn) :
    legal (fn.incsp.mapOpds (printOpd locs)) = true := by
  obtain ⟨h1, h2⟩ := layoutParams_mod fn.func.params ⟨0, []⟩ rfl (by decide)
  have h3 : fn.tag.frameSize % 8 = 0 := alignUp_eight _
  have h4 : fn.tag.argsSize % 8 = 0 ∧ fn.tag.argsSize < 2 ^ 64 := ⟨h1, h2⟩
  have hmod : wrap64 (2 ^ 64 + fn.tag.frameSize - fn.tag.argsSize) % 8 = 0 := by
    simp only [wrap64]
    omega
  have hoff : (opdImm false (wrap64 (2 ^ 64 + fn.tag.frameSize - fn.tag.argsSize)) 8).off % 8 = 0 := hmod
  simp [-Nat.reducePow, Fn.incsp, Insn.mapOpds, legal, tests, hoff]

lemma fn_legal {tops : List TTop} {fns : List Fn} {o : Obj} {fn : Fn} (hA : Accepted tops)
    (h : Listed tops fns o) (hfn : fn ∈ fns) (hv : valuesSized.stmts fn.func.stmts = true) :
    LegalCode (locsOf fns) fn.code ↔ wordsScalar.stmts fn.func.stmts = true := by
  have hu := inUnit_of_listed hA h hfn
  have hbody := legal_item hu (resolves_of_listed h) (emitted_of_listed h hfn)
    ⟨⟨_, hA.checked _ hu.func⟩, List.Subset.refl _⟩ hv
  have hret : legal (fn.ret.mapOpds (printOpd (locsOf fns))) = true := by
    simp [Fn.ret, Insn.mapOpds, legal, tests]
  simp only [Fn.code, List.cons_append, legalCode_cons, legalCode_append, legalCode_nil, incsp_legal, hret,
    hbody, true_and, and_true]
  rfl

/-- **The machine's tests of the operands.** Of a unit whose used values have sizes, every
instruction passes them if and only if each quaint waited for and each index of words is one
word. -/
theorem legal_iff_wordsScalar {u : Ast.Unit} {o : Obj} (h : Compiles u o)
    (hv : valuesSized.holds u = true) :
    (∀ i ∈ o.insns, legal i = true) ↔ wordsScalar.holds u = true := by
  obtain ⟨tops, fns, ha, hl⟩ := listed_of_compiles h
  have hA := accepted_of_accept ha
  simp only [Rule.holds, ha, rule_unit] at hv ⊢
  have hinsns : (∀ i ∈ o.insns, legal i = true) ↔ ∀ fn ∈ fns, LegalCode (locsOf fns) fn.code := by
    rw [hl.insns]
    constructor
    · intro h fn hfn i hi
      exact h _ (List.mem_map.mpr ⟨i, List.mem_append_right _ (List.mem_flatMap.mpr ⟨fn, hfn, hi⟩), rfl⟩)
    · intro h i hi
      obtain ⟨j, hj, rfl⟩ := List.mem_map.mp hi
      rcases List.mem_append.mp hj with hj | hj
      · rw [(List.mem_replicate.mp hj).2]
        rfl
      · obtain ⟨fn, hfn, hj⟩ := List.mem_flatMap.mp hj
        exact h fn hfn j hj
  obtain ⟨p, hp, -⟩ := hl.placed
  rw [hinsns]
  constructor
  · intro h f hf
    obtain ⟨fn, hfn, rfl⟩ := placed_of_func hp hf
    exact (fn_legal hA hl hfn (hv _ hf)).mp (h fn hfn)
  · intro h fn hfn
    have hf := placed_func hp hfn
    exact (fn_legal hA hl hfn (hv _ hf)).mpr (h _ hf)

/-- `q: quaint(u8)[2]; m { wait q; }` -/
def waitArray : Ast.Unit :=
  ⟨[],
    [.decl ⟨false, false, false, [letter 113 0], .quaint 2 (.int .u8 1), .absent⟩,
     .func ⟨false, letter 109 18, .nil, .none,
       .cons (.wait (.name (letter 113 27)) .absent .absent false false) .nil⟩]⟩

def waitArrayObj : Obj :=
  ⟨16, [], List.replicate 17 Insn.bfun ++
    [Insn.incsp (opdImm false 0 8) (opdImm false 0 8),
     .wait (opdGlob false 0 16) (opdImm false 0 1) 0 0 false false false, .ret (opdImm false 16 8)]⟩

/-- A wait on an array of quaints is accepted, and its operand is of sixteen bytes. -/
theorem waitArray_illegal : Compiles waitArray waitArrayObj ∧ valuesSized.holds waitArray = true ∧
    ∃ i ∈ waitArrayObj.insns, legal i = false := by
  refine ⟨by decide +kernel, by decide +kernel, ?_⟩
  exact ⟨.wait (opdGlob false 0 16) (opdImm false 0 1) 0 0 false false false, by decide, by decide⟩

/-- One quaint is waited for. -/
def waitOne : Ast.Unit :=
  ⟨[],
    [.decl ⟨false, false, false, [letter 113 0], .quaint 1 (.int .u8 1), .absent⟩,
     .func ⟨false, letter 109 18, .nil, .none,
       .cons (.wait (.name (letter 113 27)) .absent .absent false false) .nil⟩]⟩

def waitOneObj : Obj :=
  ⟨8, [], List.replicate 17 Insn.bfun ++
    [Insn.incsp (opdImm false 0 8) (opdImm false 0 8),
     .wait (opdGlob false 0 8) (opdImm false 0 1) 0 0 false false false, .ret (opdImm false 16 8)]⟩

theorem waitOne_legal : wordsScalar.holds waitOne = true ∧ ∀ i ∈ waitOneObj.insns, legal i = true := by
  have h : Compiles waitOne waitOneObj := by decide +kernel
  have hw : wordsScalar.holds waitOne = true := by decide +kernel
  exact ⟨hw, (legal_iff_wordsScalar h (by decide +kernel)).mpr hw⟩

end Quaint.Legality
