import Quaint.Ast

/-!
Operands, instructions and the object code.

The fields `off` and `size` of an operand share their place with `imm` and `immsize`. The
address of a function is an immediate of size `0` until the listing is printed.
-/

namespace Quaint.Code

inductive OpdKind
  | imm | temp | auto | glob
  deriving DecidableEq

/-- `struct codegen_opd` -/
structure Opd where
  opd : OpdKind
  signd : Bool
  indirect : Bool
  off : Nat
  size : Nat
  deriving DecidableEq

/-- `OPD_IMM` -/
def opdImm (signd : Bool) (imm immsize : Nat) : Opd := ⟨.imm, signd, false, imm, immsize⟩
/-- `OPD_AUTO` -/
def opdAuto (signd : Bool) (off size : Nat) : Opd := ⟨.auto, signd, false, off, size⟩
/-- `OPD_GLOB` -/
def opdGlob (signd : Bool) (off size : Nat) : Opd := ⟨.glob, signd, false, off, size⟩

/-- `SET_DIRECT` -/
def Opd.setDirect (o : Opd) : Opd := { o with indirect := false, signd := false, size := 8 }
/-- `SET_INDIRECT` -/
def Opd.setIndirect (o : Opd) (signd : Bool) (size : Nat) : Opd :=
  { o with indirect := true, signd := signd, size := size }

inductive ArithOp
  | add | sub | mul | div | mod | lsh | rsh | and | xor | or
  deriving DecidableEq

inductive CmpOp
  | lt | gt | lte | gte
  deriving DecidableEq

/-- `struct codegen_insn`. The flags of `equ`, `inc`, `incp` and `jz` choose `neq`, `dec`,
`decp` and `jnz`. -/
inductive Insn
  | nop
  | mov (dst src : Opd)
  | cast (dst src : Opd)
  | arith (op : ArithOp) (dst src1 src2 : Opd)
  | equ (neq : Bool) (dst src1 src2 : Opd)
  | cmp (op : CmpOp) (dst src1 src2 : Opd)
  | not (dst src : Opd)
  | neg (dst src : Opd)
  | bneg (dst src : Opd)
  | oz (dst src : Opd)
  | inc (dec : Bool) (dst : Opd)
  | incp (decp : Bool) (dst src : Opd)
  | jz (jnz : Bool) (cond : Opd) (loc : Nat)
  | jmp (loc : Nat)
  | pushr (val ssp : Opd)
  | push (val : Opd)
  | call (loc bp : Opd)
  | callv (val loc bp : Opd)
  | incsp (addend tsize : Opd)
  | ret (size : Opd)
  | retv (val size : Opd)
  | ref (dst src : Opd)
  | drf (dst src : Opd)
  | rte (src : Opd)
  | rtev (dst src : Opd)
  | qat (dst quaint : Opd) (func wlabId : Nat)
  | wait (quaint timeout : Opd) (func wlabId : Nat) (noblock units hasTimeout : Bool)
  | wlab (func id : Nat)
  | getsp (dst : Opd)
  | qnt (dst loc sp : Opd)
  | qntv (dst val : Opd)
  | noint
  | int
  | bfun
  deriving DecidableEq

/-- The operands `print_insns` hands to `print_opd`, each replaced by what that leaves. -/
def Insn.mapOpds (f : Opd → Opd) : Insn → Insn
  | .mov d s => .mov (f d) (f s)
  | .cast d s => .cast (f d) (f s)
  | .arith op d s1 s2 => .arith op (f d) (f s1) (f s2)
  | .equ b d s1 s2 => .equ b (f d) (f s1) (f s2)
  | .cmp op d s1 s2 => .cmp op (f d) (f s1) (f s2)
  | .not d s => .not (f d) (f s)
  | .neg d s => .neg (f d) (f s)
  | .bneg d s => .bneg (f d) (f s)
  | .oz d s => .oz (f d) (f s)
  | .inc b d => .inc b (f d)
  | .incp b d s => .incp b (f d) (f s)
  | .jz b c l => .jz b (f c) l
  | .pushr v s => .pushr (f v) (f s)
  | .push v => .push (f v)
  | .call l b => .call (f l) (f b)
  | .callv v l b => .callv (f v) (f l) (f b)
  | .incsp a t => .incsp (f a) (f t)
  | .ret s => .ret (f s)
  | .retv v s => .retv (f v) (f s)
  | .ref d s => .ref (f d) (f s)
  | .drf d s => .drf (f d) (f s)
  | .rte s => .rte (f s)
  | .rtev d s => .rtev (f d) (f s)
  | .qat d q fn id => .qat (f d) (f q) fn id
  | .wait q t fn id nb un ht => .wait (f q) (f t) fn id nb un ht
  | .getsp d => .getsp (f d)
  | .qnt d l s => .qnt (f d) (f l) (f s)
  | .qntv d v => .qntv (f d) (f v)
  | i => i

/-- The operands of an instruction, in the order they are printed. -/
def Insn.opds : Insn → List Opd
  | .mov d s | .cast d s | .not d s | .neg d s | .bneg d s | .oz d s | .incp _ d s
  | .ref d s | .drf d s | .rtev d s => [d, s]
  | .arith _ d s1 s2 | .equ _ d s1 s2 | .cmp _ d s1 s2 => [d, s1, s2]
  | .inc _ d | .getsp d => [d]
  | .jz _ c _ => [c]
  | .pushr v s => [v, s]
  | .push v => [v]
  | .call l b => [l, b]
  | .callv v l b => [v, l, b]
  | .incsp a t => [a, t]
  | .ret s => [s]
  | .retv v s => [v, s]
  | .rte s => [s]
  | .qat d q _ _ => [d, q]
  | .wait q t _ _ _ _ _ => [q, t]
  | .qnt d l s => [d, l, s]
  | .qntv d v => [d, v]
  | .nop | .jmp _ | .wlab _ _ | .noint | .int | .bfun => []

/-- `struct codegen_obj`, as far as `exec` reads it -/
structure Obj where
  dataSize : Nat
  strings : List UInt8
  insns : List Insn
  deriving DecidableEq

def Obj.insnCount (o : Obj) : Nat := o.insns.length

end Quaint.Code
