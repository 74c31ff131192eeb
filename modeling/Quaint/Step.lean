import Quaint.Exec

/-!
The instructions of the virtual machine, and one round of its loop.
-/

namespace Quaint.Step

open Bytes Code Exec

/-- The bytes of an operand's value. -/
def loadOpd (s : State) (o : Opd) : M (List UInt8) := do
  let l ← s.opdVal o
  orUb (s.load l o.size)

/-- The value of an operand as a bit pattern. -/
def loadOpdNat (s : State) (o : Opd) : M Nat := do
  let bs ← loadOpd s o
  return leNat bs

def storeOpd (s : State) (o : Opd) (bs : List UInt8) : M State := do
  let l ← s.opdVal o
  orUb (s.store l bs)

def storeOpdNat (s : State) (o : Opd) (v : Nat) : M State := storeOpd s o (leBytes o.size v)

/-- The word at an operand, whatever its size says. -/
def loadWord (s : State) (o : Opd) : M Nat := do
  let l ← s.opdVal o
  s.loadNat l 8

def storeWord (s : State) (o : Opd) (v : Nat) : M State := do
  let l ← s.opdVal o
  s.storeNat l 8 v

def Qvm.advance (v : Qvm) : Qvm := { v with ip := v.ip + 1 }

def nextIp (s : State) : State := s.setVm (Qvm.advance s.vm)

/-! ### Returning -/

/-- `exit_status_from_retval` -/
def exitStatus (signd : Bool) (retval : List UInt8) : Int :=
  match retval.length with
  | 1 | 2 | 4 | 8 => toInt true 4 (ofInt 4 (toInt signd retval.length (leNat retval)))
  | _ => 0

/-- The test `handle_return` makes of the instruction the parent stands at. -/
def returnOpTest : String :=
  "insn->op == (retval_size ? CODEGEN_OP_RTEV : CODEGEN_OP_RTE) || insn->op == CODEGEN_OP_WAIT"

/-- A quaint that has ended, its value kept at the base of its stack. -/
def Qvm.ended (v : Qvm) (retval : List UInt8) : Qvm :=
  { v with
    atEnd := true, lastFunc := 0, lastId := 0, temps := []
    stack := writeMem v.stack 0 retval }

def Qvm.notWaiting (v : Qvm) : Qvm :=
  { v with waiting := false, waitingFor := false, waitingUntil := false, waitingNoblock := false }

/-- `handle_return` from the bottom frame of a quaint with a parent -/
def returnToParent (o : Obj) (s : State) (retval : List UInt8) : M State := do
  let parent := s.vm.parent
  ubUnless (parent ∈ s.live)
  let insn ← orUb o.insns[(s.vms parent).ip]?
  match insn with
  | .rtev dst src => do
    legalIf (retval.length ≠ 0) returnOpTest
    legalIf (retval.length = dst.size) "retval_size == cval_size"
    let s' ← storeOpd (s.setCur parent) dst retval
    let s' ← storeWord (s'.release s.cur) src 0
    return nextIp s'
  | .rte src => do
    legalIf (retval.length = 0) returnOpTest
    let s' ← storeWord ((s.setCur parent).release s.cur) src 0
    return nextIp s'
  | .wait _ _ _ _ _ _ _ => do
    ubUnless (retval.length ≤ stackSize)
    let s' := (s.setVm (Qvm.ended s.vm retval)).setCur parent
    return nextIp (s'.setVm (Qvm.notWaiting s'.vm))
  | _ => .error (.illegal returnOpTest)

/-- The saved `ip` and `bp` at `sp`. -/
def savedWords (s : State) : M (Nat × Nat) := do
  let ip ← s.loadNat (.mem (.stack s.cur) s.vm.sp) 8
  let bp ← s.loadNat (.mem (.stack s.cur) (s.vm.sp + 8)) 8
  return (ip, bp)

def Qvm.restore (v : Qvm) (saved : Nat × Nat) (temps : List TmpFrame) : Qvm :=
  { v with temps := temps, ip := saved.1, bp := saved.2 }

/-- `handle_return` from the bottom frame of the first quaint -/
def returnFromMain (s : State) (signd : Bool) (retval : List UInt8) : M State := do
  let status := if retval.length ≠ 0 then exitStatus signd retval else 0
  let saved ← savedWords s
  if status ≠ 0 then .error (.exit status)
  else return s.setVm (Qvm.restore s.vm saved [])

/-- `handle_return` to the caller in the same quaint -/
def returnToCaller (o : Obj) (s : State) (retval : List UInt8) : M State := do
  ubUnless (!s.vm.temps.isEmpty)
  let saved ← savedWords s
  let s' := s.setVm (Qvm.restore s.vm saved s.vm.temps.tail)
  legalIf (saved.1 < o.insnCount) "vm->ip < o->insn_count"
  legalIf (saved.2 ≤ stackSize) "vm->bp <= STACK_SIZE"
  if retval.length = 0 then return nextIp s'
  else do
    let insn ← orUb o.insns[saved.1]?
    match insn with
    | .callv val _ _ => do
      legalIf (retval.length = val.size) "retval_size == cval_size"
      let s' ← storeOpd s' val retval
      return nextIp s'
    | _ => .error (.illegal "insn->op == CODEGEN_OP_CALLV")

/-- `handle_return`. `signd` is that of the value returned; a return without a value has
an empty one. -/
def handleReturn (o : Obj) (s : State) (signd : Bool) (retval : List UInt8) : M State :=
  if s.vm.sp = 0 ∧ s.vm.parent ≠ 0 then returnToParent o s retval
  else if s.vm.sp = 0 then returnFromMain s signd retval
  else returnToCaller o s retval

/-! ### Data -/

/-- `insn_mov` -/
def insnMov (s : State) (dst src : Opd) : M State := do
  legalIf (dst.size = src.size) "dst_size == src_size"
  let d ← s.opdVal dst
  let a ← s.opdVal src
  s.memcpy d a dst.size

/-- `insn_cast`: the destination is cleared before the source is read. -/
def insnCast (s : State) (dst src : Opd) : M State := do
  let d ← s.opdVal dst
  let a ← s.opdVal src
  let s' ← orUb (s.store d (List.replicate dst.size 0))
  s'.memcpy d a (min src.size dst.size)

/-- `insn_bin_arith` -/
def insnBinArith (s : State) (op : ArithOp) (dst src1 src2 : Opd) : M State := do
  legalIf (dst.signd == src1.signd && src1.signd == src2.signd)
    "insn->bin.dst.signd == insn->bin.src1.signd && insn->bin.src1.signd == insn->bin.src2.signd"
  legalIf (isWidth dst.size) "powerof2(dst_size) && dst_size <= 8"
  legalIf (isWidth src1.size) "powerof2(src1_size) && src1_size <= 8"
  legalIf (isWidth src2.size) "powerof2(src2_size) && src2_size <= 8"
  legalIf (dst.size = src1.size ∧ src1.size = src2.size)
    "dst_size == src1_size && src1_size == src2_size"
  let a ← loadOpdNat s src1
  let b ← loadOpdNat s src2
  let r ← orUb (arithOp op dst.signd dst.size a b)
  storeOpdNat s dst r

/-- `insn_equ_neq` -/
def insnEquNeq (s : State) (neq : Bool) (dst src1 src2 : Opd) : M State := do
  legalIf (dst.signd == false) "dst_signd == 0"
  legalIf (dst.size = 1) "dst_size == 1"
  legalIf (src1.size = src2.size) "src1_size == src2_size"
  let a ← loadOpd s src1
  let b ← loadOpd s src2
  storeOpdNat s dst (if (a == b) != neq then 1 else 0)

/-- `insn_bin_logic` -/
def insnBinLogic (s : State) (op : CmpOp) (dst src1 src2 : Opd) : M State := do
  legalIf (dst.signd == false) "dst_signd == 0"
  legalIf (dst.size = 1) "dst_size == 1"
  legalIf (src1.signd == src2.signd) "src1_signd == src2_signd"
  legalIf (isWidth src1.size) "powerof2(src1_size) && src1_size <= 8"
  legalIf (isWidth src2.size) "powerof2(src2_size) && src2_size <= 8"
  legalIf (src1.size = src2.size) "src1_size == src2_size"
  let a ← loadOpdNat s src1
  let b ← loadOpdNat s src2
  let r := cmpOp op (toInt src1.signd src1.size a) (toInt src1.signd src1.size b)
  storeOpdNat s dst (if r then 1 else 0)

/-- `insn_not` -/
def insnNot (s : State) (dst src : Opd) : M State := do
  legalIf (isWidth dst.size) "powerof2(dst_size) && dst_size <= 8"
  legalIf (src.signd == dst.signd) "src_signd == dst_signd"
  legalIf (isWidth src.size) "powerof2(src_size) && src_size <= 8"
  legalIf (dst.size = src.size) "dst_size == src_size"
  let a ← loadOpdNat s src
  storeOpdNat s dst (if a = 0 then 1 else 0)

/-- `insn_neg` -/
def insnNeg (s : State) (dst src : Opd) : M State := do
  legalIf (dst.signd == true) "dst_signd == 1"
  legalIf (isWidth dst.size) "powerof2(dst_size) && dst_size <= 8"
  legalIf (isWidth src.size) "powerof2(src_size) && src_size <= 8"
  legalIf (dst.size = src.size) "dst_size == src_size"
  let a ← loadOpdNat s src
  storeOpdNat s dst (ofInt dst.size (-(toInt src.signd src.size a)))

/-- `insn_bneg` -/
def insnBneg (s : State) (dst src : Opd) : M State := do
  legalIf (dst.signd == false) "dst_signd == 0"
  legalIf (isWidth dst.size) "powerof2(dst_size) && dst_size <= 8"
  legalIf (src.signd == false) "src_signd == 0"
  legalIf (isWidth src.size) "powerof2(src_size) && src_size <= 8"
  legalIf (dst.size = src.size) "dst_size == src_size"
  let a ← loadOpdNat s src
  storeOpdNat s dst (2 ^ (8 * dst.size) - 1 - a)

/-- `insn_oz` -/
def insnOz (s : State) (dst src : Opd) : M State := do
  legalIf (dst.signd == false) "dst_signd == 0"
  legalIf (dst.size = 1) "dst_size == 1"
  legalIf (isWidth src.size) "powerof2(src_size) && src_size <= 8"
  let a ← loadOpdNat s src
  storeOpdNat s dst (if a = 0 then 0 else 1)

/-- The number `++` or `--` leaves. -/
def incremented (dec : Bool) (o : Opd) (a : Nat) : Nat :=
  ofInt o.size (toInt o.signd o.size a + if dec then -1 else 1)

/-- `insn_inc_dec` -/
def insnIncDec (s : State) (dec : Bool) (dst : Opd) : M State := do
  legalIf (isWidth dst.size) "powerof2(dst_size) && dst_size <= 8"
  let a ← loadOpdNat s dst
  storeOpdNat s dst (incremented dec dst a)

/-- `insn_incp_decp` -/
def insnIncpDecp (s : State) (dec : Bool) (dst src : Opd) : M State := do
  legalIf (isWidth dst.size) "powerof2(dst_size) && dst_size <= 8"
  legalIf (src.signd == dst.signd) "src_signd == dst_signd"
  legalIf (isWidth src.size) "powerof2(src_size) && src_size <= 8"
  legalIf (dst.size = src.size) "dst_size == src_size"
  let a ← loadOpdNat s src
  let s' ← storeOpdNat s src (incremented dec src a)
  storeOpdNat s' dst a

/-- `insn_cjmp` -/
def insnCjmp (s : State) (jnz : Bool) (cond : Opd) (loc : Nat) : M State := do
  legalIf (cond.size > 0) "cond_size > 0"
  let a ← loadOpdNat s cond
  if (a = 0) ↔ (jnz = false) then return s.setVm { s.vm with ip := loc }
  else return nextIp s

/-- `insn_ref` -/
def insnRef (s : State) (dst src : Opd) : M State := do
  legalIf (dst.signd == false) "dst_signd == 0"
  legalIf (dst.indirect == false) "dst_indirect == 0"
  legalIf (dst.size = 8) "dst_size == 8"
  let l ← s.opdVal src
  let p ← orUb (s.addrOf l)
  storeWord s dst p

/-- `insn_drf` -/
def insnDrf (s : State) (dst src : Opd) : M State := do
  legalIf (dst.indirect == false) "dst_indirect == 0"
  legalIf (dst.size > 0) "dst_size > 0"
  legalIf (src.size = 8) "src_size == 8"
  let d ← s.opdVal dst
  let p ← loadWord s src
  s.memcpy d (.addr p) dst.size

/-! ### Calls -/

/-- The operand is an unsigned direct word of the given kind. -/
def isWord (k : OpdKind) (o : Opd) : Bool :=
  o.opd == k && o.signd == false && o.indirect == false && o.size == 8

/-- The tests of an operand that has to be such a word, `isKind` being the first of them. -/
def legalWord (k : OpdKind) (name isKind : String) (o : Opd) : M PUnit := do
  legalIf (o.opd == k) (name ++ isKind ++ " == 1")
  legalIf (o.signd == false) (name ++ "_signd == 0")
  legalIf (o.indirect == false) (name ++ "_indirect == 0")
  legalIf (o.size == 8) (name ++ "_size == 8")

/-- `insn_pushr` -/
def insnPushr (s : State) (val ssp : Opd) : M State := do
  legalWord .imm "retip" "_is_imm" val
  legalWord .temp "ssp" "_is_temp" ssp
  legalIf (s.vm.sp % 8 = 0) "vm->sp % 8 == 0"
  legalIf (s.vm.sp + 16 ≤ stackSize) "vm->sp + 16 <= STACK_SIZE"
  let sp := s.vm.sp
  let s' ← s.storeNat (.mem (.stack s.cur) sp) 8 val.off
  let s' ← s'.storeNat (.mem (.stack s.cur) (sp + 8)) 8 s.vm.bp
  let s' := s'.setVm { s'.vm with sp := sp + 16 }
  storeWord s' ssp (sp + 16)

/-- The `sp` a push rounds up, as `ALIGN_UP` does. -/
def alignedSp (sp : Nat) : Nat :=
  let sp := sp % 2 ^ 64
  sp + (if sp % 8 ≠ 0 then 8 - sp % 8 else 0)

/-- `insn_push` -/
def insnPush (s : State) (val : Opd) : M State := do
  legalIf (val.size > 0) "val_size > 0"
  legalIf (s.vm.sp % 8 = 0) "vm->sp % 8 == 0"
  legalIf ((s.vm.sp + val.size) % 2 ^ 64 ≤ stackSize) "vm->sp + val_size <= STACK_SIZE"
  let sp := s.vm.sp
  let l ← s.opdVal val
  let s' ← s.memcpy (.mem (.stack s.cur) sp) l val.size
  legalIf (alignedSp (sp + val.size) ≤ stackSize) "vm->sp <= STACK_SIZE"
  return s'.setVm { s'.vm with sp := alignedSp (sp + val.size) }

/-- `insn_call_callv` -/
def insnCall (s : State) (loc bp : Opd) : M State := do
  legalIf (loc.signd == false) "loc_signd == 0"
  legalIf (loc.size = 8) "loc_size == 8"
  legalWord .temp "bp" "_is_temp" bp
  let ip ← loadWord s loc
  let b ← loadWord s bp
  return s.setVm { s.vm with ip := ip, bp := b }

/-- A range of addresses meets none that is in use. -/
def apart (base size base' size' : Nat) : Bool :=
  decide (base + size ≤ base') || decide (base' + size' ≤ base)

/-- What the allocator promises of a new block: it is not null, inside the address space,
aligned, and apart from all that is in use. -/
def fresh (s : State) (base size : Nat) : Bool :=
  decide (base ≠ 0) && decide (base + size ≤ 2 ^ 64) && decide (base % 16 = 0) &&
    apart base size s.bssBase s.bssSize &&
    s.heap.all (fun b => apart base size b.base b.size) &&
    s.live.all (fun vm => apart base size vm (qvmSize + stackSize) &&
      (s.vms vm).temps.all fun f => apart base size (f.base - tmpFrameSize) (tmpFrameSize + f.size))

/-- The address of a new block, nothing if there is no memory. -/
def alloc (s : State) (base : Option Nat) (size : Nat) : Option Nat :=
  base.filter fun a => fresh s a size

/-- The quaint in a new frame. -/
def Qvm.enter (v : Qvm) (sp : Nat) (f : TmpFrame) : Qvm :=
  { v with atStart := false, sp := sp, temps := f :: v.temps }

/-- `insn_incsp` -/
def insnIncsp (inp : Inp) (s : State) (addend tsize : Opd) : M State := do
  legalWord .imm "addend" "_is_imm" addend
  legalWord .imm "tsize" "_is_imm" tsize
  legalIf (addend.off % 8 = 0) "addend % 8 == 0"
  let sp := (s.vm.sp + addend.off) % 2 ^ 64
  legalIf (sp ≤ stackSize) "vm->sp <= STACK_SIZE"
  legalIf (sp % 8 = 0) "vm->sp % 8 == 0"
  let base ← orNomem (alloc s inp.addr ((tmpFrameSize + tsize.off) % 2 ^ 64))
  -- a block of the wrapped size has no room for the link to the frame before
  ubUnless (decide (tmpFrameSize + tsize.off < 2 ^ 64))
  return s.setVm (Qvm.enter s.vm sp ⟨base + tmpFrameSize, tsize.off, inp.junk⟩)

/-- The tests and the frame of `insn_ret_retv`. -/
def leaveFrame (s : State) (size : Opd) : M State := do
  legalIf (s.vm.sp % 8 = 0) "vm->sp % 8 == 0"
  legalIf (s.vm.bp % 8 = 0) "vm->bp % 8 == 0"
  legalWord .imm "size" "_is_imm" size
  legalIf (s.vm.sp ≥ size.off) "vm->sp >= size"
  legalIf (!s.vm.temps.isEmpty) "vm->temps != NULL"
  return s.setVm { s.vm with sp := s.vm.sp - size.off }

/-- `insn_ret_retv` -/
def insnRet (o : Obj) (s : State) (val : Option Opd) (size : Opd) : M State := do
  let s' ← leaveFrame s size
  match val with
  | none => handleReturn o s' false []
  | some val => do
    let retval ← loadOpd s' val
    handleReturn o s' val.signd retval

/-! ### Quaints -/

/-- Go on with another quaint, whose parent becomes the one running. -/
def State.activate (s : State) (q : Nat) : State :=
  (s.setVms q { s.vms q with parent := s.cur }).setCur q

/-- The value of a quaint at its end, copied to the destination of a reap. -/
def copyValue (s : State) (dst : Option Opd) (q : Nat) : M State :=
  match dst with
  | some d => do
    let l ← s.opdVal d
    s.memcpy l (.mem (.stack q) 0) d.size
  | none => return s

/-- Zero, in the destination of a reap of null. -/
def zeroValue (s : State) (dst : Option Opd) : M State :=
  match dst with
  | some d => storeOpd s d (List.replicate d.size 0)
  | none => return s

/-- The tests `insn_rte_rtev` makes. -/
def reapLegal (dst : Option Opd) (src : Opd) : M PUnit := do
  match dst with
  | some d => do
    legalIf (d.indirect == false) "dst_indirect == 0"
    legalIf (d.size > 0) "dst_size > 0"
  | none => pure ⟨⟩
  legalIf (src.signd == false) "qnt_signd == 0"
  legalIf (src.size = 8) "qnt_size == 8"

/-- `insn_rte_rtev`; `dst` is there with a value -/
def insnRte (s : State) (dst : Option Opd) (src : Opd) : M State := do
  reapLegal dst src
  let q ← loadWord s src
  if q = 0 then do
    let s' ← zeroValue s dst
    return nextIp s'
  else do
    ubUnless (q ∈ s.live)
    if (s.vms q).atEnd then do
      let s' ← copyValue s dst q
      let s' ← storeWord (s'.release q) src 0
      return nextIp s'
    else return State.activate s q

/-- What `@` asks of a quaint. -/
def qatHolds (v : Qvm) (func wlabId : Nat) : Bool :=
  if func = 0 ∧ wlabId = 0 then v.atStart
  else if func = 1 then v.atEnd
  else v.lastFunc == func && v.lastId == wlabId

/-- `insn_qat` -/
def insnQat (s : State) (dst quaint : Opd) (func wlabId : Nat) : M State := do
  legalIf (dst.signd == false) "dst_signd == 0"
  legalIf (dst.indirect == false) "dst_indirect == 0"
  legalIf (dst.size = 1) "dst_size == 1"
  legalIf (quaint.signd == false) "qnt_signd == 0"
  legalIf (quaint.size = 8) "qnt_size == 8"
  let q ← loadWord s quaint
  if q = 0 then storeOpdNat s dst 0
  else do
    ubUnless (q ∈ s.live)
    storeOpdNat s dst (if qatHolds (s.vms q) func wlabId then 1 else 0)

/-- The nanoseconds of a timeout. -/
def timeoutNs (units : Bool) (t : Nat) : Nat :=
  t * (if units then 1000000000 else 1000000) % 2 ^ 64

/-- The flags `insn_wait` sets, and the two words it notes. -/
def Qvm.startWait (v : Qvm) (isFor isUntil noblock : Bool) (w0 w1 : Nat) : Qvm :=
  { v with
    waiting := true, waitingFor := isFor, waitingUntil := isUntil, waitingNoblock := noblock
    w0 := w0, w1 := w1 }

/-- The part of `insn_wait` after the early exits: note what is waited for, and switch. -/
def startWaiting (inp : Inp) (s : State) (q func wlabId : Nat) (noblock units : Bool)
    (timeout : Option Nat) : M State :=
  match timeout with
  | some t => do
    let now ← orNomem inp.clock1
    let s' := { s with now := now }
    return State.activate (s'.setVm (Qvm.startWait s.vm true false noblock now (timeoutNs units t))) q
  | none =>
    if func ≠ 0 then
      return State.activate (s.setVm (Qvm.startWait s.vm false true noblock func wlabId)) q
    else
      return State.activate (s.setVm (Qvm.startWait s.vm false false noblock s.vm.w0 s.vm.w1)) q

/-- The duration of a `wait ... for`. -/
def waitTimeout (s : State) (timeout : Opd) (hasTimeout : Bool) : M (Option Nat) :=
  if hasTimeout then do
    legalIf (timeout.signd == false) "tm_signd == 0"
    legalIf (isWidth timeout.size) "powerof2(tm_size) && tm_size <= 8"
    let t ← loadOpdNat s timeout
    return some t
  else return none

/-- `insn_wait` -/
def insnWait (inp : Inp) (s : State) (quaint timeout : Opd) (func wlabId : Nat)
    (noblock units hasTimeout : Bool) : M State := do
  legalIf (quaint.signd == false) "qnt_signd == 0"
  legalIf (quaint.size = 8) "qnt_size == 8"
  let q ← loadWord s quaint
  if q = 0 then return nextIp s
  else do
    ubUnless (q ∈ s.live)
    if (s.vms q).atEnd then return nextIp s
    else do
      let t ← waitTimeout s timeout hasTimeout
      if t = some 0 then return nextIp s
      else startWaiting inp s q func wlabId noblock units t

/-- `insn_getsp` -/
def insnGetsp (s : State) (dst : Opd) : M State := do
  legalWord .temp "dst" "_is_temp" dst
  storeWord s dst s.vm.sp

/-- A quaint `calloc` returned at `a`. -/
def State.addVm (s : State) (a : Nat) (v : Qvm) : State :=
  { s.setVms a v with live := a :: s.live }

/-- A quaint about to enter a function with the given arguments. -/
def newQuaint (loc : Nat) (args : List UInt8) : Qvm :=
  { Qvm.zero with
    ip := loc, bp := 16, sp := 16 + args.length, atStart := true
    stack := writeMem Qvm.zero.stack 16 args }

/-- A quaint at its end from the beginning. -/
def endedQuaint (value : List UInt8) : Qvm :=
  { Qvm.zero with atStart := true, atEnd := true, stack := writeMem Qvm.zero.stack 0 value }

/-- `insn_qnt` -/
def insnQnt (inp : Inp) (s : State) (dst loc sp : Opd) : M State := do
  legalIf (dst.signd == false) "dst_signd == 0"
  legalIf (dst.indirect == false) "dst_indirect == 0"
  legalIf (dst.size = 8) "dst_size == 8"
  legalIf (loc.signd == false) "loc_signd == 0"
  legalIf (loc.size = 8) "loc_size == 8"
  legalWord .temp "ssp" "_is_temp" sp
  let l ← loadWord s loc
  let ssp ← loadWord s sp
  let a ← orNomem (alloc s inp.addr (qvmSize + stackSize))
  ubUnless (ssp ≤ s.vm.sp)
  let args ← orUb (s.load (.mem (.stack s.cur) ssp) (s.vm.sp - ssp))
  ubUnless (16 + args.length ≤ stackSize)
  let s' ← storeWord (State.addVm s a (newQuaint l args)) dst a
  return s'.setVm { s'.vm with sp := ssp }

/-- `insn_qntv` -/
def insnQntv (inp : Inp) (s : State) (dst val : Opd) : M State := do
  legalIf (dst.signd == false) "dst_signd == 0"
  legalIf (dst.indirect == false) "dst_indirect == 0"
  legalIf (dst.size = 8) "dst_size == 8"
  legalIf (val.size > 0) "val_size > 0"
  let bs ← loadOpd s val
  let a ← orNomem (alloc s inp.addr (qvmSize + stackSize))
  ubUnless (bs.length ≤ stackSize)
  storeWord (State.addVm s a (endedQuaint bs)) dst a

/-! ### Built-in functions -/

/-- The bytes up to the terminator of a string. -/
def loadString (s : State) (p : Nat) : Option (List UInt8) :=
  match s.locate p with
  | none => none
  | some (r, off) =>
    match s.region r with
    | none => none
    | some (size, m) =>
      let bs := readMem m off (size - off)
      if 0 ∈ bs then some (bs.takeWhile (· ≠ 0)) else none

/-- The parameter of a built-in at an offset from `bp`. -/
def param (s : State) (off size : Nat) : M Nat := s.loadNat (.mem (.stack s.cur) (s.vm.bp + off)) size

/-- The tests each built-in with parameters makes, on the bytes it pops and reads. -/
def paramsLegal (s : State) (pops reads : Nat) : M PUnit := do
  legalIf (s.vm.sp ≥ 16 + pops) ("vm->sp >= 16 + " ++ toString pops)
  legalIf (s.vm.bp + reads ≤ stackSize) ("vm->bp + " ++ toString reads ++ " <= STACK_SIZE")

def popParams (s : State) (n : Nat) : State := s.setVm { s.vm with sp := s.vm.sp - n }

/-- A block for the program, with its address as the value returned. -/
def mallocBlock (inp : Inp) (s : State) (size : Nat) (m : Mem) : State × Nat :=
  match alloc s inp.addr size with
  | some a => ({ s with heap := ⟨a, size, m⟩ :: s.heap }, a)
  | none => (s, 0)

/-- `realloc`; to no bytes it is `free`. -/
def reallocBlock (inp : Inp) (s : State) (old size : Nat) : Option State :=
  if old = 0 then some (mallocBlock inp s size inp.junk).1
  else
    (s.heap.find? fun b => b.base == old).map fun b =>
      let freed := { s with heap := s.heap.filter fun b => b.base != old }
      if size = 0 then freed
      else
        let r := mallocBlock inp freed size fun i => if i < b.size then b.mem i else inp.junk i
        if r.2 = 0 then s else r.1

lemma mallocBlock_heap (inp : Inp) (s : State) (size : Nat) (m : Mem) :
    ∃ heap, (mallocBlock inp s size m).1 = { s with heap := heap } := by
  unfold mallocBlock
  split
  · exact ⟨_, rfl⟩
  · exact ⟨s.heap, rfl⟩

/-- `realloc` leaves all but the blocks as it is. -/
lemma reallocBlock_heap {inp : Inp} {s s' : State} {old size : Nat}
    (h : reallocBlock inp s old size = some s') : ∃ heap, s' = { s with heap := heap } := by
  unfold reallocBlock at h
  split at h
  · obtain rfl := Option.some.inj h
    exact mallocBlock_heap inp s size inp.junk
  · obtain ⟨b, -, rfl⟩ := Option.map_eq_some_iff.mp h
    dsimp only
    split
    · exact ⟨_, rfl⟩
    · split
      · exact ⟨s.heap, rfl⟩
      · obtain ⟨heap, h1⟩ := mallocBlock_heap inp { s with heap := s.heap.filter fun b => b.base != old } size _
        exact ⟨heap, h1⟩

/-- `free` -/
def freeBlock (s : State) (p : Nat) : Option State :=
  if p = 0 then some s
  else if s.heap.any (fun b => b.base == p) then
    some { s with heap := s.heap.filter fun b => b.base != p }
  else if p ∈ s.live ∧ p ≠ s.cur then some { s with live := s.live.erase p }
  else none

/-- `printf` of a number. -/
def printNum (s : State) (signd : Bool) (size : Nat) : M State := do
  paramsLegal s 8 size
  let a ← param s 0 size
  return { popParams s 8 with out := s.out ++ [.num (toInt signd size a)] }

/-- The body of a built-in, with the value it returns. `malloc` and its kin return through a pointer
to a variable whose block has ended, so it is not known what their callers get. -/
def bfunBody (inp : Inp) (s : State) : M (State × List UInt8) :=
  match s.vm.ip with
  | 0 => .error (.illegal "null function call")
  | 1 => do
    let now ← orNomem inp.clock1
    return ({ s with now := now }, leBytes 8 now)
  | 2 => do
    paramsLegal s 8 8
    let size ← param s 0 8
    let r := mallocBlock inp s size inp.junk
    return (popParams r.1 8, leBytes 8 inp.gone)
  | 3 => do
    paramsLegal s 8 8
    let size ← param s 0 8
    let r := mallocBlock inp s size fun _ => 0
    return (popParams r.1 8, leBytes 8 inp.gone)
  | 4 => do
    paramsLegal s 16 16
    let old ← param s 0 8
    let size ← param s 8 8
    let s' ← orUb (reallocBlock inp s old size)
    return (popParams s' 16, leBytes 8 inp.gone)
  | 5 => do
    paramsLegal s 8 8
    let p ← param s 0 8
    let s' ← orUb (freeBlock s p)
    return (popParams s' 8, [])
  | 6 => do
    paramsLegal s 8 8
    let p ← param s 0 8
    let str ← orUb (loadString s p)
    return ({ popParams s 8 with out := s.out ++ [.bytes str] }, [])
  | 7 => do return (← printNum s false 1, [])
  | 8 => do return (← printNum s true 1, [])
  | 9 => do return (← printNum s false 2, [])
  | 10 => do return (← printNum s true 2, [])
  | 11 => do return (← printNum s false 4, [])
  | 12 => do return (← printNum s true 4, [])
  | 13 => do return (← printNum s false 8, [])
  | 14 => do return (← printNum s true 8, [])
  | 15 => return ({ s with out := s.out ++ [.bytes [10]] }, [])
  | 16 => do
    paramsLegal s 8 4
    let a ← param s 0 4
    .error (.exit (toInt true 4 a))
  | _ => return (s, [])

/-- The frame of temporaries of a built-in. -/
def leaveBfun (inp : Inp) (s : State) (base : Nat) : State :=
  s.setVm { s.vm with
    sp := s.vm.sp - 16
    temps := ⟨base + tmpFrameSize, 0, inp.junk⟩ :: s.vm.temps }

/-- `insn_bfun` -/
def insnBfun (inp : Inp) (o : Obj) (s : State) : M State := do
  legalIf (s.vm.sp % 8 = 0) "vm->sp % 8 == 0"
  legalIf (s.vm.bp % 8 = 0) "vm->bp % 8 == 0"
  legalIf (s.vm.sp ≥ 16) "vm->sp >= 16"
  let r ← bfunBody inp s
  let base ← orNomem inp.frameAddr
  handleReturn o (leaveBfun inp r.1 base) false r.2

/-! ### The loop -/

/-- Whether the wait of an ancestor is over; `old` is the quaint below it. -/
def splits (now : Nat) (old v : Qvm) : Bool :=
  v.waiting &&
    if v.waitingFor then decide (v.w1 ≤ (2 ^ 64 + now - v.w0) % 2 ^ 64)
    else v.waitingUntil && old.lastFunc == v.w0 && old.lastId == v.w1

/-- The loop over the ancestors in `check_and_eventually_split_vms`: the quaint to go on
with, if any. -/
def splitLoop (s : State) : Nat → Nat → Nat → Bool → M (Option Nat)
  | 0, _, _, _ => .error .hang
  | fuel + 1, oldVm, currentVm, noint =>
    if currentVm = 0 ∨ noint = true then .ok none
    else if currentVm ∉ s.live then .error .ub
    else if splits s.now (s.vms oldVm) (s.vms currentVm) then .ok (some currentVm)
    else splitLoop s fuel currentVm (s.vms currentVm).parent (s.vms currentVm).noint

/-- The loop that goes on for longer than this has met one quaint twice below the same
`old_vm`, and never ends. -/
def splitFuel (s : State) : Nat := 2 * s.live.length + 2

/-- `split` done: the quaint goes on after its `wait`. -/
def splitTo (s : State) (a : Nat) : State :=
  (s.setVms a (Qvm.advance (Qvm.notWaiting (s.vms a)))).setCur a

/-- The reading of the clock, every 200 cycles; nothing if it failed. -/
def readClock (inp : Inp) (s : State) : Option State :=
  if s.cycles % 200 = 0 then inp.clock2.map fun now => { s with cycles := s.cycles + 1, now := now }
  else some { s with cycles := s.cycles + 1 }

/-- `check_and_eventually_split_vms` -/
def checkAndEventuallySplitVms (inp : Inp) (s : State) : M State :=
  match readClock inp s with
  | none => return { s with cycles := s.cycles + 1 }
  | some s => do
    ubUnless (s.cur ∈ s.live)
    let split ← splitLoop s (splitFuel s) s.cur s.vm.parent s.vm.noint
    match split with
    | none => return s
    | some a => return splitTo s a

/-- `exec_insn`, before the scheduler looks -/
def execInsn (inp : Inp) (o : Obj) (s : State) : Insn → M State
  | .nop => return nextIp s
  | .mov d a => nextIp <$> insnMov s d a
  | .cast d a => nextIp <$> insnCast s d a
  | .arith op d a b => nextIp <$> insnBinArith s op d a b
  | .equ neq d a b => nextIp <$> insnEquNeq s neq d a b
  | .cmp op d a b => nextIp <$> insnBinLogic s op d a b
  | .not d a => nextIp <$> insnNot s d a
  | .neg d a => nextIp <$> insnNeg s d a
  | .bneg d a => nextIp <$> insnBneg s d a
  | .oz d a => nextIp <$> insnOz s d a
  | .inc dec d => nextIp <$> insnIncDec s dec d
  | .incp dec d a => nextIp <$> insnIncpDecp s dec d a
  | .jz jnz c loc => insnCjmp s jnz c loc
  | .jmp loc => return s.setVm { s.vm with ip := loc }
  | .pushr v ssp => nextIp <$> insnPushr s v ssp
  | .push v => nextIp <$> insnPush s v
  | .call loc bp => insnCall s loc bp
  | .callv _ loc bp => insnCall s loc bp
  | .incsp a t => nextIp <$> insnIncsp inp s a t
  | .ret size => insnRet o s none size
  | .retv v size => insnRet o s (some v) size
  | .ref d a => nextIp <$> insnRef s d a
  | .drf d a => nextIp <$> insnDrf s d a
  | .rte a => insnRte s none a
  | .rtev d a => insnRte s (some d) a
  | .qat d q func id => nextIp <$> insnQat s d q func id
  | .wait q t func id noblock units hasTimeout =>
    insnWait inp s q t func id noblock units hasTimeout
  | .wlab func id => return nextIp (s.setVm { s.vm with lastFunc := func, lastId := id })
  | .getsp d => nextIp <$> insnGetsp s d
  | .qnt d loc sp => nextIp <$> insnQnt inp s d loc sp
  | .qntv d v => nextIp <$> insnQntv inp s d v
  | .noint => return nextIp (s.setVm { s.vm with noint := true })
  | .int => return nextIp (s.setVm { s.vm with noint := false })
  | .bfun => insnBfun inp o s

/-- One round of the loop of `exec`. -/
def step (inp : Inp) (o : Obj) (s : State) : M State := do
  ubUnless (s.cur ∈ s.live)
  let insn ← orUb o.insns[s.vm.ip]?
  let s' ← execInsn inp o s insn
  let s' ← checkAndEventuallySplitVms inp s'
  legalIf (s'.vm.ip ≤ o.insnCount) "vm->ip <= o->insn_count"
  if s'.vm.ip < o.insnCount then return s' else .error (.exit 0)

/-- The state in which the loop starts; `a` and `b` are the addresses of the first quaint
and of the global data. -/
def initState (o : Obj) (a b : Nat) : State :=
  let main := { Qvm.zero with
    ip := 17, sp := 16, bp := 16, stack := writeMem Qvm.zero.stack 0 (leBytes 8 o.insnCount) }
  { live := [a], vms := fun x => if x = a then main else Qvm.zero, cur := a, now := 0, cycles := 0
    bssBase := b, bssSize := (o.dataSize + o.strings.length) % 2 ^ 64
    bss := writeMem (fun _ => 0) o.dataSize o.strings, heap := [], out := [] }

end Quaint.Step
