import Quaint.Bytes
import Quaint.Code

/-!
The virtual machine.

A machine owns the stack of every quaint, the frames of temporaries, the global data and
the blocks `malloc` returned. An operand is turned into a place, as `opd_val` does; a place
is read or written only inside one of those regions, and everything else (the header of a
quaint, freed memory, a wild pointer) is undefined behaviour. Clock readings, allocated
addresses and the contents of fresh memory are inputs of a step. Two's complement numbers
wrap around. Tests on one-bit fields that cannot fail are left out.
-/

namespace Quaint.Exec

open Bytes Code

/-! ### State -/

/-- `sizeof(struct qvm)` -/
def qvmSize : Nat := 80
/-- `STACK_SIZE` -/
def stackSize : Nat := 16304
/-- `sizeof(struct tmp_frame)` -/
def tmpFrameSize : Nat := 8

/-- `struct tmp_frame`, with the size it was allocated with; `base` is the address of `mem`. -/
structure TmpFrame where
  base : Nat
  size : Nat
  mem : Mem

/-- `struct qvm`. `w0` and `w1` are the two words shared by `wait_for` and `wait_until`. -/
structure Qvm where
  parent : Nat
  ip : Nat
  sp : Nat
  bp : Nat
  atStart : Bool
  atEnd : Bool
  noint : Bool
  waiting : Bool
  waitingFor : Bool
  waitingUntil : Bool
  waitingNoblock : Bool
  w0 : Nat
  w1 : Nat
  lastFunc : Nat
  lastId : Nat
  temps : List TmpFrame
  stack : Mem

/-- A quaint as `calloc` returns it. -/
def Qvm.zero : Qvm :=
  ⟨0, 0, 0, 0, false, false, false, false, false, false, false, 0, 0, 0, 0, [], fun _ => 0⟩

/-- A block `malloc` returned to the program. -/
structure Block where
  base : Nat
  size : Nat
  mem : Mem

/-- What the program printed. -/
inductive Out
  | bytes (s : List UInt8)
  | num (n : Int)
  deriving DecidableEq

structure State where
  live : List Nat
  vms : Nat → Qvm
  cur : Nat
  now : Nat
  cycles : Nat
  bssBase : Nat
  bssSize : Nat
  bss : Mem
  heap : List Block
  out : List Out

/-- The running quaint. -/
def State.vm (s : State) : Qvm := s.vms s.cur

def State.setVms (s : State) (a : Nat) (v : Qvm) : State :=
  { s with vms := fun x => if x = a then v else s.vms x }

def State.setVm (s : State) (v : Qvm) : State := s.setVms s.cur v

def State.setCur (s : State) (a : Nat) : State := { s with cur := a }

/-- `free` of a quaint. -/
def State.release (s : State) (a : Nat) : State := { s with live := s.live.erase a }

/-- The inputs of a step: two clock readings, the address `malloc` or `calloc` returns, the
address of the temporaries of a built-in, the contents of fresh memory, and what is read where the
variable `mem` of `insn_bfun` was, after the end of its block. -/
structure Inp where
  clock1 : Option Nat
  clock2 : Option Nat
  addr : Option Nat
  frameAddr : Option Nat
  junk : Mem
  gone : Nat

/-- Why a run ends. -/
inductive Stop
  | illegal (cond : String)
  | nomem
  | exit (status : Int)
  | ub
  | hang
  deriving DecidableEq

abbrev M := Except Stop

/-- `LEGAL_IF` -/
def legalIf (c : Bool) (cond : String) : M PUnit := if c then .ok ⟨⟩ else .error (.illegal cond)

/-- Go on unless what follows has no meaning. -/
def ubUnless (c : Bool) : M PUnit := if c then .ok ⟨⟩ else .error .ub

def orUb {α : Type} : Option α → M α
  | some a => .ok a
  | none => .error .ub

def orNomem {α : Type} : Option α → M α
  | some a => .ok a
  | none => .error .nomem

/-! ### Places -/

/-- The regions of memory. A frame of temporaries is counted from the oldest one. -/
inductive Region
  | stack (vm : Nat)
  | temp (vm depth : Nat)
  | bss
  | heap (base : Nat)
  deriving DecidableEq

/-- What `opd_val` returns: an immediate, a place in a region, or a pointer read from memory. -/
inductive Loc
  | imm (v : Nat)
  | mem (r : Region) (off : Nat)
  | addr (p : Nat)
  deriving DecidableEq

/-- The frame of temporaries at a depth. -/
def frameAt (temps : List TmpFrame) (depth : Nat) : Option TmpFrame :=
  if depth < temps.length then temps[temps.length - 1 - depth]? else none

/-- The size and contents of a region. -/
def State.region (s : State) : Region → Option (Nat × Mem)
  | .stack vm => if vm ∈ s.live then some (stackSize, (s.vms vm).stack) else none
  | .temp vm depth =>
    if vm ∈ s.live then (frameAt (s.vms vm).temps depth).map fun f => (f.size, f.mem) else none
  | .bss => some (s.bssSize, s.bss)
  | .heap base => (s.heap.find? (fun b => b.base == base)).map fun b => (b.size, b.mem)

def State.setRegion (s : State) (r : Region) (m : Mem) : State :=
  match r with
  | .stack vm => s.setVms vm { s.vms vm with stack := m }
  | .temp vm depth =>
    let temps := (s.vms vm).temps
    s.setVms vm { s.vms vm with
      temps := temps.modify (temps.length - 1 - depth) fun f => { f with mem := m } }
  | .bss => { s with bss := m }
  | .heap base =>
    { s with heap := s.heap.map fun b => if b.base = base then { b with mem := m } else b }

/-- The frame of temporaries of a quaint that holds an address, with the offset there. -/
def locateFrame (vm p : Nat) : List TmpFrame → Option (Region × Nat)
  | [] => none
  | f :: fs =>
    if f.base ≤ p ∧ p < f.base + f.size then some (.temp vm fs.length, p - f.base)
    else locateFrame vm p fs

def locateVm (s : State) (p : Nat) : List Nat → Option (Region × Nat)
  | [] => none
  | vm :: vms =>
    if vm + qvmSize ≤ p ∧ p < vm + qvmSize + stackSize then some (.stack vm, p - (vm + qvmSize))
    else
      match locateFrame vm p (s.vms vm).temps with
      | some l => some l
      | none => locateVm s p vms

/-- The region that holds an address, with the offset there. -/
def State.locate (s : State) (p : Nat) : Option (Region × Nat) :=
  if s.bssBase ≤ p ∧ p < s.bssBase + s.bssSize then some (.bss, p - s.bssBase)
  else
    match s.heap.find? (fun b => decide (b.base ≤ p ∧ p < b.base + b.size)) with
    | some b => some (.heap b.base, p - b.base)
    | none => locateVm s p s.live

/-- The address of a place. -/
def State.addrOf (s : State) : Loc → Option Nat
  | .imm _ => none
  | .mem (.stack vm) off => some (vm + qvmSize + off)
  | .mem (.temp vm depth) off => (frameAt (s.vms vm).temps depth).map fun f => f.base + off
  | .mem .bss off => some (s.bssBase + off)
  | .mem (.heap base) off => some (base + off)
  | .addr p => some p

/-- The region and offset of a place. -/
def State.place (s : State) : Loc → Option (Region × Nat)
  | .imm _ => none
  | .mem r off => some (r, off)
  | .addr p => s.locate p

/-- Read `n` bytes. -/
def State.load (s : State) (l : Loc) (n : Nat) : Option (List UInt8) :=
  match l with
  | .imm v => if n ≤ 8 then some (leBytes n v) else none
  | l =>
    match s.place l with
    | none => none
    | some (r, off) =>
      match s.region r with
      | none => none
      | some (size, m) => if off + n ≤ size then some (readMem m off n) else none

/-- Write some bytes. -/
def State.store (s : State) (l : Loc) (bs : List UInt8) : Option State :=
  match s.place l with
  | none => none
  | some (r, off) =>
    match s.region r with
    | none => none
    | some (size, m) =>
      if off + bs.length ≤ size then some (s.setRegion r (writeMem m off bs)) else none

def State.loadNat (s : State) (l : Loc) (n : Nat) : M Nat := orUb ((s.load l n).map leNat)

def State.storeNat (s : State) (l : Loc) (n v : Nat) : M State := orUb (s.store l (leBytes n v))

/-- `memcpy`. The source is read first, which is what copying forward does wherever the two
ranges do not overlap or the destination is the lower one. -/
def State.memcpy (s : State) (dst src : Loc) (n : Nat) : M State := do
  let bs ← orUb (s.load src n)
  orUb (s.store dst bs)

/-- The `base` of `opd_val`. -/
def State.opdBase (s : State) (o : Opd) : M Loc :=
  match o.opd with
  | .imm => .ok (.imm o.off)
  | .temp =>
    match s.vm.temps with
    | [] => .error .ub
    | _ :: prev => .ok (.mem (.temp s.cur prev.length) o.off)
  | .auto => .ok (.mem (.stack s.cur) (s.vm.bp + o.off))
  | .glob => .ok (.mem .bss o.off)

/-- `opd_val` -/
def State.opdVal (s : State) (o : Opd) : M Loc := do
  let base ← s.opdBase o
  if o.indirect then do
    let p ← s.loadNat base 8
    return .addr p
  else return base

/-- `powerof2(size) && size <= 8` -/
def isWidth (n : Nat) : Bool := n == 1 || n == 2 || n == 4 || n == 8

/-! ### Arithmetic -/

/-- The number of `size` bytes that a bit pattern stands for. -/
def toInt (signd : Bool) (size a : Nat) : Int :=
  if signd && decide (2 ^ (8 * size - 1) ≤ a) then (a : Int) - 2 ^ (8 * size) else a

/-- The bit pattern of `size` bytes of a number. -/
def ofInt (size : Nat) (z : Int) : Nat := (z % 2 ^ (8 * size)).toNat

/-- The width the operands of a shift are promoted to. -/
def promoted (size : Nat) : Nat := if size = 8 then 64 else 32

/-- `ARITH_OP`, nothing where the C expression traps or has no meaning -/
def arithOp (op : ArithOp) (signd : Bool) (size a b : Nat) : Option Nat :=
  let x := toInt signd size a
  let y := toInt signd size b
  let overflows := signd && decide (4 ≤ size) && decide (x = -(2 ^ (8 * size - 1))) && decide (y = -1)
  match op with
  | .add => some (ofInt size (x + y))
  | .sub => some (ofInt size (x - y))
  | .mul => some (ofInt size (x * y))
  | .div => if y = 0 ∨ overflows = true then none else some (ofInt size (x.tdiv y))
  | .mod => if y = 0 ∨ overflows = true then none else some (ofInt size (x.tmod y))
  | .lsh =>
    if x < 0 ∨ y < 0 ∨ (promoted size : Int) ≤ y then none
    else some (ofInt size (x * 2 ^ y.toNat))
  | .rsh =>
    if y < 0 ∨ (promoted size : Int) ≤ y then none else some (ofInt size (x / 2 ^ y.toNat))
  | .and => some (a &&& b)
  | .xor => some (a ^^^ b)
  | .or => some (a ||| b)

/-- `LOGIC_OP` -/
def cmpOp (op : CmpOp) (x y : Int) : Bool :=
  match op with
  | .lt => x < y
  | .gt => x > y
  | .lte => x ≤ y
  | .gte => x ≥ y

end Quaint.Exec
