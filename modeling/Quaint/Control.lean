import Quaint.Step
import Quaint.Ancestry

/-!
The control of the machine: what is left of a state when the memory is taken away, and the
moves an instruction can make on it.

A thread is a quaint without its stack and without the contents of its temporaries. The
words an instruction loads are choices of the control machine, less the handle and the
duration a `wait` or a reap finds and the pointer `free` is given, which are parameters.
-/

namespace Quaint.Control

open Relation Bytes Code Exec Step Ancestry

/-! ### Control states -/

structure Thread where
  parent : Nat
  ip : Nat
  sp : Nat
  bp : Nat
  atStart : Bool
  atEnd : Bool
  noint : Bool
  waiting : Bool
  waitingFor : Bool
  waitingUntil : Bool
  w0 : Nat
  w1 : Nat
  lastFunc : Nat
  lastId : Nat
  depth : Nat

structure Ctl where
  live : List Nat
  threads : Nat → Thread
  cur : Nat
  now : Nat

def thread (v : Qvm) : Thread :=
  ⟨v.parent, v.ip, v.sp, v.bp, v.atStart, v.atEnd, v.noint, v.waiting, v.waitingFor,
    v.waitingUntil, v.w0, v.w1, v.lastFunc, v.lastId, v.temps.length⟩

def ctl (s : State) : Ctl := ⟨s.live, fun a => thread (s.vms a), s.cur, s.now⟩

namespace Ctl

/-- The running thread. -/
def this (c : Ctl) : Thread := c.threads c.cur

/-- The parent of a thread, if it has one. -/
def parent (c : Ctl) (a : Nat) : Option Nat :=
  if (c.threads a).parent = 0 then none else some (c.threads a).parent

def set (c : Ctl) (a : Nat) (t : Thread) : Ctl :=
  { c with threads := fun x => if x = a then t else c.threads x }

def setThis (c : Ctl) (t : Thread) : Ctl := c.set c.cur t

def setCur (c : Ctl) (a : Nat) : Ctl := { c with cur := a }

def release (c : Ctl) (a : Nat) : Ctl := { c with live := c.live.erase a }

def setNow (c : Ctl) (now : Nat) : Ctl := { c with now := now }

/-- Go on with another thread, below the one running. -/
def activate (c : Ctl) (q : Nat) : Ctl :=
  (c.set q { c.threads q with parent := c.cur }).setCur q

variable (c : Ctl) (a b : Nat) (t : Thread)

@[simp] lemma set_cur : (c.set a t).cur = c.cur := rfl
@[simp] lemma set_threads_self : (c.set a t).threads a = t := by simp [set]
@[simp] lemma set_threads_ne {a b : Nat} (h : b ≠ a) : (c.set a t).threads b = c.threads b := by
  simp [set, h]
@[simp] lemma setThis_cur : (c.setThis t).cur = c.cur := rfl
@[simp] lemma setThis_this : (c.setThis t).this = t := by simp [setThis, this]
@[simp] lemma setCur_threads : (c.setCur a).threads = c.threads := rfl
@[simp] lemma release_cur : (c.release a).cur = c.cur := rfl

end Ctl

namespace Thread

def advance (t : Thread) : Thread := { t with ip := t.ip + 1 }

def notWaiting (t : Thread) : Thread :=
  { t with waiting := false, waitingFor := false, waitingUntil := false }

def ended (t : Thread) : Thread := { t with atEnd := true, lastFunc := 0, lastId := 0, depth := 0 }

def startWait (t : Thread) (isFor isUntil : Bool) (w0 w1 : Nat) : Thread :=
  { t with
    waiting := true, waitingFor := isFor, waitingUntil := isUntil
    w0 := w0, w1 := w1 }

end Thread

/-! ### Moves -/

/-- The instruction is a reap. -/
def isReap : Insn → Bool
  | .rte _ | .rtev _ _ => true
  | _ => false

def isWait : Insn → Bool
  | .wait _ _ _ _ _ _ _ => true
  | _ => false

/-- The moves of an instruction that leave everything but the running thread alone. Without
entry are those that return or make a quaint. -/
def OwnMove (i : Insn) (t t' : Thread) : Prop :=
  match i with
  | .jz _ _ loc => t' = { t with ip := loc } ∨ t' = t.advance
  | .jmp loc => t' = { t with ip := loc }
  | .pushr _ _ => t' = { t.advance with sp := t.sp + 16 }
  | .push v => t' = { t.advance with sp := alignedSp (t.sp + v.size) }
  | .call _ _ | .callv _ _ _ => ∃ ip bp, t' = { t with ip := ip, bp := bp }
  | .incsp a _ =>
    t' = { t.advance with
      atStart := false, sp := (t.sp + a.off) % 2 ^ 64, depth := t.depth + 1 }
  | .wlab func id => t' = { t.advance with lastFunc := func, lastId := id }
  | .noint => t' = { t.advance with noint := true }
  | .int => t' = { t.advance with noint := false }
  | .ret _ | .retv _ _ | .bfun | .qnt _ _ _ | .qntv _ _ => False
  | _ => t' = t.advance

/-- `handle_return`, from a thread whose `sp` is already that of the frame it returns to. -/
inductive Return (o : Obj) (c : Ctl) : Ctl → Prop
  | caller (ip bp : Nat) (hsp : c.this.sp ≠ 0) (hip : ip < o.insnCount) :
    Return o c (c.setThis { c.this with ip := ip + 1, bp := bp, depth := c.this.depth - 1 })
  | main (ip bp : Nat) (hsp : c.this.sp = 0) (hp : c.this.parent = 0) :
    Return o c (c.setThis { c.this with ip := ip, bp := bp, depth := 0 })
  | reap (i : Insn) (hsp : c.this.sp = 0) (hp : c.this.parent ≠ 0) (hlive : c.this.parent ∈ c.live)
    (hi : o.insns[(c.threads c.this.parent).ip]? = some i) (hreap : isReap i) :
    Return o c (((c.release c.cur).setCur c.this.parent).setThis
      (c.threads c.this.parent).advance)
  | wait (i : Insn) (hsp : c.this.sp = 0) (hp : c.this.parent ≠ 0) (hlive : c.this.parent ∈ c.live)
    (hi : o.insns[(c.threads c.this.parent).ip]? = some i) (hwait : isWait i) :
    Return o c
      (let c' := (c.setThis c.this.ended).setCur c.this.parent
       c'.setThis c'.this.notWaiting.advance)

/-- The words an instruction finds: the handle and the duration of a `wait` or a reap, and
what `free` is given. -/
structure Words where
  handle : Option Nat
  timeout : Option Nat
  freed : Option Nat

/-- A `wait` with nothing to wait for. -/
def EarlyExit (c : Ctl) (w : Words) : Prop :=
  w.handle = some 0 ∨ (∃ q ∈ w.handle, (c.threads q).atEnd = true) ∨ w.timeout = some 0

/-- What an instruction can do, given the words it finds. -/
inductive Exec (o : Obj) (i : Insn) (w : Words) (c : Ctl) : Ctl → Prop
  | own (t : Thread) (h : OwnMove i c.this t) (hreap : isReap i → w.handle = some 0)
    (hwait : isWait i → EarlyExit c w) :
    Exec o i w c (c.setThis t)
  | reapEnded (q : Nat) (hi : isReap i) (hq : w.handle = some q) (h0 : q ≠ 0) (hlive : q ∈ c.live)
    (hend : (c.threads q).atEnd = true) :
    Exec o i w c ((c.release q).setThis c.this.advance)
  | reap (q : Nat) (hi : isReap i) (hq : w.handle = some q) (h0 : q ≠ 0) (hlive : q ∈ c.live)
    (hend : (c.threads q).atEnd = false) :
    Exec o i w c (c.activate q)
  | wait (q now w0 w1 : Nat) (isFor isUntil : Bool) (hi : isWait i) (hq : w.handle = some q)
    (h0 : q ≠ 0) (hlive : q ∈ c.live) (hend : (c.threads q).atEnd = false) :
    Exec o i w c
      (((c.setNow now).setThis (c.this.startWait isFor isUntil w0 w1)).activate q)
  | qnt (dst loc ssp : Opd) (a ip sp n : Nat) (hi : i = .qnt dst loc ssp) (h0 : a ≠ 0)
    (hnew : a ∉ c.live) (hcur : c.cur ≠ a) :
    Exec o i w c
      (({ c.set a (thread { Qvm.zero with ip := ip, bp := 16, sp := 16 + n, atStart := true }) with
          live := a :: c.live }).setThis { c.this.advance with sp := sp })
  | qntv (dst val : Opd) (a : Nat) (hi : i = .qntv dst val) (h0 : a ≠ 0) (hnew : a ∉ c.live)
    (hcur : c.cur ≠ a) :
    Exec o i w c
      (({ c.set a (thread { Qvm.zero with atStart := true, atEnd := true }) with
          live := a :: c.live }).setThis c.this.advance)
  | ret (size : Opd) (hi : i = .ret size ∨ ∃ v, i = .retv v size) (hsp : size.off ≤ c.this.sp)
    (c' : Ctl) (h : Return o (c.setThis { c.this with sp := c.this.sp - size.off }) c') :
    Exec o i w c c'
  | bfun (now n : Nat) (live : List Nat) (hi : i = .bfun)
    (hlive : live = c.live ∨ ∃ p, w.freed = some p ∧ p ≠ c.cur ∧ live = c.live.erase p)
    (hsp : n + 16 ≤ c.this.sp) (c' : Ctl)
    (h : Return o (({ c with live := live, now := now }).setThis
      { c.this with sp := c.this.sp - n - 16, depth := c.this.depth + 1 }) c') :
    Exec o i w c c'

/-! ### The scheduler -/

/-- What the scheduler can do: nothing but read the clock, or go on with a waiting thread above
the one running. -/
inductive Sched (c : Ctl) : Ctl → Prop
  | stay (now : Nat) : Sched c (c.setNow now)
  | split (now a : Nat) (hanc : TransGen (IsParent c.parent) c.cur a) (hwait : (c.threads a).waiting = true)
    (hlive : a ∈ c.live) :
    Sched c (((c.setNow now).set a (c.threads a).notWaiting.advance).setCur a)

end Quaint.Control
