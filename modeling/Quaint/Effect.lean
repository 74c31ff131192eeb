import Quaint.Control
import Quaint.Partial

/-!
What a step of the machine does to its control.

`ctl_execInsn` maps every instruction of the machine to a move of the control machine, so
that an invariant of the moves is one of the runs.
-/

namespace Quaint.Effect

open Relation Bytes Code Exec Step Control Partial Ancestry

/-! ### Tests and partial functions -/

section Tests

variable {α : Type}

lemma legalIf_eq_ok {c : Bool} {t : String} {u : PUnit} : legalIf c t = .ok u ↔ c = true := by
  cases c <;> simp [legalIf]

lemma ubUnless_eq_ok {c : Bool} {u : PUnit} : ubUnless c = .ok u ↔ c = true := by
  cases c <;> simp [ubUnless]

lemma orUb_eq_ok {x : Option α} {a : α} : orUb x = .ok a ↔ x = some a := by
  cases x <;> simp [orUb]

lemma orNomem_eq_ok {x : Option α} {a : α} : orNomem x = .ok a ↔ x = some a := by
  cases x <;> simp [orNomem]

end Tests

/-! ### Memory leaves control alone -/

@[simp] lemma ctl_setVms (s : State) (a : Nat) (v : Qvm) :
    ctl (s.setVms a v) = (ctl s).set a (thread v) := by
  simp only [ctl, State.setVms, Ctl.set, Ctl.mk.injEq, true_and, and_true]
  funext x
  split <;> rfl

@[simp] lemma ctl_setVm (s : State) (v : Qvm) :
    ctl (s.setVm v) = (ctl s).setThis (thread v) := ctl_setVms s s.cur v

@[simp] lemma ctl_setCur (s : State) (a : Nat) : ctl (s.setCur a) = (ctl s).setCur a := rfl

@[simp] lemma ctl_release (s : State) (a : Nat) : ctl (s.release a) = (ctl s).release a := rfl

lemma ctl_set_self (c : Ctl) (a : Nat) : c.set a (c.threads a) = c := by
  simp only [Ctl.set]
  congr
  funext x
  split
  · simp [*]
  · rfl

@[simp] lemma ctl_setRegion (s : State) (r : Region) (m : Mem) : ctl (s.setRegion r m) = ctl s := by
  cases r with
  | stack vm =>
    rw [State.setRegion, ctl_setVms]
    exact ctl_set_self (ctl s) vm
  | temp vm depth =>
    rw [State.setRegion, ctl_setVms]
    have h : thread { s.vms vm with
        temps := (s.vms vm).temps.modify ((s.vms vm).temps.length - 1 - depth)
          fun f => { f with mem := m } } = (ctl s).threads vm := by
      simp [thread, ctl]
    exact (congrArg ((ctl s).set vm) h).trans (ctl_set_self (ctl s) vm)
  | bss => rfl
  | heap base => rfl

lemma store_eq_some {s s' : State} {l : Loc} {bs : List UInt8} :
    s.store l bs = some s' ↔ ∃ r off size m, s.place l = some (r, off) ∧
      s.region r = some (size, m) ∧ off + bs.length ≤ size ∧
      s' = s.setRegion r (writeMem m off bs) := by
  unfold State.store
  cases hp : s.place l with
  | none => simp
  | some p =>
    obtain ⟨r, off⟩ := p
    cases hr : s.region r with
    | none => simp [hr]
    | some q =>
      obtain ⟨size, m⟩ := q
      simp only [hr, Option.some.injEq, Prod.mk.injEq, Option.ite_none_right_eq_some]
      constructor
      · rintro ⟨hle, h⟩
        exact ⟨r, off, size, m, ⟨rfl, rfl⟩, hr, hle, h.symm⟩
      · rintro ⟨r', off', size', m', ⟨rfl, rfl⟩, hr', hle, rfl⟩
        rw [hr, Option.some.injEq, Prod.mk.injEq] at hr'
        obtain ⟨rfl, rfl⟩ := hr'
        exact ⟨hle, rfl⟩

lemma ctl_store {s s' : State} {l : Loc} {bs : List UInt8} (h : s.store l bs = some s') :
    ctl s' = ctl s := by
  obtain ⟨r, off, size, m, _, _, _, rfl⟩ := store_eq_some.mp h
  exact ctl_setRegion _ _ _

lemma ctl_storeOpd {s s' : State} {o : Opd} {bs : List UInt8} (h : storeOpd s o bs = .ok s') :
    ctl s' = ctl s := by
  simp only [storeOpd, bind_eq_ok, orUb_eq_ok] at h
  obtain ⟨l, _, h⟩ := h
  exact ctl_store h

lemma ctl_storeNat {s s' : State} {l : Loc} {n v : Nat} (h : s.storeNat l n v = .ok s') :
    ctl s' = ctl s := ctl_store (orUb_eq_ok.mp h)

lemma ctl_storeWord {s s' : State} {o : Opd} {v : Nat} (h : storeWord s o v = .ok s') :
    ctl s' = ctl s := by
  simp only [storeWord, bind_eq_ok] at h
  obtain ⟨l, _, h⟩ := h
  exact ctl_storeNat h

lemma ctl_memcpy {s s' : State} {d a : Loc} {n : Nat} (h : s.memcpy d a n = .ok s') :
    ctl s' = ctl s := by
  simp only [State.memcpy, bind_eq_ok, orUb_eq_ok] at h
  obtain ⟨bs, _, h⟩ := h
  exact ctl_store h

/-! ### Places stay where they are -/

section Places

variable {s : State} {r : Region} {m : Mem} {p : Nat}

lemma locateFrame_modify {vm : Nat} {temps : List TmpFrame} (k : Nat) (m : Mem) :
    locateFrame vm p (temps.modify k fun f => { f with mem := m }) = locateFrame vm p temps := by
  induction temps generalizing k with
  | nil => simp
  | cons f fs ih =>
    cases k with
    | zero => simp [locateFrame]
    | succ k => simp [locateFrame, ih]

lemma locateVm_congr {s' : State} {l : List Nat}
    (h : ∀ vm, locateFrame vm p (s'.vms vm).temps = locateFrame vm p (s.vms vm).temps) :
    locateVm s' p l = locateVm s p l := by
  induction l with
  | nil => rfl
  | cons vm vms ih => simp only [locateVm, h, ih]

lemma locate_congr {s' : State} (hbase : s'.bssBase = s.bssBase) (hsize : s'.bssSize = s.bssSize)
    (hheap : (s'.heap.find? fun b => decide (b.base ≤ p ∧ p < b.base + b.size)).map Block.base =
      (s.heap.find? fun b => decide (b.base ≤ p ∧ p < b.base + b.size)).map Block.base)
    (hvm : locateVm s' p s'.live = locateVm s p s.live) : s'.locate p = s.locate p := by
  simp only [State.locate, hbase, hsize, hvm]
  generalize s'.heap.find? (fun b => decide (b.base ≤ p ∧ p < b.base + b.size)) = x' at hheap ⊢
  generalize s.heap.find? (fun b => decide (b.base ≤ p ∧ p < b.base + b.size)) = x at hheap ⊢
  cases x' with
  | none =>
    cases x with
    | none => rfl
    | some b => cases hheap
  | some b' =>
    cases x with
    | none => cases hheap
    | some b =>
      have hb : b'.base = b.base := Option.some.inj hheap
      simp only [hb]

lemma locate_setRegion : (s.setRegion r m).locate p = s.locate p := by
  cases r with
  | stack vm =>
    refine locate_congr rfl rfl rfl (locateVm_congr fun vm' => ?_)
    simp only [State.setRegion, State.setVms]
    split
    · rename_i h
      rw [h]
    · rfl
  | temp vm depth =>
    refine locate_congr rfl rfl rfl (locateVm_congr fun vm' => ?_)
    simp only [State.setRegion, State.setVms]
    split
    · rename_i h
      rw [h, locateFrame_modify]
    · rfl
  | bss => exact locate_congr rfl rfl rfl (locateVm_congr fun _ => rfl)
  | heap base =>
    refine locate_congr rfl rfl ?_ (locateVm_congr fun _ => rfl)
    simp only [State.setRegion, List.find?_map, Option.map_map]
    have hbase : (Block.base ∘ fun b : Block => if b.base = base then { b with mem := m } else b) =
        Block.base := by
      funext b
      simp only [Function.comp_apply]
      split <;> rfl
    rw [hbase]
    congr 2
    funext b
    simp only [Function.comp_apply]
    split <;> rfl

lemma place_setRegion (l : Loc) : (s.setRegion r m).place l = s.place l := by
  cases l with
  | imm v => rfl
  | mem r off => rfl
  | addr p => exact locate_setRegion

end Places

/-- The computation leaves the control as it is. -/
def KeepsCtl (s : State) (x : M State) : Prop := Returns x fun s' => ctl s' = ctl s

/-! ### What is written -/

/-- A state after writes to pieces of regions, each as `P` allows: where it begins and how long
it is. -/
inductive Wrote (P : Region → Nat → Nat → Prop) (s : State) : State → Prop
  | refl : Wrote P s s
  | write {s1 : State} {r : Region} {off size : Nat} {m : Mem} {bs : List UInt8} (h : Wrote P s s1)
      (hr : s1.region r = some (size, m)) (hle : off + bs.length ≤ size) (hP : P r off bs.length) :
      Wrote P s (s1.setRegion r (writeMem m off bs))

/-- The piece is what an operand of so many bytes stands for. -/
def To (s : State) (d : Opd) (n : Nat) (r : Region) (off len : Nat) : Prop :=
  ∃ l, s.opdVal d = .ok l ∧ s.place l = some (r, off) ∧ len = n

section Writes

variable {P Q : Region → Nat → Nat → Prop} {s s1 s2 : State} {l a : Loc} {bs : List UInt8} {n v : Nat}
  {d : Opd}

lemma Wrote.ctl (h : Wrote P s s1) : ctl s1 = ctl s := by
  induction h with
  | refl => rfl
  | write _ _ _ _ ih => rw [ctl_setRegion, ih]

lemma Wrote.mono (h : Wrote P s s1) (hPQ : ∀ r off len, P r off len → Q r off len) : Wrote Q s s1 := by
  induction h with
  | refl => exact .refl
  | write _ hr hle hP ih => exact .write ih hr hle (hPQ _ _ _ hP)

lemma Wrote.trans (h1 : Wrote P s s1) (h2 : Wrote P s1 s2) : Wrote P s s2 := by
  induction h2 with
  | refl => exact h1
  | write _ hr hle hP ih => exact .write ih hr hle hP

lemma Wrote.place (h : Wrote P s s1) (l : Loc) : s1.place l = s.place l := by
  induction h with
  | refl => rfl
  | write _ _ _ _ ih => rw [place_setRegion, ih]

lemma wrote_store (h : s.store l bs = some s1) :
    Wrote (fun r off len => s.place l = some (r, off) ∧ len = bs.length) s s1 := by
  obtain ⟨r, off, size, m, hp, hr, hle, rfl⟩ := store_eq_some.mp h
  exact .write .refl hr hle ⟨hp, rfl⟩

lemma wrote_storeOpd (h : storeOpd s d bs = .ok s1) : Wrote (To s d bs.length) s s1 := by
  simp only [storeOpd, bind_eq_ok, orUb_eq_ok] at h
  obtain ⟨l, hl, h⟩ := h
  exact (wrote_store h).mono fun r off len hp => ⟨l, hl, hp⟩

lemma wrote_storeOpdNat (h : storeOpdNat s d v = .ok s1) : Wrote (To s d d.size) s s1 := by
  have hw := wrote_storeOpd h
  rwa [leBytes_length] at hw

lemma wrote_storeWord (h : storeWord s d v = .ok s1) : Wrote (To s d 8) s s1 := by
  simp only [storeWord, State.storeNat, bind_eq_ok, orUb_eq_ok] at h
  obtain ⟨l, hl, h⟩ := h
  refine (wrote_store h).mono fun r off len hp => ⟨l, hl, ?_⟩
  rwa [leBytes_length] at hp

lemma load_length (h : s.load l n = some bs) : bs.length = n := by
  unfold State.load at h
  split at h
  · split at h <;> cases h
    exact leBytes_length _ _
  · split at h
    · cases h
    · split at h
      · cases h
      · split at h <;> cases h
        exact readMem_length _ _ _

lemma wrote_memcpy (h : s.memcpy l a n = .ok s1) :
    Wrote (fun r off len => s.place l = some (r, off) ∧ len = n) s s1 := by
  simp only [State.memcpy, bind_eq_ok, orUb_eq_ok] at h
  obtain ⟨bs, hbs, h⟩ := h
  have hw := wrote_store h
  rwa [load_length hbs] at hw

lemma keepsCtl_of_wrote {x : M State} (h : Returns x (Wrote P s)) : KeepsCtl s x :=
  h.mono fun _ h => h.ctl

end Writes

section Data

variable (s : State) (d a b : Opd)

lemma insnMov_wrote : Returns (insnMov s d a) (Wrote (To s d d.size) s) := by
  refine returns_bind fun _ _ => returns_bind fun l hl => returns_bind fun _ _ => ?_
  exact fun _ h => (wrote_memcpy h).mono fun r off len hp => ⟨l, hl, hp⟩

/-- The destination is cleared, and some of it is copied to. -/
lemma insnCast_wrote : Returns (insnCast s d a)
    (Wrote (fun r off len => ∃ n ≤ d.size, To s d n r off len) s) := by
  refine returns_bind fun l hl => returns_bind fun _ _ => returns_bind fun s1 h1 => ?_
  intro s2 h2
  have hw := wrote_store (orUb_eq_ok.mp h1)
  refine (hw.mono ?_).trans ((wrote_memcpy h2).mono ?_)
  · rintro r off len ⟨hp, rfl⟩
    exact ⟨_, by simp, l, hl, hp, rfl⟩
  · rintro r off len ⟨hp, rfl⟩
    exact ⟨_, Nat.min_le_right _ _, l, hl, (hw.place l).symm.trans hp, rfl⟩

lemma insnBinArith_wrote (op : ArithOp) :
    Returns (insnBinArith s op d a b) (Wrote (To s d d.size) s) := by
  refine returns_bind fun _ _ => returns_bind fun _ _ => returns_bind fun _ _ => ?_
  refine returns_bind fun _ _ => returns_bind fun _ _ => returns_bind fun _ _ => ?_
  exact returns_bind fun _ _ => returns_bind fun _ _ _ h => wrote_storeOpdNat h

lemma insnEquNeq_wrote (neq : Bool) :
    Returns (insnEquNeq s neq d a b) (Wrote (To s d d.size) s) := by
  refine returns_bind fun _ _ => returns_bind fun _ _ => returns_bind fun _ _ => ?_
  exact returns_bind fun _ _ => returns_bind fun _ _ _ h => wrote_storeOpdNat h

lemma insnBinLogic_wrote (op : CmpOp) :
    Returns (insnBinLogic s op d a b) (Wrote (To s d d.size) s) := by
  refine returns_bind fun _ _ => returns_bind fun _ _ => returns_bind fun _ _ => ?_
  refine returns_bind fun _ _ => returns_bind fun _ _ => returns_bind fun _ _ => ?_
  exact returns_bind fun _ _ => returns_bind fun _ _ _ h => wrote_storeOpdNat h

lemma insnNot_wrote : Returns (insnNot s d a) (Wrote (To s d d.size) s) := by
  refine returns_bind fun _ _ => returns_bind fun _ _ => returns_bind fun _ _ => ?_
  exact returns_bind fun _ _ => returns_bind fun _ _ _ h => wrote_storeOpdNat h

lemma insnNeg_wrote : Returns (insnNeg s d a) (Wrote (To s d d.size) s) := by
  refine returns_bind fun _ _ => returns_bind fun _ _ => returns_bind fun _ _ => ?_
  exact returns_bind fun _ _ => returns_bind fun _ _ _ h => wrote_storeOpdNat h

lemma insnBneg_wrote : Returns (insnBneg s d a) (Wrote (To s d d.size) s) := by
  refine returns_bind fun _ _ => returns_bind fun _ _ => returns_bind fun _ _ => ?_
  refine returns_bind fun _ _ => returns_bind fun _ _ => ?_
  exact returns_bind fun _ _ _ h => wrote_storeOpdNat h

lemma insnOz_wrote : Returns (insnOz s d a) (Wrote (To s d d.size) s) := by
  refine returns_bind fun _ _ => returns_bind fun _ _ => returns_bind fun _ _ => ?_
  exact returns_bind fun _ _ _ h => wrote_storeOpdNat h

lemma insnIncDec_wrote (dec : Bool) : Returns (insnIncDec s dec d) (Wrote (To s d d.size) s) :=
  returns_bind fun _ _ => returns_bind fun _ _ _ h => wrote_storeOpdNat h

/-- The destination is looked up after the operand has been written. -/
lemma insnIncpDecp_wrote (dec : Bool) : Returns (insnIncpDecp s dec d a)
    (Wrote (fun r off len => To s a a.size r off len ∨
      ∃ s1, Wrote (To s a a.size) s s1 ∧ To s1 d d.size r off len) s) := by
  refine returns_bind fun _ _ => returns_bind fun _ _ => returns_bind fun _ _ => ?_
  refine returns_bind fun _ _ => returns_bind fun _ _ => returns_bind fun s1 h1 => ?_
  intro s2 h2
  have hw := wrote_storeOpdNat h1
  exact (hw.mono fun r off len h => .inl h).trans
    ((wrote_storeOpdNat h2).mono fun r off len h => .inr ⟨s1, hw, h⟩)

lemma insnRef_wrote : Returns (insnRef s d a) (Wrote (To s d 8) s) := by
  refine returns_bind fun _ _ => returns_bind fun _ _ => returns_bind fun _ _ => ?_
  exact returns_bind fun _ _ => returns_bind fun _ _ _ h => wrote_storeWord h

lemma insnDrf_wrote : Returns (insnDrf s d a) (Wrote (To s d d.size) s) := by
  refine returns_bind fun _ _ => returns_bind fun _ _ => returns_bind fun _ _ => ?_
  refine returns_bind fun l hl => returns_bind fun _ _ => ?_
  exact fun _ h => (wrote_memcpy h).mono fun r off len hp => ⟨l, hl, hp⟩

lemma insnGetsp_wrote : Returns (insnGetsp s d) (Wrote (To s d 8) s) :=
  returns_bind fun _ _ _ h => wrote_storeWord h

lemma insnQat_wrote (func id : Nat) : Returns (insnQat s d a func id) (Wrote (To s d d.size) s) := by
  refine returns_bind fun _ _ => returns_bind fun _ _ => returns_bind fun _ _ => ?_
  refine returns_bind fun _ _ => returns_bind fun _ _ => returns_bind fun q _ => ?_
  by_cases hq : q = 0
  · simp only [hq, if_true]
    exact fun _ h => wrote_storeOpdNat h
  · simp only [hq, if_false]
    exact returns_bind fun _ _ _ h => wrote_storeOpdNat h

end Data

/-! ### Threads -/

lemma ctl_setThis_setThis (c : Ctl) (t t' : Thread) : (c.setThis t).setThis t' = c.setThis t' := by
  simp only [Ctl.setThis, Ctl.set, Ctl.mk.injEq, true_and, and_true]
  funext x
  split <;> rfl

lemma ctl_nextIp (s : State) : ctl (nextIp s) = (ctl s).setThis (ctl s).this.advance := by
  rw [nextIp, ctl_setVm]
  rfl

/-- The instruction only moves on after it has written to memory. -/
lemma ctl_nextIp_of_eq {s s' : State} (h : ctl s' = ctl s) :
    ctl (nextIp s') = (ctl s).setThis (ctl s).this.advance := by rw [ctl_nextIp, h]

/-! ### The words an instruction finds -/

/-- The handle, the duration and the pointer the instruction is about to load. -/
def words (s : State) : Insn → Words
  | .rte q | .rtev _ q => ⟨(loadWord s q).toOption, none, none⟩
  | .wait q t _ _ _ _ hasTimeout =>
    ⟨(loadWord s q).toOption, if hasTimeout then (loadOpdNat s t).toOption else none, none⟩
  | .bfun => ⟨none, none, if s.vm.ip = 5 then (param s 0 8).toOption else none⟩
  | _ => ⟨none, none, none⟩

lemma toOption_eq_some {α : Type} {x : M α} {a : α} (h : x = .ok a) : x.toOption = some a := by
  rw [h]
  rfl

/-! ### Moves of the running thread -/

lemma ctl_setSp {s s1 : State} (n : Nat) (h : ctl s1 = ctl s) :
    ctl (s1.setVm { s1.vm with sp := n }) = (ctl s).setThis { (ctl s).this with sp := n } := by
  rw [← h]
  exact ctl_setVm _ _

section Own

variable {s s' : State}

lemma insnCjmp_move {jnz : Bool} {c : Opd} {loc : Nat} (h : insnCjmp s jnz c loc = .ok s') :
    ∃ t, OwnMove (.jz jnz c loc) (ctl s).this t ∧ ctl s' = (ctl s).setThis t := by
  simp only [insnCjmp, bind_eq_ok] at h
  obtain ⟨_, _, a, _, h⟩ := h
  split at h
  · obtain rfl := pure_eq_ok.mp h
    exact ⟨_, .inl rfl, ctl_setVm _ _⟩
  · obtain rfl := pure_eq_ok.mp h
    exact ⟨_, .inr rfl, ctl_nextIp _⟩

lemma insnPushr_ctl {v ssp : Opd} (h : insnPushr s v ssp = .ok s') :
    ctl s' = (ctl s).setThis { (ctl s).this with sp := (ctl s).this.sp + 16 } := by
  simp only [insnPushr, bind_eq_ok] at h
  obtain ⟨_, _, _, _, _, _, _, _, s1, h1, s2, h2, h⟩ := h
  have h12 : ctl s2 = ctl s := (ctl_storeNat h2).trans (ctl_storeNat h1)
  rw [ctl_storeWord h]
  exact ctl_setSp _ h12

lemma insnPush_ctl {v : Opd} (h : insnPush s v = .ok s') :
    ctl s' = (ctl s).setThis
      { (ctl s).this with sp := alignedSp ((ctl s).this.sp + v.size) } := by
  simp only [insnPush, bind_eq_ok, pure_eq_ok] at h
  obtain ⟨_, _, _, _, _, _, l, _, s1, h1, _, _, rfl⟩ := h
  exact ctl_setSp _ (ctl_memcpy h1)

lemma insnCall_ctl {loc bp : Opd} (h : insnCall s loc bp = .ok s') :
    ∃ ip b, ctl s' = (ctl s).setThis { (ctl s).this with ip := ip, bp := b } := by
  simp only [insnCall, bind_eq_ok, pure_eq_ok] at h
  obtain ⟨_, _, _, _, _, _, ip, _, b, _, rfl⟩ := h
  exact ⟨ip, b, ctl_setVm _ _⟩

lemma insnIncsp_ctl {inp : Inp} {a t : Opd} (h : insnIncsp inp s a t = .ok s') :
    ctl s' = (ctl s).setThis { (ctl s).this with
      atStart := false, sp := ((ctl s).this.sp + a.off) % 2 ^ 64
      depth := (ctl s).this.depth + 1 } := by
  simp only [insnIncsp, bind_eq_ok, pure_eq_ok] at h
  obtain ⟨_, _, _, _, _, _, _, _, _, _, base, _, _, _, rfl⟩ := h
  exact ctl_setVm _ _

end Own

/-! ### Quaints -/

section Quaints

variable {s s' : State}

lemma ctl_activate (s : State) (q : Nat) : ctl (State.activate s q) = (ctl s).activate q := by
  rw [State.activate, ctl_setCur, ctl_setVms]
  rfl

lemma copyValue_keeps (dst : Option Opd) (q : Nat) : KeepsCtl s (copyValue s dst q) := by
  cases dst with
  | none => exact returns_pure rfl
  | some d => exact returns_bind fun _ _ _ h => ctl_memcpy h

lemma zeroValue_keeps (dst : Option Opd) : KeepsCtl s (zeroValue s dst) := by
  cases dst with
  | none => exact returns_pure rfl
  | some d => exact fun _ h => ctl_storeOpd h

/-- What a reap can do: nothing for null, take the value of a quaint at its end, or go on
with one that is not. -/
lemma insnRte_cases {dst : Option Opd} {src : Opd} (h : insnRte s dst src = .ok s') :
    ∃ q, loadWord s src = .ok q ∧
      ((q = 0 ∧ ∃ s1, zeroValue s dst = .ok s1 ∧ s' = nextIp s1) ∨
       (q ≠ 0 ∧ q ∈ s.live ∧ (s.vms q).atEnd = true ∧ ∃ s1 s2, copyValue s dst q = .ok s1 ∧
         storeWord (s1.release q) src 0 = .ok s2 ∧ s' = nextIp s2) ∨
       (q ≠ 0 ∧ q ∈ s.live ∧ (s.vms q).atEnd = false ∧ s' = State.activate s q)) := by
  simp only [insnRte, bind_eq_ok] at h
  obtain ⟨_, _, q, hq, h⟩ := h
  refine ⟨q, hq, ?_⟩
  by_cases h0 : q = 0
  · simp only [h0, if_true, bind_eq_ok, pure_eq_ok] at h
    obtain ⟨s1, h1, rfl⟩ := h
    exact .inl ⟨h0, s1, h1, rfl⟩
  · simp only [h0, if_false, bind_eq_ok, ubUnless_eq_ok, decide_eq_true_eq] at h
    obtain ⟨_, hlive, h⟩ := h
    cases hend : (s.vms q).atEnd with
    | true =>
      simp only [hend, if_true, bind_eq_ok, pure_eq_ok] at h
      obtain ⟨s1, h1, s2, h2, rfl⟩ := h
      exact .inr (.inl ⟨h0, hlive, rfl, s1, s2, h1, h2, rfl⟩)
    | false =>
      simp only [hend, Bool.false_eq_true, if_false, pure_eq_ok] at h
      exact .inr (.inr ⟨h0, hlive, rfl, h.symm⟩)

lemma insnRte_exec {o : Obj} {i : Insn} {w : Words} {dst : Option Opd} {src : Opd}
    (hi : isReap i) (hown : ∀ t, OwnMove i t t.advance) (hw : w.handle = (loadWord s src).toOption)
    (h : insnRte s dst src = .ok s') : Exec o i w (ctl s) (ctl s') := by
  obtain ⟨q, hq, h⟩ := insnRte_cases h
  have hwq : w.handle = some q := hw.trans (toOption_eq_some hq)
  have hnw : ¬ isWait i := by
    intro hwait
    cases i with
    | rte | rtev => cases hwait
    | _ => cases hi
  rcases h with ⟨rfl, s1, h1, rfl⟩ | ⟨h0, hlive, hend, s1, s2, h1, h2, rfl⟩ | ⟨h0, hlive, hend, rfl⟩
  · rw [ctl_nextIp_of_eq (zeroValue_keeps dst _ h1)]
    exact .own _ (hown _) (fun _ => hwq) (fun hw => absurd hw hnw)
  · have h12 : ctl s2 = (ctl s).release q := by
      rw [ctl_storeWord h2, ctl_release, copyValue_keeps dst q _ h1]
    rw [ctl_nextIp, h12]
    exact .reapEnded q hi hwq h0 hlive hend
  · rw [ctl_activate]
    exact .reap q hi hwq h0 hlive hend

/-- A switch to the quaint waited for: with a timeout, the clock is read and noted with the
interval; without one, the clock is left alone. -/
lemma startWaiting_cases {inp : Inp} {q func id : Nat} {noblock units : Bool} {timeout : Option Nat}
    (h : startWaiting inp s q func id noblock units timeout = .ok s') :
    (∃ t now, timeout = some t ∧ inp.clock1 = some now ∧ ctl s' = (((ctl s).setNow now).setThis
        ((ctl s).this.startWait true false now (timeoutNs units t))).activate q) ∨
      (timeout = none ∧ ∃ w0 w1 isUntil, ctl s' = (((ctl s).setNow s.now).setThis
        ((ctl s).this.startWait false isUntil w0 w1)).activate q) := by
  cases timeout with
  | some t =>
    simp only [startWaiting, bind_eq_ok, orNomem_eq_ok, pure_eq_ok] at h
    obtain ⟨now, hnow, rfl⟩ := h
    refine .inl ⟨t, now, rfl, hnow, ?_⟩
    rw [ctl_activate, ctl_setVm]
    rfl
  | none =>
    refine .inr ⟨rfl, ?_⟩
    simp only [startWaiting] at h
    split at h
    · obtain rfl := pure_eq_ok.mp h
      refine ⟨func, id, true, ?_⟩
      rw [ctl_activate, ctl_setVm]
      rfl
    · obtain rfl := pure_eq_ok.mp h
      refine ⟨s.vm.w0, s.vm.w1, false, ?_⟩
      rw [ctl_activate, ctl_setVm]
      rfl

/-- A switch to the quaint waited for, with the flags and words noted before it. -/
lemma startWaiting_ctl {inp : Inp} {q func id : Nat} {noblock units : Bool} {timeout : Option Nat}
    (h : startWaiting inp s q func id noblock units timeout = .ok s') :
    ∃ now w0 w1 isFor isUntil, ctl s' =
      (((ctl s).setNow now).setThis ((ctl s).this.startWait isFor isUntil w0 w1)).activate q := by
  rcases startWaiting_cases h with ⟨t, now, -, -, hc⟩ | ⟨-, w0, w1, isUntil, hc⟩
  · exact ⟨now, now, _, true, false, hc⟩
  · exact ⟨s.now, w0, w1, false, isUntil, hc⟩

/-- What `wait` can do: nothing, or go on with a quaint that is not at its end. -/
lemma insnWait_cases {inp : Inp} {quaint timeout : Opd} {func id : Nat}
    {noblock units hasTimeout : Bool}
    (h : insnWait inp s quaint timeout func id noblock units hasTimeout = .ok s') :
    ∃ q, loadWord s quaint = .ok q ∧
      ((q = 0 ∧ s' = nextIp s) ∨
       (q ≠ 0 ∧ q ∈ s.live ∧ (s.vms q).atEnd = true ∧ s' = nextIp s) ∨
       (q ≠ 0 ∧ q ∈ s.live ∧ (s.vms q).atEnd = false ∧ ∃ t,
         waitTimeout s timeout hasTimeout = .ok t ∧
         ((t = some 0 ∧ s' = nextIp s) ∨
          (t ≠ some 0 ∧ startWaiting inp s q func id noblock units t = .ok s')))) := by
  simp only [insnWait, bind_eq_ok] at h
  obtain ⟨_, _, _, _, q, hq, h⟩ := h
  refine ⟨q, hq, ?_⟩
  by_cases h0 : q = 0
  · simp only [h0, if_true, pure_eq_ok] at h
    exact .inl ⟨h0, h.symm⟩
  · simp only [h0, if_false, bind_eq_ok, ubUnless_eq_ok, decide_eq_true_eq] at h
    obtain ⟨_, hlive, h⟩ := h
    cases hend : (s.vms q).atEnd with
    | true =>
      simp only [hend, if_true, pure_eq_ok] at h
      exact .inr (.inl ⟨h0, hlive, rfl, h.symm⟩)
    | false =>
      simp only [hend, Bool.false_eq_true, if_false, bind_eq_ok] at h
      obtain ⟨t, ht, h⟩ := h
      refine .inr (.inr ⟨h0, hlive, rfl, t, ht, ?_⟩)
      by_cases hz : t = some 0
      · simp only [hz, if_true, pure_eq_ok] at h
        exact .inl ⟨hz, h.symm⟩
      · simp only [hz, if_false] at h
        exact .inr ⟨hz, h⟩

lemma waitTimeout_zero {timeout : Opd} {hasTimeout : Bool}
    (h : waitTimeout s timeout hasTimeout = .ok (some 0)) :
    (if hasTimeout then (loadOpdNat s timeout).toOption else none) = some 0 := by
  cases hasTimeout with
  | true =>
    simp only [waitTimeout, if_true, bind_eq_ok, pure_eq_ok, Option.some.injEq] at h
    obtain ⟨_, _, _, _, t, ht, rfl⟩ := h
    exact toOption_eq_some ht
  | false => simp [waitTimeout, pure_eq_ok] at h

lemma insnWait_exec {o : Obj} {inp : Inp} {quaint timeout : Opd} {func id : Nat}
    {noblock units hasTimeout : Bool}
    (h : insnWait inp s quaint timeout func id noblock units hasTimeout = .ok s') :
    Exec o (.wait quaint timeout func id noblock units hasTimeout)
      (words s (.wait quaint timeout func id noblock units hasTimeout)) (ctl s) (ctl s') := by
  obtain ⟨q, hq, h⟩ := insnWait_cases h
  have hwq : (words s (.wait quaint timeout func id noblock units hasTimeout)).handle = some q :=
    toOption_eq_some hq
  have hnr : isReap (.wait quaint timeout func id noblock units hasTimeout) → False := nofun
  rcases h with ⟨rfl, rfl⟩ | ⟨_, _, hend, rfl⟩ | ⟨h0, hlive, hend, t, ht, h⟩
  · rw [ctl_nextIp]
    exact .own _ rfl (fun hr => (hnr hr).elim) fun _ => .inl hwq
  · rw [ctl_nextIp]
    exact .own _ rfl (fun hr => (hnr hr).elim) fun _ => .inr (.inl ⟨q, hwq, hend⟩)
  · rcases h with ⟨rfl, rfl⟩ | ⟨_, h⟩
    · rw [ctl_nextIp]
      exact .own _ rfl (fun hr => (hnr hr).elim) fun _ => .inr (.inr (waitTimeout_zero ht))
    · obtain ⟨now, w0, w1, isFor, isUntil, hc⟩ := startWaiting_ctl h
      rw [hc]
      exact .wait q now w0 w1 isFor isUntil rfl hwq h0 hlive hend

lemma alloc_fresh {base : Option Nat} {size a : Nat} (h : alloc s base size = some a) :
    fresh s a size = true := by
  rw [alloc, Option.filter_eq_some_iff] at h
  exact h.2

lemma not_live_of_fresh {a size : Nat} (hpos : 0 < size) (h : fresh s a size = true) :
    a ≠ 0 ∧ a ∉ s.live := by
  simp only [fresh, Bool.and_eq_true, decide_eq_true_eq, List.all_eq_true] at h
  obtain ⟨⟨⟨⟨⟨h0, _⟩, _⟩, _⟩, _⟩, hall⟩ := h
  refine ⟨h0, fun ha => ?_⟩
  have hap := (hall a ha).1
  simp only [apart, Bool.or_eq_true, decide_eq_true_eq] at hap
  have hq : qvmSize = 80 := rfl
  omega

/-- The control after a new quaint has been entered in the list. -/
lemma ctl_addVm (s : State) (a : Nat) (v : Qvm) :
    ctl (State.addVm s a v) = { (ctl s).set a (thread v) with live := a :: (ctl s).live } := by
  have h := congrArg Ctl.threads (ctl_setVms s a v)
  simp only [ctl, State.addVm, Ctl.mk.injEq, true_and]
  exact ⟨h, rfl, rfl⟩

lemma insnQnt_exec {o : Obj} {inp : Inp} {w : Words} {dst loc ssp : Opd} (hcur : s.cur ∈ s.live)
    (h : insnQnt inp s dst loc ssp = .ok s') :
    Exec o (.qnt dst loc ssp) w (ctl s) (ctl (nextIp s')) := by
  simp only [insnQnt, bind_eq_ok, orNomem_eq_ok, orUb_eq_ok, pure_eq_ok] at h
  obtain ⟨_, _, _, _, _, _, _, _, _, _, _, _, l, _, sp, _, a, ha, _, _, args, _, _, _, s1, h1,
    rfl⟩ := h
  obtain ⟨h0, hnew⟩ := not_live_of_fresh (by decide) (alloc_fresh ha)
  have hne : s.cur ≠ a := fun hc => hnew (hc ▸ hcur)
  have hc1 : ctl s1 = { (ctl s).set a (thread (newQuaint l args)) with live := a :: (ctl s).live } :=
    (ctl_storeWord h1).trans (ctl_addVm s a _)
  have hthis : (ctl s1).this = (ctl s).this := by
    rw [hc1]
    exact Ctl.set_threads_ne _ _ hne
  have hcur1 : s1.cur = s.cur := congrArg Ctl.cur hc1
  have hfin : ctl (nextIp (s1.setVm { s1.vm with sp := sp })) =
      (ctl s1).setThis { (ctl s).this.advance with sp := sp } := by
    rw [ctl_nextIp, ctl_setVm, ← hthis]
    simp only [Ctl.setThis_this]
    simp only [Ctl.setThis, Ctl.set, Ctl.mk.injEq, true_and, and_true]
    funext x
    split <;> rfl
  rw [hfin, hc1]
  exact .qnt dst loc ssp a l sp args.length rfl h0 hnew hne

lemma insnQntv_exec {o : Obj} {inp : Inp} {w : Words} {dst val : Opd} (hcur : s.cur ∈ s.live)
    (h : insnQntv inp s dst val = .ok s') :
    Exec o (.qntv dst val) w (ctl s) (ctl (nextIp s')) := by
  simp only [insnQntv, bind_eq_ok, orNomem_eq_ok] at h
  obtain ⟨_, _, _, _, _, _, _, _, bs, _, a, ha, _, _, h1⟩ := h
  obtain ⟨h0, hnew⟩ := not_live_of_fresh (by decide) (alloc_fresh ha)
  have hne : s.cur ≠ a := fun hc => hnew (hc ▸ hcur)
  have hc1 : ctl s' = { (ctl s).set a (thread (endedQuaint bs)) with live := a :: (ctl s).live } :=
    (ctl_storeWord h1).trans (ctl_addVm s a _)
  have hthis : (ctl s').this = (ctl s).this := by
    rw [hc1]
    exact Ctl.set_threads_ne _ _ hne
  rw [ctl_nextIp, hthis, hc1]
  exact .qntv dst val a rfl h0 hnew hne

end Quaints

/-! ### Returning -/

section Returning

variable {o : Obj} {s s' : State}

lemma returnToParent_ctl {retval : List UInt8} (hsp : s.vm.sp = 0) (hp : s.vm.parent ≠ 0)
    (h : returnToParent o s retval = .ok s') : Return o (ctl s) (ctl s') := by
  simp only [returnToParent, bind_eq_ok, ubUnless_eq_ok, decide_eq_true_eq, orUb_eq_ok] at h
  obtain ⟨_, hlive, i, hi, h⟩ := h
  cases i with
  | rtev dst src =>
    simp only [bind_eq_ok, pure_eq_ok] at h
    obtain ⟨_, _, _, _, s1, h1, s2, h2, rfl⟩ := h
    have hc : ctl s2 = ((ctl s).release s.cur).setCur s.vm.parent := by
      rw [ctl_storeWord h2, ctl_release, ctl_storeOpd h1]
      rfl
    rw [ctl_nextIp, hc]
    exact .reap _ hsp hp hlive hi rfl
  | rte src =>
    simp only [bind_eq_ok, pure_eq_ok] at h
    obtain ⟨_, _, s1, h1, rfl⟩ := h
    have hc : ctl s1 = ((ctl s).release s.cur).setCur s.vm.parent := ctl_storeWord h1
    rw [ctl_nextIp, hc]
    exact .reap _ hsp hp hlive hi rfl
  | wait quaint timeout func id noblock units hasTimeout =>
    simp only [bind_eq_ok, pure_eq_ok] at h
    obtain ⟨_, _, rfl⟩ := h
    have hw := Return.wait (c := ctl s) _ hsp hp hlive hi rfl
    have hfin : ctl (nextIp (((s.setVm (Qvm.ended s.vm retval)).setCur s.vm.parent).setVm
        (Qvm.notWaiting ((s.setVm (Qvm.ended s.vm retval)).setCur s.vm.parent).vm))) =
        (let c' := ((ctl s).setThis (ctl s).this.ended).setCur s.vm.parent
         c'.setThis c'.this.notWaiting.advance) := by
      rw [ctl_nextIp, ctl_setVm, Ctl.setThis_this, ctl_setThis_setThis, ctl_setCur, ctl_setVm]
      have hthis : thread (Qvm.notWaiting ((s.setVm (Qvm.ended s.vm retval)).setCur s.vm.parent).vm)
          = (((ctl s).setThis (ctl s).this.ended).setCur s.vm.parent).this.notWaiting := by
        have h := congrArg (fun c => (c.setCur s.vm.parent).this) (ctl_setVm s (Qvm.ended s.vm retval))
        exact congrArg Thread.notWaiting h
      rw [hthis]
      rfl
    rw [hfin]
    exact hw
  | _ => cases h

lemma returnFromMain_ctl {signd : Bool} {retval : List UInt8} (hsp : s.vm.sp = 0)
    (hp : s.vm.parent = 0) (h : returnFromMain s signd retval = .ok s') :
    Return o (ctl s) (ctl s') := by
  simp only [returnFromMain, bind_eq_ok] at h
  obtain ⟨saved, _, h⟩ := h
  split at h
  · split at h
    · cases h
    · obtain rfl := pure_eq_ok.mp h
      rw [ctl_setVm]
      exact .main saved.1 saved.2 hsp hp
  · simp only [ne_eq, not_true_eq_false, if_false, pure_eq_ok] at h
    rw [← h, ctl_setVm]
    exact .main saved.1 saved.2 hsp hp

lemma returnToCaller_ctl {retval : List UInt8} (hsp : s.vm.sp ≠ 0)
    (h : returnToCaller o s retval = .ok s') : Return o (ctl s) (ctl s') := by
  simp only [returnToCaller, bind_eq_ok, legalIf_eq_ok, decide_eq_true_eq] at h
  obtain ⟨_, _, saved, _, _, hip, _, _, h⟩ := h
  -- the control after the words are restored and the instruction has moved on
  have hfin : ∀ s1, ctl s1 = ctl (s.setVm (Qvm.restore s.vm saved s.vm.temps.tail)) →
      ctl (nextIp s1) = (ctl s).setThis { (ctl s).this with
        ip := saved.1 + 1, bp := saved.2, depth := (ctl s).this.depth - 1 } := by
    intro s1 h1
    have hdepth : s.vm.temps.tail.length = (ctl s).this.depth - 1 := by simp [ctl, Ctl.this, thread,
      State.vm]
    rw [ctl_nextIp, h1, ctl_setVm, Ctl.setThis_this, ctl_setThis_setThis, ← hdepth]
    rfl
  split at h
  · obtain rfl := pure_eq_ok.mp h
    rw [hfin _ rfl]
    exact .caller _ _ hsp hip
  · simp only [bind_eq_ok, orUb_eq_ok] at h
    obtain ⟨i, _, h⟩ := h
    cases i with
    | callv val loc bp =>
      simp only [bind_eq_ok, pure_eq_ok] at h
      obtain ⟨_, _, s1, h1, rfl⟩ := h
      rw [hfin _ (ctl_storeOpd h1)]
      exact .caller _ _ hsp hip
    | _ => cases h

lemma handleReturn_ctl {signd : Bool} {retval : List UInt8}
    (h : handleReturn o s signd retval = .ok s') : Return o (ctl s) (ctl s') := by
  unfold handleReturn at h
  split at h
  · rename_i hc
    exact returnToParent_ctl hc.1 hc.2 h
  · rename_i hc
    split at h
    · rename_i hsp
      exact returnFromMain_ctl hsp (by_contra fun hp => hc ⟨hsp, hp⟩) h
    · rename_i hsp
      exact returnToCaller_ctl hsp h

lemma leaveFrame_eq_ok {size : Opd} (h : leaveFrame s size = .ok s') :
    size.off ≤ s.vm.sp ∧ s' = s.setVm { s.vm with sp := s.vm.sp - size.off } := by
  simp only [leaveFrame, bind_eq_ok, legalIf_eq_ok, decide_eq_true_eq, pure_eq_ok] at h
  obtain ⟨_, _, _, _, _, _, _, hsp, _, _, rfl⟩ := h
  exact ⟨hsp, rfl⟩

lemma insnRet_return {val : Option Opd} {size : Opd} (h : insnRet o s val size = .ok s') :
    size.off ≤ (ctl s).this.sp ∧
      Return o ((ctl s).setThis { (ctl s).this with sp := (ctl s).this.sp - size.off })
        (ctl s') := by
  simp only [insnRet, bind_eq_ok] at h
  obtain ⟨s1, h1, h⟩ := h
  obtain ⟨hsp, rfl⟩ := leaveFrame_eq_ok h1
  have hc := ctl_setVm s { s.vm with sp := s.vm.sp - size.off }
  refine ⟨hsp, ?_⟩
  cases val with
  | none => exact hc ▸ handleReturn_ctl h
  | some v =>
    simp only [bind_eq_ok] at h
    obtain ⟨_, _, h⟩ := h
    exact hc ▸ handleReturn_ctl h

end Returning

/-! ### Built-in functions -/

section Bfun

variable {o : Obj} {s s' : State} {inp : Inp}

/-- The body of a built-in pops some bytes, may read the clock, and may free a quaint. -/
def BodyCtl (s s' : State) : Prop :=
  ∃ now n live, (live = s.live ∨ ∃ p, (words s .bfun).freed = some p ∧ p ≠ s.cur ∧
      live = s.live.erase p) ∧
    (n = 0 ∨ 16 + n ≤ s.vm.sp) ∧
    ctl s' = ({ ctl s with live := live, now := now }).setThis
      { (ctl s).this with sp := (ctl s).this.sp - n }

lemma bodyCtl_pop {n : Nat} {s1 : State} (h : ctl s1 = ctl s) (hn : 16 + n ≤ s.vm.sp) :
    BodyCtl s (popParams s1 n) := by
  refine ⟨s.now, n, s.live, .inl rfl, .inr hn, ?_⟩
  have hsp : s1.vm.sp = (ctl s).this.sp := congrArg (fun c => (Ctl.this c).sp) h
  rw [popParams, hsp]
  exact ctl_setSp _ h

lemma mallocBlock_ctl (size : Nat) (m : Mem) : ctl (mallocBlock inp s size m).1 = ctl s := by
  unfold mallocBlock
  split <;> rfl

lemma paramsLegal_eq_ok {pops reads : Nat} {u : PUnit} (h : paramsLegal s pops reads = .ok u) :
    16 + pops ≤ s.vm.sp := by
  simp only [paramsLegal, bind_eq_ok, legalIf_eq_ok, decide_eq_true_eq] at h
  obtain ⟨_, h, _⟩ := h
  exact h

lemma printNum_body {signd : Bool} {size : Nat} (h : printNum s signd size = .ok s') :
    BodyCtl s s' := by
  simp only [printNum, bind_eq_ok, pure_eq_ok] at h
  obtain ⟨_, h1, a, _, rfl⟩ := h
  exact bodyCtl_pop rfl (paramsLegal_eq_ok h1)

/-- A built-in that hands out a block. -/
lemma mallocBody {pops : Nat} {size : Nat} {m : Mem} (hn : 16 + pops ≤ s.vm.sp) :
    BodyCtl s (popParams (mallocBlock inp s size m).1 pops) :=
  bodyCtl_pop (mallocBlock_ctl size m) hn

lemma freeBlock_body {p : Nat} {s1 : State} (hfreed : (words s .bfun).freed = some p)
    (hn : 24 ≤ s.vm.sp) (h : freeBlock s p = some s1) : BodyCtl s (popParams s1 8) := by
  unfold freeBlock at h
  split at h
  · obtain rfl := Option.some.inj h
    exact bodyCtl_pop rfl hn
  · split at h
    · obtain rfl := Option.some.inj h
      exact bodyCtl_pop rfl hn
    · split at h
      · rename_i hp
        obtain rfl := Option.some.inj h
        exact ⟨s.now, 8, _, .inr ⟨p, hfreed, hp.2, rfl⟩, .inr hn, ctl_setVm _ _⟩
      · cases h

lemma bodyCtl_refl {s1 : State} (h : ctl s1 = ctl s) : BodyCtl s s1 := by
  refine ⟨s.now, 0, s.live, .inl rfl, .inl rfl, ?_⟩
  rw [h]
  exact (ctl_set_self (ctl s) s.cur).symm

lemma bfunBody_ctl {r : State × List UInt8} (h : bfunBody inp s = .ok r) : BodyCtl s r.1 := by
  unfold bfunBody at h
  split at h
  · cases h
  · simp only [bind_eq_ok, pure_eq_ok] at h
    obtain ⟨now, _, rfl⟩ := h
    refine ⟨now, 0, s.live, .inl rfl, .inl rfl, ?_⟩
    exact (ctl_set_self ({ ctl s with live := s.live, now := now }) s.cur).symm
  · simp only [bind_eq_ok, pure_eq_ok] at h
    obtain ⟨_, h1, size, _, rfl⟩ := h
    exact mallocBody (paramsLegal_eq_ok h1)
  · simp only [bind_eq_ok, pure_eq_ok] at h
    obtain ⟨_, h1, size, _, rfl⟩ := h
    exact mallocBody (paramsLegal_eq_ok h1)
  · simp only [bind_eq_ok, orUb_eq_ok, pure_eq_ok] at h
    obtain ⟨_, h1, old, _, size, _, s1, hs1, rfl⟩ := h
    obtain ⟨heap, rfl⟩ := reallocBlock_heap hs1
    exact bodyCtl_pop rfl (paramsLegal_eq_ok h1)
  · rename_i hip
    simp only [bind_eq_ok, orUb_eq_ok, pure_eq_ok] at h
    obtain ⟨_, h1, p, hp, s1, hs1, rfl⟩ := h
    have hfreed : (words s .bfun).freed = some p := by
      simp only [words, hip, if_true]
      exact toOption_eq_some hp
    exact freeBlock_body hfreed (paramsLegal_eq_ok h1) hs1
  · simp only [bind_eq_ok, pure_eq_ok] at h
    obtain ⟨_, h1, p, _, str, _, rfl⟩ := h
    exact bodyCtl_pop rfl (paramsLegal_eq_ok h1)
  iterate 8
    · simp only [bind_eq_ok, pure_eq_ok] at h
      obtain ⟨s1, h1, rfl⟩ := h
      exact printNum_body h1
  · obtain rfl := pure_eq_ok.mp h
    exact bodyCtl_refl rfl
  · simp only [bind_eq_ok] at h
    obtain ⟨_, _, a, _, h⟩ := h
    cases h
  · obtain rfl := pure_eq_ok.mp h
    exact bodyCtl_refl rfl

lemma leaveBfun_ctl {r : State × List UInt8} (base : Nat) (hr : bfunBody inp s = .ok r) :
    ∃ now n live, (live = s.live ∨ ∃ p, (words s .bfun).freed = some p ∧ p ≠ s.cur ∧
        live = s.live.erase p) ∧ (n = 0 ∨ 16 + n ≤ s.vm.sp) ∧
      ctl (leaveBfun inp r.1 base) = ({ ctl s with live := live, now := now }).setThis
        { (ctl s).this with sp := (ctl s).this.sp - n - 16, depth := (ctl s).this.depth + 1 } := by
  obtain ⟨now, n, live, hlive, hn, hc⟩ := bfunBody_ctl hr
  refine ⟨now, n, live, hlive, hn, ?_⟩
  have hthis : (ctl r.1).this = { (ctl s).this with sp := (ctl s).this.sp - n } := by
    rw [hc, Ctl.setThis_this]
  have h1 : ctl (leaveBfun inp r.1 base) = (ctl r.1).setThis { (ctl r.1).this with
      sp := (ctl r.1).this.sp - 16, depth := (ctl r.1).this.depth + 1 } := ctl_setVm _ _
  rw [h1, hthis, hc, ctl_setThis_setThis]

lemma insnBfun_exec {w : Words} (hw : w.freed = (words s .bfun).freed)
    (h : insnBfun inp o s = .ok s') : Exec o .bfun w (ctl s) (ctl s') := by
  simp only [insnBfun, bind_eq_ok, legalIf_eq_ok, decide_eq_true_eq, orNomem_eq_ok] at h
  obtain ⟨_, _, _, _, _, hsp, r, hr, base, _, h⟩ := h
  obtain ⟨now, n, live, hlive, hn, hc⟩ := leaveBfun_ctl base hr
  have hret := handleReturn_ctl h
  rw [hc] at hret
  refine .bfun now n live rfl ?_ ?_ _ hret
  · rcases hlive with hl | ⟨p, hp, hne, hl⟩
    · exact .inl hl
    · exact .inr ⟨p, hw.trans hp, hne, hl⟩
  · show n + 16 ≤ s.vm.sp
    omega

end Bfun

/-! ### Instructions -/

/-- A data instruction moves the running thread to the next instruction. -/
lemma exec_of_keeps {o : Obj} {i : Insn} {w : Words} {s s' : State} {x : M State}
    (hi : OwnMove i (ctl s).this (ctl s).this.advance) (hr : isReap i = false)
    (hw : isWait i = false) (hx : KeepsCtl s x) (h : nextIp <$> x = .ok s') :
    Exec o i w (ctl s) (ctl s') := by
  obtain ⟨s1, h1, rfl⟩ := map_eq_ok.mp h
  rw [ctl_nextIp_of_eq (hx s1 h1)]
  exact .own _ hi (fun h => by simp [hr] at h) (fun h => by simp [hw] at h)

/-- A move of the running thread alone. -/
lemma exec_own {o : Obj} {i : Insn} {w : Words} {c c' : Ctl} {t : Thread} (hi : OwnMove i c.this t)
    (hr : isReap i = false) (hw : isWait i = false) (h : c' = c.setThis t) :
    Exec o i w c c' := by
  subst h
  exact .own _ hi (fun h => by simp [hr] at h) (fun h => by simp [hw] at h)

/-- **Every instruction of the machine is a move of its control.** -/
theorem ctl_execInsn {o : Obj} {i : Insn} {inp : Inp} {s s' : State} (hcur : s.cur ∈ s.live)
    (h : execInsn inp o s i = .ok s') : Exec o i (words s i) (ctl s) (ctl s') := by
  cases i with
  | nop => exact exec_own rfl rfl rfl (pure_eq_ok.mp h ▸ ctl_nextIp s)
  | mov d a => exact exec_of_keeps rfl rfl rfl (keepsCtl_of_wrote (insnMov_wrote s d a)) h
  | cast d a => exact exec_of_keeps rfl rfl rfl (keepsCtl_of_wrote (insnCast_wrote s d a)) h
  | arith op d a b => exact exec_of_keeps rfl rfl rfl (keepsCtl_of_wrote (insnBinArith_wrote s d a b op)) h
  | equ neq d a b => exact exec_of_keeps rfl rfl rfl (keepsCtl_of_wrote (insnEquNeq_wrote s d a b neq)) h
  | cmp op d a b => exact exec_of_keeps rfl rfl rfl (keepsCtl_of_wrote (insnBinLogic_wrote s d a b op)) h
  | not d a => exact exec_of_keeps rfl rfl rfl (keepsCtl_of_wrote (insnNot_wrote s d a)) h
  | neg d a => exact exec_of_keeps rfl rfl rfl (keepsCtl_of_wrote (insnNeg_wrote s d a)) h
  | bneg d a => exact exec_of_keeps rfl rfl rfl (keepsCtl_of_wrote (insnBneg_wrote s d a)) h
  | oz d a => exact exec_of_keeps rfl rfl rfl (keepsCtl_of_wrote (insnOz_wrote s d a)) h
  | inc dec d => exact exec_of_keeps rfl rfl rfl (keepsCtl_of_wrote (insnIncDec_wrote s d dec)) h
  | incp dec d a => exact exec_of_keeps rfl rfl rfl (keepsCtl_of_wrote (insnIncpDecp_wrote s d a dec)) h
  | jz jnz c loc =>
    obtain ⟨t, ht, hc⟩ := insnCjmp_move h
    exact exec_own ht rfl rfl hc
  | jmp loc => exact exec_own rfl rfl rfl (pure_eq_ok.mp h ▸ ctl_setVm _ _)
  | pushr v ssp =>
    obtain ⟨s1, h1, rfl⟩ := map_eq_ok.mp h
    refine exec_own rfl rfl rfl ?_
    rw [ctl_nextIp, insnPushr_ctl h1, Ctl.setThis_this, ctl_setThis_setThis]
    rfl
  | push v =>
    obtain ⟨s1, h1, rfl⟩ := map_eq_ok.mp h
    refine exec_own rfl rfl rfl ?_
    rw [ctl_nextIp, insnPush_ctl h1, Ctl.setThis_this, ctl_setThis_setThis]
    rfl
  | call loc bp =>
    obtain ⟨ip, b, hc⟩ := insnCall_ctl h
    exact exec_own ⟨ip, b, rfl⟩ rfl rfl hc
  | callv v loc bp =>
    obtain ⟨ip, b, hc⟩ := insnCall_ctl h
    exact exec_own ⟨ip, b, rfl⟩ rfl rfl hc
  | incsp a t =>
    obtain ⟨s1, h1, rfl⟩ := map_eq_ok.mp h
    refine exec_own rfl rfl rfl ?_
    rw [ctl_nextIp, insnIncsp_ctl h1, Ctl.setThis_this, ctl_setThis_setThis]
    rfl
  | ret size =>
    have hx : insnRet o s none size = .ok s' := h
    obtain ⟨hsp, hret⟩ := insnRet_return hx
    exact .ret size (.inl rfl) hsp _ hret
  | retv v size =>
    have hx : insnRet o s (some v) size = .ok s' := h
    obtain ⟨hsp, hret⟩ := insnRet_return hx
    exact .ret size (.inr ⟨v, rfl⟩) hsp _ hret
  | ref d a => exact exec_of_keeps rfl rfl rfl (keepsCtl_of_wrote (insnRef_wrote s d a)) h
  | drf d a => exact exec_of_keeps rfl rfl rfl (keepsCtl_of_wrote (insnDrf_wrote s d a)) h
  | rte a => exact insnRte_exec rfl (fun _ => rfl) rfl h
  | rtev d a => exact insnRte_exec rfl (fun _ => rfl) rfl h
  | qat d q func id => exact exec_of_keeps rfl rfl rfl (keepsCtl_of_wrote (insnQat_wrote s d q func id)) h
  | wait q t func id noblock units hasTimeout => exact insnWait_exec h
  | wlab func id =>
    obtain rfl := pure_eq_ok.mp h
    refine exec_own rfl rfl rfl ?_
    rw [ctl_nextIp, ctl_setVm, Ctl.setThis_this, ctl_setThis_setThis]
    rfl
  | getsp d => exact exec_of_keeps rfl rfl rfl (keepsCtl_of_wrote (insnGetsp_wrote s d)) h
  | qnt d loc sp =>
    obtain ⟨s1, h1, rfl⟩ := map_eq_ok.mp h
    exact insnQnt_exec hcur h1
  | qntv d v =>
    obtain ⟨s1, h1, rfl⟩ := map_eq_ok.mp h
    exact insnQntv_exec hcur h1
  | noint =>
    obtain rfl := pure_eq_ok.mp h
    refine exec_own rfl rfl rfl ?_
    rw [ctl_nextIp, ctl_setVm, Ctl.setThis_this, ctl_setThis_setThis]
    rfl
  | int =>
    obtain rfl := pure_eq_ok.mp h
    refine exec_own rfl rfl rfl ?_
    rw [ctl_nextIp, ctl_setVm, Ctl.setThis_this, ctl_setThis_setThis]
    rfl
  | bfun => exact insnBfun_exec rfl h

/-! ### The scheduler and the rounds -/

section Rounds

variable {o : Obj} {inp : Inp} {s s' : State}

lemma splits_waiting {now : Nat} {old v : Qvm} (h : splits now old v = true) : v.waiting = true := by
  simp only [splits, Bool.and_eq_true] at h
  exact h.1

/-- The loop stops at a quaint whose wait is over, by what the quaint below it has done. -/
lemma splitLoop_found {fuel old : Nat} {noint : Bool} {a : Nat}
    (h : splitLoop s fuel old (s.vms old).parent noint = .ok (some a)) :
    ∃ b, ReflTransGen (IsParent (ctl s).parent) old b ∧ IsParent (ctl s).parent b a ∧
      splits s.now (s.vms b) (s.vms a) = true ∧ a ∈ s.live := by
  induction fuel generalizing old noint with
  | zero => cases h
  | succ fuel ih =>
    rw [splitLoop] at h
    split at h
    · cases h
    · rename_i hc
      have hpar : IsParent (ctl s).parent old (s.vms old).parent :=
        if_neg fun h0 : (s.vms old).parent = 0 => hc (.inl h0)
      split at h
      · cases h
      · rename_i hlive
        split at h
        · rename_i hs
          cases h
          exact ⟨old, .refl, hpar, hs, not_not.mp hlive⟩
        · obtain ⟨b, hb, hrest⟩ := ih h
          exact ⟨b, hb.head hpar, hrest⟩

lemma readClock_eq_some {s1 : State} (h : readClock inp s = some s1) :
    ∃ now, s1 = { s with cycles := s.cycles + 1, now := now } := by
  unfold readClock at h
  split at h
  · obtain ⟨now, -, rfl⟩ := Option.map_eq_some_iff.mp h
    exact ⟨now, rfl⟩
  · obtain rfl := Option.some.inj h
    exact ⟨s.now, rfl⟩

lemma readClock_ctl {s1 : State} (h : readClock inp s = some s1) :
    ∃ now, ctl s1 = (ctl s).setNow now := by
  obtain ⟨now, rfl⟩ := readClock_eq_some h
  exact ⟨now, rfl⟩

lemma ctl_split {s' : State} (h : checkAndEventuallySplitVms inp s = .ok s') :
    Sched (ctl s) (ctl s') := by
  unfold checkAndEventuallySplitVms at h
  split at h
  · obtain rfl := pure_eq_ok.mp h
    exact .stay s.now
  · rename_i s1 hs1
    obtain ⟨now, hc⟩ := readClock_ctl hs1
    simp only [bind_eq_ok] at h
    obtain ⟨_, _, r, hr, h⟩ := h
    cases r with
    | none =>
      obtain rfl := pure_eq_ok.mp h
      rw [hc]
      exact .stay now
    | some a =>
      obtain rfl := pure_eq_ok.mp h
      obtain ⟨b, hb, hba, hsplits, hlive⟩ := splitLoop_found hr
      have hanc : TransGen (IsParent (ctl s1).parent) s1.cur a := .tail' hb hba
      have hwait := splits_waiting hsplits
      have hfin : ctl (splitTo s1 a) =
          (((ctl s).setNow now).set a ((ctl s).threads a).notWaiting.advance).setCur a := by
        rw [splitTo, ctl_setCur, ctl_setVms, hc]
        have hv : thread (s1.vms a) = (ctl s).threads a := congrFun (congrArg Ctl.threads hc) a
        rw [← hv]
        rfl
      have hpar : IsParent (ctl s1).parent = IsParent (ctl s).parent := by
        rw [hc]
        rfl
      rw [hfin]
      refine .split now a ?_ ?_ ?_
      · have hcur : s1.cur = (ctl s).cur := congrArg Ctl.cur hc
        rw [← hpar, ← hcur]
        exact hanc
      · have hv : (thread (s1.vms a)).waiting = ((ctl s).threads a).waiting :=
          congrArg Thread.waiting (congrFun (congrArg Ctl.threads hc) a)
        exact hv.symm.trans hwait
      · have hl : s1.live = (ctl s).live := congrArg Ctl.live hc
        exact hl ▸ hlive

/-- A quaint the scheduler moves on has a wait that is over. -/
lemma split_of_moved {s' : State} {p : Nat} (h : checkAndEventuallySplitVms inp s = .ok s')
    (hmoved : (s'.vms p).ip ≠ (s.vms p).ip) :
    ∃ b, ReflTransGen (IsParent (ctl s).parent) s.cur b ∧ IsParent (ctl s).parent b p ∧
      splits s'.now (s.vms b) (s.vms p) = true := by
  unfold checkAndEventuallySplitVms at h
  split at h
  · obtain rfl := pure_eq_ok.mp h
    exact (hmoved rfl).elim
  · rename_i s1 hs1
    obtain ⟨hvms, hcur⟩ : s1.vms = s.vms ∧ s1.cur = s.cur := by
      obtain ⟨now, rfl⟩ := readClock_eq_some hs1
      exact ⟨rfl, rfl⟩
    have hthreads : (ctl s1).threads = (ctl s).threads := by simp only [ctl, hvms]
    have hpar : (ctl s1).parent = (ctl s).parent := by
      funext x
      simp only [Ctl.parent, hthreads]
    simp only [bind_eq_ok] at h
    obtain ⟨_, _, r, hr, h⟩ := h
    cases r with
    | none =>
      obtain rfl := pure_eq_ok.mp h
      rw [hvms] at hmoved
      exact (hmoved rfl).elim
    | some a =>
      obtain rfl := pure_eq_ok.mp h
      obtain ⟨b, hb, hba, hsplits, -⟩ := splitLoop_found hr
      by_cases hpa : p = a
      · subst hpa
        rw [hpar, hcur] at hb
        rw [hpar] at hba
        rw [hvms] at hsplits
        exact ⟨b, hb, hba, hsplits⟩
      · refine (hmoved ?_).elim
        rw [← hvms]
        exact congrArg Qvm.ip (if_neg hpa)

/-- A round: the instruction `i`, which the running quaint stands at, leads to `s1`, and the
scheduler from there to `s'`. -/
structure Round (o : Obj) (inp : Inp) (i : Insn) (s s1 s' : State) : Prop where
  live : s.cur ∈ s.live
  fetch : o.insns[s.vm.ip]? = some i
  exec : execInsn inp o s i = .ok s1
  split : checkAndEventuallySplitVms inp s1 = .ok s'
  inside : s'.vm.ip < o.insnCount

lemma step_eq_ok : step inp o s = .ok s' ↔ ∃ i s1, Round o inp i s s1 s' := by
  simp only [step, bind_eq_ok, ubUnless_eq_ok, decide_eq_true_eq, orUb_eq_ok, legalIf_eq_ok]
  constructor
  · rintro ⟨_, hcur, i, hi, s1, h1, s2, h2, _, _, h⟩
    split at h
    · rename_i hlt
      obtain rfl := pure_eq_ok.mp h
      exact ⟨i, s1, hcur, hi, h1, h2, hlt⟩
    · cases h
  · rintro ⟨i, s1, h⟩
    have hlt := h.inside
    exact ⟨⟨⟩, h.live, i, h.fetch, s1, h.exec, s', h.split, ⟨⟩, hlt.le, by
      simp [hlt, pure, Except.pure]⟩

/-- **Every round of the machine is an instruction's move and a move of the scheduler.** -/
theorem Round.ctl {i : Insn} {s1 : State} (h : Round o inp i s s1 s') :
    Exec o i (words s i) (ctl s) (ctl s1) ∧ Sched (ctl s1) (ctl s') :=
  ⟨ctl_execInsn h.live h.exec, ctl_split h.split⟩

end Rounds

end Quaint.Effect
