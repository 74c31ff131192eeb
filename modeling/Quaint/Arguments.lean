import Quaint.Memory
import Quaint.Activation
import Quaint.Bounds
import Quaint.Linking

/-!
How arguments reach a function.

A call notes its place and pushes its arguments, each rounded up to a word; a quaint gets a
copy of what was pushed on a stack of its own. The frame of the function has each parameter
where its argument was pushed, whatever was run in between.
-/

namespace Quaint.Arguments

open Relation (ReflTransGen)
open Activation (Next runWhile run_of_runWhile still stillFrom)
open Control (ctl)
open Bounds (func_fits)
open Linking (closed_of_listed listed_func)
open Program (accept Compiles letter)
open Transition (run_of_guarded)
open Types Ast Bytes Code Exec Step Partial Effect Memory Codegen Emit Typing Layout Operand Listing

/-! ### Where the parameters lie -/

section Parameters

variable {tops : List TTop} {f : TFunc} {vs : List Var} {v : Var} {fr : Frame} {i : Nat}

/-- A parameter lies behind those before it. -/
lemma layoutPars_mem (h : FrameOk fr) (hfit : frameFits parEnd vs fr.size = true) (hi : vs[i]? = some v) :
    (v.1.beg, ⟨(vs.take i).foldl parEnd fr.size, v.2.bytes⟩) ∈ (vs.foldl layoutPar fr).layout := by
  induction vs generalizing fr i with
  | nil => cases hi
  | cons w ws ih =>
    simp only [frameFits, Bool.and_eq_true, decide_eq_true_eq] at hfit
    obtain ⟨hok, hsize, hmem⟩ := layoutPar_ok h hfit.1.2
    cases i with
    | zero =>
      obtain rfl := Option.some.inj hi
      exact (foldl_layout (f := layoutPar fr w) layoutPar_step).2.1 hmem
    | succ i =>
      rw [← hsize] at hfit
      have hrest := ih hok hfit.2 hi
      rw [hsize] at hrest
      exact hrest

/-- **A parameter is found behind the ones before it.** -/
theorem param_found_at (hA : Accepted tops) (hf : TTop.func f ∈ tops) (hfit : funcFits f = true)
    (hi : f.params.toList[i]? = some v) :
    htabGet (funcTag f).layout v.1 = some ⟨argBytes (f.params.toList.take i), v.2.bytes⟩ := by
  simp only [funcFits, Bool.and_eq_true] at hfit
  refine htabGet_of_mem (func_keys hA hf) ?_
  rw [funcTag_layout]
  exact (foldl_layout layoutVar_step).2.1 (layoutPars_mem frameOk_nil hfit.1.1 hi)

end Parameters

/-! ### What is pushed -/

/-- The end of a row of values, each rounded up to a word. -/
def rowEnd : Nat → List (List UInt8) → Nat
  | off, [] => off
  | off, v :: vs => rowEnd (alignUp (off + v.length) 8) vs

/-- The values lie in a row, each at the next word. -/
def InRow (m : Mem) : Nat → List (List UInt8) → Prop
  | _, [] => True
  | off, v :: vs => readMem m off v.length = v ∧ InRow m (alignUp (off + v.length) 8) vs

section Rows

variable {m m' : Mem} {off base i : Nat} {v : List UInt8} {vs : List (List UInt8)}

lemma le_rowEnd (off : Nat) (vs : List (List UInt8)) : off ≤ rowEnd off vs := by
  induction vs generalizing off with
  | nil => exact Nat.le_refl _
  | cons v vs ih =>
    have := le_alignUp (off + v.length) 8
    exact Nat.le_trans (Nat.le_trans (Nat.le_add_right _ _) this) (ih _)

lemma alignUp_add (h : base % 8 = 0) (n : Nat) : alignUp (base + n) 8 = base + alignUp n 8 := by
  have hmod : (base + n) % 8 = n % 8 := by omega
  rw [alignUp, alignUp, hmod, Nat.add_assoc]

/-- Each value of a row is read at the sum of those before it. -/
lemma InRow.read (h : InRow m (base + off) vs) (hb : base % 8 = 0) (hi : vs[i]? = some v) :
    readMem m (base + rowEnd off (vs.take i)) v.length = v ∧
      base + rowEnd off (vs.take i) + v.length ≤ rowEnd (base + off) vs := by
  induction vs generalizing off i with
  | nil => cases hi
  | cons w ws ih =>
    cases i with
    | zero =>
      obtain rfl := Option.some.inj hi
      refine ⟨h.1, Nat.le_trans ?_ (le_rowEnd _ ws)⟩
      exact le_alignUp _ 8
    | succ i =>
      have hrow := h.2
      rw [Nat.add_assoc, alignUp_add hb] at hrow
      have hrest := ih hrow hi
      have hend : rowEnd (base + off) (w :: ws) = rowEnd (base + alignUp (off + w.length) 8) ws := by
        rw [← alignUp_add hb, ← Nat.add_assoc]
        rfl
      rw [hend]
      exact hrest

lemma readMem_move {a b n : Nat} (hm : ∀ k, k < n → m' (b + k) = m (a + k)) :
    readMem m' b n = readMem m a n := by
  induction n generalizing a b with
  | zero => rfl
  | succ n ih =>
    rw [readMem, readMem, show m' b = m a from hm 0 (by omega)]
    refine congrArg _ (ih fun k hk => ?_)
    rw [Nat.add_assoc, Nat.add_assoc, Nat.add_comm 1]
    exact hm (k + 1) (by omega)

/-- A row is copied to another place. -/
lemma InRow.move {a b : Nat} (h : InRow m (a + off) vs) (ha : a % 8 = 0) (hb : b % 8 = 0)
    (hm : ∀ k, off ≤ k → k < rowEnd off vs → m' (b + k) = m (a + k)) : InRow m' (b + off) vs := by
  induction vs generalizing off with
  | nil => trivial
  | cons v vs ih =>
    have hle := le_alignUp (off + v.length) 8
    have hend : alignUp (off + v.length) 8 ≤ rowEnd off (v :: vs) := le_rowEnd _ _
    refine ⟨?_, ?_⟩
    · refine (readMem_move fun k hk => ?_).trans h.1
      rw [Nat.add_assoc, Nat.add_assoc]
      exact hm _ (by omega) (by omega)
    · have hrow := h.2
      rw [Nat.add_assoc, alignUp_add ha] at hrow
      rw [Nat.add_assoc, alignUp_add hb]
      exact ih hrow fun k h1 h2 => hm k (by omega) h2

/-- The bytes read at one place and written to another. -/
lemma copied {w n k : Nat} (hk : k < n) : writeMem m' off (readMem m w n) (off + k) = m (w + k) := by
  induction n generalizing off w k with
  | zero => omega
  | succ n ih =>
    cases k with
    | zero => simp [readMem, writeMem]
    | succ k =>
      have hne : off + (k + 1) ≠ off := by omega
      simp only [readMem, writeMem, hne, if_false]
      have hrest := @ih (off + 1) (w + 1) k (by omega)
      rwa [show off + 1 + k = off + (k + 1) by omega, show w + 1 + k = w + (k + 1) by omega] at hrest

/-- The row of the arguments of a function ends where its frame has them end. -/
lemma rowEnd_eq {ps : List Var} (h : vs.map List.length = ps.map fun p => p.2.bytes) (off : Nat) :
    rowEnd off vs = ps.foldl parEnd off := by
  induction vs generalizing ps off with
  | nil =>
    cases ps with
    | nil => rfl
    | cons => cases h
  | cons v vs ih =>
    cases ps with
    | nil => cases h
    | cons p ps =>
      simp only [List.map_cons, List.cons.injEq] at h
      have hstep : parEnd off p = alignUp (off + v.length) 8 := by rw [parEnd, h.1]
      rw [rowEnd, List.foldl_cons, hstep]
      exact ih h.2 _

end Rows

/-! ### Pushing -/

section Places

variable {s s' : State} {l : Loc} {bs : List UInt8} {n off : Nat} {a : Opd}

/-- What a push does: the value is copied to the stack pointer, which moves to the next word. -/
lemma insnPush_ok (h : insnPush s a = .ok s') :
    ∃ bs, loadOpd s a = .ok bs ∧ s.cur ∈ s.live ∧ s.vm.sp % 8 = 0 ∧
      s.vm.sp + bs.length ≤ stackSize ∧
      s' = s.setVm { s.vm with
        stack := writeMem s.vm.stack s.vm.sp bs, sp := alignUp (s.vm.sp + bs.length) 8 } := by
  simp only [insnPush, bind_eq_ok, legalIf_eq_ok, decide_eq_true_eq, State.memcpy, orUb_eq_ok,
    pure_eq_ok] at h
  obtain ⟨_, _, _, hmod, _, _, l, hl, s1, ⟨bs, hbs, hst⟩, _, _, rfl⟩ := h
  obtain ⟨hlive, hle, rfl⟩ := store_stack hst
  have hlen := load_length hbs
  refine ⟨bs, ?_, hlive, hmod, hle, ?_⟩
  · simp only [loadOpd, hl, bind_eq_ok, orUb_eq_ok]
    exact ⟨l, rfl, hbs⟩
  · have hsize : stackSize = 16304 := rfl
    have hwrap : (s.vm.sp + a.size) % 2 ^ 64 = s.vm.sp + a.size := Nat.mod_eq_of_lt (by omega)
    have hsp : alignedSp (s.vm.sp + a.size) = alignUp (s.vm.sp + bs.length) 8 := by
      rw [alignedSp, hwrap, hlen]
      rfl
    rw [hsp]
    simp only [State.setVm, State.setVms, State.vm, State.mk.injEq, true_and, and_true]
    funext x
    by_cases hx : x = s.cur <;> simp [hx]

lemma loadWord_temp {w : Nat} (ha : DirectTemp a) :
    loadWord s a = .ok w ↔ ∃ f prev, s.vm.temps = f :: prev ∧ s.cur ∈ s.live ∧ a.off + 8 ≤ f.size ∧
      w = leNat (readMem f.mem a.off 8) := by
  constructor
  · intro h
    simp only [loadWord, bind_eq_ok, State.loadNat, orUb_eq_ok, Option.map_eq_some_iff] at h
    obtain ⟨l, hl, bs, hbs, rfl⟩ := h
    obtain ⟨f, prev, ht, rfl⟩ := opdVal_temp ha hl
    refine ⟨f, prev, ht, ?_⟩
    simp only [State.load, State.place, region_temp ht] at hbs
    split at hbs
    · cases hbs
    · rename_i size m hreg
      simp only [Option.ite_none_right_eq_some, Option.some.injEq, Prod.mk.injEq] at hreg hbs
      obtain ⟨hlive, rfl, rfl⟩ := hreg
      exact ⟨hlive, hbs.1, congrArg leNat hbs.2.symm⟩
  · rintro ⟨f, prev, ht, hlive, hle, hw⟩
    rw [hw]
    have hreg := region_temp ht
    rw [if_pos hlive] at hreg
    have hload : s.load (.mem (.temp s.cur prev.length) a.off) 8 = some (readMem f.mem a.off 8) := by
      simp only [State.load, State.place, hreg, hle, if_true]
    simp only [loadWord, opdVal_of_temps ha ht, bind_eq_ok, State.loadNat, orUb_eq_ok]
    exact ⟨_, rfl, congrArg (Option.map leNat) hload⟩

lemma storeWord_temp {v : Nat} (ha : DirectTemp a) (h : storeWord s a v = .ok s') :
    ∃ f prev, s.vm.temps = f :: prev ∧ s.cur ∈ s.live ∧ a.off + 8 ≤ f.size ∧
      s' = s.setVm { s.vm with
        temps := { f with mem := writeMem f.mem a.off (leBytes 8 v) } :: prev } := by
  simp only [storeWord, bind_eq_ok, State.storeNat, orUb_eq_ok] at h
  obtain ⟨l, hl, hst⟩ := h
  obtain ⟨f, prev, ht, rfl⟩ := opdVal_temp ha hl
  obtain ⟨r, off', size, m, hp, hr, hle, rfl⟩ := store_eq_some.mp hst
  obtain ⟨rfl, rfl⟩ : Region.temp s.cur prev.length = r ∧ a.off = off' := by simpa [State.place] using hp
  rw [region_temp ht] at hr
  simp only [Option.ite_none_right_eq_some, Option.some.injEq, Prod.mk.injEq] at hr
  obtain ⟨hlive, rfl, rfl⟩ := hr
  rw [leBytes_length] at hle
  refine ⟨f, prev, ht, hlive, hle, ?_⟩
  rw [State.setRegion, show (s.vms s.cur).temps = f :: prev from ht]
  simp [State.setVm, State.vm]

/-- A word stored in a temporary is found there. -/
lemma load_storeWord {v : Nat} (ha : DirectTemp a) (h : storeWord s a v = .ok s') (hv : v < 2 ^ 64) :
    loadWord s' a = .ok v := by
  obtain ⟨f, prev, ht, hlive, hle, rfl⟩ := storeWord_temp ha h
  refine (loadWord_temp ha).mpr
    ⟨{ f with mem := writeMem f.mem a.off (leBytes 8 v) }, prev, by rw [setVm_vm], hlive, hle, ?_⟩
  have hread := readMem_writeMem_same f.mem a.off (leBytes 8 v)
  rw [leBytes_length] at hread
  rw [hread, leNat_leBytes, Nat.mod_eq_of_lt]
  exact hv

/-- A temporary keeps its word as long as its frame stays as it is. -/
lemma loadWord_congr (ha : DirectTemp a) (hcur : s'.cur = s.cur) (hlive : s'.live = s.live)
    (ht : s'.vm.temps = s.vm.temps) {w : Nat} (h : loadWord s a = .ok w) : loadWord s' a = .ok w := by
  rw [loadWord_temp ha] at h ⊢
  rw [hcur, hlive, ht]
  exact h

end Places

/-! ### Passing arguments -/

/-- Between the two states the quaint `c` evaluates something, and whatever else is run: its stack
pointer is back, and neither what it has pushed from `base` on nor the stack pointer it has saved
was written to. -/
structure Holds (c base : Nat) (ssp : Opd) (s t : State) : Prop where
  cur : t.cur = c
  sp : (t.vms c).sp = (s.vms c).sp
  pushed : ∀ k, base ≤ k → k < (s.vms c).sp → (t.vms c).stack k = (s.vms c).stack k
  saved : loadWord t ssp = loadWord s ssp

/-- The quaint `c` evaluates and pushes the values, one after the other. -/
inductive Passing (o : Obj) (c base : Nat) (ssp : Opd) : List (List UInt8) → State → State → Prop
  | done {s t} (h : Holds c base ssp s t) : Passing o c base ssp [] s t
  | push {v vs inp a s t t1 t'} (h : Holds c base ssp s t) (hv : loadOpd t a = .ok v)
    (hp : execInsn inp o t (.push a) = .ok t1) (hr : Passing o c base ssp vs t1 t') :
    Passing o c base ssp (v :: vs) s t'

section Passing

variable {o : Obj} {c base : Nat} {ssp : Opd} {s t t' : State} {vs : List (List UInt8)} {inp : Inp}

/-- What the values pushed look like on the stack. -/
structure Pushed (c base : Nat) (ssp : Opd) (vs : List (List UInt8)) (s t : State) : Prop where
  cur : t.cur = c
  sp : (t.vms c).sp = rowEnd (s.vms c).sp vs
  old : ∀ k, base ≤ k → k < (s.vms c).sp → (t.vms c).stack k = (s.vms c).stack k
  row : InRow (t.vms c).stack (s.vms c).sp vs
  room : vs ≠ [] → (t.vms c).sp ≤ stackSize
  saved : ∀ w, loadWord s ssp = .ok w → loadWord t ssp = .ok w

/-- The quaint after a push. -/
def Qvm.pushed (q : Qvm) (v : List UInt8) : Qvm :=
  { q with
    ip := q.ip + 1, sp := alignUp (q.sp + v.length) 8, stack := writeMem q.stack q.sp v }

lemma push_exec {a : Opd} {v : List UInt8} (h : execInsn inp o s (.push a) = .ok t)
    (hv : loadOpd s a = .ok v) :
    s.cur ∈ s.live ∧ s.vm.sp % 8 = 0 ∧ s.vm.sp + v.length ≤ stackSize ∧ t = s.setVm (Qvm.pushed s.vm v) := by
  simp only [execInsn, map_eq_ok] at h
  obtain ⟨s1, hp, rfl⟩ := h
  obtain ⟨bs, hbs, hlive, hmod, hle, rfl⟩ := insnPush_ok hp
  obtain rfl : bs = v := Except.ok.inj (hbs.symm.trans hv)
  refine ⟨hlive, hmod, hle, ?_⟩
  rw [nextIp, setVm_vm]
  simp only [State.setVm, State.setVms, State.mk.injEq, true_and, and_true]
  funext x
  by_cases hx : x = s.cur <;> simp [hx, Qvm.pushed, Qvm.advance]

lemma Passing.pushed (h : Passing o c base ssp vs s t) (ha : DirectTemp ssp) (hb : base ≤ (s.vms c).sp) :
    Pushed c base ssp vs s t := by
  induction h with
  | done h => exact ⟨h.cur, h.sp, h.pushed, trivial, fun hne => absurd rfl hne, fun w hw => h.saved ▸ hw⟩
  | @push v vs inp a s t t1 t' h hv hp hr ih =>
    obtain ⟨hlive, hmod, hle, rfl⟩ := push_exec hp hv
    obtain rfl := h.cur
    have hup := le_alignUp (t.vm.sp + v.length) 8
    have hsp : t.vm.sp = (s.vms t.cur).sp := h.sp
    have hvm : (t.setVm (Qvm.pushed t.vm v)).vms t.cur = Qvm.pushed t.vm v := setVm_vm _
    have hnext : (Qvm.pushed t.vm v).sp = alignUp (t.vm.sp + v.length) 8 := rfl
    have hrowEnd := le_rowEnd (alignUp (t.vm.sp + v.length) 8) vs
    obtain ⟨hcur, hsp', hold, hrow, hroom, hsaved⟩ := ih (by rw [hvm, hnext]; omega)
    rw [hvm, hnext] at hsp' hold hrow
    refine ⟨hcur, by rw [hsp', hsp]; rfl, fun k h1 h2 => ?_, ⟨?_, hsp ▸ hrow⟩, fun _ => ?_, fun w hw => ?_⟩
    · rw [hold k h1 (by omega)]
      exact (writeMem_of_lt _ _ (by omega)).trans (h.pushed k h1 h2)
    · rw [← hsp]
      exact (readMem_congr fun k h1 h2 => hold k (by omega) (by omega)).trans
        (readMem_writeMem_same t.vm.stack t.vm.sp v)
    · rw [hsp']
      rw [hsp'] at hroom
      cases vs with
      | nil =>
        have hsize : stackSize = 16304 := rfl
        rw [rowEnd, alignUp]
        split <;> omega
      | cons v vs => exact hroom (List.cons_ne_nil _ _)
    · have hkeep : loadWord t ssp = .ok w := h.saved ▸ hw
      exact hsaved w (loadWord_congr ha (setVm_cur _) (setVm_live _) (by rw [setVm_vm]; rfl) hkeep)

end Passing

/-! ### Finding the arguments -/

/-- The function finds the values in its parameters: whenever the frame of the quaint `q` is the
running one and the bytes of a parameter are still as they are, its operand holds the value. -/
def Finds (f : TFunc) (q : Qvm) (vs : List (List UInt8)) : Prop :=
  ∀ (i : Nat) (n : Sym) (t : Ty), f.params.toList[i]? = some (n, t) → ∃ (v : List UInt8) (ofs : Ofs), vs[i]? = some v ∧
    htabGet (funcTag f).layout n = some ofs ∧ ∀ s : State, s.cur ∈ s.live → s.vm.bp = q.bp →
      (∀ k, ofs.off ≤ k → k < ofs.off + ofs.size → s.vm.stack (q.bp + k) = q.stack (q.bp + k)) →
      loadOpd s (opdAuto t.signd ofs.off ofs.size) = .ok v

section Finding

variable {tops : List TTop} {f : TFunc} {q : Qvm} {vs : List (List UInt8)} {s : State}

lemma loadOpd_auto {signd : Bool} {off size : Nat} (hlive : s.cur ∈ s.live)
    (hle : s.vm.bp + off + size ≤ stackSize) :
    loadOpd s (opdAuto signd off size) = .ok (readMem s.vm.stack (s.vm.bp + off) size) := by
  have hload : s.load (.mem (.stack s.cur) (s.vm.bp + off)) size =
      some (readMem s.vm.stack (s.vm.bp + off) size) := by
    simp only [State.load, State.place, State.region, hlive, if_true, hle]
    rfl
  simp only [loadOpd, bind_eq_ok, orUb_eq_ok]
  exact ⟨_, rfl, hload⟩

/-- The values in a row from the base of the frame on are those of the parameters. -/
lemma finds_of_row (hA : Accepted tops) (hf : TTop.func f ∈ tops) (hfit : funcFits f = true)
    (hsize : vs.map List.length = f.params.toList.map fun p => p.2.bytes) (hb : q.bp % 8 = 0)
    (hrow : InRow q.stack q.bp vs) (hroom : vs ≠ [] → rowEnd q.bp vs ≤ stackSize) : Finds f q vs := by
  intro i n t hi
  have hlen : i < vs.length := by
    have hlt := (List.getElem?_eq_some_iff.mp hi).1
    have heq := congrArg List.length hsize
    rw [List.length_map, List.length_map] at heq
    omega
  obtain ⟨v, hv⟩ : ∃ v, vs[i]? = some v := ⟨_, List.getElem?_eq_getElem hlen⟩
  have hbytes : v.length = t.bytes := by
    have heq := congrArg (·[i]?) hsize
    simpa [hv, hi] using heq
  have htake : (vs.take i).map List.length = (f.params.toList.take i).map fun p => p.2.bytes := by
    rw [List.map_take, List.map_take, hsize]
  have hrow0 : InRow q.stack (q.bp + 0) vs := hrow
  obtain ⟨hread, hend⟩ := hrow0.read hb hv
  rw [rowEnd_eq htake] at hread hend
  have hne : vs ≠ [] := by
    rintro rfl
    cases hv
  have hle := Nat.le_trans hend (hroom hne)
  refine ⟨v, _, hv, param_found_at hA hf hfit hi, fun s hlive hbp hsame => ?_⟩
  have hat : s.vm.bp + argBytes (f.params.toList.take i) + t.bytes ≤ stackSize := by
    rw [hbp, ← hbytes]
    exact hle
  rw [loadOpd_auto hlive hat, hbp]
  refine congrArg Except.ok (Eq.trans ?_ hread)
  rw [hbytes]
  refine readMem_congr fun k h1 h2 => ?_
  have hk := hsame (k - q.bp) (by simp only; omega) (by simp only; omega)
  rwa [show q.bp + (k - q.bp) = k by omega] at hk

end Finding

/-! ### Entering a function -/

section Entering

variable {o : Obj} {inp : Inp} {s s' : State} {a ssp loc dst : Opd} {v w : Nat}

/-- A word stored through a direct operand is stored by the running quaint at its own place. -/
lemma storeWord_direct (ha : a.indirect = false) (h : storeWord s a v = .ok s') :
    ∀ x, x ≠ s.cur → s'.vms x = s.vms x := by
  intro x hx
  simp only [storeWord, bind_eq_ok, State.storeNat, orUb_eq_ok, State.opdVal, ha, Bool.false_eq_true,
    if_false] at h
  obtain ⟨l, ⟨base, hbase, hl⟩, hst⟩ := h
  obtain rfl := Except.ok.inj hl
  obtain ⟨r, off, size, m, hp, -, -, rfl⟩ := store_eq_some.mp hst
  unfold State.opdBase at hbase
  split at hbase
  · obtain rfl := Except.ok.inj hbase
    cases hp
  · split at hbase
    · cases hbase
    · obtain rfl := Except.ok.inj hbase
      obtain ⟨rfl, -⟩ : Region.temp s.cur _ = r ∧ _ := by simpa [State.place] using hp
      simp [State.setRegion, State.setVms, hx]
  · obtain rfl := Except.ok.inj hbase
    obtain ⟨rfl, -⟩ : Region.stack s.cur = r ∧ _ := by simpa [State.place] using hp
    simp [State.setRegion, State.setVms, hx]
  · obtain rfl := Except.ok.inj hbase
    obtain ⟨rfl, -⟩ : Region.bss = r ∧ _ := by simpa [State.place] using hp
    rfl

lemma pushr_exec (h : execInsn inp o s (.pushr a ssp) = .ok s') :
    DirectTemp ssp ∧ s.vm.sp % 8 = 0 ∧ s'.cur = s.cur ∧ s'.vm.sp = s.vm.sp + 16 ∧
      s.vm.sp + 16 ≤ stackSize ∧ loadWord s' ssp = .ok (s.vm.sp + 16) := by
  simp only [execInsn, map_eq_ok, insnPushr, bind_eq_ok, legalIf_eq_ok, decide_eq_true_eq] at h
  obtain ⟨s3, ⟨_, _, _, hssp, _, hmod, _, hle, s1, h1, s2, h2, h3⟩, rfl⟩ := h
  have ha := directTemp_of_legal hssp
  have hsize : stackSize = 16304 := rfl
  have hc := ctl_storeWord h3
  have hc12 : ctl s2 = ctl s := (ctl_storeNat h2).trans (ctl_storeNat h1)
  have hcur : s2.cur = s.cur := congrArg Control.Ctl.cur hc12
  have hload := load_storeWord ha h3 (by omega)
  have hcur3 : s3.cur = s.cur := (congrArg Control.Ctl.cur hc).trans hcur
  have hsp3 : s3.vm.sp = s.vm.sp + 16 := by
    have hthis := congrArg (fun c => (Control.Ctl.this c).sp) hc
    simp only [ctl_setVm, Control.Ctl.setThis_this] at hthis
    exact hthis
  refine ⟨ha, hmod, hcur3, ?_, hle, ?_⟩
  · rw [nextIp_vm]
    exact hsp3
  · exact loadWord_congr ha nextIp_cur nextIp_live (by rw [nextIp_vm]; rfl) hload

lemma getsp_exec (h : execInsn inp o s (.getsp ssp) = .ok s') :
    DirectTemp ssp ∧ s'.cur = s.cur ∧ s'.vm.sp = s.vm.sp ∧
      (s.vm.sp < 2 ^ 64 → loadWord s' ssp = .ok s.vm.sp) := by
  simp only [execInsn, map_eq_ok, insnGetsp, bind_eq_ok] at h
  obtain ⟨s1, ⟨_, hssp, h1⟩, rfl⟩ := h
  have ha := directTemp_of_legal hssp
  have hc := ctl_storeWord h1
  have hcur : s1.cur = s.cur := congrArg Control.Ctl.cur hc
  have hsp : s1.vm.sp = s.vm.sp := congrArg (fun c => (Control.Ctl.this c).sp) hc
  refine ⟨ha, hcur, by rw [nextIp_vm]; exact hsp, fun hlt => ?_⟩
  exact loadWord_congr ha nextIp_cur nextIp_live (by rw [nextIp_vm]; rfl) (load_storeWord ha h1 hlt)

lemma call_exec (h : insnCall s loc ssp = .ok s') (hw : loadWord s ssp = .ok w) :
    s'.cur = s.cur ∧ s'.vm.bp = w ∧ s'.vm.sp = s.vm.sp ∧ s'.vm.stack = s.vm.stack := by
  simp only [insnCall, bind_eq_ok, pure_eq_ok] at h
  obtain ⟨_, _, _, _, _, _, ip, _, b, hb, rfl⟩ := h
  obtain rfl := Except.ok.inj (hw.symm.trans hb)
  simp

lemma qnt_exec (h : execInsn inp o s (.qnt dst loc ssp) = .ok s') :
    ∃ w q l, loadWord s ssp = .ok w ∧ q ∉ s.live ∧ q ∈ s'.live ∧ w ≤ s.vm.sp ∧ s.vm.sp ≤ stackSize ∧
      16 + (s.vm.sp - w) ≤ stackSize ∧ s'.vms q = newQuaint l (readMem s.vm.stack w (s.vm.sp - w)) ∧ s'.cur = s.cur ∧ s'.vm.sp = w := by
  simp only [execInsn, map_eq_ok, insnQnt, bind_eq_ok, orNomem_eq_ok, orUb_eq_ok, pure_eq_ok,
    legalIf_eq_ok, ubUnless_eq_ok, decide_eq_true_eq, beq_iff_eq] at h
  obtain ⟨_, ⟨_, _, _, hdir, _, _, _, _, _, _, _, hssp, l, _, w, hw, a, ha, _, hle, args, hargs, _, hnext,
    s1, h1, rfl⟩, rfl⟩ := h
  obtain ⟨_, _, _, hcur, _⟩ := (loadWord_temp (directTemp_of_legal hssp)).mp hw
  obtain ⟨h0, hnew⟩ := not_live_of_fresh (by decide) (alloc_fresh ha)
  have hne : a ≠ s.cur := fun hc => hnew (hc ▸ hcur)
  have hc1 := (ctl_storeWord h1).trans (ctl_addVm s a _)
  have hcur1 : s1.cur = s.cur := congrArg Control.Ctl.cur hc1
  have hlive1 : s1.live = a :: s.live := congrArg Control.Ctl.live hc1
  have hq : s1.vms a = newQuaint l args := by
    rw [storeWord_direct hdir h1 a hne]
    simp [State.addVm, State.setVms]
  simp only [State.load, State.place, State.region, hcur, if_true, Option.ite_none_right_eq_some,
    Option.some.injEq] at hargs
  obtain ⟨hroom, rfl⟩ := hargs
  refine ⟨w, a, l, hw, hnew, ?_, hle, by omega, by simpa using hnext, ?_, hcur1, ?_⟩
  · exact hlive1 ▸ List.mem_cons_self
  · have hne1 : a ≠ s1.cur := hcur1 ▸ hne
    simp only [nextIp, State.setVm, State.setVms, hne1, if_false]
    exact hq
  · rw [nextIp_vm, setVm_vm]
    rfl

end Entering

/-! ### Leaving a function -/

/-- The bytes a return takes off the stack. -/
def leaves : Insn → Option Opd
  | .ret size | .retv _ size => some size
  | _ => none

/-- Every return of the code takes the frame and the saved words. -/
def Leaving (cx : Cx) (code : List Insn) : Prop := ∀ i ∈ code, ∀ size, leaves i = some size → size = retSize cx

section Leaving

variable {cx : Cx} {x : Item} {p p' : Pt} {code c1 c2 : List Insn} {r : Option Opd} {a b : Opd}

lemma Leaving.append (h1 : Leaving cx c1) (h2 : Leaving cx c2) : Leaving cx (c1 ++ c2) := by
  intro i hi
  rcases List.mem_append.mp hi with hi | hi
  · exact h1 i hi
  · exact h2 i hi

lemma leaving_stay (h : code.all (fun i => (leaves i).isNone) = true) : Leaving cx code := by
  intro i hi size hs
  have hnone := List.all_eq_true.mp h i hi
  simp only [hs] at hnone
  cases hnone

/-- Other instructions may follow, or go before. -/
lemma Leaving.tail (h : Leaving cx c1) (h2 : c2.all (fun i => (leaves i).isNone) = true) :
    Leaving cx (c1 ++ c2) := h.append (leaving_stay h2)

lemma Leaving.head (h : Leaving cx c2) (h1 : c1.all (fun i => (leaves i).isNone) = true) :
    Leaving cx (c1 ++ c2) := (leaving_stay h1).append h

lemma scaled_stay {m : Nat} (h : Scaled p m a code b p') :
    code.all (fun i => (leaves i).isNone) = true := by
  cases h <;> rfl

lemma indexed_stay {m k : Nat} (h : Indexed p m k a code b p') :
    code.all (fun i => (leaves i).isNone) = true := by
  cases h <;> rfl

lemma fetched_stay (h : Fetched p a code b p') : code.all (fun i => (leaves i).isNone) = true := by
  cases h <;> rfl

lemma base_stay (h : Base p a code b p') : code.all (fun i => (leaves i).isNone) = true := by
  cases h <;> rfl

lemma inits_stay {t : Ty} {ns : List Sym} (h : Inits cx t a ns code) :
    code.all (fun i => (leaves i).isNone) = true := by
  induction h with
  | nil => rfl
  | cons n ns ofs code hn h ih => exact ih

/-- **Every return of an item takes the frame and the saved words.** -/
theorem leaving_item (h : Emit cx x p code r p') : Leaving cx code := by
  induction h with
  | assn _ _ ihl ihr | asmu _ _ _ ihl ihr | waitFor _ _ _ ihl ihr => exact (ihl.append ihr).tail rfl
  | equl hop _ _ _ ihl ihr =>
    obtain ⟨neq, rfl⟩ | ⟨cop, rfl⟩ | ⟨aop, rfl⟩ := bexpInsn_cases hop <;> exact (ihl.append ihr).tail rfl
  | plus _ _ _ hs _ ihl ihr | aspl _ _ _ hs _ ihl ihr =>
    exact ((ihl.append ihr).tail (scaled_stay hs)).tail rfl
  | conj _ _ _ _ ihl ihr => exact .tail (.append (.tail ihl rfl) ihr) rfl
  | coma _ _ ihl ihr | stmtsCons _ _ ihl ihr => exact ihl.append ihr
  | scop | szof | name | nmbr | argsNil | decl | stmtsNil | elifsNone | wlab | strl => exact leaving_stay rfl
  | retn =>
    intro i hi size hs
    obtain rfl := List.mem_singleton.mp hi
    exact (Option.some.inj hs).symm
  | retnValue _ ih =>
    refine ih.append fun i hi size hs => ?_
    obtain rfl := List.mem_singleton.mp hi
    exact (Option.some.inj hs).symm
  | arow _ _ hf _ ih => exact (ih.tail (fetched_stay hf)).tail rfl
  | aexp _ _ hi ha ihb iho =>
    exact (((ihb.append iho).tail (indexed_stay hi)).tail (base_stay ha)).tail rfl
  | memb _ _ _ ih | uplus _ ih | multLvalue _ _ ih | blok _ ih | els _ ih => exact ih
  | atsi _ _ _ ih | membIndirect _ _ _ ih | cast _ _ ih | tild _ _ _ ih
  | multRvalue _ _ _ ih | multValue _ _ _ ih | multVoid _ _ _ ih | amps _ _ ih | incr _ _ _ ih
  | incrBy _ _ _ ih | xexp _ _ _ ih | xexpBy _ _ _ ih | wait _ _ ih | exprStmt _ ih => exact ih.tail rfl
  | unary hop _ _ ih => obtain rfl | rfl | rfl := unaryInsn_cases hop <;> exact ih.tail rfl
  | declInit _ hi ih => exact ih.tail (inits_stay hi)
  | tildCall _ _ _ iha ihl | callv _ _ _ iha ihl | call _ _ _ iha ihl =>
    exact ((iha.head rfl).append ihl).tail rfl
  | texp _ _ _ _ ihc iht ihf => exact .tail (.append (.tail (.append (.tail ihc rfl) iht) rfl) ihf) rfl
  | argsCons _ _ ih ihr => exact .append (.tail ih rfl) ihr
  | whil _ _ ihe ihb => exact .tail (.append (.tail ihe rfl) ihb) rfl
  | cond _ _ _ ihe ihb ihr | elif _ _ _ ihe ihb ihr =>
    exact .append (.tail (.append (.tail ihe rfl) ihb) rfl) ihr
  | noin _ ih => exact (ih.head rfl).tail rfl
  | dowh _ _ ihb ihe => exact (ihb.append ihe).tail rfl

end Leaving

/-! ### The code of a call -/

/-- The code evaluates and pushes one value of each size. -/
inductive PushesEach (locs : List (Nat × Nat)) : List Nat → List Insn → Prop
  | nil : PushesEach locs [] []
  | cons {n ns a rest} (code : List Insn) (ha : (printOpd locs a).size = n)
    (h : PushesEach locs ns rest) : PushesEach locs (n :: ns) (code ++ [Insn.push a] ++ rest)

section Code

variable {tops : List TTop} {f : TFunc} {locs : List (Nat × Nat)} {cx : Cx} {p p' : Pt}
  {code : List Insn} {r : Option Opd} {as : TArgs} {ps : Fields}

/-- The values pushed for checked arguments have the sizes of the parameters. -/
lemma args_pushed (hu : InUnit tops f cx) (hr : Resolves locs tops) :
    ∀ {as : TArgs} {ps : Fields} {p : Pt} {code : List Insn}, CheckedArgs (KnownIn tops f) ps as →
      Emit cx (.args as) p code none p' → PushesEach locs (ps.toList.map fun v => v.2.bytes) code
  | .nil, .nil, _, _, _, .argsNil => .nil
  | .cons _ _, .cons _ _ _, _, _, ⟨he', heq, hrest'⟩, .argsCons he hrest =>
    .cons _ ((emit_item hu hr he he').size.trans (bytes_of_equals heq)) (args_pushed hu hr hrest' hrest)

/-- **The code of a call** notes its place, pushes a value of the size of each parameter of the
type it calls, and calls with the stack pointer noted. -/
theorem call_code (hu : InUnit tops f cx) (hr : Resolves locs tops) {l : TExpr} {t : Ty} {n : Bool}
    (hc : Checked (KnownIn tops f) (.fexp l as t)) (h : Emit cx (.expr (.fexp l as t) n) p code r p') :
    ∃ ps ret place ssp c1 c2 loc last, typeOfExpr l = .fptr 1 ps ret ∧
      code = [Insn.pushr place ssp] ++ c1 ++ c2 ++ [last] ∧
      PushesEach locs (ps.toList.map fun v => v.2.bytes) c1 ∧
      (last = .call loc ssp ∨ ∃ v, last = .callv v loc ssp) := by
  obtain ⟨ps, ret, hl, -, -, has⟩ := hc
  cases h with
  | callv ht ha he => exact ⟨_, _, _, _, _, _, _, _, hl, rfl, args_pushed hu hr has ha, .inr ⟨_, rfl⟩⟩
  | call ht ha he => exact ⟨_, _, _, _, _, _, _, _, hl, rfl, args_pushed hu hr has ha, .inl rfl⟩

/-- **The code of a quaint** pushes its arguments in the same way. -/
theorem quaint_code (hu : InUnit tops f cx) (hr : Resolves locs tops) {l : TExpr} {t tc : Ty} {n : Bool}
    (hc : Checked (KnownIn tops f) (.fexp l as tc))
    (h : Emit cx (.expr (.uexp .tild (.fexp l as tc) t) n) p code r p') :
    ∃ ps ret ssp c1 c2 dst loc, typeOfExpr l = .fptr 1 ps ret ∧
      code = [Insn.getsp ssp] ++ c1 ++ c2 ++ [Insn.qnt dst loc ssp] ∧
      PushesEach locs (ps.toList.map fun v => v.2.bytes) c1 := by
  obtain ⟨ps, ret, hl, -, -, has⟩ := hc
  cases h with
  | tildCall ht ha he => exact ⟨_, _, _, _, _, _, _, hl, rfl, args_pushed hu hr has ha⟩
  | tild hne => exact absurd rfl (hne _ _ _)
  | unary hop | incr hop | incrBy hop => cases hop

end Code

/-! ### The convention -/

/-- The values have the sizes of the parameters. -/
def Fit (f : TFunc) (vs : List (List UInt8)) : Prop :=
  vs.map List.length = f.params.toList.map fun p => p.2.bytes

/-- How a function gets its arguments: whatever values of the right sizes are pushed, and whatever is
run in between, the function finds them in its parameters, when it is called and in a quaint of its
own; every call and every quaint in the code of something of its type pushes a value of the size of each
parameter; and its frame is what was pushed and what `INCSP` adds, which every return takes off. -/
structure Convention (tops : List TTop) (o : Obj) (f : TFunc) : Prop where
  called : ∀ {vs inp0 inp1 place ssp loc s0 s t t'}, Fit f vs → execInsn inp0 o s0 (.pushr place ssp) = .ok s →
    Passing o s0.cur (s0.vm.sp + 16) ssp vs s t →
    (execInsn inp1 o t (.call loc ssp) = .ok t' ∨ ∃ val, execInsn inp1 o t (.callv val loc ssp) = .ok t') →
    t'.cur = s0.cur ∧ t'.vm.bp = s0.vm.sp + 16 ∧ t'.vm.sp = t'.vm.bp + (funcTag f).argsSize ∧
      Finds f t'.vm vs
  quaint : ∀ {vs inp0 inp1 ssp dst loc s0 s t t'}, Fit f vs → execInsn inp0 o s0 (.getsp ssp) = .ok s →
    Passing o s0.cur s0.vm.sp ssp vs s t →
    execInsn inp1 o t (.qnt dst loc ssp) = .ok t' →
    t'.cur = s0.cur ∧ t'.vm.sp = s0.vm.sp ∧ ∃ q, q ∉ t.live ∧ q ∈ t'.live ∧ (t'.vms q).bp = 16 ∧
      (t'.vms q).sp = 16 + (funcTag f).argsSize ∧ Finds f (t'.vms q) vs
  callCode : ∀ fns, Listed tops fns o → ∀ g ∈ fns, ∀ {l as t n p code r p'},
    typeOfExpr l = .fptr 1 f.params f.rettype → Checked (KnownIn tops g.func) (.fexp l as t) →
    Emit (g.cx (globalsOf tops).size (globalsOf tops).layout) (.expr (.fexp l as t) n) p code r p' →
    ∃ place ssp c1 c2 loc last, code = [Insn.pushr place ssp] ++ c1 ++ c2 ++ [last] ∧
      PushesEach (locsOf fns) (f.params.toList.map fun p => p.2.bytes) c1 ∧
      (last = .call loc ssp ∨ ∃ v, last = .callv v loc ssp)
  quaintCode : ∀ fns, Listed tops fns o → ∀ g ∈ fns, ∀ {l as t tc n p code r p'},
    typeOfExpr l = .fptr 1 f.params f.rettype → Checked (KnownIn tops g.func) (.fexp l as tc) →
    Emit (g.cx (globalsOf tops).size (globalsOf tops).layout)
      (.expr (.uexp .tild (.fexp l as tc) t) n) p code r p' →
    ∃ ssp c1 c2 dst loc, code = [Insn.getsp ssp] ++ c1 ++ c2 ++ [Insn.qnt dst loc ssp] ∧
      PushesEach (locsOf fns) (f.params.toList.map fun p => p.2.bytes) c1
  frame : ∃ fns, Listed tops fns o ∧ (∃ fn ∈ fns, fn.func = f) ∧ ∀ fn ∈ fns, fn.func = f →
    ∃ addend tsize, o.insns[fn.entry]? = some (.incsp (opdImm false addend 8) tsize) ∧
      addend + (funcTag f).argsSize = (funcTag f).frameSize ∧
      ∀ i ∈ fn.code.map (link fns), ∀ size, leaves i = some size →
        size = opdImm false ((funcTag f).frameSize + 16) 8

section Convention

variable {u : Ast.Unit} {tops : List TTop} {o : Obj} {f : TFunc} {vs : List (List UInt8)} {c base : Nat}
  {ssp : Opd} {s t : State}

lemma Passing.aligned (h : Passing o c base ssp vs s t) (hne : vs ≠ []) : (s.vms c).sp % 8 = 0 := by
  cases h with
  | done => exact absurd rfl hne
  | push h hv hp hr =>
    obtain ⟨-, hmod, -, -⟩ := push_exec hp hv
    rw [← h.sp, ← h.cur]
    exact hmod

lemma argsSize_eq (hfit : funcFits f = true) (hvs : Fit f vs) : (funcTag f).argsSize = rowEnd 0 vs := by
  rw [(goodFrame_of_fits hfit).args, rowEnd_eq hvs]
  rfl

lemma rowEnd_add {n : Nat} (h : base % 8 = 0) (hn : n % 8 = 0) : rowEnd (base + n) vs = base + rowEnd n vs := by
  induction vs generalizing n with
  | nil => rfl
  | cons v vs ih => rw [rowEnd, rowEnd, Nat.add_assoc, alignUp_add h, ih (alignUp_mod (by decide))]

lemma leaves_link {fns : List Fn} {i : Insn} {size : Opd} (h : leaves (link fns i) = some size) :
    ∃ size', leaves i = some size' ∧ size = printOpd (locsOf fns) size' := by
  cases i <;> first | (cases h; done) | exact ⟨_, rfl, (Option.some.inj h).symm⟩

lemma frame_of_listed (hfit : funcFits f = true) {fns : List Fn} {fn : Fn} (hl : Listed tops fns o)
    (hfn : fn ∈ fns) (hf : fn.func = f) (hat : At o.insns fn.entry (fn.code.map (link fns))) :
    ∃ addend tsize, o.insns[fn.entry]? = some (.incsp (opdImm false addend 8) tsize) ∧
      addend + (funcTag f).argsSize = (funcTag f).frameSize ∧
      ∀ i ∈ fn.code.map (link fns), ∀ size, leaves i = some size →
        size = opdImm false ((funcTag f).frameSize + 16) 8 := by
  subst hf
  have hg := goodFrame_of_fits hfit
  have hret : retSize (fn.cx (globalsOf tops).size (globalsOf tops).layout) =
      opdImm false ((funcTag fn.func).frameSize + 16) 8 := by
    rw [retSize, wrap64_of_lt]
    · rfl
    · exact hg.frame_lt
  have hword : ∀ n, printOpd (locsOf fns) (opdImm false n 8) = opdImm false n 8 := fun n =>
    printOpd_of_ne (.inr (show 8 ≠ 0 by decide))
  have hadd : wrap64 (2 ^ 64 + (funcTag fn.func).frameSize - (funcTag fn.func).argsSize) =
      (funcTag fn.func).frameSize - (funcTag fn.func).argsSize := by
    have hle := hg.args_le
    have hlt := hg.frame_lt
    rw [Nat.add_sub_assoc hle, wrap64, Nat.add_mod_left]
    exact Nat.mod_eq_of_lt (by omega)
  refine ⟨(funcTag fn.func).frameSize - (funcTag fn.func).argsSize,
    printOpd (locsOf fns) (opdImm false fn.stop.tempOffPeak 8), ?_, Nat.sub_add_cancel hg.args_le, ?_⟩
  · have hhead : o.insns[fn.entry]? = some (link fns fn.incsp) := hat.head
    have hincsp : link fns fn.incsp = .incsp (printOpd (locsOf fns) (opdImm false
        (wrap64 (2 ^ 64 + (funcTag fn.func).frameSize - (funcTag fn.func).argsSize)) 8))
        (printOpd (locsOf fns) (opdImm false fn.stop.tempOffPeak 8)) := rfl
    rw [hhead, hincsp, hadd, hword]
  · intro i hi size hs
    obtain ⟨j, hj, rfl⟩ := List.mem_map.mp hi
    obtain ⟨size', hs', rfl⟩ := leaves_link hs
    have hbody : Leaving (fn.cx (globalsOf tops).size (globalsOf tops).layout) fn.code := by
      show Leaving _ ([fn.incsp] ++ (fn.body ++ [fn.ret]))
      refine Leaving.head ?_ rfl
      refine (leaving_item (emitted_of_listed hl hfn)).append fun k hk sz hsz => ?_
      obtain rfl := List.mem_singleton.mp hk
      exact (Option.some.inj hsz).symm
    rw [hbody j hj _ hs', hret, hword]

/-- **Arguments arrive**, for every function of an accepted unit whose sizes do not overflow. -/
theorem arguments_arrive (hc : Compiles u o) (ha : accept u = some tops) (hs : sizesFit tops = true)
    (hf : TTop.func f ∈ tops) : Convention tops o f := by
  have hA := accepted_of_accept ha
  have hfit := func_fits hs hf
  constructor
  · intro vs inp0 inp1 place ssp loc s0 s t t' hvs hsave hpass hcall
    obtain ⟨hssp, hmod, hcur, hsp, hroom, hload⟩ := pushr_exec hsave
    have hsp' : (s.vms s0.cur).sp = s0.vm.sp + 16 := hcur ▸ hsp
    obtain ⟨hcur', hspt, -, hrow, hroomt, hsaved⟩ := hpass.pushed hssp (Nat.le_of_eq hsp'.symm)
    have hins : insnCall t loc ssp = .ok t' := by
      rcases hcall with h | ⟨_, h⟩ <;> exact h
    obtain ⟨hcur1, hbp1, hsp1, hstack1⟩ := call_exec hins (hsaved _ hload)
    have hvm : t.vms s0.cur = t.vm := by rw [← hcur']; rfl
    rw [hvm, hsp'] at hspt
    rw [hvm, hsp', ← hbp1] at hrow
    have hbase : (s0.vm.sp + 16) % 8 = 0 := by omega
    refine ⟨hcur1.trans hcur', hbp1, ?_, finds_of_row hA hf hfit hvs (hbp1 ▸ hbase) (hstack1 ▸ hrow)
      fun hne => ?_⟩
    · rw [hsp1, hspt, hbp1, argsSize_eq hfit hvs]
      exact rowEnd_add (n := 0) hbase rfl
    · rw [hbp1, ← hspt, ← hvm]
      exact hroomt hne
  · intro vs inp0 inp1 ssp dst loc s0 s t t' hvs hsave hpass hqnt
    obtain ⟨hssp, hcur, hsp, hload⟩ := getsp_exec hsave
    have hsp' : (s.vms s0.cur).sp = s0.vm.sp := hcur ▸ hsp
    obtain ⟨hcur', hspt, -, hrow, -, hsaved⟩ := hpass.pushed hssp (Nat.le_of_eq hsp'.symm)
    obtain ⟨w, q, l, hw, hnew, hlive, hle, hroom, hnext, hq, hcur1, hsp1⟩ := qnt_exec hqnt
    have hvm : t.vms s0.cur = t.vm := by rw [← hcur']; rfl
    rw [hvm, hsp'] at hspt
    rw [hvm, hsp'] at hrow
    have hge := le_rowEnd s0.vm.sp vs
    have hsize : stackSize = 16304 := rfl
    obtain rfl : s0.vm.sp = w := Except.ok.inj ((hsaved _ (hload (by omega))).symm.trans hw)
    have hlen : t.vm.sp - s0.vm.sp = rowEnd 0 vs := by
      by_cases hne : vs = []
      · subst hne
        rw [hspt]
        exact Nat.sub_self _
      · have hmod := hpass.aligned hne
        rw [hsp'] at hmod
        rw [hspt, show rowEnd s0.vm.sp vs = s0.vm.sp + rowEnd 0 vs from rowEnd_add (n := 0) hmod rfl]
        omega
    refine ⟨hcur1.trans hcur', hsp1, q, hnew, hlive, by rw [hq]; rfl, ?_, ?_⟩
    · rw [hq, argsSize_eq hfit hvs, ← hlen]
      simp [newQuaint]
    · have hbp : (t'.vms q).bp = 16 := by rw [hq]; rfl
      refine finds_of_row hA hf hfit hvs (by rw [hbp]) ?_ fun hne => ?_
      · by_cases hne : vs = []
        · subst hne
          trivial
        · have hmod := hpass.aligned hne
          rw [hsp'] at hmod
          rw [hbp, hq]
          have hrow0 : InRow t.vm.stack (s0.vm.sp + 0) vs := hrow
          show InRow _ (16 + 0) vs
          exact hrow0.move hmod rfl fun k _ hk => copied (by omega)
      · rw [hbp, show rowEnd 16 vs = 16 + rowEnd 0 vs from rowEnd_add (n := 0) rfl rfl, ← hlen]
        exact hnext
  · intro fns hl g hg l as t n p code r p' hty hchk hemit
    obtain ⟨ps, ret, place, ssp, c1, c2, loc, last, hty', hcode, hpush, hlast⟩ :=
      call_code (inUnit_of_listed hA hl hg) (resolves_of_listed hl) hchk hemit
    obtain ⟨-, rfl, rfl⟩ := Ty.fptr.inj (hty.symm.trans hty')
    exact ⟨place, ssp, c1, c2, loc, last, hcode, hpush, hlast⟩
  · intro fns hl g hg l as t tc n p code r p' hty hchk hemit
    obtain ⟨ps, ret, ssp, c1, c2, dst, loc, hty', hcode, hpush⟩ :=
      quaint_code (inUnit_of_listed hA hl hg) (resolves_of_listed hl) hchk hemit
    obtain ⟨-, rfl, rfl⟩ := Ty.fptr.inj (hty.symm.trans hty')
    exact ⟨ssp, c1, c2, dst, loc, hcode, hpush⟩
  · obtain ⟨tops', fns, ha', hl⟩ := listed_of_compiles hc
    obtain rfl := Option.some.inj (ha.symm.trans ha')
    have hclosed := closed_of_listed hA hl
    exact ⟨fns, hl, listed_func hl f hf, fun fn hfn hff => frame_of_listed hfit hl hfn hff (hclosed.placed fn hfn)⟩

/-! ### A call and a quaint with two arguments -/

lemma place_clock (k n : Nat) (l : Loc) : State.place { s with cycles := k, now := n } l = s.place l := by
  cases l with
  | imm v => rfl
  | mem r off => rfl
  | addr p => exact locate_congr rfl rfl rfl (locateVm_congr fun vm => rfl)

lemma region_clock (k n : Nat) (r : Region) : State.region { s with cycles := k, now := n } r = s.region r := by
  cases r <;> rfl

/-- The clock changes no operand. -/
lemma loadWord_clock (k n : Nat) (a : Opd) : loadWord { s with cycles := k, now := n } a = loadWord s a := by
  have hbase : State.opdBase { s with cycles := k, now := n } a = s.opdBase a := by
    simp only [State.opdBase, State.vm]
  simp only [loadWord, State.opdVal, hbase, State.loadNat, State.load, place_clock, region_clock]

/-- The scheduler keeps what is passed, if it goes on with the same quaint. -/
lemma holds_sched {inp : Inp} {s' : State} (h : checkAndEventuallySplitVms inp s = .ok s')
    (hcur : s'.cur = s.cur) (hw : s.vm.waiting = false) : Holds s.cur base ssp s s' := by
  unfold checkAndEventuallySplitVms at h
  split at h
  · obtain rfl := pure_eq_ok.mp h
    exact ⟨rfl, rfl, fun _ _ _ => rfl, loadWord_clock (s.cycles + 1) s.now ssp⟩
  · rename_i s1 hs1
    obtain ⟨now, rfl⟩ := readClock_eq_some hs1
    simp only [bind_eq_ok] at h
    obtain ⟨_, _, r, hr, h⟩ := h
    cases r with
    | none =>
      obtain rfl := pure_eq_ok.mp h
      exact ⟨rfl, rfl, fun _ _ _ => rfl, loadWord_clock (s.cycles + 1) now ssp⟩
    | some a =>
      obtain rfl := pure_eq_ok.mp h
      obtain rfl : a = s.cur := hcur
      obtain ⟨b, -, -, hsplits, -⟩ := splitLoop_found hr
      cases hw.symm.trans (splits_waiting hsplits)

/-- A round of a quaint that does not wait and is gone on with. -/
def stay (inp : Inp) (o : Obj) (s : State) : M (State × State) := do
  let i ← orUb o.insns[s.vm.ip]?
  let t ← execInsn inp o s i
  let s' ← checkAndEventuallySplitVms inp t
  ubUnless (s'.cur = t.cur ∧ t.vm.waiting = false)
  return (t, s')

/-- The operand of a push. -/
def pushedOpd (o : Obj) (s : State) : M Opd :=
  match o.insns[s.vm.ip]? with
  | some (.push a) => .ok a
  | _ => .error .ub

/-- Some rounds that push, with the values pushed. -/
def pushRounds (o : Obj) : State → List Inp → M (List (List UInt8) × State)
  | s, [] => .ok ([], s)
  | s, inp :: inps => do
    let a ← pushedOpd o s
    let v ← loadOpd s a
    let x ← stay inp o s
    let y ← pushRounds o x.2 inps
    return (v :: y.1, y.2)

lemma stay_eq_ok {inp : Inp} {t s' : State} (h : stay inp o s = .ok (t, s')) :
    ∃ i, o.insns[s.vm.ip]? = some i ∧ execInsn inp o s i = .ok t ∧
      ∀ base ssp, Holds t.cur base ssp t s' := by
  simp only [stay, bind_eq_ok, orUb_eq_ok, ubUnless_eq_ok, decide_eq_true_eq, pure_eq_ok, Prod.mk.injEq] at h
  obtain ⟨i, hi, t, ht, s', hs', _, ⟨hcur, hw⟩, rfl, rfl⟩ := h
  exact ⟨i, hi, ht, fun base ssp => holds_sched hs' hcur hw⟩

lemma passing_of_pushRounds {inps : List Inp} {e : State} (he : Holds c base ssp e s)
    (h : pushRounds o s inps = .ok (vs, t)) : Passing o c base ssp vs e t := by
  induction inps generalizing s e vs with
  | nil =>
    cases h
    exact .done he
  | cons inp inps ih =>
    simp only [pushRounds, bind_eq_ok, pure_eq_ok, Prod.mk.injEq] at h
    obtain ⟨a, ha, v, hv, ⟨s1, s'⟩, hstay, ⟨vs', t'⟩, hrest, rfl, rfl⟩ := h
    obtain ⟨i, hi, hx, hholds⟩ := stay_eq_ok hstay
    obtain rfl : i = .push a := by
      simp only [pushedOpd, hi] at ha
      split at ha
      · cases ha
        rename_i heq
        exact Option.some.inj heq
      · cases ha
    obtain ⟨-, -, -, rfl⟩ := push_exec hx hv
    obtain rfl := he.cur
    exact .push he hv hx (ih (hholds _ _) hrest)

/-- `q: quaint(); m { q = ~f(3, 512); f(1, 256); } f(a: u8, b: u16) { }` -/
def passTwo : Ast.Unit :=
  ⟨[],
    [.decl ⟨false, false, false, [letter 113 0], .quaint 1 .zero, .absent⟩,
     .func ⟨false, letter 109 13, .nil, .none,
       .cons (.expr (.bexp (letter 113 17) .assn (.name (letter 113 17))
         (.uexp .tild (.fexp (.name (letter 102 22)) (.cons (.nmbr 3) (.cons (.nmbr 512) .nil))))))
       (.cons (.expr (.fexp (.name (letter 102 33)) (.cons (.nmbr 1) (.cons (.nmbr 256) .nil)))) .nil)⟩,
     .func ⟨false, letter 102 46, .cons (letter 97 48) (.int .u8 1) (.cons (letter 98 55) (.int .u16 1) .nil),
       .none, .nil⟩]⟩

def passTwoObj : Obj :=
  let temp (off : Nat) : Opd := ⟨.temp, false, false, off, 8⟩
  let num (n size : Nat) : Opd := opdImm false n size
  ⟨8, [], List.replicate 17 Insn.bfun ++
    [Insn.incsp (num 0 8) (num 16 8), .getsp (temp 8), .push (num 3 1), .push (num 512 2),
     .qnt (temp 0) (num 30 8) (temp 8), .mov (opdGlob false 0 8) (temp 0), .nop,
     .pushr (num 27 8) (temp 0), .push (num 1 1), .push (num 256 2), .call (num 30 8) (temp 0), .nop,
     .ret (num 16 8), .incsp (num 0 8) (num 0 8), .ret (num 32 8)]⟩

/-- After some rounds, the state in which a stack pointer is saved and the one after it, and what is pushed
until the state in which the arguments are handed on, with the one after it. -/
def passLook (rounds : Nat) : M (State × State × List (List UInt8) × State × State) := do
  let s0 ← runWhile (fun _ => true) passTwoObj (initState passTwoObj 65536 131072) (stillFrom 1048576 rounds)
  let x ← stay (still 0) passTwoObj s0
  let y ← pushRounds passTwoObj x.2 [still 0, still 0]
  let i ← orUb passTwoObj.insns[y.2.vm.ip]?
  let t' ← execInsn (still 2097152) passTwoObj y.2 i
  return (s0, x.1, y.1, y.2, t')

/-- What is looked at: the instructions that save and hand on, and what is pushed between them. -/
def passes (i : Insn) (vs : List (List UInt8)) (j : Insn)
    (x : State × State × List (List UInt8) × State × State) : Bool :=
  passTwoObj.insns[x.1.vm.ip]? == some i && x.2.2.1 == vs && passTwoObj.insns[x.2.2.2.1.vm.ip]? == some j

lemma pass_of_look {rounds : Nat} {i j : Insn} (h : passes i vs j <$> passLook rounds = .ok true) :
    ∃ s0 s t t', ReflTransGen (Next passTwoObj) (initState passTwoObj 65536 131072) s0 ∧
      execInsn (still 0) passTwoObj s0 i = .ok s ∧ (∀ base ssp, Passing passTwoObj s.cur base ssp vs s t) ∧
      execInsn (still 2097152) passTwoObj t j = .ok t' := by
  obtain ⟨⟨s0, s, vs', t, t'⟩, hlook, hx⟩ := map_eq_ok.mp h
  simp only [passes, Bool.and_eq_true, beq_iff_eq] at hx
  obtain ⟨⟨hi, rfl⟩, hj⟩ := hx
  simp only [passLook, bind_eq_ok, orUb_eq_ok, pure_eq_ok, Prod.mk.injEq] at hlook
  obtain ⟨s0, hrun, ⟨s, r⟩, hstay, ⟨vs', t⟩, hpush, k, hk, t', ht', rfl, rfl, rfl, rfl, rfl⟩ := hlook
  obtain rfl := Option.some.inj (hk.symm.trans hj)
  refine ⟨s0, s, t, t', run_of_guarded (run_of_runWhile (P := fun _ => True) (fun _ _ => trivial) hrun), ?_,
    fun base ssp => ?_, ht'⟩
  · obtain ⟨i', hi', hx, -⟩ := stay_eq_ok hstay
    obtain rfl := Option.some.inj (hi.symm.trans hi')
    exact hx
  · obtain ⟨-, -, -, hholds⟩ := stay_eq_ok hstay
    exact passing_of_pushRounds (hholds base ssp) hpush

/-- A function of a byte and a word of two bytes. -/
def takesTwo : TTop → Bool
  | .func f => f.params.toList.map (fun p => p.2.bytes) == [1, 2]
  | _ => false

/-- The function finds `1` and `256` when it is called, and `3` and `512` in its quaint. -/
theorem two_arguments_arrive : Compiles passTwo passTwoObj ∧ ∃ tops f, accept passTwo = some tops ∧
    TTop.func f ∈ tops ∧ Convention tops passTwoObj f ∧
    (∃ s0 s t t' place ssp loc, ReflTransGen (Next passTwoObj) (initState passTwoObj 65536 131072) s0 ∧
      execInsn (still 0) passTwoObj s0 (.pushr place ssp) = .ok s ∧
      Passing passTwoObj s0.cur (s0.vm.sp + 16) ssp [[1], [0, 1]] s t ∧
      execInsn (still 2097152) passTwoObj t (.call loc ssp) = .ok t' ∧ Finds f t'.vm [[1], [0, 1]]) ∧
    ∃ s0 s t t' dst loc ssp q, ReflTransGen (Next passTwoObj) (initState passTwoObj 65536 131072) s0 ∧
      execInsn (still 0) passTwoObj s0 (.getsp ssp) = .ok s ∧
      Passing passTwoObj s0.cur s0.vm.sp ssp [[3], [0, 2]] s t ∧
      execInsn (still 2097152) passTwoObj t (.qnt dst loc ssp) = .ok t' ∧ q ∉ t.live ∧ q ∈ t'.live ∧
      Finds f (t'.vms q) [[3], [0, 2]] := by
  have hc : Compiles passTwo passTwoObj := by decide +kernel
  have hfunc : ((accept passTwo).any fun tops => sizesFit tops && tops.any takesTwo) = true := by decide +kernel
  cases ha : accept passTwo with
  | none =>
    rw [ha] at hfunc
    cases hfunc
  | some tops =>
    rw [ha, Option.any_some, Bool.and_eq_true, List.any_eq_true] at hfunc
    obtain ⟨hs, t, ht, htwo⟩ := hfunc
    cases t with
    | skip | decl => cases htwo
    | func f =>
      have hconv := arguments_arrive hc ha hs ht
      have hsizes : f.params.toList.map (fun p => p.2.bytes) = [1, 2] := eq_of_beq htwo
      have hfit {a b c : UInt8} : Fit f [[a], [b, c]] := hsizes.symm
      refine ⟨hc, tops, f, rfl, ht, hconv, ?_, ?_⟩
      · have hlook : passes (.pushr (opdImm false 27 8) ⟨.temp, false, false, 0, 8⟩) [[1], [0, 1]]
            (.call (opdImm false 30 8) ⟨.temp, false, false, 0, 8⟩) <$> passLook 7 = .ok true := by
          decide +kernel
        obtain ⟨s0, s, t, t', hrun, hsave, hpass, hcall⟩ := pass_of_look hlook
        obtain ⟨-, -, hcur, -⟩ := pushr_exec hsave
        rw [hcur] at hpass
        have hpass := hpass (s0.vm.sp + 16) ⟨.temp, false, false, 0, 8⟩
        obtain ⟨-, -, -, hfinds⟩ := hconv.called hfit hsave hpass (.inl hcall)
        exact ⟨s0, s, t, t', _, _, _, hrun, hsave, hpass, hcall, hfinds⟩
      · have hlook : passes (.getsp ⟨.temp, false, false, 8, 8⟩) [[3], [0, 2]]
            (.qnt ⟨.temp, false, false, 0, 8⟩ (opdImm false 30 8) ⟨.temp, false, false, 8, 8⟩) <$>
              passLook 1 = .ok true := by decide +kernel
        obtain ⟨s0, s, t, t', hrun, hsave, hpass, hqnt⟩ := pass_of_look hlook
        obtain ⟨-, hcur, -⟩ := getsp_exec hsave
        rw [hcur] at hpass
        have hpass := hpass s0.vm.sp ⟨.temp, false, false, 8, 8⟩
        obtain ⟨-, -, q, hnew, hlive, -, -, hfinds⟩ := hconv.quaint hfit hsave hpass hqnt
        exact ⟨s0, s, t, t', _, _, _, q, hrun, hsave, hpass, hqnt, hnew, hlive, hfinds⟩

end Convention

end Quaint.Arguments
