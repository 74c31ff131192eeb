import Quaint.Recursion
import Quaint.Critical

/-!
What a reap gives.

A quaint made of a function on integers keeps to itself, so that it comes to what the function means
wherever it is suspended and whatever runs meanwhile. When it ends it hands the number over: to the reap
that went on with it, or after a `wait` to the reap that finds it at its end. The reap leaves the number in
its destination, and nothing in the handle.
-/

namespace Quaint.Delivery

open Relation
open Program (accept Compiles letter)
open Types Ast TypeCheck Bytes Code Exec Step Control Partial Effect Memory Isolation Transition
open Solitary (localOpd localInsn leavesBottom keepsToItself keepsToItself_iff Own own Alone alone alone_alone
  Mirrors mirrors_setVm loadOpd_mirror ResultsInTemps results_of_compiles directTemp_of_rtev follows_execInsn
  not_wait_of_local stays_of_local)
open Nesting (Spot Seen Runs inside Spent Yielded localOpd_of_load loadOpd_spot sched_root)
open Invoke (ArgsAt Bears Image)
open Perform (Leaves leaveSize)
open Window (ok_bind)
open Meaning (Gives numFunc numFuncs)
open Listing (Fn Listed)
open Correct (frameBytes)
open Reaping (reapInsn isReap_iff)
open Activation (still stillFrom runWhile)

/-! ### At the end of the function -/

/-- By the instruction the quaint, alone on the machine, hands the bytes over and ends. -/
inductive Hands (t : State) : Insn → List UInt8 → Prop
  | none (size : Opd) (hsp : t.vm.sp = size.off) : Hands t (.ret size) []
  | value (a size : Opd) (bs : List UInt8) (hsp : t.vm.sp = size.off) (ha : localOpd a = true)
    (hl : loadOpd (t.setVm { t.vm with sp := 0 }) a = .ok bs) : Hands t (.retv a size) bs

/-- The quaint stands where it ends with the number. -/
def Stands (o : Obj) (ret : RetTy) (v : Option Int) (t : State) : Prop :=
  ∃ i bs, o.insns[t.vm.ip]? = some i ∧ Hands t i bs ∧ Bears ret v bs

section Ends

variable {tops : List TTop} {fns : List Fn} {fn : Fn} {o : Obj} {f : TFunc} {S : Spot} {w : Window.View}
  {v : Option Int} {out : List Out} {s s1 t : State} {i : Insn} {bs : List UInt8} {xs : List Int} {q : Nat}
  {inp : Inp}

lemma stands_of_leaves (hs : Seen S w out t) (hl : Leaves f o S v w i bs)
    (hsp : S.sp = 16 + (Codegen.funcTag f).frameSize) : Stands o f.rettype v t := by
  have hsize : (leaveSize f).off = (Codegen.funcTag f).frameSize + 16 := rfl
  have hsp' : t.vm.sp = (leaveSize f).off := by
    rw [hs.sp]
    omega
  refine ⟨i, bs, hs.ip ▸ hl.insn, ?_, hl.bears⟩
  cases hl.yields with
  | none => exact .none _ hsp'
  | value a _ hd hload =>
    exact .value a _ bs hsp' (localOpd_of_load hd hload) (loadOpd_spot (Nesting.seen_top hs 0) hd hload)

/-- Alone on the machine a quaint made of a function comes to the number the function means. -/
lemma runs_alone (I : Image true tops fns o) (hfn : fn ∈ fns) (hint : numFunc true fn.func = true)
    (hmeans : Gives (numFuncs true tops) fn.func xs v out) {w : Qvm} (hip : w.ip = fn.entry) (hbp : w.bp = 16)
    (hsp : w.sp = 16 + 8 * fn.func.params.toList.length) (hroom : w.sp ≤ stackSize)
    (hargs : ArgsAt w.stack 16 fn.func.params.toList xs) :
    Runs true o (Stands o fn.func.rettype v) (alone q w) := by
  obtain ⟨n, ⟨r, out'⟩, hrun, hleave⟩ := hmeans
  have hvm : (alone q w).vm = { w with parent := 0 } := rfl
  have hnums := hint
  simp only [numFunc, Bool.and_eq_true] at hnums
  have hpart : Perform.PartOk true tops fn.func (.stmts fn.func.stmts) :=
    ⟨I.accepted.checked _ (Recursion.image_func I hfn), List.Subset.refl _, hnums.2⟩
  refine Recursion.runs_func I hfn hint (fun S G => (Recursion.sound I n).part G hpart hrun) hleave
    (by rw [hvm]; exact hbp ▸ hargs) (List.mem_singleton.mpr rfl) rfl (by rw [hvm]; exact hip)
    (by rw [hvm]; exact hbp.ge) (by rw [hvm, show Qvm.bp _ = 16 from hbp]) (by rw [hvm]; exact hbp ▸ hsp)
    (by rw [hvm]; exact hroom) fun S G _ _ hSsp _ w' hlands _ s' hs' => .here ?_
  obtain ⟨i, bs, hl⟩ := hlands
  rw [hvm, show Qvm.bp _ = 16 from hbp] at hSsp
  exact stands_of_leaves hs' hl hSsp

/-- What the quaint hands over alone on the machine it hands over to its parent. -/
lemma exec_of_hands (h : Mirrors q s t) (hi : Hands t i bs) (hp : s.vm.parent ≠ 0)
    (hx : execInsn inp o s i = .ok s1) : returnToParent o (s.setVm { s.vm with sp := 0 }) bs = .ok s1 := by
  -- the frame is the bottom one
  have hleave {size : Opd} {s2 : State} (hsp : t.vm.sp = size.off) (h2 : leaveFrame s size = .ok s2) :
      s2 = s.setVm { s.vm with sp := 0 } := by
    obtain ⟨-, rfl⟩ := leaveFrame_eq_ok h2
    rw [← hsp, h.sp, Nat.sub_self]
  have hback (signd : Bool) (retval : List UInt8) :
      handleReturn o (s.setVm { s.vm with sp := 0 }) signd retval =
        returnToParent o (s.setVm { s.vm with sp := 0 }) retval := by
    rw [handleReturn, setVm_vm, if_pos ⟨rfl, hp⟩]
  cases hi with
  | none size hsp =>
    have hx' : insnRet o s none size = .ok s1 := hx
    simp only [insnRet, bind_eq_ok] at hx'
    obtain ⟨s2, h2, hx'⟩ := hx'
    rwa [hleave hsp h2, hback] at hx'
  | value a size _ hsp ha hl =>
    have hx' : insnRet o s (some a) size = .ok s1 := hx
    simp only [insnRet, bind_eq_ok] at hx'
    obtain ⟨s2, h2, bs', hbs', hx'⟩ := hx'
    have hm : Mirrors q (s.setVm { s.vm with sp := 0 }) (t.setVm { t.vm with sp := 0 }) := by
      refine mirrors_setVm h ?_ h.parent
      simp only [own, h.ip, h.bp, h.temps, h.stack]
    rw [hleave hsp h2, ← loadOpd_mirror hm ha, hl] at hbs'
    obtain rfl := Except.ok.inj hbs'
    rwa [hleave hsp h2, hback] at hx'

end Ends

/-! ### Who runs -/

section Control

variable {o : Obj} {i : Insn} {w : Words} {c c' : Ctl} {a : Nat}

/-- The thread stands neither at a `wait` nor at a reap. -/
def Busy (o : Obj) (t : Thread) : Prop := ∀ j, o.insns[t.ip]? = some j → isReap j = false ∧ isWait j = false

/-- A busy thread goes on only by another that goes on with it, unless it is at its end. -/
lemma entered_of_exec (hx : Exec o i w c c') (ha : a ∈ c.live) (hne : a ≠ c.cur) (hb : Busy o (c.threads a))
    (hcur : c'.cur = a) : (c.threads a).atEnd = false ∧ (c'.threads a).parent = c.cur := by
  have back {d : Ctl} (hdc : d.cur = c.cur) (hd : ∀ x, x ≠ c.cur → d.threads x = c.threads x)
      (hr : Return o d c') : (c.threads a).atEnd = false ∧ (c'.threads a).parent = c.cur := by
    cases hr with
    | caller | main => exact absurd (hcur.symm.trans hdc) hne
    | reap j hsp hp hlive hj hreap =>
      obtain rfl : d.this.parent = a := hcur
      rw [hd _ hne] at hj
      cases (hb j hj).1.symm.trans hreap
    | wait j hsp hp hlive hj hwait =>
      obtain rfl : d.this.parent = a := hcur
      rw [hd _ hne] at hj
      cases (hb j hj).2.symm.trans hwait
  cases hx with
  | own | reapEnded | qnt | qntv => exact absurd hcur.symm hne
  | reap p hi hq h0 hlive hend =>
    obtain rfl : p = a := hcur
    refine ⟨hend, ?_⟩
    rw [Activation.activate_threads, if_pos rfl]
  | wait p now w0 w1 isFor isUntil hi hq h0 hlive hend =>
    obtain rfl : p = a := hcur
    refine ⟨hend, ?_⟩
    rw [Activation.activate_threads, if_pos rfl]
    rfl
  | ret size hi hsp _ hr =>
    refine back (d := c.setThis _) rfl (fun x hx => ?_) hr
    exact Ctl.set_threads_ne _ _ hx
  | bfun now n live hi hlive hsp _ hr =>
    refine back (d := Ctl.setThis { c with live := live, now := now } _) rfl (fun x hx => ?_) hr
    exact Ctl.set_threads_ne _ _ hx

/-- The quaint a round frees besides the running one is reaped at its end. -/
lemma reap_of_gone (hx : Exec o i w c c') (ha : a ∈ c.live) (hne : a ≠ c.cur) (hi : i ≠ .bfun)
    (hgone : a ∉ c'.live) : isReap i = true ∧ (c.threads a).atEnd = true := by
  cases hx with
  | own | reap | wait => exact absurd ha hgone
  | qnt | qntv => exact absurd (List.mem_cons_of_mem _ ha) hgone
  | reapEnded p hr hq h0 hlive hend =>
    obtain rfl : a = p := by
      by_contra hap
      exact hgone ((List.mem_erase_of_ne hap).mpr ha)
    exact ⟨hr, hend⟩
  | ret size _ hsp _ hr =>
    cases hr with
    | caller | main | wait => exact absurd ha hgone
    | reap => exact absurd ((List.mem_erase_of_ne hne).mpr ha) hgone
  | bfun now n live hi' => exact absurd hi' hi

/-- Null is no quaint, and stays none. -/
lemma zero_of_exec (hx : Exec o i w c c') (h0 : 0 ∉ c.live) : 0 ∉ c'.live := by
  have back {d : Ctl} (hd : 0 ∉ d.live) (hr : Return o d c') : 0 ∉ c'.live := by
    cases hr with
    | caller | main | wait => exact hd
    | reap => exact fun h => hd (List.mem_of_mem_erase h)
  cases hx with
  | own | reap | wait => exact h0
  | qnt _ _ _ _ _ _ _ _ ha | qntv _ _ _ _ ha =>
    intro h
    rcases List.mem_cons.mp h with h | h
    · exact ha h.symm
    · exact h0 h
  | reapEnded => exact fun h => h0 (List.mem_of_mem_erase h)
  | ret _ _ _ _ hr => exact back (d := c.setThis _) h0 hr
  | bfun _ _ live _ hlive _ _ hr =>
    refine back (d := { c with live := live, now := _ }.setThis _) ?_ hr
    rcases hlive with rfl | ⟨p, -, -, rfl⟩
    · exact h0
    · exact fun h => h0 (List.mem_of_mem_erase h)

/-- The scheduler goes on with nothing new but what waits. -/
lemma cur_of_sched (hs : Sched c c') (hw : (c.threads a).waiting = false) (hcur : c'.cur = a) : c.cur = a := by
  cases hs with
  | stay => exact hcur
  | split now b hanc hwait =>
    obtain rfl : b = a := hcur
    cases hw.symm.trans hwait

end Control

/-! ### What the reap keeps -/

section Values

variable {t t' : State} {d src : Opd} {bs : List UInt8} {q : Nat}

lemma loadWord_nextIp : loadWord (nextIp t) src = loadWord t src := by
  have hword (s : State) : loadWord s src = leNat <$> loadOpd s { src with size := 8 } := by
    show (s.opdVal src >>= fun l => orUb ((s.load l 8).map leNat)) =
      leNat <$> (s.opdVal src >>= fun l => orUb (s.load l 8))
    cases s.opdVal src with
    | error e => rfl
    | ok l =>
      show orUb ((s.load l 8).map leNat) = leNat <$> orUb (s.load l 8)
      cases s.load l 8 <;> rfl
  rw [hword, hword, loadOpd_nextIp]

/-- The handle is null once it is made null. -/
lemma null_of_storeWord (hsrc : src.indirect = false) (hn : storeWord t src 0 = .ok t') :
    loadWord (nextIp t') src = .ok 0 := by
  have hval := opdVal_congr (ctl_storeWord hn) hsrc
  simp only [storeWord, State.storeNat, bind_eq_ok, orUb_eq_ok] at hn
  obtain ⟨l, hl, hn⟩ := hn
  obtain ⟨r, off, size, m, hp, hr, hle, rfl⟩ := store_eq_some.mp hn
  have hread := readMem_writeMem_same m off (leBytes 8 0)
  rw [leBytes_length] at hle hread
  rw [loadWord_nextIp, loadWord, hval, hl, ok_bind, State.loadNat,
    load_of_place ((place_setRegion l).trans hp) (region_setRegion_self hr), if_pos hle, hread]
  rfl

/-- A direct operand that is no temporary lies in no frame of temporaries. -/
lemma region_of_direct {l : Loc} {r : Region} {off vm k : Nat} (hsrc : src.indirect = false)
    (hk : src.opd ≠ .temp) (hl : t.opdVal src = .ok l) (hp : t.place l = some (r, off)) :
    Region.temp vm k ≠ r := by
  simp only [State.opdVal, hsrc, bind_eq_ok, State.opdBase] at hl
  obtain ⟨base, hbase, hl⟩ := hl
  obtain rfl := Except.ok.inj hl
  rintro rfl
  cases hopd : src.opd with
  | temp => exact hk hopd
  | imm | auto | glob =>
    simp only [hopd] at hbase
    obtain rfl := Except.ok.inj hbase
    cases hp

/-- What is in a temporary is there still when the quaint is freed and a handle elsewhere is made null. -/
lemma value_kept (hd : DirectTemp d) (hsrc : src.indirect = false) (hk : src.opd ≠ .temp) (hq : q ≠ t.cur)
    (hl : loadOpd t d = .ok bs) (hn : storeWord (t.release q) src 0 = .ok t') :
    loadOpd (nextIp t') d = .ok bs := by
  have hctl := ctl_storeWord hn
  obtain ⟨l, hdl, hbs⟩ := loadOpd_eq_ok.mp hl
  obtain ⟨f, prev, ht, rfl⟩ := opdVal_temp hd hdl
  have hreg := region_temp ht
  have hfree : (t.release q).region (.temp t.cur prev.length) = t.region (.temp t.cur prev.length) := by
    simp only [State.region, State.release, List.mem_erase_of_ne hq.symm]
  have hval : t'.opdVal d = .ok (.mem (.temp t.cur prev.length) d.off) :=
    (opdVal_congr hctl hd.2).trans (opdVal_of_temps (s := t.release q) hd ht)
  rcases load_eq_some hbs with ⟨v, h, -⟩ | ⟨r, off, size, m, hp, hr, hle, rfl⟩
  · cases h
  obtain ⟨rfl, rfl⟩ := Prod.mk.inj (Option.some.inj hp)
  simp only [storeWord, State.storeNat, bind_eq_ok, orUb_eq_ok] at hn
  obtain ⟨l', hl', hn⟩ := hn
  obtain ⟨r', off', size', m', hp', hr', -, rfl⟩ := store_eq_some.mp hn
  have hne : Region.temp t.cur prev.length ≠ r' := region_of_direct hsrc hk hl' hp'
  rw [loadOpd_nextIp]
  refine loadOpd_eq_ok.mpr ⟨_, hval, ?_⟩
  rw [load_of_place rfl ((region_setRegion_ne hr' hne).trans (hfree.trans hr)), if_pos hle]

end Values

/-- The reap at which the quaint that runs then stood is done: its handle is null, and its value is in its
destination, if that is as large as the type and the handle is in a variable. -/
def Delivered (o : Obj) (ret : RetTy) (v : Option Int) (s s1 : State) : Prop :=
  ∃ dst src, o.insns[(s.vms s1.cur).ip]? = some (reapInsn dst src) ∧ loadWord s1 src = .ok 0 ∧
    ∀ d ∈ dst, d.size = (RetTy.ty ret).bytes → src.opd ≠ .temp → ∃ bs, loadOpd s1 d = .ok bs ∧ Bears ret v bs

/-! ### On the way and at the end -/

/-- What has become of the quaint: it is on its way, as it would be alone, or at its end with its value. -/
inductive Stage (o : Obj) (ret : RetTy) (v : Option Int) (q : Nat) (s : State) : Prop
  | onWay (t : State) (hw : (s.vms q).waiting = false) (hend : (s.vms q).atEnd = false)
    (hp : s.cur = q → (s.vms q).parent ≠ 0) (ht : Alone q t) (hown : own (t.vms q) = own (s.vms q))
    (run : Runs true o (Stands o ret v) t)
  | ended (bs : List UInt8) (hw : (s.vms q).waiting = false) (hend : (s.vms q).atEnd = true) (hcur : s.cur ≠ q)
    (hb : Busy o (thread (s.vms q))) (hv : Bears ret v bs) (hval : readMem (s.vms q).stack 0 bs.length = bs)

/-- What becomes of the quaint by an instruction. -/
def Fate (o : Obj) (ret : RetTy) (v : Option Int) (q : Nat) (s s1 : State) : Prop :=
  if q ∈ s1.live then Stage o ret v q s1 else Delivered o ret v s s1

section Stages

variable {o : Obj} {ret : RetTy} {v : Option Int} {q : Nat} {s s1 s' t t1 : State} {i : Insn} {inp : Inp}
  {bs : List UInt8}

lemma busy_of_stands (h : Stands o ret v t) : Busy o (thread t.vm) := by
  obtain ⟨i, bs, hi, hh, -⟩ := h
  intro j hj
  obtain rfl := Option.some.inj (hi.symm.trans hj)
  cases hh <;> exact ⟨rfl, rfl⟩

/-- Alone on the machine a quaint stands where it ends, or goes on by an instruction of its own. -/
lemma goes_on (run : Runs true o (Stands o ret v) t) (inp : Inp) : Stands o ret v t ∨
    ∃ i, o.insns[t.vm.ip]? = some i ∧ localInsn i = true ∧ leavesBottom t.vm i = false ∧
      ∀ t1, Alone q t → execInsn inp o t i = .ok t1 → Alone q t1 →
        ∃ t', Alone q t' ∧ own (t'.vms q) = own (t1.vms q) ∧ Runs true o (Stands o ret v) t' := by
  cases run with
  | here h => exact .inl h
  | later hok hstop =>
    right
    have hkeeps : keepsToItself o t.vm = true := by
      by_contra hk
      have hub : inside true inp o t = .error .ub := by simp [inside, ubUnless, hk, bind, Except.bind]
      have := hstop inp _ hub
      simp [Spent] at this
    obtain ⟨i, hi, hlocal, hb⟩ := keepsToItself_iff.mp hkeeps
    refine ⟨i, hi, hlocal, hb, fun t1 ha hx ha1 => ?_⟩
    have hstep : inside true inp o t = step inp o t := by simp [inside, ubUnless, hkeeps, bind, Except.bind]
    have hlive {x : State} (h : Alone q x) : x.cur ∈ x.live := by simp [h.live, h.cur]
    have hroot : t1.vm.parent = 0 := by
      rw [State.vm, ha1.cur]
      exact ha1.parent
    obtain ⟨c, k, hsched⟩ := sched_root (hlive ha1) hroot inp
    have hvm : State.vm { t1 with cycles := c, now := k } = t1.vm := rfl
    have hround : step inp o t = (do
        legalIf (t1.vm.ip ≤ o.insnCount) "vm->ip <= o->insn_count"
        if t1.vm.ip < o.insnCount then return { t1 with cycles := c, now := k } else .error (.exit 0)) := by
      simp only [step, ubUnless, hlive ha, decide_true, if_true, hi, ok_bind, Window.orUb_some, hx, hsched, hvm]
    -- the machine does not stop here, since a run may stop for want of room only
    have hgo : t1.vm.ip < o.insnCount := by
      by_contra hge
      by_cases hle : t1.vm.ip ≤ o.insnCount
      · have herr : step inp o t = .error (.exit 0) := by
          rw [hround]
          simp [legalIf, hle, hge, bind, Except.bind]
        have := hstop inp _ (hstep.trans herr)
        simp [Spent] at this
      · have herr : step inp o t = .error (.illegal "vm->ip <= o->insn_count") := by
          rw [hround]
          simp [legalIf, hle, bind, Except.bind]
        have := hstop inp _ (hstep.trans herr)
        simp [Spent] at this
    refine ⟨{ t1 with cycles := c, now := k }, ?_, rfl, hok inp _ (hstep.trans ?_)⟩
    · exact ⟨ha1.cur, ha1.live, ha1.heap, ha1.bssBase, ha1.bssSize, ha1.parent⟩
    · rw [hround]
      simp [legalIf, hgo, hgo.le, bind, Except.bind, pure, Except.pure]

lemma busy_of_runs (run : Runs true o (Stands o ret v) t) : Busy o (thread t.vm) := by
  rcases goes_on (q := 0) run (Activation.still 0) with h | ⟨i, hi, hlocal, -⟩
  · exact busy_of_stands h
  · intro j hj
    obtain rfl := Option.some.inj (hi.symm.trans hj)
    exact not_wait_of_local hlocal

lemma Stage.waiting (h : Stage o ret v q s) : (s.vms q).waiting = false := by
  cases h <;> assumption

lemma Stage.busy (h : Stage o ret v q s) : Busy o (thread (s.vms q)) := by
  cases h with
  | onWay t hw hend hp ht hown run =>
    have hip : t.vm.ip = (s.vms q).ip := by
      rw [State.vm, ht.cur]
      exact congrArg Own.ip hown
    intro j hj
    exact busy_of_runs run j ((congrArg (o.insns[·]?) hip).trans hj)
  | ended bs hw hend hcur hb => exact hb

/-- The scheduler leaves the quaint where it is. -/
lemma Stage.split (h : Stage o ret v q s) (hs : checkAndEventuallySplitVms inp s = .ok s') :
    Stage o ret v q s' := by
  have hw := h.waiting
  have hvm : s'.vms q = s.vms q := by
    rcases split_vms (q := q) hs with h | ⟨-, h, -⟩
    · exact h
    · cases hw.symm.trans h
  have hcur : s'.cur = q → s.cur = q := cur_of_sched (ctl_split hs) hw
  cases h with
  | onWay t _ hend hp ht hown run =>
    exact .onWay t (hvm ▸ hw) (hvm ▸ hend) (fun h => hvm ▸ hp (hcur h)) ht (hvm ▸ hown) run
  | ended bs _ hend hne hb hv hval =>
    exact .ended bs (hvm ▸ hw) (hvm ▸ hend) (fun h => hne (hcur h)) (hvm ▸ hb) hv (hvm ▸ hval)

/-! ### One instruction -/

/-- What a machine needs: it stores through no pointer, and its calls and reaps have temporaries for their
values. -/
structure Direct (o : Obj) : Prop where
  stores : directStores o = true
  results : ResultsInTemps o

lemma Direct.handle {dst : Option Opd} {src : Opd} {n : Nat} (hd : Direct o)
    (hi : o.insns[n]? = some (reapInsn dst src)) : src.indirect = false :=
  stored_direct hd.stores hi src (by cases dst <;> simp [reapInsn, stored])

/-- The quaint does not run. -/
lemma Stage.aside (h : Stage o ret v q s) (hd : Direct o) (hq : q ∈ s.live) (h0 : s.cur ≠ 0) (hne : q ≠ s.cur)
    (hr : Round o inp i s s1 s') : Stage o ret v q s1 := by
  have hb := h.busy
  obtain ⟨hown, hwait, hat⟩ : own (s1.vms q) = own (s.vms q) ∧ (s1.vms q).waiting = (s.vms q).waiting ∧
      (s1.vms q).atEnd = (s.vms q).atEnd := by
    cases fared_execInsn hd.stores hq hne hr.fetch hr.exec with
    | alone h1 | entered _ h1 =>
      rw [h1]
      exact ⟨rfl, rfl, rfl⟩
    | returned _ _ j hj hk => simp [hb j hj] at hk
  have henter := entered_of_exec (ctl_execInsn hr.live hr.exec) hq hne hb
  cases h with
  | onWay t hw hend hp ht hown' run =>
    refine .onWay t (hwait.trans hw) (hat.trans hend) (fun hc => ?_) ht (hown'.trans hown.symm) run
    have hpar : (s1.vms q).parent = s.cur := (henter hc).2
    rwa [hpar]
  | ended bs hw hend hcur hb' hv hval =>
    refine .ended bs (hwait.trans hw) (hat.trans hend) (fun hc => ?_) (fun j hj => ?_) hv ?_
    · cases (henter hc).1.symm.trans hend
    · exact hb j ((congrArg (o.insns[·]?) (congrArg Own.ip hown)).symm.trans hj)
    · rw [show (s1.vms q).stack = (s.vms q).stack from congrArg Own.stack hown]
      exact hval

/-- The quaint is reaped at its end. -/
lemma delivered_of_ended (hd : Direct o) (hq : q ∈ s.live) (hne : q ≠ s.cur) (hi : i ≠ .bfun)
    (hv : Bears ret v bs) (hval : readMem (s.vms q).stack 0 bs.length = bs) (hr : Round o inp i s s1 s')
    (hgone : q ∉ s1.live) : Delivered o ret v s s1 := by
  obtain ⟨hreap, hend⟩ := reap_of_gone (ctl_execInsn hr.live hr.exec) hq hne hi hgone
  obtain ⟨dst, src, rfl⟩ := isReap_iff.mp hreap
  have hx : insnRte s dst src = .ok s1 := by
    have := hr.exec
    cases dst <;> exact this
  obtain ⟨p, -, h⟩ := insnRte_cases hx
  rcases h with ⟨-, t, hz, rfl⟩ | ⟨-, -, -, t, t', hc, hn, rfl⟩ | ⟨-, -, -, rfl⟩
  · have hl : t.live = s.live := congrArg Ctl.live (zeroValue_keeps dst _ hz)
    exact absurd (by rwa [nextIp_live, hl]) hgone
  · have hct := copyValue_keeps dst p _ hc
    have hl : t'.live = s.live.erase p :=
      (congrArg Ctl.live (ctl_storeWord hn)).trans (congrArg (·.erase p) (congrArg Ctl.live hct))
    have hcur : (nextIp t').cur = s.cur := (congrArg Ctl.cur (ctl_storeWord hn)).trans (congrArg Ctl.cur hct)
    obtain rfl : q = p := by
      by_contra hqp
      exact hgone (by rwa [nextIp_live, hl, List.mem_erase_of_ne hqp])
    have hat : o.insns[(s.vms (nextIp t').cur).ip]? = some (reapInsn dst src) := by
      rw [hcur]
      exact hr.fetch
    refine ⟨dst, src, hat, null_of_storeWord (hd.handle hat) hn, ?_⟩
    rintro d rfl hsize hsrc
    have htemp : DirectTemp d := directTemp_of_rtev hd.results hat
    -- the value is copied from the bottom of the stack of the quaint
    have hst : storeOpd s d bs = .ok t := by
      simp only [copyValue, State.memcpy, bind_eq_ok, orUb_eq_ok] at hc
      obtain ⟨l, hl', bs', hbs', hc⟩ := hc
      have hstack : s.region (.stack q) = some (stackSize, (s.vms q).stack) := if_pos hq
      rw [load_of_place rfl hstack, Option.ite_none_right_eq_some, Option.some.injEq, hsize, ← hv.length,
        hval] at hbs'
      rw [storeOpd, hl', ok_bind, hbs'.2, hc]
      rfl
    refine ⟨bs, value_kept htemp (hd.handle hat) hsrc ?_ (loadOpd_storeOpd htemp ?_ hst) hn, hv⟩
    · rw [show t.cur = s.cur from congrArg Ctl.cur hct]
      exact hne
    · rw [hsize, hv.length]
  · exact absurd hq hgone

/-- The quaint hands its value over to its parent. -/
lemma fate_of_handed (hd : Direct o) (hcur : s.cur = q) (hlive : s.cur ∈ s.live) (hnd : s.live.Nodup)
    (hw : s.vm.waiting = false) (hb : Busy o (thread s.vm)) (hv : Bears ret v bs)
    (hx : returnToParent o (s.setVm { s.vm with sp := 0 }) bs = .ok s1) : Fate o ret v q s s1 := by
  subst hcur
  have hgone : s.cur ∉ s.live.erase s.cur := hnd.not_mem_erase
  set s0 := s.setVm { s.vm with sp := 0 } with hs0
  have hthis : s0.vms s.cur = { s.vm with sp := 0 } := by
    rw [hs0]
    exact if_pos rfl
  have hpar : s0.vm.parent = s.vm.parent := by
    have h := congrArg Qvm.parent hthis
    exact h
  -- the parent is another quaint, for this one stands where it returns
  have hne : s.cur ≠ s.vm.parent := by
    obtain ⟨j, hj, hk, -⟩ := isReap_isWait_of_return hx
    intro heq
    rw [hpar, ← heq, hthis] at hj
    simp [hb j hj] at hk
  simp only [returnToParent, hpar, bind_eq_ok, orUb_eq_ok] at hx
  obtain ⟨_, _, j, hj, hx⟩ := hx
  have hother : s0.vms s.vm.parent = s.vms s.vm.parent := vms_setVm _ hne.symm
  rw [hother] at hj
  cases j with
  | rtev d src =>
    simp only [bind_eq_ok, legalIf_eq_ok, decide_eq_true_eq, pure_eq_ok] at hx
    obtain ⟨_, _, _, hlen, t, ht, t', hn, rfl⟩ := hx
    have hct := ctl_storeOpd ht
    have hcur' : t'.cur = s.vm.parent := (congrArg Ctl.cur (ctl_storeWord hn)).trans (congrArg Ctl.cur hct)
    have hl : t'.live = s.live.erase s.cur :=
      (congrArg Ctl.live (ctl_storeWord hn)).trans (congrArg (·.erase s.cur) (congrArg Ctl.live hct))
    rw [Fate, if_neg (by rwa [nextIp_live, hl])]
    have hat : o.insns[(s.vms (nextIp t').cur).ip]? = some (reapInsn (some d) src) := by
      rw [nextIp_cur, hcur']
      exact hj
    refine ⟨some d, src, hat, null_of_storeWord (hd.handle hat) hn, ?_⟩
    intro e he _ hsrc
    obtain rfl := Option.mem_some_iff.mp he
    have htemp : DirectTemp d := directTemp_of_rtev hd.results hat
    refine ⟨bs, value_kept htemp (hd.handle hat) hsrc ?_ (loadOpd_storeOpd htemp hlen ht) hn, hv⟩
    rw [show t.cur = s.vm.parent from congrArg Ctl.cur hct]
    exact hne
  | rte src =>
    simp only [bind_eq_ok, legalIf_eq_ok, decide_eq_true_eq, pure_eq_ok] at hx
    obtain ⟨_, hlen, t', hn, rfl⟩ := hx
    have hcur' : t'.cur = s.vm.parent := congrArg Ctl.cur (ctl_storeWord hn)
    have hl : t'.live = s.live.erase s.cur := congrArg Ctl.live (ctl_storeWord hn)
    rw [Fate, if_neg (by rwa [nextIp_live, hl])]
    have hat : o.insns[(s.vms (nextIp t').cur).ip]? = some (reapInsn none src) := by
      rw [nextIp_cur, hcur']
      exact hj
    exact ⟨none, src, hat, null_of_storeWord (hd.handle hat) hn, fun _ h => by cases h⟩
  | wait quaint timeout func id noblock units hasTimeout =>
    simp only [bind_eq_ok, pure_eq_ok] at hx
    obtain ⟨_, _, rfl⟩ := hx
    have hend : (nextIp (((s0.setVm (Qvm.ended s0.vm bs)).setCur s.vm.parent).setVm
        (Qvm.notWaiting ((s0.setVm (Qvm.ended s0.vm bs)).setCur s.vm.parent).vm))).vms s.cur =
        Qvm.ended (s0.vms s.cur) bs :=
      ((vms_nextIp hne).trans (vms_setVm _ hne)).trans (if_pos rfl)
    rw [Fate, if_pos (by exact hlive)]
    refine .ended bs ?_ ?_ hne.symm (fun j hj => ?_) hv ?_
    · rw [hend, hthis]
      exact hw
    · rw [hend]
      rfl
    · rw [hend, hthis] at hj
      exact hb j hj
    · rw [hend]
      exact readMem_writeMem_same _ _ _
  | _ => cases hx

/-- Every quaint in use has an address of its own, which is not null. -/
structure Proper (s : State) : Prop where
  nodup : s.live.Nodup
  zero : 0 ∉ s.live

lemma Proper.exec (h : Proper s) (hr : Round o inp i s s1 s') : Proper s1 :=
  ⟨Starting.nodup_exec h.nodup hr.ctl.1, zero_of_exec hr.ctl.1 h.zero⟩

lemma Proper.round (h : Proper s) (hr : Round o inp i s s1 s') : Proper s' := by
  have hl : s'.live = s1.live := Critical.sched_live hr.ctl.2
  obtain ⟨h1, h2⟩ := h.exec hr
  exact ⟨hl ▸ h1, hl ▸ h2⟩

lemma proper_of_run {a b : Nat} (ha : a ≠ 0) (run : ReflTransGen (Activation.Next o) (initState o a b) s) :
    Proper s := by
  refine invariant_of_run (I := Proper) (fun x x' hx hn => ?_) ?_ run
  · obtain ⟨inp, hstep⟩ := hn
    obtain ⟨i, s1, hr⟩ := step_eq_ok.mp hstep
    exact hx.round hr
  · exact ⟨List.nodup_singleton a, fun h => ha (List.mem_singleton.mp h).symm⟩

/-- The quaint runs. -/
lemma Stage.turn (h : Stage o ret v q s) (hd : Direct o) (hcur : s.cur = q) (hp : Proper s)
    (hr : Round o inp i s s1 s') : Fate o ret v q s s1 := by
  subst hcur
  have hb := h.busy
  cases h with
  | ended _ _ _ hcur => exact absurd rfl hcur
  | onWay t hw hend hpar ht hown run =>
    have hm : Mirrors s.cur s t := ⟨rfl, hr.live, ht, hown⟩
    rcases goes_on (q := s.cur) run inp with ⟨j, bs, hj, hh, hv⟩ | ⟨j, hj, hlocal, hbot, hgo⟩
    · obtain rfl : j = i := Option.some.inj (hj.symm.trans (hm.ip ▸ hr.fetch))
      exact fate_of_handed hd rfl hr.live hp.nodup hw hb hv (exec_of_hands hm hh (hpar rfl) hr.exec)
    · obtain rfl : j = i := Option.some.inj (hj.symm.trans (hm.ip ▸ hr.fetch))
      have hbot' : leavesBottom s.vm j = false := by
        cases j <;> first | rfl | simpa only [leavesBottom, hm.sp] using hbot
      obtain ⟨t1, ht1, hm1⟩ := follows_execInsn hd.results hm hlocal hbot' s1 hr.exec
      obtain ⟨t', ha', hown', run'⟩ := hgo t1 ht ht1 hm1.alone
      have hstay := stays_of_local hr.ctl.1 hlocal fun size hsize => by
        have hsp : s.vm.sp ≠ size.off := by
          rcases hsize with rfl | ⟨v, rfl⟩ <;> simpa [leavesBottom] using hbot'
        exact hsp
      obtain ⟨-, hpar', hend', hwait⟩ := hstay
      rw [Fate, if_pos hm1.live]
      refine .onWay t' (hwait.trans hw) (hend'.trans hend) (fun _ => ?_) ha' (hown'.trans hm1.own) run'
      rw [show (s1.vms s.cur).parent = (s.vms s.cur).parent from hpar']
      exact hpar rfl

/-- **What becomes of the quaint by one instruction**: it goes on as it would alone, or comes to its end
with its value, or its value is delivered. -/
theorem Stage.fate (h : Stage o ret v q s) (hd : Direct o) (hq : q ∈ s.live) (hp : Proper s)
    (hr : Round o inp i s s1 s') (hi : i = .bfun → q ∈ s1.live) : Fate o ret v q s s1 := by
  by_cases hcur : s.cur = q
  · exact h.turn hd hcur hp hr
  · have h0 : s.cur ≠ 0 := fun h => hp.zero (h ▸ hr.live)
    have hne : q ≠ s.cur := fun h => hcur h.symm
    by_cases hgone : q ∈ s1.live
    · rw [Fate, if_pos hgone]
      exact h.aside hd hq h0 hne hr
    · have hbfun : i ≠ .bfun := fun h => hgone (hi h)
      rw [Fate, if_neg hgone]
      cases h with
      | onWay t hw hend =>
        have hend' : (s.vms q).atEnd = true := (reap_of_gone hr.ctl.1 hq hne hbfun hgone).2
        cases hend.symm.trans hend'
      | ended bs hw hend hcur' hb hv hval => exact delivered_of_ended hd hq hne hbfun hv hval hr hgone

/-- A round through which the quaint is not freed. -/
def Alive (o : Obj) (q : Nat) (s s' : State) : Prop := q ∈ s'.live ∧ Activation.Next o s s'

lemma Stage.run (h : Stage o ret v q s) (hd : Direct o) (hq : q ∈ s.live) (hp : Proper s)
    (run : ReflTransGen (Alive o q) s s') : Stage o ret v q s' ∧ q ∈ s'.live ∧ Proper s' := by
  refine invariant_of_run (I := fun x => Stage o ret v q x ∧ q ∈ x.live ∧ Proper x) (fun x x' hx hn => ?_)
    ⟨h, hq, hp⟩ run
  obtain ⟨h, hq, hp⟩ := hx
  obtain ⟨hq', inp, hstep⟩ := hn
  obtain ⟨i, s1, hr⟩ := step_eq_ok.mp hstep
  have hl : x'.live = s1.live := Critical.sched_live hr.ctl.2
  have hq1 : q ∈ s1.live := hl ▸ hq'
  have hfate := h.fate hd hq hp hr fun _ => hq1
  rw [Fate, if_pos hq1] at hfate
  exact ⟨hfate.split hr.split, hq', hp.round hr⟩

end Stages

/-! ### Making the quaint -/

/-- The round makes the quaint of the function, with the numbers for its arguments. -/
structure Makes (o : Obj) (fn : Fn) (xs : List Int) (q : Nat) (s s' : State) : Prop where
  round : ∃ inp dst loc sp s1 ssp, Round o inp (.qnt dst loc sp) s s1 s' ∧ loadWord s loc = .ok fn.entry ∧
    loadWord s sp = .ok ssp ∧ s.vm.sp = ssp + 8 * xs.length ∧ ArgsAt s.vm.stack ssp fn.func.params.toList xs
  new : q ∉ s.live
  made : q ∈ s'.live

section Making

variable {tops : List TTop} {fns : List Fn} {fn : Fn} {o : Obj} {v : Option Int} {out : List Out}
  {s s1 s' : State} {xs : List Int} {q : Nat} {inp : Inp} {st st' : Mem}

/-- The numbers are found where the words are copied to. -/
lemma args_moved : ∀ {base base' : Nat} {vs : List Layout.Var} {xs : List Int}, ArgsAt st base vs xs →
    (∀ v ∈ vs, v.2.bytes ≤ 8) → (∀ k < 8 * vs.length, st' (base' + k) = st (base + k)) → ArgsAt st' base' vs xs
  | _, _, [], [], _, _, _ => trivial
  | base, base', v :: vs, _ :: _, h, hle, hst => by
    have hv := hle v List.mem_cons_self
    have hlen : (v :: vs).length = vs.length + 1 := rfl
    refine ⟨?_, args_moved h.2 (fun u hu => hle u (List.mem_cons_of_mem _ hu)) fun k hk => ?_⟩
    · rw [Arguments.readMem_move fun k hk => hst k (by omega)]
      exact h.1
    · rw [Nat.add_assoc, Nat.add_assoc]
      exact hst (8 + k) (by omega)

/-- What `qnt` makes. -/
lemma made_by_qnt {dst loc sp : Opd} {l ssp : Nat} (hcur : s.cur ∈ s.live) (hloc : loadWord s loc = .ok l)
    (hsp : loadWord s sp = .ok ssp) (hq : q ∉ s.live) (hq1 : q ∈ s1.live)
    (hx : execInsn inp o s (.qnt dst loc sp) = .ok s1) : q ≠ s1.cur ∧
      s1.vms q = newQuaint l (readMem s.vm.stack ssp (s.vm.sp - ssp)) ∧ 16 + (s.vm.sp - ssp) ≤ stackSize := by
  obtain ⟨s2, h2, rfl⟩ := map_eq_ok.mp hx
  simp only [insnQnt, hloc, hsp, ok_bind, bind_eq_ok, legalIf_eq_ok, orNomem_eq_ok, orUb_eq_ok, ubUnless_eq_ok,
    decide_eq_true_eq, pure_eq_ok] at h2
  obtain ⟨_, _, _, hd, _, _, _, _, _, _, _, _, a, ha, _, _, args, hargs, _, hroom, s3, h3, rfl⟩ := h2
  have hctl := ctl_storeWord h3
  obtain rfl : q = a := by
    have hlive : s3.live = a :: s.live := congrArg Ctl.live hctl
    have hmem : q ∈ s3.live := hq1
    rw [hlive] at hmem
    exact (List.mem_cons.mp hmem).resolve_right hq
  have hne : q ≠ s.cur := fun h => hq (h ▸ hcur)
  have hcur3 : s3.cur = s.cur := congrArg Ctl.cur hctl
  have hstack : s.region (.stack s.cur) = some (stackSize, s.vm.stack) := if_pos hcur
  rw [load_of_place rfl hstack, Option.ite_none_right_eq_some, Option.some.injEq] at hargs
  obtain ⟨-, rfl⟩ := hargs
  rw [readMem_length] at hroom
  refine ⟨by rwa [nextIp_cur, setVm_cur, hcur3], ?_, hroom⟩
  have hmade : (State.addVm s q (newQuaint l (readMem s.vm.stack ssp (s.vm.sp - ssp)))).vms q =
      newQuaint l (readMem s.vm.stack ssp (s.vm.sp - ssp)) := if_pos rfl
  have hne3 : q ≠ s3.cur := by rwa [hcur3]
  rw [vms_nextIp (by exact hne3), vms_setVm _ hne3, vms_storeWord (beq_iff_eq.mp hd) (by exact hne) h3, hmade]

/-- The quaint just made is on its way. -/
lemma stage_of_makes (I : Image true tops fns o) (hfn : fn ∈ fns) (hint : numFunc true fn.func = true)
    (hmeans : Gives (numFuncs true tops) fn.func xs v out) (h : Makes o fn xs q s s') :
    Stage o fn.func.rettype v q s' := by
  obtain ⟨⟨inp, dst, loc, sp, s1, ssp, hr, hloc, hssp, hsp, hargs⟩, hq, hq'⟩ := h
  have hl : s'.live = s1.live := Critical.sched_live hr.ctl.2
  obtain ⟨hne, hmade, hroom⟩ := made_by_qnt hr.live hloc hssp hq (hl ▸ hq') hr.exec
  have hsub : s.vm.sp - ssp = 8 * xs.length := by omega
  have hlen := hargs.length
  rw [hsub] at hmade hroom
  set w := newQuaint fn.entry (readMem s.vm.stack ssp (8 * xs.length)) with hw
  have hwsp : w.sp = 16 + 8 * xs.length := congrArg (16 + ·) (readMem_length _ _ _)
  refine Stage.split (s := s1) ?_ hr.split
  refine .onWay (alone q w) ?_ ?_ (fun h => absurd h.symm hne) (alone_alone q w) ?_ ?_
  · rw [hmade]
    rfl
  · rw [hmade]
    rfl
  · rw [hmade]
    rfl
  · refine runs_alone I hfn hint hmeans rfl rfl (by rw [hwsp, hlen]) (by rw [hwsp]; exact hroom)
      (args_moved hargs (fun u hu => ?_) fun k hk => ?_)
    · exact Compute.isWidth_le (Compute.width_of_int (Recursion.params_nums hint u hu))
    · have hk' : k < 8 * xs.length := by rwa [hlen]
      have hat : some (writeMem Qvm.zero.stack 16 (readMem s.vm.stack ssp (8 * xs.length)) (16 + k)) =
          (readMem s.vm.stack ssp (8 * xs.length))[16 + k - 16]? :=
        writeMem_of_mem _ _ (by omega) (by rw [readMem_length]; omega)
      rw [Nat.add_sub_cancel_left, readMem_getElem? hk'] at hat
      exact Option.some.inj hat

end Making

/-! ### Runs -/

section Runs

variable {o : Obj} {u : Ast.Unit} {tops : List TTop} {q : Nat} {s s' : State}

/-- **A reap gives what the function means.** Whatever runs between the making of a quaint of a function on
integers and its end, in whatever order, the reap that frees it leaves the number of the function in its
destination, if the program stores through no pointer. -/
theorem reap_delivers (h : Compiles u o) (ha : accept u = some tops) (hs : directStores o = true)
    (hframes : ∀ g ∈ numFuncs true tops, frameBytes g < 2 ^ 63) (hcount : o.insnCount < 2 ^ 59) :
    ∃ fns, Listed tops fns o ∧ (∀ f, TTop.func f ∈ tops → ∃ fn ∈ fns, fn.func = f) ∧
      ∀ fn ∈ fns, numFunc true fn.func = true → ∀ xs v out, Gives (numFuncs true tops) fn.func xs v out →
        ∀ a b s s1 s2 q, a ≠ 0 → ReflTransGen (Activation.Next o) (initState o a b) s →
          Makes o fn xs q s s1 → ReflTransGen (Alive o q) s1 s2 →
            ∀ inp i s3 s4, Round o inp i s2 s3 s4 → q ∉ s3.live → i ≠ .bfun →
              Delivered o fn.func.rettype v s2 s3 := by
  obtain ⟨tops', fns, ha', hl⟩ := Listing.listed_of_compiles h
  obtain rfl := Option.some.inj (ha.symm.trans ha')
  have hA := Typing.accepted_of_accept ha
  have hfuncs := Linking.listed_func hl
  refine ⟨fns, hl, hfuncs, fun fn hfn hint xs v out hmeans a b s s1 s2 q ha0 hrun hmakes hrun' inp i s3 s4 hr
    hgone hi => ?_⟩
  have I : Image true tops fns o := ⟨hA, hl, Linking.closed_of_listed hA hl, hfuncs,
    fun g hg hn => hframes g (Recursion.numFuncs_mem hn hg), hcount⟩
  have hd : Direct o := ⟨hs, results_of_compiles h⟩
  have hp1 : Proper s1 := by
    obtain ⟨⟨inp, dst, loc, sp, t, ssp, hr, -⟩, -⟩ := hmakes
    exact (proper_of_run ha0 hrun).round hr
  obtain ⟨hstage, hq, hp⟩ := (stage_of_makes I hfn hint hmeans hmakes).run hd hmakes.made hp1 hrun'
  have hfate := hstage.fate hd hq hp hr fun h => absurd h hi
  rwa [Fate, if_neg hgone] at hfate

/-- Rounds through which the quaint is not freed, under some inputs. -/
def runAlive (o : Obj) (q : Nat) : State → List Inp → M State
  | s, [] => .ok s
  | s, inp :: inps => do
    let s' ← step inp o s
    ubUnless (q ∈ s'.live)
    runAlive o q s' inps

lemma run_of_runAlive {inps : List Inp} (h : runAlive o q s inps = .ok s') : ReflTransGen (Alive o q) s s' := by
  induction inps generalizing s with
  | nil =>
    cases h
    exact .refl
  | cons inp inps ih =>
    simp only [runAlive, bind_eq_ok, ubUnless_eq_ok, decide_eq_true_eq] at h
    obtain ⟨s1, hs1, _, hq, h⟩ := h
    exact .head ⟨hq, inp, hs1⟩ (ih h)

/-- `m: u8 { q: quaint(u8) = ~f(3); wait q until f::l; return *q; } f(n: u8): u8 { [l] return n + n; }` -/
def twice : Ast.Unit :=
  ⟨[], [.func ⟨false, letter 109 0, .nil, .some (.int .u8 1),
      .cons (.decl ⟨false, false, false, [letter 113 8], .quaint 1 (.int .u8 1),
        .uexp .tild (.fexp (.name (letter 102 25)) (.cons (.nmbr 3) .nil))⟩)
      (.cons (.wait (.name (letter 113 36)) .absent
        (.bexp (letter 102 44) .scop (.name (letter 102 44)) (.name (letter 108 47))) false false)
      (.cons (.retn (some (.uexp .mult (.name (letter 113 58))))) .nil))⟩,
    .func ⟨false, letter 102 63, .cons (letter 110 65) (.int .u8 1) .nil, .some (.int .u8 1),
      .cons (.wlab (letter 108 79))
      (.cons (.retn (some (.bexp (letter 43 92) .plus (.name (letter 110 90)) (.name (letter 110 94))))) .nil)⟩]⟩

def twiceObj : Obj :=
  let temp (off size : Nat) : Opd := ⟨.temp, false, false, off, size⟩
  ⟨0, [], List.replicate 17 Insn.bfun ++
    [Insn.incsp (opdImm false 8 8) (opdImm false 16 8), .getsp (temp 8 8), .push (opdImm false 3 1),
     .qnt (temp 0 8) (opdImm false 26 8) (temp 8 8), .mov (opdAuto false 0 8) (temp 0 8),
     .wait (opdAuto false 0 8) (opdImm false 0 1) 65 1 false false false,
     .rtev (temp 0 1) (opdAuto false 0 8), .retv (temp 0 1) (opdImm false 24 8), .ret (opdImm false 24 8),
     .incsp (opdImm false 0 8) (opdImm false 1 8), .wlab 65 1,
     .arith .add (temp 0 1) (opdAuto false 0 1) (opdAuto false 0 1), .retv (temp 0 1) (opdImm false 24 8),
     .ret (opdImm false 24 8)]⟩

/-- The function takes a byte and returns one. -/
def byteToByte (f : TFunc) : Bool :=
  match f.rettype, f.params.toList with
  | .some (.int .u8 1), [(_, .int .u8 1)] => true
  | _, _ => false

/-- The function gives six for three. -/
def givesSix (tops : List TTop) (f : TFunc) : Bool :=
  numFunc true f && Layout.funcFits f && decide ((Codegen.funcTag f).argsSize = (Codegen.funcTag f).frameSize) &&
    (numFuncs true tops).all (fun g => decide (frameBytes g < 2 ^ 63)) && byteToByte f &&
    (Meaning.run (numFuncs true tops) 20 (Source.argNumbers f.params.toList [3]) (.stmts f.stmts) []).any fun r =>
      Meaning.leave f r == some (some 6, [])

def topGivesSix (tops : List TTop) : TTop → Bool
  | .func f => givesSix tops f
  | .skip | .decl .. => false

/-- The instruction does not clear an empty frame, unless it is the one at `26`. -/
def clearsAt (n : Nat) : Option Insn → Bool
  | some (.incsp a _) => a.off != 0 || n == 26
  | _ => true

/-- The only function whose frame has nothing but its argument. -/
lemma entry_twice {fns : List Fn} {fn : Fn} (hl : Listed tops fns twiceObj) (hfn : fn ∈ fns)
    (hfit : Layout.funcFits fn.func = true)
    (hargs : (Codegen.funcTag fn.func).argsSize = (Codegen.funcTag fn.func).frameSize) : fn.entry = 26 := by
  obtain ⟨p, hp, -⟩ := hl.placed
  have hat : Listing.At twiceObj.insns fn.entry (fn.code.map (Listing.link fns)) := by
    rw [hl.insns]
    obtain ⟨-, -, hcode⟩ := Listing.placed_at hp hfn
    exact (hcode (List.replicate Scope.scopeBfunIdCount .bfun) (by simp [Listing.start])).map _
  obtain ⟨addend, tsize, hi, hadd, -⟩ := Arguments.frame_of_listed hfit hl hfn rfl hat
  obtain rfl : addend = 0 := by omega
  have hall : (List.range 31).all (fun n => clearsAt n twiceObj.insns[n]?) = true := by decide +kernel
  have hlt : fn.entry < 31 := (List.getElem?_eq_some_iff.mp hi).1
  have h := List.all_eq_true.mp hall _ (List.mem_range.mpr hlt)
  simpa [clearsAt, hi, opdImm] using h

/-- The quaint passes a label, the first one goes on, and its reap gives twice the argument. -/
theorem twice_delivered : ∃ tops fns fn s s1 s2 s3 s4, accept twice = some tops ∧ Listed tops fns twiceObj ∧
    fn ∈ fns ∧ Makes twiceObj fn [3] 2097152 s s1 ∧ ReflTransGen (Alive twiceObj 2097152) s1 s2 ∧
    Round twiceObj (Activation.still 0) (.retv ⟨.temp, false, false, 0, 1⟩ (opdImm false 24 8)) s2 s3 s4 ∧
    s3.cur = 65536 ∧ Delivered twiceObj (.some (.int .u8 1)) (some 6) s2 s3 := by
  have hc : Compiles twice twiceObj := by decide +kernel
  have hcheck : ((accept twice).any fun tops => tops.any (topGivesSix tops)) = true := by decide +kernel
  obtain ⟨tops, ha, hcheck⟩ := (Option.any_eq_true _ _).mp hcheck
  obtain ⟨t, ht, hcheck⟩ := List.any_eq_true.mp hcheck
  cases t with
  | skip | decl => cases hcheck
  | func f =>
  simp only [topGivesSix, givesSix, Bool.and_eq_true, List.all_eq_true, decide_eq_true_eq] at hcheck
  obtain ⟨⟨⟨⟨⟨hint, hfit⟩, hframe⟩, hframes⟩, htypes⟩, hrun⟩ := hcheck
  obtain ⟨r, hr, hleave⟩ := (Option.any_eq_true _ _).mp hrun
  have hmeans : Gives (numFuncs true tops) f [3] (some 6) [] := ⟨20, r, hr, beq_iff_eq.mp hleave⟩
  obtain ⟨hret, n, hparams⟩ : f.rettype = .some (.int .u8 1) ∧ ∃ n, f.params.toList = [(n, .int .u8 1)] := by
    unfold byteToByte at htypes
    split at htypes
    · rename_i n hret hparams
      exact ⟨hret, n, hparams⟩
    · cases htypes
  obtain ⟨fns, hl, hfuncs, h⟩ := reap_delivers hc ha (by decide +kernel) hframes (by decide)
  obtain ⟨fn, hfn, rfl⟩ := hfuncs f ht
  have hentry := entry_twice hl hfn hfit hframe
  have hlook : (do
      let s ← runWhile (fun _ => true) twiceObj (initState twiceObj 65536 131072) (stillFrom 1048576 3)
      let s1 ← step (still 2097152) twiceObj s
      let s2 ← runAlive twiceObj 2097152 s1 (stillFrom 3145728 6)
      let s3 ← execInsn (still 0) twiceObj s2 (.retv ⟨.temp, false, false, 0, 1⟩ (opdImm false 24 8))
      let s4 ← step (still 0) twiceObj s2
      let w ← loadWord s ⟨.temp, false, false, 8, 8⟩
      return s.vm.ip == 20 && w == 24 && s.vm.sp == 32 && readMem s.vm.stack 24 1 == [3] && s.live == [65536] &&
        s1.live == [2097152, 65536] && s2.vm.ip == 29 && s3.cur == 65536 && s3.live == [65536]) = .ok true := by
    decide +kernel
  simp only [bind_eq_ok, pure_eq_ok, Bool.and_eq_true, beq_iff_eq] at hlook
  obtain ⟨s, hs, s1, hs1, s2, hs2, s3, hs3, s4, hs4, w, hw, hlook⟩ := hlook
  obtain ⟨⟨⟨⟨⟨⟨⟨⟨hip, rfl⟩, hsp⟩, hread⟩, hlive⟩, hlive1⟩, hip2⟩, hcur⟩, hlive3⟩ := hlook
  have run : ReflTransGen (Activation.Next twiceObj) (initState twiceObj 65536 131072) s :=
    run_of_guarded (Activation.run_of_runWhile (P := fun _ => True) (fun _ _ => trivial) hs)
  have run' := run_of_runAlive hs2
  obtain ⟨i, t, hround⟩ := step_eq_ok.mp hs1
  obtain rfl : i = .qnt ⟨.temp, false, false, 0, 8⟩ (opdImm false 26 8) ⟨.temp, false, false, 8, 8⟩ :=
    Option.some.inj (hround.fetch.symm.trans (by rw [hip]; rfl))
  have hmakes : Makes twiceObj fn [3] 2097152 s s1 := by
    refine ⟨⟨_, _, _, _, t, 24, hround, ?_, hw, hsp, ?_⟩, by rw [hlive]; decide, by rw [hlive1]; decide⟩
    · rw [hentry]
      rfl
    · rw [hparams]
      refine ⟨?_, trivial⟩
      show Casting.Represents (.int .u8 1) (readMem s.vm.stack 24 1) 3
      rw [hread]
      decide
  obtain ⟨j, t2, hround2⟩ := step_eq_ok.mp hs4
  obtain rfl : j = .retv ⟨.temp, false, false, 0, 1⟩ (opdImm false 24 8) :=
    Option.some.inj (hround2.fetch.symm.trans (by rw [hip2]; rfl))
  obtain rfl : s3 = t2 := Except.ok.inj (hs3.symm.trans hround2.exec)
  have hdel := h fn hfn hint [3] (some 6) [] hmeans 65536 131072 s s1 s2 2097152 (by decide) run hmakes run'
    (still 0) _ s3 s4 hround2 (by rw [hlive3]; decide) (by simp)
  rw [hret] at hdel
  exact ⟨tops, fns, fn, s, s1, s2, s3, s4, ha, hl, hfn, hmakes, run', hround2, hcur, hdel⟩

end Runs

end Quaint.Delivery
