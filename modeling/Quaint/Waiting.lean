import Quaint.Reaping
import Quaint.Above

/-!
When a `wait` is over.

The scheduler reads the flags of the quaints above the running one. Each of these was left at
a `wait` or a reap, and one that stands at a `wait` was left by that `wait`, which sets the
flags anew. So the flags the scheduler reads are those of the `wait` it moves the quaint past.
-/

namespace Quaint.Waiting

open Relation Types Ast Code Exec Step Control Effect Ancestry Transition Partial Program Activation
  Above Reaping

/-! ### Flags -/

/-- The flags and words of a thread that stands at a `wait` are what that `wait` notes. -/
def FlagsMatch (o : Obj) (t : Thread) : Prop :=
  ∀ quaint timeout func id noblock units hasTimeout,
    o.insns[t.ip]? = some (.wait quaint timeout func id noblock units hasTimeout) →
    (t.waitingFor = true → hasTimeout = true) ∧
    (t.waitingFor = false → t.waitingUntil = true → func ≠ 0 ∧ t.w0 = func ∧ t.w1 = id)

section Flags

variable {o : Obj} {inp : Inp} {s s1 s' : State} {i : Insn} {p main : Nat} {last : Nat → Nat}

lemma flagsMatch_of_reap {t : Thread} (hi : insnAt o t = some i) (hr : isReap i = true) :
    FlagsMatch o t := by
  intro quaint timeout func id noblock units hasTimeout hw
  obtain rfl := Option.some.inj (hi.symm.trans hw)
  cases hr

lemma waitTimeout_isSome {timeout : Opd} {hasTimeout : Bool} {t : Option Nat}
    (h : waitTimeout s timeout hasTimeout = .ok t) : t.isSome = hasTimeout := by
  cases hasTimeout with
  | true =>
    simp only [waitTimeout, if_true, bind_eq_ok, pure_eq_ok] at h
    obtain ⟨_, _, _, _, v, _, rfl⟩ := h
    rfl
  | false =>
    obtain rfl := pure_eq_ok.mp h
    rfl

/-- A `wait` that goes on with another quaint leaves its own flags behind. -/
lemma startWaiting_flags {q : Nat} {t : Option Nat}
    {quaint timeout : Opd} {func id : Nat} {noblock units hasTimeout : Bool}
    (hi : o.insns[s.vm.ip]? = some (.wait quaint timeout func id noblock units hasTimeout))
    (ht : t.isSome = hasTimeout) (hq : q ≠ s.cur)
    (h : startWaiting inp s q func id noblock units t = .ok s1) :
    FlagsMatch o (thread (s1.vms s.cur)) := by
  -- what the `wait` leaves behind stands where it stood
  have key : ∀ v : Qvm, v.ip = s.vm.ip → (v.waitingFor = true → hasTimeout = true) →
      (v.waitingFor = false → v.waitingUntil = true → func ≠ 0 ∧ v.w0 = func ∧ v.w1 = id) →
      FlagsMatch o (thread v) := by
    intro v hip hfor huntil quaint' timeout' func' id' noblock' units' hasTimeout' hj
    obtain ⟨rfl, rfl, rfl, rfl, rfl, rfl, rfl⟩ :=
      Insn.wait.inj (Option.some.inj ((hip ▸ hi).symm.trans hj))
    exact ⟨hfor, huntil⟩
  have hleft : ∀ (s' : State) (v : Qvm), s'.cur = s.cur →
      (State.activate (s'.setVm v) q).vms s.cur = v := by
    intro s' v hcur
    exact (if_neg hq.symm).trans (if_pos hcur.symm)
  cases t with
  | some t =>
    simp only [startWaiting, bind_eq_ok, pure_eq_ok] at h
    obtain ⟨now, -, rfl⟩ := h
    rw [hleft { s with now := now } _ rfl]
    exact key _ rfl (fun _ => ht.symm) (fun h => by cases h)
  | none =>
    simp only [startWaiting] at h
    split at h
    · rename_i hfunc
      obtain rfl := pure_eq_ok.mp h
      rw [hleft s _ rfl]
      exact key _ rfl (fun h => by cases h) fun _ _ => ⟨hfunc, rfl, rfl⟩
    · obtain rfl := pure_eq_ok.mp h
      rw [hleft s _ rfl]
      exact key _ rfl (fun h => by cases h) (fun _ h => by cases h)

lemma wait_flags (hi : o.insns[s.vm.ip]? = some i) (hw : isWait i = true)
    (hx : execInsn inp o s i = .ok s1) (hcur : s1.cur ≠ s.cur) :
    FlagsMatch o (thread (s1.vms s.cur)) := by
  cases i with
  | wait quaint timeout func id noblock units hasTimeout =>
    obtain ⟨q, -, h⟩ := insnWait_cases hx
    rcases h with ⟨-, rfl⟩ | ⟨-, -, -, rfl⟩ | ⟨-, -, -, t, ht, ⟨-, rfl⟩ | ⟨-, h⟩⟩
    · exact (hcur rfl).elim
    · exact (hcur rfl).elim
    · exact (hcur rfl).elim
    · refine startWaiting_flags hi (waitTimeout_isSome ht) (fun hq => hcur ?_) h
      obtain ⟨now, w0, w1, isFor, isUntil, hc⟩ := startWaiting_ctl h
      exact (congrArg Ctl.cur hc).trans hq
  | _ => cases hw

end Flags

/-! ### The end of a wait -/

/-- An instruction that leads from `s` to `s1` ends the `wait` at which `p` stands: the handle
is null, or its quaint is at its end, or there is a timeout and it is zero, or the quaint waited
for, which is the one `p` went on with last, comes to its end. -/
inductive Over (last : Nat → Nat) (s s1 : State) (p : Nat) (quaint timeout : Opd)
    (hasTimeout : Bool) : Prop
  | null (hp : p = s.cur) (hq : loadWord s quaint = .ok 0)
  | ended (q : Nat) (hp : p = s.cur) (hq : loadWord s quaint = .ok q) (h0 : q ≠ 0)
    (hend : (s.vms q).atEnd = true)
  | zero (hp : p = s.cur) (ht : hasTimeout = true) (hz : loadOpdNat s timeout = .ok 0)
  | returned (hp : s.vm.parent = p) (hlast : last p = s.cur) (hend : (s1.vms s.cur).atEnd = true)

/-- The scheduler, from `s` to `s'`, ends the `wait` at which `p` stands: there is a timeout and
the interval noted has elapsed since the start noted, or there is a label and it is the one the
quaint waited for passed last. -/
inductive Expired (last : Nat → Nat) (s s' : State) (p func id : Nat) (hasTimeout : Bool) : Prop
  | elapsed (ht : hasTimeout = true)
    (hle : (s.vms p).w1 ≤ (2 ^ 64 + s'.now - (s.vms p).w0) % 2 ^ 64)
  | passed (h0 : func ≠ 0) (hfunc : (s.vms (last p)).lastFunc = func)
    (hid : (s.vms (last p)).lastId = id)

section Ends

variable {o : Obj} {inp : Inp} {s s1 s' : State} {i : Insn} {p main : Nat} {last : Nat → Nat}
  {quaint timeout : Opd} {func id : Nat} {noblock units hasTimeout : Bool}

/-- The running quaint moves past its own `wait`. -/
lemma over_of_wait (hx : insnWait inp s quaint timeout func id noblock units hasTimeout = .ok s1)
    (hmoved : (s1.vms s.cur).ip ≠ s.vm.ip) : Over last s s1 s.cur quaint timeout hasTimeout := by
  obtain ⟨q, hq, h⟩ := insnWait_cases hx
  rcases h with ⟨rfl, -⟩ | ⟨h0, -, hend, -⟩ | ⟨-, -, -, t, ht, ⟨rfl, -⟩ | ⟨-, h⟩⟩
  · exact .null rfl hq
  · exact .ended q rfl hq h0 hend
  · cases hasTimeout with
    | true =>
      simp only [waitTimeout, if_true, bind_eq_ok, pure_eq_ok, Option.some.injEq] at ht
      obtain ⟨_, _, _, _, v, hv, rfl⟩ := ht
      exact .zero rfl rfl hv
    | false => cases ht
  · -- a switch leaves the running quaint where it stands
    refine (hmoved ?_).elim
    obtain ⟨now, w0, w1, isFor, isUntil, hc⟩ := startWaiting_ctl h
    have hip : ((ctl s1).threads s.cur).ip = ((ctl s).threads s.cur).ip := by
      rw [hc, activate_threads]
      have hthis : (((ctl s).setNow now).setThis
          ((ctl s).this.startWait isFor isUntil w0 w1)).threads s.cur = _ := Ctl.set_threads_self _ _ _
      split
      · rename_i hsq
        rw [← hsq, hthis]
        rfl
      · rw [hthis]
        rfl
    exact hip

/-- A return that moves another quaint on, which stands at a `wait`, ends the quaint that
returns. -/
lemma ended_of_return {t : State} {signd : Bool} {retval : List UInt8} (hret : Returning inp s i t retval)
    (hx : handleReturn o t signd retval = .ok s1) (hpc : p ≠ s.cur)
    (hj : o.insns[(s.vms p).ip]? = some (.wait quaint timeout func id noblock units hasTimeout))
    (hmoved : (s1.vms p).ip ≠ (s.vms p).ip) :
    p ≠ 0 ∧ s.vm.parent = p ∧ (s1.vms s.cur).atEnd = true := by
  obtain ⟨htc, hother, -⟩ := returning_ctl hret
  have htp : (t.vms p).ip = (s.vms p).ip := congrArg Thread.ip (hother p hpc)
  obtain ⟨hsp, h0, hp, hsp', hx⟩ := toParent_of_moved hret hx hpc hmoved
  simp only [returnToParent, bind_eq_ok, orUb_eq_ok, hp, htp, hj] at hx
  obtain ⟨_, _, j, hji, hx⟩ := hx
  obtain rfl := Option.some.inj hji
  simp only [bind_eq_ok, pure_eq_ok] at hx
  obtain ⟨_, _, rfl⟩ := hx
  refine ⟨h0, hsp', ?_⟩
  simp only [nextIp, State.setVm, State.setVms, State.setCur, State.vm, htc, hpc.symm, if_false,
    if_true]
  rfl

/-- An instruction that moves a quaint past a `wait` ends that `wait`. -/
lemma over_of_moved (hcur : s.cur ∈ s.live) (hi : o.insns[s.vm.ip]? = some i)
    (hx : execInsn inp o s i = .ok s1) (hp : p ∈ s.live)
    (hj : o.insns[(s.vms p).ip]? = some (.wait quaint timeout func id noblock units hasTimeout))
    (hmoved : (s1.vms p).ip ≠ (s.vms p).ip) (hlast : p ≠ 0 → s.vm.parent = p → last p = s.cur) :
    Over last s s1 p quaint timeout hasTimeout := by
  by_cases hpc : p = s.cur
  · subst hpc
    obtain rfl := Option.some.inj (hi.symm.trans hj)
    exact over_of_wait hx hmoved
  · obtain ⟨t, signd, retval, hret, hx'⟩ := returning_of_moved hcur hx hp hpc hmoved
    obtain ⟨h0, hpar, hend⟩ := ended_of_return hret hx' hpc hj hmoved
    exact .returned hpar (hlast h0 hpar) hend

/-- The scheduler moves a quaint past a `wait` only if that `wait` has expired, as long as the
flags above the running quaint are those of the waits. -/
lemma expired_of_moved (hlinks : LinksHold o (ctl s) last) (hflags : AllAbove (FlagsMatch o) (ctl s))
    (h : checkAndEventuallySplitVms inp s = .ok s')
    (hj : o.insns[(s.vms p).ip]? = some (.wait quaint timeout func id noblock units hasTimeout))
    (hmoved : (s'.vms p).ip ≠ (s.vms p).ip) : Expired last s s' p func id hasTimeout := by
  obtain ⟨b, hb, hbp, hsplits⟩ := split_of_moved h hmoved
  obtain ⟨hfor, huntil⟩ := hflags p (.tail' hb hbp) _ _ _ _ _ _ _ hj
  have hlast : last p = b := (hlinks b p hb hbp).1
  simp only [splits, Bool.and_eq_true] at hsplits
  obtain ⟨-, hover⟩ := hsplits
  cases hf : (s.vms p).waitingFor with
  | true =>
    simp only [hf, if_true, decide_eq_true_eq] at hover
    exact .elapsed (hfor hf) hover
  | false =>
    simp only [hf, Bool.false_eq_true, if_false, Bool.and_eq_true, beq_iff_eq] at hover
    obtain ⟨⟨hu, hfunc⟩, hid⟩ := hover
    obtain ⟨h0, hw0, hw1⟩ := huntil hf hu
    exact .passed h0 (hlast ▸ hfunc.trans hw0) (hlast ▸ hid.trans hw1)

end Ends

/-! ### Runs -/

section Run

variable {o : Obj} {a b : Nat} {s s1 s' : State} {inp : Inp} {i : Insn} {last last' : Nat → Nat}

/-- Rounds that leave the chain alone, with notes of the quaints gone on with. -/
def SparesNext (o : Obj) : State × (Nat → Nat) → State × (Nat → Nat) → Prop :=
  WithHistory (Guarded (SparesChain o) (Next o)) (Notes o)

/-- The quaints above the running one were left by what they stand at, with its flags. -/
structure WaitInv (o : Obj) (main : Nat) (c : Ctl) (last : Nat → Nat) : Prop where
  chain : ChainInv main c
  links : LinksHold o c last
  flags : AllAbove (FlagsMatch o) c

lemma WaitInv.round (h : WaitInv o a (ctl s) last) (hs : SparesChain o s)
    (hr : Round o inp i s s1 s') : WaitInv o a (ctl s1) (note last i s.cur s1.cur) ∧
      WaitInv o a (ctl s') (note last i s.cur s1.cur) := by
  obtain ⟨hx, hsched⟩ := hr.ctl
  have hspares := hs i hr.fetch
  have hc := h.chain.exec hspares hx
  have hlinks := h.links.exec h.chain hr.fetch hspares hx
  have hflags : AllAbove (FlagsMatch o) (ctl s1) := by
    refine h.flags.exec h.chain hspares hx (flagsMatch_of_reap hr.fetch) ?_
    intro isFor isUntil w0 w1 hw hcur hleft
    rw [← hleft]
    exact wait_flags hr.fetch hw hr.exec hcur
  exact ⟨⟨hc, hlinks, hflags⟩, hc.sched hsched, hlinks.sched hc hsched, hflags.sched hc hsched⟩

lemma waitInv_init (ha : a ≠ 0) (last : Nat → Nat) :
    WaitInv o a (ctl (initState o a b)) last := by
  refine ⟨chainInv_init ha, linksHold_init last, fun x _ => ?_⟩
  have hw : ((ctl (initState o a b)).threads x).waitingFor = false ∧
      ((ctl (initState o a b)).threads x).waitingUntil = false := by
    simp only [ctl, initState]
    split <;> exact ⟨rfl, rfl⟩
  intro _ _ _ _ _ _ _ _
  exact ⟨by simp [hw.1], by simp [hw.2]⟩

lemma waitInv_of_run (ha : a ≠ 0)
    (run : ReflTransGen (SparesNext o) (initState o a b, last) (s, last')) :
    WaitInv o a (ctl s) last' := by
  refine invariant_of_run (I := fun x => WaitInv o a (ctl x.1) x.2) (fun x x' h hn => ?_)
    (waitInv_init ha last) run
  obtain ⟨⟨hs, _⟩, inp, i, s1, hr, hlast⟩ := hn
  rw [hlast]
  exact (h.round hs hr).2

/-- **A wait ends only when it is over or has expired**: in a run in which no quaint waits on,
reaps or frees itself or one above it, whenever a quaint moves past a `wait`, either the
instruction of that round finds the handle null, its quaint at its end or the timeout zero, or
brings the quaint waited for to its end, or the scheduler finds the interval elapsed or the label
passed. A `wait` without a timeout or a label is over. -/
theorem wait_completed_of_run (ha : a ≠ 0)
    (run : ReflTransGen (SparesNext o) (initState o a b, last) (s, last')) (hs : SparesChain o s)
    (hr : Round o inp i s s1 s') {p : Nat} (hp : p ∈ s.live) (quaint timeout : Opd) (func id : Nat)
    (noblock units hasTimeout : Bool) :
    (o.insns[(s.vms p).ip]? = some (.wait quaint timeout func id noblock units hasTimeout) →
      (s1.vms p).ip ≠ (s.vms p).ip → Over last' s s1 p quaint timeout hasTimeout) ∧
    (o.insns[(s1.vms p).ip]? = some (.wait quaint timeout func id noblock units hasTimeout) →
      (s'.vms p).ip ≠ (s1.vms p).ip →
      Expired (note last' i s.cur s1.cur) s1 s' p func id hasTimeout) ∧
    (o.insns[(s.vms p).ip]? = some (.wait quaint timeout 0 id noblock units false) →
      (s'.vms p).ip ≠ (s.vms p).ip → Over last' s s1 p quaint timeout false) := by
  have h := waitInv_of_run ha run
  obtain ⟨h1, -⟩ := h.round hs hr
  have hover {func : Nat} {hasTimeout : Bool}
      (hj : o.insns[(s.vms p).ip]? = some (.wait quaint timeout func id noblock units hasTimeout))
      (hmoved : (s1.vms p).ip ≠ (s.vms p).ip) : Over last' s s1 p quaint timeout hasTimeout := by
    refine over_of_moved hr.live hr.fetch hr.exec hp hj hmoved fun h0 hpar => ?_
    have hlink : IsParent (ctl s).parent s.cur p :=
      (if_neg (hpar ▸ h0 : s.vm.parent ≠ 0)).trans (congrArg some hpar)
    exact (h.links s.cur p .refl hlink).1
  refine ⟨hover, expired_of_moved h1.links h1.flags hr.split, fun hj hmoved => ?_⟩
  by_cases hmoved1 : (s1.vms p).ip = (s.vms p).ip
  · -- nothing the scheduler could find
    rw [← hmoved1] at hj hmoved
    cases expired_of_moved h1.links h1.flags hr.split hj hmoved with
    | elapsed ht hle => cases ht
    | passed h0 hfunc hid => exact (h0 rfl).elim
  · exact hover hj hmoved1

/-! ### A wait that is over -/

/-- `g: quaint(); m { g = ~f(); wait g; } f { }` -/
def plainWait : Ast.Unit :=
  ⟨[],
    [.decl ⟨false, false, false, [letter 103 0], .quaint 1 .zero, .absent⟩,
     .func ⟨false, letter 109 15, .nil, .none,
       .cons (quaintify 103 102 19)
       (.cons (.wait (.name (letter 103 34)) .absent .absent false false) .nil)⟩,
     .func ⟨false, letter 102 39, .nil, .none, .nil⟩]⟩

def plainWaitObj : Obj :=
  let temp (off : Nat) : Opd := ⟨.temp, false, false, off, 8⟩
  ⟨8, [], List.replicate 17 Insn.bfun ++
    [Insn.incsp (opdImm false 0 8) (opdImm false 16 8), .getsp (temp 8),
     .qnt (temp 0) (opdImm false 24 8) (temp 8), .mov (opdGlob false 0 8) (temp 0), .nop, waitSelf,
     .ret (opdImm false 16 8), .incsp (opdImm false 0 8) (opdImm false 0 8), .ret (opdImm false 16 8)]⟩

/-- What is looked at after the run: the first quaint stands at its `wait`, and moves on in the
next round. -/
def plainWaitLook (s : State) : Bool :=
  sparesChain plainWaitObj s && s.live.contains 65536 &&
    plainWaitObj.insns[(s.vms 65536).ip]? == some waitSelf && (s.vms 65536).ip == 22 &&
    ((step (still 0) plainWaitObj s).toOption.map fun s' => (s'.vms 65536).ip) == some 23

/-- The quaint waited for returns. -/
theorem wait_completed_plain : Compiles plainWait plainWaitObj ∧
    ∃ s last i s1 s', ReflTransGen (SparesNext plainWaitObj)
        (initState plainWaitObj 65536 131072, fun _ => 0) (s, last) ∧
      Round plainWaitObj (still 0) i s s1 s' ∧ (s'.vms 65536).ip ≠ (s.vms 65536).ip ∧
      Over last s s1 65536 (opdGlob false 0 8) (opdImm false 0 1) false := by
  have hlook : plainWaitLook <$> runWhile (sparesChain plainWaitObj) plainWaitObj
      (initState plainWaitObj 65536 131072) (stillFrom 1048576 7) = .ok true := by decide +kernel
  obtain ⟨s, hrun, hlook⟩ := map_eq_ok.mp hlook
  simp only [plainWaitLook, Bool.and_eq_true, beq_iff_eq, List.contains_iff_mem] at hlook
  obtain ⟨⟨⟨⟨hspares, hlive⟩, hj⟩, hip⟩, hnext⟩ := hlook
  obtain ⟨s', hs', hip'⟩ := Option.map_eq_some_iff.mp hnext
  have hstep : step (still 0) plainWaitObj s = .ok s' := by
    cases h : step (still 0) plainWaitObj s with
    | error e => rw [h] at hs'; cases hs'
    | ok t => rw [h] at hs'; cases hs'; rfl
  obtain ⟨i, s1, hr⟩ := step_eq_ok.mp hstep
  obtain ⟨last, run⟩ := exists_notes
    (run_of_runWhile (P := SparesChain plainWaitObj) (fun _ => sparesChain_sound) hrun) fun _ => 0
  have hmoved : (s'.vms 65536).ip ≠ (s.vms 65536).ip := by
    rw [hip, hip']
    decide
  exact ⟨by decide +kernel, s, last, i, s1, s', run, hr, hmoved,
    (wait_completed_of_run (by decide) run (sparesChain_sound hspares) hr hlive _ _ 0 _ _ _ false).2.2
      hj hmoved⟩

end Run

end Quaint.Waiting
