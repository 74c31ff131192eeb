import Quaint.Above
import Quaint.Operand

/-!
The places the machine reads instructions from.

The loop reads the instruction the running quaint stands at, and a return the one its parent
or its caller stands at. A parent stands at the `wait` or the reap it was left at.
-/

namespace Quaint.Fetch

open Relation Types Ast Scope TypeCheck Bytes Code Codegen Exec Step Control Effect Ancestry Transition
  Partial Program Typing Listing Activation Above

/-! ### Reads -/

/-- The places `handle_return` reads an instruction from. What a freed parent holds is not
known. -/
inductive ReturnRead (o : Obj) (s : State) (retval : List UInt8) : Nat → Prop
  | parent (n : Nat) (hsp : s.vm.sp = 0) (hp : s.vm.parent ≠ 0)
    (hn : s.vm.parent ∈ s.live → n = (s.vms s.vm.parent).ip) : ReturnRead o s retval n
  | caller (saved : Nat × Nat) (hsp : s.vm.sp ≠ 0) (hsaved : savedWords s = .ok saved)
    (hip : saved.1 < o.insnCount) (hbp : saved.2 ≤ stackSize) (hret : retval ≠ []) :
    ReturnRead o s retval saved.1

/-- The places one round reads an instruction from. -/
inductive Fetch (o : Obj) (inp : Inp) (s : State) : Nat → Prop
  | loop : Fetch o inp s s.vm.ip
  | ret (size : Opd) (s1 : State) (n : Nat) (hi : o.insns[s.vm.ip]? = some (.ret size))
    (h1 : leaveFrame s size = .ok s1) (hr : ReturnRead o s1 [] n) : Fetch o inp s n
  | retv (val size : Opd) (s1 : State) (retval : List UInt8) (n : Nat)
    (hi : o.insns[s.vm.ip]? = some (.retv val size)) (h1 : leaveFrame s size = .ok s1)
    (hv : loadOpd s1 val = .ok retval) (hr : ReturnRead o s1 retval n) : Fetch o inp s n
  | bfun (r : State × List UInt8) (base n : Nat) (hi : o.insns[s.vm.ip]? = some .bfun)
    (hbody : bfunBody inp s = .ok r) (hsp : 16 ≤ s.vm.sp) (hbase : inp.frameAddr = some base)
    (hr : ReturnRead o (leaveBfun inp r.1 base) r.2 n) : Fetch o inp s n

/-! ### Runs -/

section Runs

variable {o : Obj} {a b n : Nat} {s s' : State} {inp : Inp} {u : Ast.Unit}

/-- The thread stands inside the code. -/
def StandsIn (o : Obj) (t : Thread) : Prop := t.ip < o.insnCount

/-- The quaints on the chain stand inside the code. -/
structure Inside (o : Obj) (main : Nat) (s : State) : Prop where
  chain : ChainInv main (ctl s)
  above : AllAbove (StandsIn o) (ctl s)
  ip : s.vm.ip < o.insnCount

lemma Inside.next (h : Inside o a s) (hs : SparesChain o s) (hn : Next o s s') : Inside o a s' := by
  obtain ⟨inp, hstep⟩ := hn
  obtain ⟨i, s1, hr⟩ := step_eq_ok.mp hstep
  obtain ⟨hx, hsched⟩ := hr.ctl
  have hc := h.chain.exec (hs i hr.fetch) hx
  have habove := h.above.exec h.chain (hs i hr.fetch) hx (fun _ => h.ip) fun _ _ _ _ _ _ _ => h.ip
  exact ⟨hc.sched hsched, habove.sched hc hsched, hr.inside⟩

lemma inside_init (ha : a ≠ 0) (hlen : scopeBfunIdCount < o.insnCount) : Inside o a (initState o a b) := by
  have hc := chainInv_init (o := o) (b := b) ha
  have hip : (initState o a b).vm.ip = 17 := by simp [initState, State.vm]
  refine ⟨hc, fun x hx => ?_, by rw [hip]; exact hlen⟩
  have hp : (ctl (initState o a b)).parent a = none := by
    simp [Ctl.parent, ctl, initState, thread, Qvm.zero]
  obtain ⟨y, hy, -⟩ := TransGen.head'_iff.mp hx
  rw [IsParent, show (ctl (initState o a b)).cur = a from rfl, hp] at hy
  cases hy

theorem inside_of_run (ha : a ≠ 0) (hlen : scopeBfunIdCount < o.insnCount)
    (run : ReflTransGen (Guarded (SparesChain o) (Next o)) (initState o a b) s) : Inside o a s :=
  invariant_of_run (I := Inside o a) (fun _ _ h hg => h.next hg.1 hg.2) (inside_init ha hlen) run

/-- What a return reads is inside the code. -/
lemma returnRead_lt {retval : List UInt8} (main : Nat) (hc : ChainInv main (ctl s))
    (h : AllAbove (StandsIn o) (ctl s)) (hr : ReturnRead o s retval n) : n < o.insnCount := by
  cases hr with
  | parent _ hsp hp hn =>
    have hab : Above (ctl s) s.vm.parent := above_parent (c := ctl s) hp
    rw [hn (hc.onChain hab.to_reflTransGen).2.1]
    exact h _ hab
  | caller saved hsp hsaved hip hbp hret => exact hip

/-- **Every read of a round is inside the code**, if the round leaves the chain alone. -/
theorem fetch_lt (h : Inside o a s) (hs : SparesChain o s) (hf : Fetch o inp s n) : n < o.insnCount := by
  have hleave {size : Opd} {s1 : State} {retval : List UInt8} (h1 : leaveFrame s size = .ok s1)
      (hr : ReturnRead o s1 retval n) : n < o.insnCount := by
    obtain ⟨-, rfl⟩ := leaveFrame_eq_ok h1
    have hctl := ctl_setVm s { s.vm with sp := s.vm.sp - size.off }
    refine returnRead_lt a ?_ ?_ hr <;> rw [hctl]
    · exact h.chain.setThis rfl rfl
    · exact h.above.setThis h.chain rfl
  cases hf with
  | loop => exact h.ip
  | ret size s1 n hi h1 hr => exact hleave h1 hr
  | retv val size s1 retval n hi h1 hv hr => exact hleave h1 hr
  | bfun r base n hi hbody hsp hbase hr =>
    obtain ⟨now, k, live, hlive, -, hctl⟩ := leaveBfun_ctl base hbody
    have hc : ChainInv a { ctl s with live := live, now := now } :=
      h.chain.free hlive fun p hp => hs _ hi p (.inr hp)
    have hst : AllAbove (StandsIn o) { ctl s with live := live, now := now } :=
      h.above.congr rfl (fun _ _ => rfl) fun _ _ => rfl
    refine returnRead_lt a ?_ ?_ hr <;> rw [hctl]
    · exact hc.setThis rfl rfl
    · exact hst.setThis hc rfl

end Runs

/-! ### Units -/

section Units

variable {o : Obj} {u : Ast.Unit} {tops : List TTop} {fns : List Fn}

lemma func_of_checkTops {env : Env} {ts : List Top} {f : Func} (h : checkTops env ts = .ok tops)
    (hf : Top.func f ∈ ts) : ∃ g, TTop.func g ∈ tops := by
  induction ts generalizing tops with
  | nil => cases hf
  | cons t rest ih =>
    obtain ⟨t', rest', rfl, ht, hr⟩ := checkTops_cons h
    rcases List.mem_cons.mp hf with rfl | hf
    · obtain ⟨g, rfl, -⟩ := checkTop_func ht
      exact ⟨g, List.mem_cons_self⟩
    · obtain ⟨g, hg⟩ := ih hr hf
      exact ⟨g, List.mem_cons_of_mem _ hg⟩

/-- The code of a function lies behind the built-ins. -/
lemma insnCount_gt (h : Compiles u o) {f : Func} (hf : Top.func f ∈ u.stmts) :
    scopeBfunIdCount < o.insnCount := by
  obtain ⟨tops, fns, ha, hl⟩ := listed_of_compiles h
  obtain ⟨p, hp, -⟩ := hl.placed
  obtain ⟨-, hcheck⟩ := accept_eq_some ha
  obtain ⟨g, hg⟩ := func_of_checkTops hcheck hf
  obtain ⟨fn, hfn, -⟩ := placed_of_func hp hg
  have hat := ((placed_at hp hfn).2.2 (List.replicate scopeBfunIdCount .bfun) (by simp [start])).head
  have hlt := (List.getElem?_eq_some_iff.mp hat).1
  have hentry := (placed_at hp hfn).2.1
  rw [Obj.insnCount, hl.insns, List.length_map]
  exact Nat.lt_of_le_of_lt hentry hlt

/-- **Every instruction is read from inside the code**, on the runs of a unit with a function in
which no quaint waits on, reaps or frees itself or one above it. -/
theorem fetches_inside {a b n : Nat} {s : State} {inp : Inp} (h : Compiles u o)
    (hf : ∃ f, Top.func f ∈ u.stmts) (ha : a ≠ 0)
    (run : ReflTransGen (Guarded (SparesChain o) (Next o)) (initState o a b) s) (hs : SparesChain o s)
    (hn : Fetch o inp s n) : n < o.insnCount := by
  obtain ⟨f, hf⟩ := hf
  exact fetch_lt (inside_of_run ha (insnCount_gt h hf) run) hs hn

/-- `g: u8;` -/
def noFunction : Ast.Unit :=
  ⟨[], [.decl ⟨false, false, false, [letter 103 0], .int .u8 1, .absent⟩]⟩

def noFunctionObj : Obj := ⟨1, [], List.replicate 17 Insn.bfun⟩

/-- Without a function there is no instruction to begin with. -/
theorem no_function_fetch : Compiles noFunction noFunctionObj ∧
    ∃ s n, ReflTransGen (Next noFunctionObj) (initState noFunctionObj 65536 131072) s ∧
      Fetch noFunctionObj (still 0) s n ∧ ¬ n < noFunctionObj.insnCount :=
  ⟨by decide +kernel, _, 17, .refl, .loop, by decide⟩

/-- What is looked at after the run: the quaint that runs and its instruction, and when it has left its
frame, where its parent stands. -/
def nestedReturn (s : State) : Bool :=
  sparesChain nestedObj s && s.cur == 1310720 &&
    nestedObj.insns[s.vm.ip]? == some (.ret (opdImm false 16 8)) &&
    ((leaveFrame s (opdImm false 16 8)).toOption.map fun s1 =>
      (s1.vm.sp, s1.vm.parent, (s1.vms s1.vm.parent).ip)) == some (0, 1114112, 33)

/-- What the quaint of `k` reads when it returns: the reap its parent, the quaint of `f`, stands at. -/
theorem nested_fetch : ∃ s s1,
    ReflTransGen (Guarded (SparesChain nestedObj) (Next nestedObj)) (initState nestedObj 65536 131072) s ∧
      s.cur = 1310720 ∧ nestedObj.insns[s.vm.ip]? = some (.ret (opdImm false 16 8)) ∧
      leaveFrame s (opdImm false 16 8) = .ok s1 ∧ ReturnRead nestedObj s1 [] 33 ∧
      Fetch nestedObj (still 0) s 33 ∧
      nestedObj.insns[33]? = some (.rte (opdGlob false 8 8)) ∧ 33 < nestedObj.insnCount := by
  have hlook : (fun x => nestedReturn x.1) <$> nestedRun (sparesChain nestedObj) 21 0 = .ok true := by
    decide +kernel
  obtain ⟨⟨s, t⟩, hlook, hs⟩ := map_eq_ok.mp hlook
  simp only [nestedReturn, Bool.and_eq_true, beq_iff_eq] at hs
  obtain ⟨⟨⟨hspares, hcur⟩, hi⟩, hleave⟩ := hs
  obtain ⟨s1, hs1, hat⟩ := Option.map_eq_some_iff.mp hleave
  have h1 : leaveFrame s (opdImm false 16 8) = .ok s1 := by
    cases h : leaveFrame s (opdImm false 16 8) with
    | error e => rw [h] at hs1; cases hs1
    | ok t => rw [h] at hs1; cases hs1; rfl
  obtain ⟨hsp, hparent, hip⟩ : s1.vm.sp = 0 ∧ s1.vm.parent = 1114112 ∧ (s1.vms s1.vm.parent).ip = 33 := by
    simpa using hat
  have run := (run_of_nestedRun (P := SparesChain nestedObj) (fun _ => sparesChain_sound) hlook).1
  have hread : ReturnRead nestedObj s1 [] 33 :=
    .parent 33 hsp (by rw [hparent]; decide) fun _ => hip.symm
  have hfetch : Fetch nestedObj (still 0) s 33 := .ret _ s1 33 hi h1 hread
  exact ⟨s, s1, run, hcur, hi, h1, hread, hfetch, by decide +kernel,
    fetches_inside (show Compiles nested nestedObj by decide +kernel)
      ⟨_, List.mem_cons_of_mem _ List.mem_cons_self⟩ (by decide) run (sparesChain_sound hspares)
      hfetch⟩

end Units

end Quaint.Fetch
