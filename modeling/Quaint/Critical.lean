import Quaint.Starting

/-!
Critical sections.

`noint` is one flag of a quaint: NOINT sets it, INT clears it, and a return leaves it as it is. It
tells whether the quaint is inside a `noint` block as long as it leaves its blocks at their ends, and
is inside no other when it does.
-/

namespace Quaint.Critical

open Relation Types Ast Scope Code Exec Step Control Effect Transition Partial Program Activation
  Reaping Listing Starting

/-! ### The blocks a quaint is inside -/

/-- The blocks that each frame of a call stack has entered and not left, by the places of their
NOINT. The innermost stands first. -/
abbrev Frames := List (List Nat)

namespace Frames

/-- The call stack is inside a block. -/
def inside (fs : Frames) : Bool := fs.any fun f => !f.isEmpty

def enter (ip : Nat) : Frames → Frames
  | [] => [[ip]]
  | f :: fs => (ip :: f) :: fs

def leave : Frames → Frames
  | [] => []
  | f :: fs => f.tail :: fs

/-- What is left of a call stack when its last frame returns. -/
def callers (fs : Frames) : Frames := fs.tail

/-- The call stack after an instruction of its quaint. -/
def after (fs : Frames) (i : Insn) (ip : Nat) : Frames :=
  match i with
  | .noint => fs.enter ip
  | .int => fs.leave
  | .call _ _ | .callv _ _ _ => [] :: fs
  | .ret _ | .retv _ _ | .bfun => fs.callers
  | _ => fs

end Frames

/-- The call stack of each quaint. -/
abbrev Blocks := Nat → Frames

/-- The call stacks after an instruction of `cur`; a quaint it makes begins with one frame. -/
def Blocks.after (h : Blocks) (i : Insn) (ip : Nat) (live : List Nat) (cur : Nat) : Blocks := fun a =>
  if a ∈ live then if a = cur then (h a).after i ip else h a else [[]]

def Blocks.init : Blocks := fun _ => [[]]

def NotesBlocks (o : Obj) (h : Blocks) (s s' : State) (h' : Blocks) : Prop :=
  ∃ inp i s1, Round o inp i s s1 s' ∧ h' = h.after i s.vm.ip s.live s.cur

/-! ### The flag -/

/-- The flag after an instruction. -/
def nointAfter (i : Insn) (noint : Bool) : Bool :=
  match i with
  | .noint => true
  | .int => false
  | _ => noint

/-- The instruction leaves a block only if it leaves the last one, at its end, or returns to a frame
that is inside another. -/
def LeavesOne (fs : Frames) : Insn → Prop
  | .int => fs.leave.inside = false
  | .ret _ | .retv _ _ | .bfun => fs.head? = some [] ∨ fs = [] ∨ fs.callers.inside = true
  | _ => True

instance (fs : Frames) (i : Insn) : Decidable (LeavesOne fs i) := by
  cases i <;> unfold LeavesOne <;> infer_instance

section Frames

variable {fs : Frames} {i : Insn} {ip : Nat}

@[simp] lemma inside_nil : Frames.inside [] = false := rfl

@[simp] lemma inside_cons (f : List Nat) : Frames.inside (f :: fs) = (!f.isEmpty || fs.inside) := rfl

@[simp] lemma inside_enter : (fs.enter ip).inside = true := by
  cases fs <;> rfl

lemma inside_callers : fs.callers.inside = fs.inside ↔
    fs.head? = some [] ∨ fs = [] ∨ fs.callers.inside = true := by
  cases fs with
  | nil => simp [Frames.callers]
  | cons f fs =>
    cases f with
    | nil => simp [Frames.callers]
    | cons => simp [Frames.callers]

/-- **The flag goes on telling whether the call stack is inside a block just when the instruction
leaves no other behind.** -/
theorem inside_after (ip : Nat) : (fs.after i ip).inside = nointAfter i fs.inside ↔ LeavesOne fs i := by
  cases i with
  | noint => simp [Frames.after, nointAfter, LeavesOne]
  | int => simp [Frames.after, nointAfter, LeavesOne]
  | ret | retv | bfun => exact inside_callers
  | _ => simp [Frames.after, nointAfter, LeavesOne]

end Frames

/-! ### The machine -/

section Machine

variable {o : Obj} {i : Insn} {w : Words} {c c' d : Ctl} {a : Nat} {t : Thread}

lemma ownMove_noint {t' : Thread} (h : OwnMove i t t') : t'.noint = nointAfter i t.noint := by
  unfold OwnMove at h
  split at h
  · rcases h with rfl | rfl <;> rfl
  all_goals first
    | exact h.elim
    | (obtain ⟨_, _, rfl⟩ := h; rfl)
    | exact congrArg Thread.noint h
    | rw [h]
  -- the other instructions advance
  rename_i hnoint hint _ _ _ _ _
  cases i <;> first | rfl | exact (hnoint rfl).elim | exact (hint rfl).elim

/-- The thread of a quaint keeps its flag. -/
lemma setThis_noint (ht : t.noint = c.this.noint) (b : Nat) :
    ((c.setThis t).threads b).noint = (c.threads b).noint := by
  rw [setThis_threads]
  split
  · rename_i hb
    rw [ht, hb]
    rfl
  · rfl

lemma activate_noint (q b : Nat) : ((c.activate q).threads b).noint = (c.threads b).noint := by
  rw [activate_threads]
  split
  · rename_i hb
    rw [hb]
  · rfl

/-- A return keeps the flag of every quaint. -/
lemma return_noint (hr : Return o d c') (b : Nat) : (c'.threads b).noint = (d.threads b).noint := by
  cases hr with
  | caller ip bp hsp hip => exact setThis_noint (by rfl) b
  | main ip bp hsp hp => exact setThis_noint (by rfl) b
  | reap i hsp hp hlive hi hreap =>
    exact setThis_noint (c := (d.release d.cur).setCur d.this.parent) (by rfl) b
  | wait i hsp hp hlive hi hwait =>
    exact (setThis_noint (c := (d.setThis d.this.ended).setCur d.this.parent) (by rfl) b).trans
      (setThis_noint (t := d.this.ended) (by rfl) b)

lemma noint_kept (hi : ∀ b, nointAfter i b = b) :
    (if a = c.cur then nointAfter i c.this.noint else (c.threads a).noint) = (c.threads a).noint := by
  split
  · rename_i hac
    rw [hi, hac]
    rfl
  · rfl

lemma switch_noint (h : isReap i = true ∨ isWait i = true) (b : Bool) : nointAfter i b = b := by
  rcases h with h | h
  · cases i <;> first | rfl | cases h
  · cases i <;> first | rfl | cases h

/-- A new quaint is inside no block, and its maker keeps its flag. -/
lemma create_noint {b : Nat} {t' : Thread} (hd : d.threads = (c.set b t).threads)
    (hdcur : d.cur = c.cur) (hnew : b ∉ c.live) (hb : c.cur ≠ b) (ht' : t'.noint = c.this.noint)
    (ht : t.noint = false) (ha : a ∈ b :: c.live) :
    ((d.setThis t').threads a).noint = if a ∈ c.live then (c.threads a).noint else false := by
  have hthis : d.this = c.this := by
    rw [Ctl.this, hd, hdcur, Ctl.set_threads_ne _ _ hb]
    rfl
  rw [setThis_noint (ht'.trans (congrArg Thread.noint hthis.symm)), hd]
  by_cases hab : a = b
  · rw [hab, Ctl.set_threads_self, if_neg hnew, ht]
  · rw [Ctl.set_threads_ne _ _ hab, if_pos ((List.mem_cons.mp ha).resolve_left hab)]

/-- The flag of a quaint after an instruction, of one that was there and of a new one. -/
lemma exec_noint (hx : Exec o i w c c') (ha : a ∈ c'.live) :
    (c'.threads a).noint = if a ∈ c.live then
      if a = c.cur then nointAfter i c.this.noint else (c.threads a).noint else false := by
  have hreturn : ∀ d : Ctl, (∀ b, (d.threads b).noint = (c.threads b).noint) →
      (∀ b ∈ d.live, b ∈ c.live) → Return o d c' → (∀ b, nointAfter i b = b) →
      (c'.threads a).noint = if a ∈ c.live then
        if a = c.cur then nointAfter i c.this.noint else (c.threads a).noint else false := by
    intro d hd hlive hr hi
    rw [if_pos (hlive a ((return_starts hr).2.1 a ha)), noint_kept hi, return_noint hr, hd]
  cases hx with
  | own t hmove hreap hwait =>
    rw [if_pos (by exact ha), setThis_threads]
    split
    · exact ownMove_noint hmove
    · rfl
  | reapEnded q hr hq hq0 hlive hend =>
    rw [if_pos (List.mem_of_mem_erase ha), noint_kept (switch_noint (.inl hr))]
    exact setThis_noint (c := c.release q) (t := c.this.advance) rfl a
  | reap q hr hq hq0 hlive hend =>
    rw [if_pos (by exact ha), noint_kept (switch_noint (.inl hr)), activate_noint]
  | wait q now w0 w1 isFor isUntil hw hq hq0 hlive hend =>
    rw [if_pos (by exact ha), noint_kept (switch_noint (.inr hw)), activate_noint]
    exact setThis_noint (c := c.setNow now) (by rfl) a
  | qnt dst loc ssp b ip sp n hi hb hnew hcur =>
    subst hi
    rw [noint_kept fun _ => rfl]
    exact create_noint rfl rfl hnew hcur rfl rfl ha
  | qntv dst val b hi hb hnew hcur =>
    subst hi
    rw [noint_kept fun _ => rfl]
    exact create_noint rfl rfl hnew hcur rfl rfl ha
  | ret size hi hsp _ hr =>
    refine hreturn _ (fun b => ?_) (fun b hb => ?_) hr ?_
    · exact setThis_noint (by rfl) b
    · exact hb
    · rcases hi with rfl | ⟨v, rfl⟩
      · exact fun _ => rfl
      · exact fun _ => rfl
  | bfun now n live hi hlive hsp _ hr =>
    subst hi
    refine hreturn _ (fun b => ?_) (fun b hb => ?_) hr fun _ => rfl
    · exact setThis_noint (c := { c with live := live, now := now }) (by rfl) b
    · rcases hlive with rfl | ⟨p, _, _, rfl⟩
      · exact hb
      · exact List.mem_of_mem_erase hb

lemma sched_noint (hs : Sched c c') (b : Nat) : (c'.threads b).noint = (c.threads b).noint := by
  cases hs with
  | stay now => rfl
  | split now q hanc hwait hlive =>
    show (if b = q then (c.threads q).notWaiting.advance else c.threads b).noint = _
    split
    · rename_i hb
      rw [hb]
      rfl
    · rfl

lemma sched_live (hs : Sched c c') : c'.live = c.live := by
  cases hs with
  | stay => rfl
  | split => rfl

end Machine

/-! ### Runs -/

/-- The instruction the running quaint stands at leaves no block inside another, and its return
leaves none at all, unless the quaint is reaped at once. -/
def LeavesWell (o : Obj) (x : State × Blocks) : Prop :=
  ∀ i ∈ o.insns[x.1.vm.ip]?, LeavesOne (x.2 x.1.cur) i ∨ EndsReaped o x.1 i

instance (o : Obj) (x : State × Blocks) : Decidable (LeavesWell o x) :=
  inferInstanceAs (Decidable (∀ i ∈ o.insns[x.1.vm.ip]?, _))

/-- Rounds that leave their blocks well, and the blocks that are left to leave. -/
def LeavingNext (o : Obj) : State × Blocks → State × Blocks → Prop :=
  Guarded (LeavesWell o) (WithHistory (Next o) (NotesBlocks o))

/-- The flag of every quaint tells whether it is inside a block. -/
structure NointInv (c : Ctl) (h : Blocks) : Prop where
  nodup : c.live.Nodup
  flag : ∀ q ∈ c.live, (c.threads q).noint = (h q).inside

section Run

variable {o : Obj} {a b q : Nat} {s s1 s' : State} {inp : Inp} {i : Insn} {h : Blocks}

lemma nointInv_init : NointInv (ctl (initState o a b)) Blocks.init := by
  refine ⟨List.pairwise_singleton _ a, fun x hx => ?_⟩
  obtain rfl : x = a := List.mem_singleton.mp hx
  show ((ctl (initState o x b)).threads x).noint = false
  simp [ctl, initState, thread, Qvm.zero]

/-- One round: the flag is right after it just when the instruction left its blocks well, or its
quaint is gone. -/
lemma flag_of_round (hinv : NointInv (ctl s) h) (hr : Round o inp i s s1 s') (hq : q ∈ s'.live) :
    (s'.vms q).noint = (h.after i s.vm.ip s.live s.cur q).inside ↔
      (q = s.cur → LeavesOne (h q) i) := by
  obtain ⟨hx, hsched⟩ := hr.ctl
  have hq1 : q ∈ (ctl s1).live := sched_live hsched ▸ hq
  have hflag : (s'.vms q).noint = _ := (sched_noint hsched q).trans (exec_noint hx hq1)
  rw [hflag, Blocks.after]
  by_cases hlive : q ∈ s.live
  · rw [if_pos hlive, if_pos (show q ∈ (ctl s).live from hlive)]
    by_cases hcur : q = s.cur
    · rw [if_pos hcur, if_pos (show q = (ctl s).cur from hcur), ← inside_after s.vm.ip]
      have hthis : (ctl s).this.noint = (h q).inside := hcur ▸ hinv.flag s.cur hr.live
      rw [hthis, eq_comm]
      simp [hcur]
    · rw [if_neg hcur, if_neg (show ¬ q = (ctl s).cur from hcur)]
      exact iff_of_true (hinv.flag q hlive) fun hc => (hcur hc).elim
  · rw [if_neg hlive, if_neg (show ¬ q ∈ (ctl s).live from hlive)]
    exact iff_of_true rfl fun hc => (hlive (hc ▸ hr.live)).elim

lemma NointInv.round (hinv : NointInv (ctl s) h) (hr : Round o inp i s s1 s')
    (hwell : LeavesWell o (s, h)) : NointInv (ctl s') (h.after i s.vm.ip s.live s.cur) := by
  obtain ⟨hx, hsched⟩ := hr.ctl
  refine ⟨?_, fun q hq => (flag_of_round hinv hr hq).mpr fun hcur => ?_⟩
  · rw [sched_live hsched]
    exact nodup_exec hinv.nodup hx
  · rcases hwell i hr.fetch with hone | hends
    · exact hcur ▸ hone
    · have hgone := gone_of_endsReaped hinv.nodup hr.exec hends
      rw [hcur, sched_live hsched] at hq
      exact (hgone hq).elim

/-- **The flag of every quaint tells whether its call stack is inside a `noint` block**, in every run
that leaves its blocks one at a time and at their ends. -/
theorem noint_iff_of_run (run : ReflTransGen (LeavingNext o) (initState o a b, .init) (s, h))
    (hq : q ∈ s.live) : (s.vms q).noint = true ↔ (h q).inside = true := by
  have hinv : NointInv (ctl s) h := by
    refine invariant_of_run (I := fun x => NointInv (ctl x.1) x.2) (fun x x' hinv hn => ?_)
      nointInv_init run
    obtain ⟨hwell, -, inp, i, s1, hr, hh⟩ := hn
    rw [hh]
    exact hinv.round hr hwell
  rw [← Bool.eq_iff_iff]
  exact hinv.flag q hq

/-- A round that does not leave its blocks well makes the flag wrong, if its quaint is still there. -/
theorem leaves_of_flag (hinv : NointInv (ctl s) h) (hr : Round o inp i s s1 s')
    (hlive : s.cur ∈ s'.live)
    (hflag : (s'.vms s.cur).noint = (h.after i s.vm.ip s.live s.cur s.cur).inside) :
    LeavesWell o (s, h) := by
  intro j hj
  obtain rfl := Option.some.inj (hr.fetch.symm.trans hj)
  exact .inl ((flag_of_round hinv hr hlive).mp hflag rfl)

end Run

/-! ### A block inside another -/

/-- The rounds under some inputs, with the blocks, from states that pass a test. -/
def runBlocks (ok : State × Blocks → Bool) (o : Obj) :
    State × Blocks → List Inp → M (State × Blocks)
  | x, [] => .ok x
  | x, inp :: inps =>
    if ok x then do
      let i ← orUb o.insns[x.1.vm.ip]?
      let s' ← step inp o x.1
      runBlocks ok o (s', x.2.after i x.1.vm.ip x.1.live x.1.cur) inps
    else .error .ub

lemma run_of_runBlocks {P : State × Blocks → Prop} {ok : State × Blocks → Bool}
    (hok : ∀ x, ok x = true → P x) {o : Obj} {inps : List Inp} {x x' : State × Blocks}
    (h : runBlocks ok o x inps = .ok x') :
    ReflTransGen (Guarded P (WithHistory (Next o) (NotesBlocks o))) x x' := by
  induction inps generalizing x with
  | nil =>
    cases h
    exact .refl
  | cons inp inps ih =>
    rw [runBlocks] at h
    split at h
    · rename_i hx
      simp only [bind_eq_ok, orUb_eq_ok] at h
      obtain ⟨i, hi, s', hs', h⟩ := h
      obtain ⟨j, s1, hr⟩ := step_eq_ok.mp hs'
      obtain rfl := Option.some.inj (hi.symm.trans hr.fetch)
      exact .head ⟨hok x hx, ⟨inp, hs'⟩, inp, i, s1, hr, rfl⟩ (ih h)
    · cases h

/-- `m { noint { noint { } } }` -/
def nested : Ast.Unit :=
  ⟨[],
    [.func ⟨false, letter 109 0, .nil, .none, .cons (.noin (.cons (.noin .nil) .nil)) .nil⟩]⟩

def nestedObj : Obj :=
  ⟨0, [], List.replicate 17 Insn.bfun ++
    [Insn.incsp (opdImm false 0 8) (opdImm false 0 8), .noint, .noint, .int, .int,
     .ret (opdImm false 16 8)]⟩

/-- The quaint has left the inner block, and its flag no longer tells that it is inside the outer. -/
theorem noint_nested : Compiles nested nestedObj ∧
    ∃ s h q, ReflTransGen (WithHistory (Next nestedObj) (NotesBlocks nestedObj))
        (initState nestedObj 65536 131072, .init) (s, h) ∧
      q ∈ s.live ∧ (h q).inside = true ∧ (s.vms q).noint = false := by
  have hlook : (fun x => (x.1.live.contains 65536, (x.2 65536).inside, (x.1.vms 65536).noint)) <$>
      runBlocks (fun _ => true) nestedObj (initState nestedObj 65536 131072, .init)
        (stillFrom 1048576 4) = .ok (true, true, false) := by decide +kernel
  obtain ⟨⟨s, h⟩, hrun, hs⟩ := map_eq_ok.mp hlook
  obtain ⟨hlive, hin, hflag⟩ : s.live.contains 65536 = true ∧ (h 65536).inside = true ∧
    (s.vms 65536).noint = false := by simpa using hs
  exact ⟨by decide +kernel, s, h, 65536,
    run_of_guarded (run_of_runBlocks (P := fun _ => True) (fun _ _ => trivial) hrun),
    List.contains_iff_mem.mp hlive, hin, hflag⟩

/-- The quaint has entered the outer block. -/
theorem noint_entered : ∃ s h, ReflTransGen (LeavingNext nestedObj)
      (initState nestedObj 65536 131072, .init) (s, h) ∧ 65536 ∈ s.live ∧
    (h 65536).inside = true ∧ ((s.vms 65536).noint = true ↔ (h 65536).inside = true) := by
  have hlook : (fun x => (x.1.live.contains 65536, (x.2 65536).inside)) <$>
      runBlocks (fun x => decide (LeavesWell nestedObj x)) nestedObj
        (initState nestedObj 65536 131072, .init) (stillFrom 1048576 2) = .ok (true, true) := by
    decide +kernel
  obtain ⟨⟨s, h⟩, hrun, hs⟩ := map_eq_ok.mp hlook
  obtain ⟨hlive, hin⟩ : s.live.contains 65536 = true ∧ (h 65536).inside = true := by
    simpa using hs
  have run : ReflTransGen (LeavingNext nestedObj) (initState nestedObj 65536 131072, .init) (s, h) :=
    run_of_runBlocks (fun _ => of_decide_eq_true) hrun
  have hq : 65536 ∈ s.live := List.contains_iff_mem.mp hlive
  exact ⟨s, h, run, hq, hin, noint_iff_of_run run hq⟩

end Quaint.Critical
