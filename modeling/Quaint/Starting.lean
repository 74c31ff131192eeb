import Quaint.Reaping
import Quaint.Linking
import Quaint.Defined

/-!
When a quaint counts as just made.

A quaint is made with `at_start` set, and nothing but INCSP clears it. Every function of the unit
begins with INCSP, but a built-in has none: a quaint of a built-in that has run under a `wait` is
at its end and still at its start.
-/

namespace Quaint.Starting

open Relation Types Ast Scope Code Codegen Exec Step Control Effect Transition Partial Program Activation
  Reaping Typing Listing Operand Linking Defined

/-! ### What has run -/

def isIncsp : Insn → Bool
  | .incsp _ _ => true
  | _ => false

def isQntv : Insn → Bool
  | .qntv _ _ => true
  | _ => false

/-- Which quaints have executed an instruction, and which were made of a value. -/
structure Past where
  ran : Nat → Bool
  made : Nat → Bool

/-- The past after an instruction of `cur`; what is not among the live quaints before it may be
made by it. -/
def Past.after (h : Past) (i : Insn) (live : List Nat) (cur : Nat) : Past :=
  ⟨fun a => live.contains a && (a == cur || h.ran a),
    fun a => if a ∈ live then h.made a else isQntv i⟩

/-- The first quaint is made by no instruction, and is not at its start. -/
def Past.init : Past := ⟨fun _ => true, fun _ => false⟩

def NotesPast (o : Obj) (h : Past) (s s' : State) (h' : Past) : Prop :=
  ∃ inp i s1, Round o inp i s s1 s' ∧ h' = h.after i s.live s.cur

section Past

variable {h : Past} {i : Insn} {live : List Nat} {cur a : Nat}

@[simp] lemma after_ran_self (ha : cur ∈ live) : (h.after i live cur).ran cur = true := by
  simp [Past.after, ha]

lemma after_ran_of_ne (ha : a ∈ live) (hac : a ≠ cur) : (h.after i live cur).ran a = h.ran a := by
  simp [Past.after, ha, hac]

lemma after_ran_new (ha : a ∉ live) : (h.after i live cur).ran a = false := by
  simp [Past.after, ha]

lemma after_made (ha : a ∈ live) : (h.after i live cur).made a = h.made a := if_pos ha

lemma after_made_new (ha : a ∉ live) : (h.after i live cur).made a = isQntv i := if_neg ha

end Past

/-! ### What an instruction does to a quaint -/

/-- The thread of a pure value: it stands at the first built-in, and nothing goes on with it. -/
structure Resting (t : Thread) : Prop where
  ip : t.ip = 0
  atEnd : t.atEnd = true
  waiting : t.waiting = false

/-- What becomes of a live quaint by an instruction: it is left alone, gone on with below the running
one, or returned to at its `wait` or reap; or it is the running one, or new. -/
inductive Fate (o : Obj) (i : Insn) (c c' : Ctl) (a : Nat) : Prop
  | left (ha : a ∈ c.live) (hac : a ≠ c.cur) (hac' : a ≠ c'.cur) (h : c'.threads a = c.threads a)
  | activated (ha : a ∈ c.live) (hac : a ≠ c.cur) (hend : (c.threads a).atEnd = false)
    (h : c'.threads a = { c.threads a with parent := c.cur })
  | returned (ha : a ∈ c.live) (hac : a ≠ c.cur)
    (hstart : (c'.threads a).atStart = (c.threads a).atStart)
    (hat : ∃ j ∈ o.insns[(c.threads a).ip]?, isReap j = true ∨ isWait j = true)
  | this (hac : a = c.cur) (hstart : (c'.threads a).atStart = (c.this.atStart && !isIncsp i))
  | new (ha : a ∉ c.live) (h0 : a ≠ 0) (hac : a ≠ c'.cur)
    (hi : isQntv i = true ∨ ∃ dst loc ssp, i = .qnt dst loc ssp)
    (hstart : (c'.threads a).atStart = true) (hrest : isQntv i = true → Resting (c'.threads a))

lemma ownMove_atStart {i : Insn} {t t' : Thread} (h : OwnMove i t t') :
    t'.atStart = (t.atStart && !isIncsp i) := by
  unfold OwnMove at h
  split at h
  · rcases h with rfl | rfl <;> exact (Bool.and_true _).symm
  all_goals first
    | exact h.elim
    | (obtain ⟨_, _, rfl⟩ := h; exact (Bool.and_true _).symm)
    | (subst h; first | exact (Bool.and_true _).symm | exact (Bool.and_false _).symm)
    | skip
  -- the other instructions advance
  rename_i hincsp _ _ _ _ _ _ _ _
  have hi : isIncsp i = false := by
    cases i <;> first | rfl | exact (hincsp _ _ rfl).elim
  rw [h, hi]
  exact (Bool.and_true _).symm

section Fate

variable {o : Obj} {i : Insn} {w : Words} {c c' d : Ctl} {a : Nat} {t : Thread}

/-- Only the running thread changed. -/
lemma fate_setThis (ha : a ∈ c.live) (hcur : d.cur = c.cur)
    (hother : ∀ b, b ≠ c.cur → d.threads b = c.threads b)
    (ht : t.atStart = (c.this.atStart && !isIncsp i)) : Fate o i c (d.setThis t) a := by
  have hthreads : (d.setThis t).threads a = if a = c.cur then t else d.threads a := by
    rw [setThis_threads, hcur]
  by_cases hac : a = c.cur
  · rw [if_pos hac] at hthreads
    exact .this hac (by rw [hthreads, ht])
  · rw [if_neg hac, hother a hac] at hthreads
    exact .left ha hac (fun h => hac (h.trans hcur)) hthreads

/-- A switch goes on with a quaint that is not at its end. -/
lemma fate_activate {q : Nat} (ha : a ∈ c.live) (hcur : d.cur = c.cur)
    (hother : ∀ b, b ≠ c.cur → d.threads b = c.threads b)
    (hthis : (d.threads c.cur).atStart = c.this.atStart) (hi : isIncsp i = false)
    (hend : (c.threads q).atEnd = false) : Fate o i c (d.activate q) a := by
  have hthreads : (d.activate q).threads a =
      if a = q then { d.threads q with parent := d.cur } else d.threads a := activate_threads ..
  by_cases hac : a = c.cur
  · refine .this hac ?_
    rw [hthreads, hi, Bool.not_false, Bool.and_true, ← hthis, hac]
    split
    · rename_i hcq
      rw [hcq]
    · rfl
  · by_cases haq : a = q
    · subst haq
      rw [if_pos rfl, hother a hac, hcur] at hthreads
      exact .activated ha hac hend hthreads
    · rw [if_neg haq, hother a hac] at hthreads
      exact .left ha hac haq hthreads

/-- A new quaint, beside the one that makes it. -/
lemma fate_create {b : Nat} {t t' : Thread} (hd : d.threads = (c.set b t).threads)
    (hdcur : d.cur = c.cur) (h0 : b ≠ 0) (hnew : b ∉ c.live) (hb : c.cur ≠ b)
    (ht' : t'.atStart = c.this.atStart) (hi : isIncsp i = false)
    (hmade : isQntv i = true ∨ ∃ dst loc ssp, i = .qnt dst loc ssp) (ht : t.atStart = true)
    (hrest : isQntv i = true → Resting t) (ha : a ∈ b :: c.live) : Fate o i c (d.setThis t') a := by
  have hthreads : (d.setThis t').threads a = if a = c.cur then t' else if a = b then t else c.threads a := by
    rw [setThis_threads, hdcur, hd]
    rfl
  by_cases hab : a = b
  · subst hab
    rw [if_neg hb.symm, if_pos rfl] at hthreads
    exact .new hnew h0 (fun hac => hb (hac.trans hdcur).symm) hmade (by rw [hthreads, ht])
      (by rw [hthreads]; exact hrest)
  · rw [if_neg hab] at hthreads
    have hal := (List.mem_cons.mp ha).resolve_left hab
    by_cases hac : a = c.cur
    · rw [if_pos hac] at hthreads
      exact .this hac (by rw [hthreads, ht', hi, Bool.not_false, Bool.and_true])
    · rw [if_neg hac] at hthreads
      exact .left hal hac (fun hac' => hac (hac'.trans hdcur)) hthreads

lemma setThis_atStart (ht : t.atStart = c.this.atStart) (b : Nat) :
    ((c.setThis t).threads b).atStart = (c.threads b).atStart := by
  rw [setThis_threads]
  split
  · rename_i hb
    rw [ht, hb]
    rfl
  · rfl

/-- A return keeps the start of every quaint, and the threads but of the one that returns and the
parent it goes on with, which stood at a `wait` or a reap. -/
lemma return_starts (hr : Return o d c') : (∀ b, (c'.threads b).atStart = (d.threads b).atStart) ∧
    (∀ b ∈ c'.live, b ∈ d.live) ∧ (∀ b, b ≠ d.cur → b ≠ c'.cur → c'.threads b = d.threads b) ∧
    (c'.cur ≠ d.cur → ∃ j ∈ o.insns[(d.threads c'.cur).ip]?, isReap j = true ∨ isWait j = true) := by
  refine ⟨fun b => ?_, fun b hb => ?_, (return_frame hr).2.2, fun hne => ?_⟩
  · cases hr with
    | caller ip bp hsp hip => exact setThis_atStart (by rfl) b
    | main ip bp hsp hp => exact setThis_atStart (by rfl) b
    | reap i hsp hp hlive hi hreap =>
      exact setThis_atStart (c := (d.release d.cur).setCur d.this.parent) (by rfl) b
    | wait i hsp hp hlive hi hwait =>
      exact (setThis_atStart (c := (d.setThis d.this.ended).setCur d.this.parent) (by rfl) b).trans
        (setThis_atStart (t := d.this.ended) (by rfl) b)
  · cases hr with
    | caller => exact hb
    | main => exact hb
    | reap => exact List.mem_of_mem_erase hb
    | wait => exact hb
  · cases hr with
    | caller => exact (hne rfl).elim
    | main => exact (hne rfl).elim
    | reap i hsp hp hlive hi hreap => exact ⟨i, hi, .inl hreap⟩
    | wait i hsp hp hlive hi hwait => exact ⟨i, hi, .inr hwait⟩

lemma fate_return (hcur : d.cur = c.cur) (hother : ∀ b, b ≠ c.cur → d.threads b = c.threads b)
    (hlive : ∀ b ∈ d.live, b ∈ c.live) (hthis : d.this.atStart = c.this.atStart) (hi : isIncsp i = false)
    (hr : Return o d c') (ha : a ∈ c'.live) : Fate o i c c' a := by
  obtain ⟨hstart, hsub, hframe, hat⟩ := return_starts hr
  by_cases hac : a = c.cur
  · refine .this hac ?_
    rw [hstart, hi, Bool.not_false, Bool.and_true, hac, ← hcur, ← hthis]
    rfl
  · by_cases hac' : a = c'.cur
    · refine .returned (hlive a (hsub a ha)) hac ?_ ?_
      · rw [hstart, hother a hac]
      · rw [← hother a hac, hac']
        exact hat fun h => hac (hac'.trans (h.trans hcur))
    · exact .left (hlive a (hsub a ha)) hac hac' ((hframe a (hcur ▸ hac) hac').trans (hother a hac))

lemma fate_of_exec (hx : Exec o i w c c') (ha : a ∈ c'.live) : Fate o i c c' a := by
  cases hx with
  | own t hmove hreap hwait => exact fate_setThis ha rfl (fun _ _ => rfl) (ownMove_atStart hmove)
  | reapEnded q hr hq hq0 hlive hend =>
    refine fate_setThis (List.mem_of_mem_erase ha) rfl (fun _ _ => rfl) ?_
    have hi : isIncsp i = false := by cases i <;> first | rfl | cases hr
    simp [hi, Thread.advance]
  | reap q hr hq hq0 hlive hend =>
    have hi : isIncsp i = false := by cases i <;> first | rfl | cases hr
    exact fate_activate ha rfl (fun _ _ => rfl) rfl hi hend
  | wait q now w0 w1 isFor isUntil hw hq hq0 hlive hend =>
    have hi : isIncsp i = false := by cases i <;> first | rfl | cases hw
    refine fate_activate ha rfl (fun b hb => if_neg hb) ?_ hi hend
    exact setThis_atStart (c := c.setNow now) (t := c.this.startWait isFor isUntil w0 w1) rfl c.cur
  | qnt dst loc ssp b ip sp n hi hb hnew hcur =>
    subst hi
    exact fate_create rfl rfl hb hnew hcur rfl rfl (.inr ⟨dst, loc, ssp, rfl⟩) rfl (fun h => by cases h) ha
  | qntv dst val b hi hb hnew hcur =>
    subst hi
    exact fate_create rfl rfl hb hnew hcur rfl rfl (.inl rfl) rfl (fun _ => ⟨rfl, rfl, rfl⟩) ha
  | ret size hi hsp _ hr =>
    have hi' : isIncsp i = false := by rcases hi with rfl | ⟨v, rfl⟩ <;> rfl
    refine fate_return ?_ (fun b hb => ?_) (fun _ hb => ?_) ?_ hi' hr ha
    · rfl
    · exact if_neg hb
    · exact hb
    · rw [Ctl.setThis_this]
  | bfun now n live hi hlive hsp _ hr =>
    subst hi
    refine fate_return ?_ (fun b hb => ?_) (fun b hb => ?_) ?_ rfl hr ha
    · rfl
    · exact if_neg hb
    swap
    · rw [Ctl.setThis_this]
    rcases hlive with rfl | ⟨p, _, _, rfl⟩
    · exact hb
    · exact List.mem_of_mem_erase hb

end Fate

/-! ### Where a quaint begins -/

/-- The bytes a built-in pops: a word for each parameter. -/
def bfunPops (id : Nat) : Nat :=
  ((scopeBuiltinFuncs[id]?).map fun f => 8 * f.params.names.length).getD 0

/-- A function begins here: at an `INCSP`, or at a built-in. -/
def Begins (o : Obj) (n : Nat) : Prop := ∃ i ∈ o.insns[n]?, isIncsp i = true ∨ i = .bfun

/-- The function and the saved stack pointer a quaint is made of. -/
def madeOf : Insn → Option (Opd × Opd)
  | .qnt _ loc ssp => some (loc, ssp)
  | _ => none

/-- The quaint an instruction makes begins where a function does, if the instruction does not name the
function itself; and if it is one of a built-in, what is pushed for it are its parameters. -/
def MakesWell (o : Obj) (s : State) (i : Insn) : Prop :=
  ∀ x ∈ madeOf i, ∀ l ∈ (loadWord s x.1).toOption, ∀ ssp ∈ (loadWord s x.2).toOption,
    (x.1.opd = .imm ∧ x.1.off = l ∨ Begins o l) ∧
      (o.insns[l]? = some .bfun → s.vm.sp - ssp = bfunPops l)

/-- A built-in that returns from the bottom frame of a quaint does not return to a `wait`. -/
def EndsWell (o : Obj) (s : State) : Prop :=
  s.vm.sp = bfunPops s.vm.ip + 16 → ∀ j ∈ o.insns[(s.vms s.vm.parent).ip]?, isWait j = false

/-- The instruction of the round makes a quaint well, if it makes one, and ends one well, if it is a
built-in. -/
def StartsWell (o : Obj) (s : State) : Prop :=
  ∀ i ∈ o.insns[s.vm.ip]?, MakesWell o s i ∧ (i = .bfun → EndsWell o s)

instance (o : Obj) (n : Nat) : Decidable (Begins o n) :=
  inferInstanceAs (Decidable (∃ i ∈ o.insns[n]?, _))

instance (o : Obj) (s : State) (i : Insn) : Decidable (MakesWell o s i) :=
  inferInstanceAs (Decidable (∀ x ∈ madeOf i, _))

instance (o : Obj) (s : State) : Decidable (EndsWell o s) :=
  inferInstanceAs (Decidable (_ → ∀ j ∈ o.insns[(s.vms s.vm.parent).ip]?, _))

instance (o : Obj) (s : State) : Decidable (StartsWell o s) :=
  inferInstanceAs (Decidable (∀ i ∈ o.insns[s.vm.ip]?, _))

/-- The thread of a quaint that has not run: it is where a function begins, and if that is a built-in,
with its parameters. -/
structure Fresh (o : Obj) (t : Thread) : Prop where
  begins : Begins o t.ip
  args : o.insns[t.ip]? = some .bfun → t.sp = bfunPops t.ip + 16
  waiting : t.waiting = false

/-! ### Ends of quaints -/

/-- Where `sp` stands when an instruction that returns has left its frame. -/
def spLeft (s : State) : Insn → Option Nat
  | .bfun => some (s.vm.sp - bfunPops s.vm.ip - 16)
  | .ret size | .retv _ size => some (s.vm.sp - size.off)
  | _ => none

/-- The instruction returns from the bottom frame to a parent that reaps. -/
def EndsReaped (o : Obj) (s : State) (i : Insn) : Prop :=
  spLeft s i = some 0 ∧ s.vm.parent ≠ 0 ∧
    ∃ j ∈ o.insns[(s.vms s.vm.parent).ip]?, isReap j = true

instance (o : Obj) (s : State) (i : Insn) : Decidable (EndsReaped o s i) :=
  inferInstanceAs (Decidable (_ ∧ _ ∧ _))

section Bfun

variable {o : Obj} {inp : Inp} {s s1 : State} {i : Insn}

@[simp] lemma popParams_sp (s : State) (n : Nat) : (popParams s n).vm.sp = s.vm.sp - n := by
  simp [popParams, State.vm, State.setVm, State.setVms]

lemma mallocBlock_sp (size : Nat) (m : Bytes.Mem) : (mallocBlock inp s size m).1.vm.sp = s.vm.sp :=
  congrArg (fun c => (Ctl.this c).sp) (mallocBlock_ctl size m)

lemma printNum_sp {signd : Bool} {size : Nat} (h : printNum s signd size = .ok s1) :
    s1.vm.sp = s.vm.sp - 8 := by
  simp only [printNum, bind_eq_ok, pure_eq_ok] at h
  obtain ⟨_, _, a, _, rfl⟩ := h
  exact popParams_sp s 8

lemma freeBlock_sp {p : Nat} (h : freeBlock s p = some s1) : s1.vm.sp = s.vm.sp := by
  unfold freeBlock at h
  split at h
  · obtain rfl := Option.some.inj h
    rfl
  · split at h
    · obtain rfl := Option.some.inj h
      rfl
    · split at h
      · obtain rfl := Option.some.inj h
        rfl
      · cases h

/-- A built-in pops its parameters. -/
lemma bfunBody_sp {r : State × List UInt8} (h : bfunBody inp s = .ok r) :
    r.1.vm.sp = s.vm.sp - bfunPops s.vm.ip := by
  unfold bfunBody at h
  split at h
  · cases h
  · rename_i hip
    simp only [bind_eq_ok, pure_eq_ok] at h
    obtain ⟨now, _, rfl⟩ := h
    rw [hip]
    rfl
  iterate 2
    · rename_i hip
      simp only [bind_eq_ok, pure_eq_ok] at h
      obtain ⟨_, _, size, _, rfl⟩ := h
      rw [popParams_sp, mallocBlock_sp, hip]
      rfl
  · rename_i hip
    simp only [bind_eq_ok, orUb_eq_ok, pure_eq_ok] at h
    obtain ⟨_, _, old, _, size, _, s1, hs1, rfl⟩ := h
    obtain ⟨heap, rfl⟩ := reallocBlock_heap hs1
    rw [popParams_sp, hip]
    rfl
  · rename_i hip
    simp only [bind_eq_ok, orUb_eq_ok, pure_eq_ok] at h
    obtain ⟨_, _, p, _, s1, hs1, rfl⟩ := h
    rw [popParams_sp, freeBlock_sp hs1, hip]
    rfl
  · rename_i hip
    simp only [bind_eq_ok, pure_eq_ok] at h
    obtain ⟨_, _, p, _, str, _, rfl⟩ := h
    rw [hip]
    exact popParams_sp s 8
  iterate 8
    · rename_i hip
      simp only [bind_eq_ok, pure_eq_ok] at h
      obtain ⟨s1, h1, rfl⟩ := h
      rw [hip]
      exact printNum_sp h1
  · rename_i hip
    obtain rfl := pure_eq_ok.mp h
    rw [hip]
    rfl
  · simp only [bind_eq_ok] at h
    obtain ⟨_, _, a, _, h⟩ := h
    cases h
  · -- there is no built-in of this number
    obtain rfl := pure_eq_ok.mp h
    have hnone : scopeBuiltinFuncs[s.vm.ip]? = none := by
      refine List.getElem?_eq_none ?_
      simp only [imp_false] at *
      show 17 ≤ s.vm.ip
      omega
    simp [bfunPops, hnone]

lemma setVm_ip {s : State} {v : Qvm} (b : Nat) (hip : v.ip = s.vm.ip) :
    ((s.setVm v).vms b).ip = (s.vms b).ip := by
  simp only [State.setVm, State.setVms]
  split
  · rename_i hb
    rw [hip, hb]
    rfl
  · rfl

/-- Where the return of an instruction starts from. -/
lemma spLeft_return (h : execInsn inp o s i = .ok s1) {n : Nat} (hn : spLeft s i = some n) :
    ∃ t : State, t.vm.sp = n ∧ t.cur = s.cur ∧ t.vm.parent = s.vm.parent ∧
      (∀ b, (t.vms b).ip = (s.vms b).ip) ∧
      (s.live.Nodup → t.live.Nodup) ∧ Return o (ctl t) (ctl s1) := by
  have hret : (∃ size, i = .ret size) ∨ (∃ v size, i = .retv v size) ∨ i = .bfun := by
    cases i with
    | ret size => exact .inl ⟨size, rfl⟩
    | retv v size => exact .inr (.inl ⟨v, size, rfl⟩)
    | bfun => exact .inr (.inr rfl)
    | _ => cases hn
  obtain ⟨t, signd, retval, hr, hx⟩ := returning_of_exec hret h
  obtain ⟨hcur, -, hpar⟩ := returning_ctl hr
  refine ⟨t, ?_, hcur, hpar, fun b => ?_, ?_, handleReturn_ctl hx⟩
  · cases hr with
    | ret hl =>
      obtain ⟨_, rfl⟩ := leaveFrame_eq_ok hl
      simpa [spLeft, State.vm, State.setVm, State.setVms] using hn
    | retv hl hval =>
      obtain ⟨_, rfl⟩ := leaveFrame_eq_ok hl
      simpa [spLeft, State.vm, State.setVm, State.setVms] using hn
    | bfun hb =>
      have hsp := bfunBody_sp hb
      simp only [spLeft, Option.some.injEq] at hn
      simp only [leaveBfun, State.vm, State.setVm, State.setVms, if_true] at hsp ⊢
      rw [hsp]
      exact hn
  · cases hr with
    | ret hl =>
      obtain ⟨_, rfl⟩ := leaveFrame_eq_ok hl
      exact setVm_ip b (by rfl)
    | retv hl hval =>
      obtain ⟨_, rfl⟩ := leaveFrame_eq_ok hl
      exact setVm_ip b (by rfl)
    | @bfun r base hb =>
      obtain ⟨now, n, live, -, -, hctl⟩ := leaveBfun_ctl base hb
      show ((ctl (leaveBfun inp r.1 base)).threads b).ip = ((ctl s).threads b).ip
      rw [hctl, setThis_threads]
      split
      · rename_i hb
        rw [hb]
        rfl
      · rfl
  · cases hr with
    | ret hl =>
      obtain ⟨_, rfl⟩ := leaveFrame_eq_ok hl
      exact id
    | retv hl hval =>
      obtain ⟨_, rfl⟩ := leaveFrame_eq_ok hl
      exact id
    | bfun hb =>
      obtain ⟨now, n, live, hlive, -, hc⟩ := bfunBody_ctl hb
      intro hnd
      refine (congrArg (fun c => c.live.Nodup) hc).mpr ?_
      rcases hlive with rfl | ⟨p, _, _, rfl⟩
      · exact hnd
      · exact hnd.erase p

/-- A quaint whose end is reaped at once, or at least not waited for, is gone. -/
lemma gone_of_spLeft (hnd : s.live.Nodup) (h : execInsn inp o s i = .ok s1) (hsp : spLeft s i = some 0)
    (hp : s.vm.parent ≠ 0) (hat : ∀ j ∈ o.insns[(s.vms s.vm.parent).ip]?, isWait j = false) :
    s.cur ∉ s1.live := by
  obtain ⟨t, htsp, hcur, hpar, hip, htnd, hr⟩ := spLeft_return h hsp
  have hlive : s1.live = (ctl s1).live := rfl
  rw [hlive]
  generalize ctl s1 = c at hr ⊢
  cases hr with
  | caller ip bp hne hip => exact (hne htsp).elim
  | main ip bp hz hp' => exact (hp (hpar.symm.trans hp')).elim
  | reap j hz hp' hl hj hreap => exact hcur ▸ (htnd hnd).not_mem_erase
  | wait j hz hp' hl hj hwait =>
    have hj' : o.insns[(t.vms t.vm.parent).ip]? = some j := hj
    rw [hip, hpar] at hj'
    rw [hat j hj'] at hwait
    cases hwait

/-- A quaint whose end is reaped at once is gone. -/
lemma gone_of_endsReaped (hnd : s.live.Nodup) (h : execInsn inp o s i = .ok s1)
    (he : EndsReaped o s i) : s.cur ∉ s1.live := by
  obtain ⟨hsp, hp, j, hj, hreap⟩ := he
  refine gone_of_spLeft hnd h hsp hp fun j' hj' => ?_
  obtain rfl := Option.some.inj (hj.symm.trans hj')
  exact isReap_not_isWait hreap

/-- The quaint of a built-in whose end is not waited for is gone. -/
lemma gone_of_bfun (hnd : s.live.Nodup) (h : execInsn inp o s .bfun = .ok s1) (hends : EndsWell o s)
    (hsp : s.vm.sp = bfunPops s.vm.ip + 16) (hp : s.vm.parent ≠ 0) : s.cur ∉ s1.live :=
  gone_of_spLeft hnd h (by simp [spLeft, hsp]) hp (hends hsp)

end Bfun

/-! ### Quaints that are made -/

section Making

variable {o : Obj} {inp : Inp} {s s1 : State} {i : Insn} {a : Nat} {u : Ast.Unit} {loc dst ssp : Opd}

/-- A quaint that is made stands at the function, above what was pushed for it. -/
lemma qnt_thread (h : execInsn inp o s (.qnt dst loc ssp) = .ok s1) (ha : a ∈ s1.live)
    (hnew : a ∉ s.live) (hcur : s.cur ∈ s.live) : ∃ l sp, loadWord s loc = .ok l ∧ loadWord s ssp = .ok sp ∧
      (s1.vms a).ip = l ∧ (s1.vms a).sp = s.vm.sp - sp + 16 ∧ (s1.vms a).waiting = false := by
  simp only [execInsn, map_eq_ok, insnQnt, bind_eq_ok, orNomem_eq_ok, orUb_eq_ok, pure_eq_ok] at h
  obtain ⟨_, ⟨_, _, _, _, _, _, _, _, _, _, _, _, l, hl, sp, hsp, b, _, _, _, args, hargs, _, _, s2, h2,
    rfl⟩, rfl⟩ := h
  have hctl := (ctl_storeWord h2).trans (ctl_addVm s b (newQuaint l args))
  have hcur2 : s2.cur = s.cur := congrArg Ctl.cur hctl
  have hlive2 : s2.live = b :: s.live := congrArg Ctl.live hctl
  have hab : a = b := (List.mem_cons.mp (hlive2 ▸ ha)).resolve_right hnew
  have hne : a ≠ s2.cur := fun hac => hnew ((hac.trans hcur2) ▸ hcur)
  have hthread : thread (s2.vms a) = thread (newQuaint l args) := by
    rw [hab]
    exact (congrArg (fun c => c.threads b) hctl).trans (Ctl.set_threads_self ..)
  have hlen : args.length = s.vm.sp - sp := load_length hargs
  have hvm : (nextIp (s2.setVm { s2.vm with sp := sp })).vms a = s2.vms a := by
    simp [nextIp, State.setVm, State.setVms, hne]
  rw [hvm]
  refine ⟨l, sp, hl, hsp, congrArg Thread.ip hthread, ?_, congrArg Thread.waiting hthread⟩
  rw [← hlen, Nat.add_comm]
  exact congrArg Thread.sp hthread

/-- A function the code names begins where it says. -/
lemma begins_of_compiles (hc : Compiles u o) (hi : .qnt dst loc ssp ∈ o.insns) (himm : loc.opd = .imm) :
    Begins o loc.off := by
  obtain ⟨tops, fns, ha, hl⟩ := listed_of_compiles hc
  have hA := accepted_of_accept ha
  have hclosed := closed_of_listed hA hl
  obtain ⟨p, hp, -⟩ := hl.placed
  rw [hl.insns, List.mem_map] at hi
  obtain ⟨j, hj, hlink⟩ := hi
  obtain ⟨d, l, sp, rfl⟩ : ∃ d l sp, j = .qnt d l sp := by
    cases j with
    | qnt d l sp => exact ⟨d, l, sp, rfl⟩
    | _ => cases hlink
  obtain ⟨-, rfl, -⟩ := Insn.qnt.inj hlink
  rcases List.mem_append.mp hj with hj | hj
  · cases List.eq_of_mem_replicate hj
  obtain ⟨fn, hfn, hj⟩ := List.mem_flatMap.mp hj
  rw [printOpd_opd] at himm
  have hst : Starts l := (fn_resolved hA hp hfn rfl rfl _ hj).2 l rfl
  by_cases hsize : l.size = 0
  · obtain ⟨g, hg, href⟩ := hclosed.refers fn hfn _ hj l (by simp [Insn.opds]) himm hsize
    obtain ⟨addend, hentry⟩ := hclosed.entries g hg
    rw [hclosed.addresses g hg l href]
    exact ⟨_, hentry, .inl rfl⟩
  · rw [printOpd_of_ne (.inr hsize), Begins, hl.insns]
    have hlt : l.off < scopeBfunIdCount := (hst himm).resolve_left hsize
    refine ⟨.bfun, ?_, .inr rfl⟩
    rw [List.map_append, List.getElem?_append_left (by simpa using hlt)]
    simp [hlt, link, Insn.mapOpds]

/-- A quaint that is made well has not run. -/
lemma fresh_of_new (hc : Compiles u o) (hcur : s.cur ∈ s.live) (hi : o.insns[s.vm.ip]? = some i)
    (h : execInsn inp o s i = .ok s1) (hwell : MakesWell o s i) (hv : isQntv i = false)
    (ha : a ∈ s1.live) (hnew : a ∉ s.live) : Fresh o ((ctl s1).threads a) := by
  obtain ⟨dst, loc, ssp, rfl⟩ : ∃ dst loc ssp, i = .qnt dst loc ssp := by
    cases fate_of_exec (ctl_execInsn hcur h) ha with
    | left hal | activated hal | returned hal => exact (hnew hal).elim
    | this hac => exact (hnew (hac ▸ hcur)).elim
    | new _ _ _ hmade => exact hmade.resolve_left (by rw [hv]; decide)
  obtain ⟨l, sp, hl, hsp, hip, hstack, hw⟩ := qnt_thread h ha hnew hcur
  obtain ⟨hbegins, hargs⟩ := hwell _ rfl l (by rw [hl]; rfl) sp (by rw [hsp]; rfl)
  refine ⟨?_, fun hb => ?_, hw⟩
  · show Begins o (s1.vms a).ip
    rw [hip]
    rcases hbegins with ⟨himm, hoff⟩ | hbegins
    · exact hoff ▸ begins_of_compiles hc (List.mem_of_getElem? hi) himm
    · exact hbegins
  · have hb' : o.insns[(s1.vms a).ip]? = some .bfun := hb
    show (s1.vms a).sp = bfunPops (s1.vms a).ip + 16
    rw [hip] at hb' ⊢
    rw [hstack, hargs hb']

end Making

/-! ### Runs -/

/-- Rounds that start quaints well, and the past they leave behind. -/
def WellNext (o : Obj) : State × Past → State × Past → Prop :=
  WithHistory (Guarded (StartsWell o) (Next o)) (NotesPast o)

/-- A pure value rests at its start; every other live quaint is at its start until it runs, and until
then it is where a function begins, below another quaint if it is the running one. -/
structure StartInv (o : Obj) (c : Ctl) (h : Past) : Prop where
  nodup : c.live.Nodup
  nonzero : ∀ a ∈ c.live, a ≠ 0
  made : ∀ a ∈ c.live, h.made a = true →
    Resting (c.threads a) ∧ (c.threads a).atStart = true ∧ a ≠ c.cur
  start : ∀ a ∈ c.live, h.made a = false → (c.threads a).atStart = !h.ran a
  fresh : ∀ a ∈ c.live, h.made a = false → h.ran a = false →
    Fresh o (c.threads a) ∧ (a = c.cur → (c.threads a).parent ≠ 0)

section Run

variable {o : Obj} {a b : Nat} {s s1 s' : State} {inp : Inp} {i : Insn} {h : Past}

/-- What stands at a `wait` or a reap is neither a pure value nor a quaint that has not run. -/
lemma not_fresh_of_insn {t : Thread} {j : Insn} (hj : o.insns[t.ip]? = some j)
    (hw : isReap j = true ∨ isWait j = true) : ¬ Fresh o t := by
  rintro ⟨⟨i, hi, hbegin⟩, -, -⟩
  obtain rfl := Option.some.inj (hj.symm.trans hi)
  cases j <;> simp [isIncsp, isReap, isWait] at hbegin hw

lemma not_resting_of_insn (h0 : o.insns[0]? = some .bfun) {t : Thread} {j : Insn}
    (hj : o.insns[t.ip]? = some j) (hw : isReap j = true ∨ isWait j = true) : ¬ Resting t := by
  intro hr
  rw [hr.ip, h0] at hj
  obtain rfl := Option.some.inj hj
  rcases hw with hw | hw <;> cases hw

lemma nodup_exec {w : Words} {c c' : Ctl} (hnd : c.live.Nodup) (hx : Exec o i w c c') :
    c'.live.Nodup := by
  have hreturn : ∀ d : Ctl, d.live.Nodup → Return o d c' → c'.live.Nodup := by
    intro d hd hr
    cases hr with
    | caller => exact hd
    | main => exact hd
    | reap => exact hd.erase _
    | wait => exact hd
  cases hx with
  | own => exact hnd
  | reapEnded q => exact hnd.erase q
  | reap => exact hnd
  | wait => exact hnd
  | qnt dst loc ssp a ip sp n hi h0 hnew hcur => exact List.nodup_cons.mpr ⟨hnew, hnd⟩
  | qntv dst val a hi h0 hnew hcur => exact List.nodup_cons.mpr ⟨hnew, hnd⟩
  | ret size hi hsp _ hr => exact hreturn _ (by exact hnd) hr
  | bfun now n live hi hlive hsp _ hr =>
    refine hreturn _ ?_ hr
    rcases hlive with rfl | ⟨p, _, _, rfl⟩
    · exact hnd
    · exact hnd.erase p

lemma StartInv.exec {w : Words} {c c' : Ctl} (hinv : StartInv o c h)
    (h0 : o.insns[0]? = some .bfun) (hcur : c.cur ∈ c.live) (hi : o.insns[c.this.ip]? = some i)
    (hx : Exec o i w c c')
    (hgone : i = .bfun → c.this.sp = bfunPops c.this.ip + 16 → c.this.parent ≠ 0 → c.cur ∉ c'.live)
    (hnew : isQntv i = false → ∀ a ∈ c'.live, a ∉ c.live → Fresh o (c'.threads a)) :
    StartInv o c' (h.after i c.live c.cur) := by
  have hnotmade : h.made c.cur = false := by
    by_contra hm
    exact (hinv.made c.cur hcur (by simpa using hm)).2.2 rfl
  refine ⟨nodup_exec hinv.nodup hx, fun a ha => ?_, fun a ha hm => ?_, fun a ha hm => ?_,
    fun a ha hm hran => ?_⟩
  · cases fate_of_exec hx ha with
    | left hal | activated hal | returned hal => exact hinv.nonzero a hal
    | this hac => exact hac ▸ hinv.nonzero c.cur hcur
    | new _ h0 => exact h0
  · cases fate_of_exec hx ha with
    | left hal hac hac' hthread =>
      rw [after_made hal] at hm
      obtain ⟨hr, hst, -⟩ := hinv.made a hal hm
      rw [hthread]
      exact ⟨hr, hst, hac'⟩
    | activated hal hac hend hthread =>
      rw [after_made hal] at hm
      rw [(hinv.made a hal hm).1.atEnd] at hend
      cases hend
    | returned hal hac hstart hat =>
      rw [after_made hal] at hm
      obtain ⟨j, hj, hw⟩ := hat
      exact (not_resting_of_insn h0 hj hw (hinv.made a hal hm).1).elim
    | this hac hstart =>
      rw [hac, after_made hcur, hnotmade] at hm
      cases hm
    | new hal _ hac _ hstart hrest =>
      rw [after_made_new hal] at hm
      exact ⟨hrest hm, hstart, hac⟩
  · cases fate_of_exec hx ha with
    | left hal hac hac' hthread =>
      rw [after_made hal] at hm
      rw [after_ran_of_ne hal hac, hthread]
      exact hinv.start a hal hm
    | activated hal hac hend hthread =>
      rw [after_made hal] at hm
      rw [after_ran_of_ne hal hac, hthread]
      exact hinv.start a hal hm
    | returned hal hac hstart hat =>
      rw [after_made hal] at hm
      rw [after_ran_of_ne hal hac, hstart]
      exact hinv.start a hal hm
    | this hac hstart =>
      subst hac
      rw [after_ran_self hcur, hstart]
      cases hran : h.ran c.cur with
      | true =>
        have hst : c.this.atStart = false := (hinv.start c.cur hcur hnotmade).trans (by rw [hran]; rfl)
        rw [hst]
        rfl
      | false =>
        -- its first instruction is INCSP, or a built-in that is its last
        obtain ⟨⟨⟨j, hj, hbegin⟩, hargs, -⟩, hparent⟩ := hinv.fresh c.cur hcur hnotmade hran
        obtain rfl := Option.some.inj (hi.symm.trans hj)
        rcases hbegin with hincsp | rfl
        · rw [hincsp, Bool.not_true, Bool.and_false]
        · exact (hgone rfl (hargs hi) (hparent rfl) ha).elim
    | new hal _ hac _ hstart hrest =>
      rw [after_ran_new hal, hstart]
      rfl
  · cases fate_of_exec hx ha with
    | left hal hac hac' hthread =>
      rw [after_made hal] at hm
      rw [after_ran_of_ne hal hac] at hran
      rw [hthread]
      exact ⟨(hinv.fresh a hal hm hran).1, fun h => (hac' h).elim⟩
    | activated hal hac hend hthread =>
      rw [after_made hal] at hm
      rw [after_ran_of_ne hal hac] at hran
      obtain ⟨hbegins, hargs, hw⟩ := (hinv.fresh a hal hm hran).1
      rw [hthread]
      exact ⟨⟨hbegins, hargs, hw⟩, fun _ => hinv.nonzero c.cur hcur⟩
    | returned hal hac hstart hat =>
      rw [after_made hal] at hm
      rw [after_ran_of_ne hal hac] at hran
      obtain ⟨j, hj, hw⟩ := hat
      exact (not_fresh_of_insn hj hw (hinv.fresh a hal hm hran).1).elim
    | this hac hstart =>
      rw [hac, after_ran_self hcur] at hran
      cases hran
    | new hal _ hac _ hstart hrest =>
      rw [after_made_new hal] at hm
      exact ⟨hnew hm a ha hal, fun h => (hac h).elim⟩

lemma StartInv.sched {c c' : Ctl} (hinv : StartInv o c h) (hs : Sched c c') : StartInv o c' h := by
  cases hs with
  | stay now => exact ⟨hinv.nodup, hinv.nonzero, hinv.made, hinv.start, hinv.fresh⟩
  | split now a hanc hwait hlive =>
    have hstart : ∀ x, (if x = a then (c.threads a).notWaiting.advance else c.threads x).atStart =
        (c.threads x).atStart := by
      intro x
      split
      · rename_i hx
        rw [hx]
        rfl
      · rfl
    refine ⟨hinv.nodup, hinv.nonzero, fun x hx hm => ?_,
      fun x hx hm => (hstart x).trans (hinv.start x hx hm), fun x hx hm hran => ?_⟩
    · obtain ⟨hr, hst, -⟩ := hinv.made x hx hm
      have hxa : x ≠ a := by
        rintro rfl
        rw [hr.waiting] at hwait
        cases hwait
      refine ⟨?_, (hstart x).trans hst, hxa⟩
      show Resting (if x = a then _ else _)
      rw [if_neg hxa]
      exact hr
    · have hfresh := (hinv.fresh x hx hm hran).1
      have hxa : x ≠ a := by
        rintro rfl
        rw [hfresh.waiting] at hwait
        cases hwait
      refine ⟨?_, fun hcur => (hxa hcur).elim⟩
      show Fresh o (if x = a then _ else _)
      rw [if_neg hxa]
      exact hfresh

lemma startInv_init (ha : a ≠ 0) : StartInv o (ctl (initState o a b)) Past.init := by
  refine ⟨List.pairwise_singleton _ a, List.forall_mem_singleton.mpr ha, fun x hx hm => ?_,
    fun x hx hm => ?_, fun x hx hm hran => ?_⟩
  · cases hm
  · obtain rfl : x = a := List.mem_singleton.mp hx
    show ((ctl (initState o x b)).threads x).atStart = false
    simp [ctl, initState, thread, Qvm.zero]
  · cases hran

lemma first_bfun {u : Ast.Unit} (hc : Compiles u o) : o.insns[0]? = some .bfun := by
  obtain ⟨tops, fns, -, hl⟩ := listed_of_compiles hc
  rw [hl.insns]
  rfl

lemma startInv_of_run {u : Ast.Unit} (hc : Compiles u o) (ha : a ≠ 0)
    (run : ReflTransGen (WellNext o) (initState o a b, .init) (s, h)) : StartInv o (ctl s) h := by
  refine invariant_of_run (I := fun x => StartInv o (ctl x.1) x.2) (fun x x' hinv hn => ?_)
    (startInv_init ha) run
  obtain ⟨⟨hs, _⟩, inp, i, s1, hr, hh⟩ := hn
  obtain ⟨hmakes, hends⟩ := hs i hr.fetch
  rw [hh]
  refine (hinv.exec (first_bfun hc) hr.live hr.fetch hr.ctl.1 ?_ fun hv a ha hnew => ?_).sched hr.ctl.2
  · rintro rfl hsp hp
    exact gone_of_bfun hinv.nodup hr.exec (hends rfl) hsp hp
  · exact fresh_of_new hc hr.live hr.fetch hr.exec hmakes hv ha hnew

/-- **The query for the start**: in every run in which quaints are made well and no built-in ends one
that is waited on, the query holds of a live quaint just when it is a pure value or has executed no
instruction. -/
theorem start_iff_of_run {u : Ast.Unit} (hc : Compiles u o) (ha : a ≠ 0)
    (run : ReflTransGen (WellNext o) (initState o a b, .init) (s, h)) {q : Nat} (hq : q ∈ s.live) :
    qatHolds (s.vms q) 0 0 = true ↔ h.made q = true ∨ h.ran q = false := by
  have hinv := startInv_of_run hc ha run
  show (s.vms q).atStart = true ↔ _
  cases hm : h.made q with
  | true =>
    have hst : (s.vms q).atStart = true := (hinv.made q hq hm).2.1
    simp [hst]
  | false =>
    have hst : (s.vms q).atStart = !h.ran q := hinv.start q hq hm
    simp [hst]

/-- A run of well-started rounds can keep the past. -/
lemma exists_past (run : ReflTransGen (Guarded (StartsWell o) (Next o)) s s') (h : Past) :
    ∃ h', ReflTransGen (WellNext o) (s, h) (s', h') := by
  refine exists_history (fun h s s' hn => ?_) h run
  obtain ⟨_, inp, hstep⟩ := hn
  obtain ⟨i, s1, hr⟩ := step_eq_ok.mp hstep
  exact ⟨_, inp, i, s1, hr, rfl⟩

/-! ### A built-in that has run -/

/-- `g: quaint(u64); m { g = ~monotime(); wait g; }` -/
def waitClock : Ast.Unit :=
  ⟨[],
    [.decl ⟨false, false, false, [letter 103 0], .quaint 1 (.int .u64 1), .absent⟩,
     .func ⟨false, letter 109 16, .nil, .none,
       .cons (.expr (.bexp (letter 103 20) .assn (.name (letter 103 20))
         (.uexp .tild (.fexp (.name monotimeSym) .nil))))
       (.cons (.wait (.name (letter 103 180)) .absent .absent false false) .nil)⟩]⟩

def waitClockObj : Obj :=
  let temp (off : Nat) : Opd := ⟨.temp, false, false, off, 8⟩
  ⟨8, [], List.replicate 17 Insn.bfun ++
    [Insn.incsp (opdImm false 0 8) (opdImm false 16 8), .getsp (temp 8),
     .qnt (temp 0) (opdImm false 1 8) (temp 8), .mov (opdGlob false 0 8) (temp 0), .nop,
     .wait (opdGlob false 0 8) (opdImm false 0 1) 0 0 false false false, .ret (opdImm false 16 8)]⟩

/-- The state some well-started rounds lead to, with the state after one more. -/
def clockLook (rounds : Nat) : M (State × State) := do
  let s ← runWhile (fun s => decide (StartsWell waitClockObj s)) waitClockObj
    (initState waitClockObj 65536 131072) (stillFrom 1048576 rounds)
  let s' ← step (still 0) waitClockObj s
  return (s, s')

lemma run_of_clockLook {rounds : Nat} (hlook : clockLook rounds = .ok (s, s')) :
    step (still 0) waitClockObj s = .ok s' ∧ ∃ h, ReflTransGen (WellNext waitClockObj)
      (initState waitClockObj 65536 131072, .init) (s, h) := by
  simp only [clockLook, bind_eq_ok, pure_eq_ok, Prod.mk.injEq] at hlook
  obtain ⟨s, hrun, s', hs', rfl, rfl⟩ := hlook
  exact ⟨hs', exists_past (run_of_runWhile (fun _ => of_decide_eq_true) hrun) _⟩

/-- The quaint of `monotime` has run, and the query for its start still holds. -/
theorem built_in_stays_at_start : Compiles waitClock waitClockObj ∧
    ∃ s h q, ReflTransGen (WithHistory (Next waitClockObj) (NotesPast waitClockObj))
        (initState waitClockObj 65536 131072, .init) (s, h) ∧
      q ∈ s.live ∧ qatHolds (s.vms q) 0 0 = true ∧ h.made q = false ∧ h.ran q = true := by
  have hc : Compiles waitClock waitClockObj := by decide +kernel
  have hlook : (fun x => (x.1.cur, x.2.live.contains 1114112, qatHolds (x.2.vms 1114112) 0 0)) <$>
      clockLook 6 = .ok (1114112, true, true) := by decide +kernel
  obtain ⟨⟨s, s'⟩, hlook, hs⟩ := map_eq_ok.mp hlook
  obtain ⟨hcur, hlive, hat⟩ : s.cur = 1114112 ∧ s'.live.contains 1114112 = true ∧
    qatHolds (s'.vms 1114112) 0 0 = true := by simpa using hs
  obtain ⟨hstep, h, run⟩ := run_of_clockLook hlook
  obtain ⟨i, s1, hr⟩ := step_eq_ok.mp hstep
  have hinv := startInv_of_run hc (by decide) run
  have hrun : ReflTransGen (WithHistory (Next waitClockObj) (NotesPast waitClockObj))
      (initState waitClockObj 65536 131072, .init) (s', h.after i s.live s.cur) :=
    .tail (ReflTransGen.mono (fun _ _ hn => ⟨hn.1.2, hn.2⟩) _ _ run)
      ⟨⟨_, hstep⟩, _, i, s1, hr, rfl⟩
  refine ⟨hc, s', _, 1114112, hrun, List.contains_iff_mem.mp hlive, hat, ?_, ?_⟩
  · rw [← hcur, after_made hr.live]
    by_contra hm
    exact (hinv.made s.cur hr.live (by simpa using hm)).2.2 rfl
  · rw [← hcur, after_ran_self hr.live]

/-- The quaint of `k` before and after its first instruction, below two waits. -/
theorem start_of_nested : ∃ s t h h', ReflTransGen (WellNext nestedObj)
      (initState nestedObj 65536 131072, .init) (s, h) ∧ ReflTransGen (WellNext nestedObj) (s, h) (t, h') ∧
    qatHolds (s.vms 1310720) 0 0 = true ∧ (h.made 1310720 = true ∨ h.ran 1310720 = false) ∧
    qatHolds (t.vms 1310720) 0 0 = false ∧ ¬ (h'.made 1310720 = true ∨ h'.ran 1310720 = false) := by
  have hc : Compiles nested nestedObj := by decide +kernel
  have hlook : (fun x => (x.1.live.contains 1310720, qatHolds (x.1.vms 1310720) 0 0,
      x.2.live.contains 1310720, qatHolds (x.2.vms 1310720) 0 0)) <$>
        nestedRun (fun s => decide (StartsWell nestedObj s)) 11 2 = .ok (true, true, true, false) := by
    decide +kernel
  obtain ⟨⟨s, t⟩, hlook, hst⟩ := map_eq_ok.mp hlook
  obtain ⟨hlive, hat, hlive', hat'⟩ : s.live.contains 1310720 = true ∧ qatHolds (s.vms 1310720) 0 0 = true ∧
    t.live.contains 1310720 = true ∧ qatHolds (t.vms 1310720) 0 0 = false := by simpa using hst
  obtain ⟨run, more⟩ := run_of_nestedRun (fun _ => of_decide_eq_true) hlook
  obtain ⟨h, run⟩ := exists_past run .init
  obtain ⟨h', more⟩ := exists_past more h
  refine ⟨s, t, h, h', run, more, hat, ?_, hat', ?_⟩
  · exact (start_iff_of_run hc (by decide) run (List.contains_iff_mem.mp hlive)).mp hat
  · rw [← start_iff_of_run hc (by decide) (run.trans more) (List.contains_iff_mem.mp hlive'), hat']
    decide

end Run

end Quaint.Starting
