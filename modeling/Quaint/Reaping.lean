import Quaint.Activation

/-!
A reap is not abandoned.

The scheduler resumes any quaint whose flags say that it waits. The flags of a quaint that was
interrupted inside its `wait` stay set, and a `wait` that finds nothing to wait for leaves them
so. In runs in which this does not happen, a waiting quaint stands at a `wait`, and a quaint
that stands at a reap moves on only when the reap is done.
-/

namespace Quaint.Reaping

open Relation Types Ast Bytes Code Exec Step Control Effect Ancestry Transition Partial Program
  Activation

/-! ### The invariant -/

/-- The instruction a thread stands at. -/
def insnAt (o : Obj) (t : Thread) : Option Insn := o.insns[t.ip]?

/-- A thread whose flags say that it waits stands at a `wait`. -/
def WaitersAtWait (o : Obj) (c : Ctl) : Prop :=
  ∀ a, (c.threads a).waiting = true → ∃ i ∈ insnAt o (c.threads a), isWait i = true

/-- The parent of a quaint on the chain stands at the `wait` or the reap that went on with it,
and went on with no other since. -/
def LinksHold (o : Obj) (c : Ctl) (last : Nat → Nat) : Prop :=
  ∀ a b, OnChain c a → IsParent c.parent a b →
    last b = a ∧ ∃ i ∈ insnAt o (c.threads b), isReap i = true ∨ isWait i = true

/-- The quaint last gone on with from each, brought up to date by an instruction. -/
def note (last : Nat → Nat) (i : Insn) (cur cur' : Nat) : Nat → Nat :=
  if (isReap i || isWait i) && cur' != cur then fun a => if a = cur then cur' else last a
  else last

structure ReapInv (o : Obj) (main : Nat) (c : Ctl) (last : Nat → Nat) : Prop where
  chain : ChainInv main c
  waiters : WaitersAtWait o c
  links : LinksHold o c last

lemma isReap_not_isWait {i : Insn} (h : isReap i = true) : isWait i = false := by
  cases i <;> first | rfl | cases h

section Threads

variable {o : Obj} {c c' : Ctl} {t : Thread}

/-- Only the running thread changed, and it does not wait. -/
lemma WaitersAtWait.setThis (h : WaitersAtWait o c) (ht : t.waiting = false) :
    WaitersAtWait o (c.setThis t) := by
  intro a ha
  rw [setThis_threads] at ha ⊢
  split at ha
  · rw [ht] at ha
    cases ha
  · rename_i hac
    rw [if_neg hac]
    exact h a ha

/-- The running thread does not wait while it executes anything else than a `wait`. -/
lemma WaitersAtWait.this_not_waiting (h : WaitersAtWait o c) {i : Insn}
    (hi : insnAt o c.this = some i) (hw : isWait i = false) : c.this.waiting = false := by
  by_contra hne
  obtain ⟨j, hj, hjw⟩ := h c.cur (by simpa [Ctl.this] using hne)
  have hij : i = j := Option.some.inj (hi.symm.trans hj)
  rw [hij, hjw] at hw
  cases hw

end Threads

section Chain

variable {o : Obj} {main : Nat} {c c' : Ctl} {last : Nat → Nat}

/-- The parents on the chain are other quaints than the running one. -/
lemma parent_ne_cur (h : ChainInv main c) {a b : Nat} (ha : OnChain c a)
    (hb : IsParent c.parent a b) : b ≠ c.cur := by
  obtain ⟨l, hl, _⟩ := h
  rintro rfl
  have hcyc : TransGen (IsParent c.parent) c.cur c.cur := .tail' ha hb
  exact hl.acyclic hl.head_mem hcyc

/-- What is above a quaint on the chain is on the chain, if the parents are the same. -/
lemma onChain_mono (hcur : OnChain c c'.cur) (hpar : ∀ a, OnChain c a → c'.parent a = c.parent a)
    {a : Nat} (ha : OnChain c' a) : OnChain c a := by
  induction ha with
  | refl => exact hcur
  | tail _ hp ih => exact ReflTransGen.tail ih ((hpar _ ih).symm.trans hp)

/-- The links stay as long as the running quaint is one that was on the chain. -/
lemma LinksHold.mono (h : LinksHold o c last) (hc : ChainInv main c) (hc' : ChainInv main c')
    (hcur : OnChain c c'.cur) (hpar : ∀ a, OnChain c a → c'.parent a = c.parent a)
    (hip : ∀ b, OnChain c b → b ≠ c.cur → b ≠ c'.cur →
      (c'.threads b).ip = (c.threads b).ip) : LinksHold o c' last := by
  intro a b ha hab
  have hca := onChain_mono hcur hpar ha
  have hcab : IsParent c.parent a b := (hpar a hca).symm.trans hab
  obtain ⟨hlast, i, hi, hsw⟩ := h a b hca hcab
  have hb : (c'.threads b).ip = (c.threads b).ip :=
    hip b (ReflTransGen.tail hca hcab) (parent_ne_cur hc hca hcab) (parent_ne_cur hc' ha hab)
  refine ⟨hlast, i, ?_, hsw⟩
  rw [insnAt, hb]
  exact hi

/-- A switch adds one link. -/
lemma LinksHold.activate (h : LinksHold o c last) (hc : ChainInv main c) {q : Nat}
    (hq : ¬ OnChain c q) {i : Insn} (hi : insnAt o c.this = some i)
    (hsw : isReap i = true ∨ isWait i = true) :
    LinksHold o (c.activate q) (fun a => if a = c.cur then q else last a) := by
  have hne : c.cur ≠ 0 := (hc.onChain .refl).1
  have hpar : ∀ a, OnChain c a → (c.activate q).parent a = c.parent a := by
    intro a ha
    have haq : a ≠ q := fun haq => hq (haq ▸ ha)
    exact parent_congr (by rw [activate_threads, if_neg haq])
  have hself : (c.activate q).parent q = some c.cur := by
    simp only [Ctl.parent, activate_threads, if_true, hne, if_false]
  -- the chain is that of before with the new quaint below it
  have hon : ∀ a, OnChain (c.activate q) a → a = q ∨ OnChain c a := by
    intro a ha
    induction ha with
    | refl => exact .inl rfl
    | tail _ hp ih =>
      rcases ih with rfl | ih
      · exact .inr (Option.some.inj (hself.symm.trans hp) ▸ .refl)
      · exact .inr (ReflTransGen.tail ih ((hpar _ ih).symm.trans hp))
  intro a b ha hab
  rcases hon a ha with rfl | hca
  · obtain rfl : c.cur = b := Option.some.inj (hself.symm.trans hab)
    have hcq : c.cur ≠ a := fun hcq => hq (hcq ▸ .refl)
    refine ⟨if_pos rfl, i, ?_, hsw⟩
    rw [activate_threads, if_neg hcq]
    exact hi
  · have hcab : IsParent c.parent a b := (hpar a hca).symm.trans hab
    have hbc := parent_ne_cur hc hca hcab
    have hbq : b ≠ q := fun hbq => hq (hbq ▸ ReflTransGen.tail hca hcab)
    rw [activate_threads, if_neg hbq]
    refine ⟨?_, (h a b hca hcab).2⟩
    simp only [hbc, if_false]
    exact (h a b hca hcab).1

end Chain

/-! ### One instruction -/

section Step

variable {o : Obj} {main : Nat} {c c' : Ctl} {last : Nat → Nat}

/-- What a return leaves alone. -/
lemma return_frame (hr : Return o c c') : OnChain c c'.cur ∧ (∀ a, c'.parent a = c.parent a) ∧
    ∀ b, b ≠ c.cur → b ≠ c'.cur → c'.threads b = c.threads b := by
  cases hr with
  | caller ip bp hsp hip =>
    exact ⟨.refl, congrFun (parent_setThis rfl), fun b hb _ => by rw [setThis_threads, if_neg hb]⟩
  | main ip bp hsp hp =>
    exact ⟨.refl, congrFun (parent_setThis rfl), fun b hb _ => by rw [setThis_threads, if_neg hb]⟩
  | reap i hsp hp hlive hi hreap =>
    refine ⟨.single (if_neg hp), fun a => ?_, fun b _ hb => ?_⟩
    · exact congrFun (parent_setThis (c := (c.release c.cur).setCur c.this.parent)
        (t := (c.threads c.this.parent).advance) rfl) a
    · exact if_neg hb
  | wait i hsp hp hlive hi hwait =>
    refine ⟨.single (if_neg hp), fun a => ?_, fun b hbc hb => ?_⟩
    · have h1 := congrFun (parent_setThis (c := (c.setThis c.this.ended).setCur c.this.parent)
        (t := ((c.setThis c.this.ended).setCur c.this.parent).this.notWaiting.advance) rfl) a
      exact h1.trans (congrFun (parent_setThis (c := c) (t := c.this.ended) rfl) a)
    · exact (if_neg hb).trans (if_neg hbc)

lemma WaitersAtWait.return (h : WaitersAtWait o c) (hnw : c.this.waiting = false)
    (hr : Return o c c') : WaitersAtWait o c' := by
  cases hr with
  | caller ip bp hsp hip => exact h.setThis hnw
  | main ip bp hsp hp => exact h.setThis hnw
  | reap i hsp hp hlive hi hreap =>
    have hd : WaitersAtWait o ((c.release c.cur).setCur c.this.parent) := h
    exact hd.setThis (hd.this_not_waiting hi (isReap_not_isWait hreap))
  | wait i hsp hp hlive hi hwait =>
    have h1 : WaitersAtWait o (c.setThis c.this.ended) := h.setThis hnw
    have hd : WaitersAtWait o ((c.setThis c.this.ended).setCur c.this.parent) := h1
    exact hd.setThis rfl

lemma note_same (i : Insn) : note last i c.cur c.cur = last := by simp [note]

lemma note_other {i : Insn} {cur' : Nat} (hr : isReap i = false) (hw : isWait i = false) :
    note last i c.cur cur' = last := by simp [note, hr, hw]

lemma note_switch {i : Insn} {q : Nat} (hi : isReap i = true ∨ isWait i = true)
    (hq : q ≠ c.cur) : note last i c.cur q = fun a => if a = c.cur then q else last a := by
  have hb : (q != c.cur) = true := by simpa using hq
  rcases hi with hi | hi <;> simp [note, hi, hb]

/-- A new quaint does not wait. -/
lemma WaitersAtWait.create (h : WaitersAtWait o c) {a : Nat} {t : Thread} {live : List Nat}
    (ht : t.waiting = false) : WaitersAtWait o { c.set a t with live := live } := by
  intro b hb
  by_cases hba : b = a
  · subst hba
    have hbt : ({ c.set b t with live := live } : Ctl).threads b = t := Ctl.set_threads_self _ _ _
    rw [hbt, ht] at hb
    cases hb
  · have hbt : ({ c.set a t with live := live } : Ctl).threads b = c.threads b :=
      Ctl.set_threads_ne _ _ hba
    rw [hbt] at hb ⊢
    exact h b hb

lemma WaitersAtWait.exec (h : WaitersAtWait o c) {i : Insn} {w : Words}
    (hi : insnAt o c.this = some i)
    (hearly : c.this.waiting = true → isWait i = true → ¬ EarlyExit c w)
    (hx : Exec o i w c c') : WaitersAtWait o c' := by
  -- the running quaint only waits at a `wait`
  have hnw : isWait i = false → c.this.waiting = false := h.this_not_waiting hi
  cases hx with
  | own t hmove hreap hwait =>
    refine h.setThis ((ownMove_sameSched hmove).2.2.1.trans ?_)
    cases hw : isWait i with
    | false => exact hnw hw
    | true => exact eq_false_of_ne_true fun hwt => hearly hwt hw (hwait hw)
  | reapEnded q hr hq h0 hlive hend =>
    have hd : WaitersAtWait o (c.release q) := h
    exact hd.setThis (hnw (isReap_not_isWait hr))
  | reap q hr hq h0 hlive hend =>
    intro a ha
    rw [activate_threads] at ha ⊢
    split at ha
    · rename_i haq
      rw [if_pos haq]
      exact h q ha
    · rename_i haq
      rw [if_neg haq]
      exact h a ha
  | wait q now w0 w1 isFor isUntil hw hq h0 hlive hend =>
    have hset : WaitersAtWait o
        ((c.setNow now).setThis (c.this.startWait isFor isUntil w0 w1)) := by
      intro a ha
      rw [setThis_threads] at ha ⊢
      split
      · exact ⟨i, hi, hw⟩
      · rename_i hac
        rw [if_neg hac] at ha
        exact h a ha
    intro a ha
    rw [activate_threads] at ha ⊢
    split at ha
    · rename_i haq
      rw [if_pos haq]
      exact hset q ha
    · rename_i haq
      rw [if_neg haq]
      exact hset a ha
  | qnt dst loc ssp a ip sp n hi' h0 hnew hcur =>
    subst hi'
    exact (h.create rfl).setThis (hnw rfl)
  | qntv dst val a hi' h0 hnew hcur =>
    subst hi'
    exact (h.create rfl).setThis (hnw rfl)
  | ret size hi' hsp c' hr =>
    have hw : c.this.waiting = false := by
      rcases hi' with rfl | ⟨v, rfl⟩ <;> exact hnw rfl
    have hs : WaitersAtWait o (c.setThis { c.this with sp := c.this.sp - size.off }) :=
      h.setThis hw
    exact hs.return (by rw [Ctl.setThis_this]; exact hw) hr
  | bfun now n live hi' hlive hsp c' hr =>
    have hw : c.this.waiting = false := by
      subst hi'
      exact hnw rfl
    have hd : WaitersAtWait o { c with live := live, now := now } := h
    have hs : WaitersAtWait o (({ c with live := live, now := now } : Ctl).setThis
        { c.this with sp := c.this.sp - n - 16, depth := c.this.depth + 1 }) := hd.setThis hw
    exact hs.return (by rw [Ctl.setThis_this]; exact hw) hr

/-- A change of the running quaint that is no switch, and of what is not on the chain. -/
lemma LinksHold.setThis (h : LinksHold o c last) (hc : ChainInv main c)
    (hc' : ChainInv main c') {t : Thread} (hcur : c'.cur = c.cur)
    (ht : c'.threads c.cur = t) (hp : t.parent = c.this.parent)
    (hother : ∀ b, OnChain c b → b ≠ c.cur → c'.threads b = c.threads b) :
    LinksHold o c' last := by
  refine h.mono hc hc' (hcur ▸ .refl) (fun a ha => parent_congr ?_) fun b hb hbc _ => ?_
  · by_cases hac : a = c.cur
    · subst hac
      rw [ht, hp]
      rfl
    · rw [hother a ha hac]
  · rw [hother b hb hbc]

lemma LinksHold.return (h : LinksHold o c last) (hc : ChainInv main c) (hr : Return o c c') :
    LinksHold o c' last := by
  obtain ⟨hcur, hpar, hframe⟩ := return_frame hr
  exact h.mono hc (hc.return hr) hcur (fun a _ => hpar a) fun b _ hb hb' =>
    congrArg Thread.ip (hframe b hb hb')

lemma LinksHold.exec (h : LinksHold o c last) (hc : ChainInv main c) {i : Insn} {w : Words}
    (hi : insnAt o c.this = some i)
    (hspares : ∀ q, w.handle = some q ∨ w.freed = some q → ¬ OnChain c q)
    (hx : Exec o i w c c') : LinksHold o c' (note last i c.cur c'.cur) := by
  have hc' : ChainInv main c' := hc.exec hspares hx
  cases hx with
  | own t hmove hreap hwait =>
    rw [Ctl.setThis_cur, note_same]
    exact h.setThis hc hc' rfl (Ctl.set_threads_self _ _ _) (ownMove_sameSched hmove).1
      fun b _ hb => Ctl.set_threads_ne _ _ hb
  | reapEnded q hr hq h0 hlive hend =>
    rw [Ctl.setThis_cur, Ctl.release_cur, note_same]
    exact h.setThis hc hc' rfl (Ctl.set_threads_self _ _ _) rfl fun b _ hb =>
      Ctl.set_threads_ne _ _ hb
  | reap q hr hq h0 hlive hend =>
    have hnq := hspares q (.inl hq)
    have hqc : q ≠ c.cur := fun hqc => hnq (hqc ▸ .refl)
    rw [show (c.activate q).cur = q from rfl, note_switch (.inl hr) hqc]
    exact h.activate hc hnq hi (.inl hr)
  | wait q now w0 w1 isFor isUntil hw hq h0 hlive hend =>
    have hnq := hspares q (.inl hq)
    have hqc : q ≠ c.cur := fun hqc => hnq (hqc ▸ .refl)
    set d := (c.setNow now).setThis (c.this.startWait isFor isUntil w0 w1) with hd
    have hdt : d.this = c.this.startWait isFor isUntil w0 w1 := Ctl.setThis_this _ _
    have hcd : ChainInv main d := by
      have hn : ChainInv main (c.setNow now) :=
        hc.congr rfl (fun _ _ hl => hl) fun _ _ => ⟨rfl, rfl⟩
      exact hn.setThis rfl rfl
    have hld : LinksHold o d last :=
      h.setThis hc hcd rfl (Ctl.set_threads_self _ _ _) rfl fun b _ hb => Ctl.set_threads_ne _ _ hb
    have hond : ¬ OnChain d q := by
      have hpar : d.parent = c.parent := parent_setThis (c := c.setNow now) rfl
      rw [OnChain, hpar]
      exact hnq
    rw [show (d.activate q).cur = q from rfl, note_switch (.inr hw) hqc]
    exact hld.activate hcd hond (hdt ▸ hi) (.inr hw)
  | qnt dst loc ssp a ip sp n hi' h0 hnew hcur =>
    subst hi'
    rw [note_other rfl rfl]
    refine h.setThis hc hc' rfl (Ctl.set_threads_self _ _ _) rfl fun b hb hbc => ?_
    have hba : b ≠ a := fun hba => hnew (hba ▸ (hc.onChain hb).2.1)
    exact (if_neg hbc).trans (if_neg hba)
  | qntv dst val a hi' h0 hnew hcur =>
    subst hi'
    rw [note_other rfl rfl]
    refine h.setThis hc hc' rfl (Ctl.set_threads_self _ _ _) rfl fun b hb hbc => ?_
    have hba : b ≠ a := fun hba => hnew (hba ▸ (hc.onChain hb).2.1)
    exact (if_neg hbc).trans (if_neg hba)
  | ret size hi' hsp c' hr =>
    have hnote : note last i c.cur c'.cur = last := by
      rcases hi' with rfl | ⟨v, rfl⟩ <;> exact note_other rfl rfl
    rw [hnote]
    have hcd : ChainInv main (c.setThis { c.this with sp := c.this.sp - size.off }) :=
      hc.setThis rfl rfl
    have hld : LinksHold o (c.setThis { c.this with sp := c.this.sp - size.off }) last :=
      h.setThis hc hcd rfl (Ctl.set_threads_self _ _ _) rfl fun b _ hb => Ctl.set_threads_ne _ _ hb
    exact hld.return hcd hr
  | bfun now n live hi' hlive hsp c' hr =>
    subst hi'
    rw [note_other rfl rfl]
    have hcd : ChainInv main (({ c with live := live, now := now } : Ctl).setThis
        { c.this with sp := c.this.sp - n - 16, depth := c.this.depth + 1 }) :=
      (hc.free hlive fun p hp => hspares p (.inr hp)).setThis rfl rfl
    have hld : LinksHold o (({ c with live := live, now := now } : Ctl).setThis
        { c.this with sp := c.this.sp - n - 16, depth := c.this.depth + 1 }) last :=
      h.setThis hc hcd rfl (Ctl.set_threads_self _ _ _) rfl fun b _ hb => Ctl.set_threads_ne _ _ hb
    exact hld.return hcd hr

/-- One instruction, as long as it leaves the chain alone and is no `wait` with nothing to wait
for in a quaint whose flags are still set. -/
theorem ReapInv.exec (h : ReapInv o main c last) {i : Insn} {w : Words}
    (hi : insnAt o c.this = some i)
    (hspares : ∀ q, w.handle = some q ∨ w.freed = some q → ¬ OnChain c q)
    (hearly : c.this.waiting = true → isWait i = true → ¬ EarlyExit c w)
    (hx : Exec o i w c c') : ReapInv o main c' (note last i c.cur c'.cur) :=
  ⟨h.chain.exec hspares hx, h.waiters.exec hi hearly hx, h.links.exec h.chain hi hspares hx⟩

lemma WaitersAtWait.sched (h : WaitersAtWait o c) (hs : Sched c c') : WaitersAtWait o c' := by
  cases hs with
  | stay now => exact h
  | split now a hanc hwait hlive =>
    intro b hb
    rw [Ctl.setCur_threads] at hb ⊢
    by_cases hba : b = a
    · subst hba
      rw [Ctl.set_threads_self] at hb
      cases hb
    · rw [Ctl.set_threads_ne _ _ hba] at hb ⊢
      exact h b hb

lemma sched_parent (hs : Sched c c') (b : Nat) : c'.parent b = c.parent b := by
  cases hs with
  | stay now => rfl
  | split now a hanc hwait hlive =>
    refine parent_congr ?_
    rw [Ctl.setCur_threads]
    by_cases hba : b = a
    · subst hba
      rw [Ctl.set_threads_self]
      rfl
    · exact congrArg Thread.parent (Ctl.set_threads_ne _ _ hba)

lemma LinksHold.sched (h : LinksHold o c last) (hc : ChainInv main c) (hs : Sched c c') :
    LinksHold o c' last := by
  have hc' : ChainInv main c' := hc.sched hs
  have hpar := sched_parent hs
  cases hs with
  | stay now => exact h.mono hc hc' .refl (fun _ _ => rfl) fun _ _ _ _ => rfl
  | split now a hanc hwait hlive =>
    exact h.mono hc hc' hanc.to_reflTransGen (fun b _ => hpar b) fun b _ _ hb =>
      congrArg Thread.ip (Ctl.set_threads_ne _ _ hb)

theorem ReapInv.sched (h : ReapInv o main c last) (hs : Sched c c') : ReapInv o main c' last :=
  ⟨h.chain.sched hs, h.waiters.sched hs, h.links.sched h.chain hs⟩

end Step

/-! ### How a reap is completed -/

/-- What a return instruction hands to `handle_return`: the state with the frame left, and the
value. -/
inductive Returning (inp : Inp) (s : State) : Insn → State → List UInt8 → Prop
  | ret {size : Opd} {t : State} (h : leaveFrame s size = .ok t) : Returning inp s (.ret size) t []
  | retv {val size : Opd} {t : State} {retval : List UInt8} (h : leaveFrame s size = .ok t)
    (hval : loadOpd t val = .ok retval) : Returning inp s (.retv val size) t retval
  | bfun {r : State × List UInt8} {base : Nat} (h : bfunBody inp s = .ok r) :
    Returning inp s .bfun (leaveBfun inp r.1 base) r.2

def reapInsn : Option Opd → Opd → Insn
  | none, src => .rte src
  | some dst, src => .rtev dst src

/-- The bytes a reap asks for. -/
def reapSize (dst : Option Opd) : Nat := (dst.map Opd.size).getD 0

/-- A value, stored in the destination of a reap. -/
def storeValue (s : State) (dst : Option Opd) (retval : List UInt8) : M State :=
  match dst with
  | some d => storeOpd s d retval
  | none => .ok s

/-- The instruction `i`, from `s` to `s1`, completes the reap at which `p` stands: the handle is
null, or its quaint is at its end, or it is the quaint `p` went on with last, which returns
from its bottom frame. The destination is given zero, or the value, before the handle is made
null. -/
inductive Reaped (o : Obj) (inp : Inp) (last : Nat → Nat) (s s1 : State) (i : Insn) (p : Nat)
    (dst : Option Opd) (src : Opd) : Prop
  | null (t : State) (hp : p = s.cur) (hq : loadWord s src = .ok 0) (hz : zeroValue s dst = .ok t)
    (hs : s1 = nextIp t)
  | ended (q : Nat) (t t' : State) (hp : p = s.cur) (hq : loadWord s src = .ok q) (h0 : q ≠ 0)
    (hend : (s.vms q).atEnd = true) (hv : copyValue s dst q = .ok t)
    (hn : storeWord (t.release q) src 0 = .ok t') (hs : s1 = nextIp t')
  | returned (retval : List UInt8) (t t' t'' : State) (hp : s.vm.parent = p)
    (hlast : last p = s.cur) (hret : Returning inp s i t retval) (hsp : t.vm.sp = 0)
    (hlen : retval.length = reapSize dst) (hv : storeValue (t.setCur p) dst retval = .ok t')
    (hn : storeWord (t'.release s.cur) src 0 = .ok t'') (hs : s1 = nextIp t'')

section Completed

variable {o : Obj} {inp : Inp} {s s1 s' t : State} {i : Insn} {p : Nat}

lemma isReap_iff : isReap i = true ↔ ∃ dst src, i = reapInsn dst src := by
  constructor
  · intro h
    cases i with
    | rte src => exact ⟨none, src, rfl⟩
    | rtev dst src => exact ⟨some dst, src, rfl⟩
    | _ => cases h
  · rintro ⟨dst, src, rfl⟩
    cases dst <;> rfl

lemma returning_of_exec (hi : (∃ size, i = .ret size) ∨ (∃ v size, i = .retv v size) ∨ i = .bfun)
    (h : execInsn inp o s i = .ok s1) :
    ∃ t signd retval, Returning inp s i t retval ∧ handleReturn o t signd retval = .ok s1 := by
  rcases hi with ⟨size, rfl⟩ | ⟨v, size, rfl⟩ | rfl
  · have hx : insnRet o s none size = .ok s1 := h
    simp only [insnRet, bind_eq_ok] at hx
    obtain ⟨t, ht, hx⟩ := hx
    exact ⟨t, false, [], .ret ht, hx⟩
  · have hx : insnRet o s (some v) size = .ok s1 := h
    simp only [insnRet, bind_eq_ok] at hx
    obtain ⟨t, ht, retval, hv, hx⟩ := hx
    exact ⟨t, v.signd, retval, .retv ht hv, hx⟩
  · have hx : insnBfun inp o s = .ok s1 := h
    simp only [insnBfun, bind_eq_ok] at hx
    obtain ⟨_, _, _, _, _, _, r, hr, base, _, hx⟩ := hx
    exact ⟨_, false, r.2, .bfun hr, hx⟩

/-- Up to `handle_return`, a return instruction touches no control but that of the running
quaint, whose parent it leaves alone. -/
lemma returning_ctl {retval : List UInt8} (h : Returning inp s i t retval) :
    t.cur = s.cur ∧ (∀ p, p ≠ s.cur → (ctl t).threads p = (ctl s).threads p) ∧
      t.vm.parent = s.vm.parent := by
  -- in each case the control is that of before with another running thread
  have key : ∀ (live : List Nat) (now : Nat) (t' : Thread), t'.parent = s.vm.parent →
      ctl t = ({ ctl s with live := live, now := now }).setThis t' →
      t.cur = s.cur ∧ (∀ p, p ≠ s.cur → (ctl t).threads p = (ctl s).threads p) ∧
        t.vm.parent = s.vm.parent := by
    intro live now t' hp hc
    refine ⟨congrArg Ctl.cur hc, fun p hpc => ?_, ?_⟩
    · rw [hc]
      exact if_neg hpc
    · have hthis : (ctl t).this = t' := by rw [hc, Ctl.setThis_this]
      exact (congrArg Thread.parent hthis).trans hp
  cases h with
  | ret h =>
    obtain ⟨_, rfl⟩ := leaveFrame_eq_ok h
    exact key s.live s.now _ rfl (ctl_setVm _ _)
  | retv h hval =>
    obtain ⟨_, rfl⟩ := leaveFrame_eq_ok h
    exact key s.live s.now _ rfl (ctl_setVm _ _)
  | @bfun r base h =>
    obtain ⟨now, n, live, _, _, hc⟩ := bfunBody_ctl h
    have hparent : r.1.vm.parent = s.vm.parent := by
      have hthis : (ctl r.1).this = { (ctl s).this with sp := (ctl s).this.sp - n } := by
        rw [hc, Ctl.setThis_this]
      exact congrArg Thread.parent hthis
    have hleave : ctl (leaveBfun inp r.1 base) = (ctl r.1).setThis _ := ctl_setVm _ _
    rw [hc, ctl_setThis_setThis] at hleave
    exact key live now _ hparent hleave

/-- An instruction moves another quaint than the running one only by returning. -/
lemma returning_of_moved (hcur : s.cur ∈ s.live) (hx : execInsn inp o s i = .ok s1)
    (hp : p ∈ s.live) (hpc : p ≠ s.cur) (hmoved : (s1.vms p).ip ≠ (s.vms p).ip) :
    ∃ t signd retval, Returning inp s i t retval ∧ handleReturn o t signd retval = .ok s1 := by
  have hctl := ctl_execInsn hcur hx
  -- a control in which `p` stands where it stood is not that of `s1`
  have hsame : ∀ c, ctl s1 = c → (c.threads p).ip = (s.vms p).ip → False := by
    rintro c rfl h
    exact hmoved h
  generalize hc : ctl s1 = c at hctl
  cases hctl with
  | own t hmove hreap hwait => exact (hsame _ hc (congrArg Thread.ip (if_neg hpc))).elim
  | reapEnded q hi hq h0 hlive hend => exact (hsame _ hc (congrArg Thread.ip (if_neg hpc))).elim
  | reap q hi hq h0 hlive hend =>
    refine (hsame _ hc ?_).elim
    rw [activate_threads]
    split
    · rename_i hpq
      rw [hpq]
      rfl
    · rfl
  | wait q now w0 w1 isFor isUntil hi hq h0 hlive hend =>
    have hd : (((ctl s).setNow now).setThis ((ctl s).this.startWait isFor isUntil w0 w1)).threads p =
        (ctl s).threads p := if_neg hpc
    refine (hsame _ hc ?_).elim
    rw [activate_threads]
    split
    · rename_i hpq
      rw [← hpq, hd]
      rfl
    · rw [hd]
      rfl
  | qnt dst loc ssp a ip sp n hi h0 hnew hcur' =>
    have hpa : p ≠ a := fun hpa => hnew (hpa ▸ hp)
    exact (hsame _ hc (congrArg Thread.ip ((if_neg hpc).trans (if_neg hpa)))).elim
  | qntv dst val a hi h0 hnew hcur' =>
    have hpa : p ≠ a := fun hpa => hnew (hpa ▸ hp)
    exact (hsame _ hc (congrArg Thread.ip ((if_neg hpc).trans (if_neg hpa)))).elim
  | ret size hi hsp c' hr =>
    refine returning_of_exec ?_ hx
    rcases hi with rfl | ⟨v, rfl⟩
    · exact .inl ⟨size, rfl⟩
    · exact .inr (.inl ⟨v, size, rfl⟩)
  | bfun now n live hi hlive hsp c' hr => exact returning_of_exec (.inr (.inr hi)) hx

/-- A return that moves another quaint on goes back to it. -/
lemma toParent_of_moved {signd : Bool} {retval : List UInt8} (hret : Returning inp s i t retval)
    (hx : handleReturn o t signd retval = .ok s1) (hpc : p ≠ s.cur)
    (hmoved : (s1.vms p).ip ≠ (s.vms p).ip) :
    t.vm.sp = 0 ∧ p ≠ 0 ∧ t.vm.parent = p ∧ s.vm.parent = p ∧
      returnToParent o t retval = .ok s1 := by
  obtain ⟨htc, hother, hpar⟩ := returning_ctl hret
  have hctl := handleReturn_ctl hx
  have htp : (t.vms p).ip = (s.vms p).ip := congrArg Thread.ip (hother p hpc)
  have hpt : p ≠ (ctl t).cur := fun h => hpc (h.trans htc)
  have hparent : t.vm.sp = 0 ∧ t.vm.parent ≠ 0 ∧ t.vm.parent = p := by
    have hne : p = (ctl s1).cur := by
      by_contra hne
      exact hmoved ((congrArg Thread.ip ((return_frame hctl).2.2 p hpt hne)).trans htp)
    generalize hc : ctl s1 = c at hctl hne
    cases hctl with
    | caller ip bp hsp hip => exact (hpt hne).elim
    | main ip bp hsp hp => exact (hpt hne).elim
    | reap j hsp hp hlive hi hreap => exact ⟨hsp, hp, hne.symm⟩
    | wait j hsp hp hlive hi hwait => exact ⟨hsp, hp, hne.symm⟩
  obtain ⟨hsp, h0, hp⟩ := hparent
  rw [handleReturn, if_pos ⟨hsp, h0⟩] at hx
  exact ⟨hsp, hp ▸ h0, hp, hpar.symm.trans hp, hx⟩

/-- A return that moves another quaint on, which stands at a reap, completes that reap. -/
lemma reaped_of_return {signd : Bool} {retval : List UInt8} {last : Nat → Nat} {dst : Option Opd}
    {src : Opd} (hret : Returning inp s i t retval) (hx : handleReturn o t signd retval = .ok s1)
    (hpc : p ≠ s.cur) (hj : o.insns[(s.vms p).ip]? = some (reapInsn dst src))
    (hmoved : (s1.vms p).ip ≠ (s.vms p).ip) (hlast : p ≠ 0 → s.vm.parent = p → last p = s.cur) :
    Reaped o inp last s s1 i p dst src := by
  obtain ⟨htc, hother, -⟩ := returning_ctl hret
  have htp : (t.vms p).ip = (s.vms p).ip := congrArg Thread.ip (hother p hpc)
  obtain ⟨hsp, h0, hp, hsp', hx⟩ := toParent_of_moved hret hx hpc hmoved
  simp only [returnToParent, bind_eq_ok, orUb_eq_ok, hp, htp, hj] at hx
  obtain ⟨_, _, j, hji, hx⟩ := hx
  obtain rfl := Option.some.inj hji
  have hlast' : last p = s.cur := hlast h0 hsp'
  cases dst with
  | none =>
    simp only [reapInsn, bind_eq_ok, legalIf_eq_ok, decide_eq_true_eq, pure_eq_ok] at hx
    obtain ⟨_, hlen, t', hn, rfl⟩ := hx
    rw [htc] at hn
    exact .returned retval t (t.setCur p) t' hsp' hlast' hret hsp hlen rfl hn rfl
  | some d =>
    simp only [reapInsn, bind_eq_ok, legalIf_eq_ok, decide_eq_true_eq, pure_eq_ok] at hx
    obtain ⟨_, _, _, hlen, t', hv, t'', hn, rfl⟩ := hx
    rw [htc] at hn
    exact .returned retval t t' t'' hsp' hlast' hret hsp hlen hv hn rfl

/-- An instruction that moves a quaint past a reap completes the reap. -/
lemma reaped_of_moved {last : Nat → Nat} {dst : Option Opd} {src : Opd} (hcur : s.cur ∈ s.live)
    (hi : o.insns[s.vm.ip]? = some i) (hx : execInsn inp o s i = .ok s1) (hp : p ∈ s.live)
    (hj : o.insns[(s.vms p).ip]? = some (reapInsn dst src))
    (hmoved : (s1.vms p).ip ≠ (s.vms p).ip)
    (hlast : p ≠ 0 → s.vm.parent = p → last p = s.cur) :
    Reaped o inp last s s1 i p dst src := by
  by_cases hpc : p = s.cur
  · subst hpc
    obtain rfl : i = reapInsn dst src := Option.some.inj (hi.symm.trans hj)
    have hx' : insnRte s dst src = .ok s1 := by cases dst <;> exact hx
    obtain ⟨q, hq, h⟩ := insnRte_cases hx'
    rcases h with ⟨rfl, t, hz, rfl⟩ | ⟨h0, hlive, hend, t, t', hv, hn, rfl⟩ | ⟨_, _, _, rfl⟩
    · exact .null t rfl hq hz rfl
    · exact .ended q t t' rfl hq h0 hend hv hn rfl
    · -- the switch leaves the running quaint where it stands
      refine (hmoved ?_).elim
      simp only [State.activate, State.setCur, State.setVms]
      split
      · rename_i hsq
        rw [hsq]
      · rfl
  · obtain ⟨t, signd, retval, hret, hx'⟩ := returning_of_moved hcur hx hp hpc hmoved
    exact reaped_of_return hret hx' hpc hj hmoved hlast

/-- The scheduler moves on only a waiting quaint. -/
lemma waiting_of_split (hs : Sched (ctl s1) (ctl s')) (hmoved : (s'.vms p).ip ≠ (s1.vms p).ip) :
    (s1.vms p).waiting = true := by
  have hip : ∀ c, ctl s' = c → (c.threads p).ip = (s1.vms p).ip → False := by
    rintro c rfl h
    exact hmoved h
  generalize hc : ctl s' = c at hs
  cases hs with
  | stay now => exact (hip _ hc rfl).elim
  | split now a hanc hwait hlive =>
    by_cases hpa : p = a
    · rw [hpa]
      exact hwait
    · exact (hip _ hc (congrArg Thread.ip (if_neg hpa))).elim

end Completed

/-! ### Runs -/

section Run

variable {o : Obj} {a b : Nat} {s s1 s' : State} {inp : Inp} {i : Insn}

/-- The instruction spares the chain, and is not a `wait` with nothing to wait for in a quaint
whose flags still say that it waits. -/
def CarefulWaits (o : Obj) (s : State) : Prop :=
  SparesChain o s ∧ (s.vm.waiting = true → ∀ i, o.insns[s.vm.ip]? = some i → isWait i = true →
    ¬ EarlyExit (ctl s) (words s i))

/-- The quaint last gone on with from each, brought up to date by a round. -/
def Notes (o : Obj) (last : Nat → Nat) (s s' : State) (last' : Nat → Nat) : Prop :=
  ∃ inp i s1, Round o inp i s s1 s' ∧ last' = note last i s.cur s1.cur

/-- Rounds that note the quaints gone on with. -/
def CarefulNext (o : Obj) : State × (Nat → Nat) → State × (Nat → Nat) → Prop :=
  WithHistory (Guarded (CarefulWaits o) (Next o)) (Notes o)

/-- Every run can keep these notes. -/
lemma exists_notes {P : State → Prop} (run : ReflTransGen (Guarded P (Next o)) s s')
    (last : Nat → Nat) :
    ∃ last', ReflTransGen (WithHistory (Guarded P (Next o)) (Notes o)) (s, last) (s', last') := by
  refine exists_history (fun last s s' h => ?_) last run
  obtain ⟨_, inp, hstep⟩ := h
  obtain ⟨i, s1, hr⟩ := step_eq_ok.mp hstep
  exact ⟨_, inp, i, s1, hr, rfl⟩

/-- The first quaint has no parent. -/
lemma linksHold_init (last : Nat → Nat) : LinksHold o (ctl (initState o a b)) last := by
  intro x y _ hxy
  have hpar : (ctl (initState o a b)).parent x = none := by
    refine if_pos ?_
    simp only [ctl, initState]
    split <;> rfl
  rw [IsParent, hpar] at hxy
  cases hxy

lemma reapInv_init (ha : a ≠ 0) (last : Nat → Nat) :
    ReapInv o a (ctl (initState o a b)) last := by
  refine ⟨chainInv_init ha, fun x hx => ?_, linksHold_init last⟩
  have hw : ((ctl (initState o a b)).threads x).waiting = false := by
    simp only [ctl, initState]
    split <;> rfl
  rw [hw] at hx
  cases hx

lemma ReapInv.round {last : Nat → Nat} (h : ReapInv o a (ctl s) last) (hs : CarefulWaits o s)
    (hr : Round o inp i s s1 s') : ReapInv o a (ctl s1) (note last i s.cur s1.cur) ∧
      ReapInv o a (ctl s') (note last i s.cur s1.cur) := by
  obtain ⟨hx, hsch⟩ := hr.ctl
  have h1 : ReapInv o a (ctl s1) (note last i s.cur s1.cur) :=
    h.exec hr.fetch (hs.1 i hr.fetch) (fun hw hi => hs.2 hw i hr.fetch hi) hx
  exact ⟨h1, h1.sched hsch⟩

lemma reapInv_of_run (ha : a ≠ 0) {last last' : Nat → Nat}
    (run : ReflTransGen (CarefulNext o) (initState o a b, last) (s, last')) :
    ReapInv o a (ctl s) last' := by
  refine invariant_of_run (I := fun x => ReapInv o a (ctl x.1) x.2) (fun x x' h hn => ?_)
    (reapInv_init ha last) run
  obtain ⟨⟨hs, _⟩, inp, i, s1, hr, hlast⟩ := hn
  rw [hlast]
  exact (h.round hs hr).2

/-- **A reap is never abandoned**: in a run in which no quaint waits on, reaps or frees itself
or one above it, and none whose flags still say that it waits executes a `wait` with nothing to
wait for, whenever a quaint moves past a reap the reap is completed by the instruction of that
round, and the scheduler moves on only quaints that stand at a `wait`. -/
theorem reap_completed_of_run (ha : a ≠ 0) {last last' : Nat → Nat}
    (run : ReflTransGen (CarefulNext o) (initState o a b, last) (s, last'))
    (hs : CarefulWaits o s) (hr : Round o inp i s s1 s') :
    (∀ p ∈ s.live, ∀ dst src, o.insns[(s.vms p).ip]? = some (reapInsn dst src) →
      (s'.vms p).ip ≠ (s.vms p).ip → Reaped o inp last' s s1 i p dst src) ∧
    ∀ p, (s'.vms p).ip ≠ (s1.vms p).ip → ∃ j ∈ o.insns[(s1.vms p).ip]?, isWait j = true := by
  have h := reapInv_of_run ha run
  obtain ⟨h1, _⟩ := h.round hs hr
  have hsplit : ∀ p, (s'.vms p).ip ≠ (s1.vms p).ip →
      ∃ j ∈ o.insns[(s1.vms p).ip]?, isWait j = true := fun p hp =>
    h1.waiters p (waiting_of_split hr.ctl.2 hp)
  refine ⟨fun p hp dst src hj hmoved => ?_, hsplit⟩
  have hmoved1 : (s1.vms p).ip ≠ (s.vms p).ip := by
    intro heq
    obtain ⟨j, hj', hw⟩ := hsplit p (heq ▸ hmoved)
    rw [heq, Option.mem_def, hj] at hj'
    obtain rfl := Option.some.inj hj'
    have hreap : isReap (reapInsn dst src) = true := isReap_iff.mpr ⟨dst, src, rfl⟩
    rw [isReap_not_isWait hreap] at hw
    cases hw
  refine reaped_of_moved hr.live hr.fetch hr.exec hp hj hmoved1 fun h0 hpar => ?_
  have hlink : IsParent (ctl s).parent s.cur p :=
    (if_neg (hpar ▸ h0 : s.vm.parent ≠ 0)).trans (congrArg some hpar)
  exact (h.links s.cur p .refl hlink).1

/-! ### A reap that is abandoned -/

/-- `b, c, d: quaint();`
`m { c = ~g(); d = ~g(); b = ~f(); wait b for 1 msec; wait c; wait b; }`
`f { wait c until g::m; *d; }`
`g { monotime(); [m] }` -/
def staleWait : Ast.Unit :=
  ⟨[],
    [.decl ⟨false, false, false, [letter 98 0, letter 99 3, letter 100 6], .quaint 1 .zero, .absent⟩,
     .func ⟨false, letter 109 20, .nil, .none,
       .cons (quaintify 99 103 24) (.cons (quaintify 100 103 34) (.cons (quaintify 98 102 44)
       (.cons (.wait (.name (letter 98 59)) (.nmbr 1) .absent false false)
       (.cons (.wait (.name (letter 99 79)) .absent .absent false false)
       (.cons (.wait (.name (letter 98 87)) .absent .absent false false) .nil)))))⟩,
     .func ⟨false, letter 102 120, .nil, .none,
       .cons (.wait (.name (letter 99 129)) .absent
         (.bexp (letter 103 137) .scop (.name (letter 103 137)) (.name (letter 109 140))) false false)
       (.cons (.expr (.uexp .mult (.name (letter 100 144)))) .nil)⟩,
     .func ⟨false, letter 103 160, .nil, .none,
       .cons (.expr (.fexp (.name monotimeSym) .nil)) (.cons (.wlab (letter 109 177)) .nil)⟩]⟩

def staleWaitObj : Obj :=
  let temp (off : Nat) : Opd := ⟨.temp, false, false, off, 8⟩
  let glob (off : Nat) : Opd := opdGlob false off 8
  let entry (tsize : Nat) : Insn := .incsp (opdImm false 0 8) (opdImm false tsize 8)
  let make (off loc : Nat) : List Insn :=
    [.getsp (temp 8), .qnt (temp 0) (opdImm false loc 8) (temp 8), .mov (glob off) (temp 0), .nop]
  let wait (off func id : Nat) : Insn := .wait (glob off) (opdImm false 0 1) func id false false false
  let leave : Insn := .ret (opdImm false 16 8)
  ⟨24, [], List.replicate 17 Insn.bfun ++ (entry 16 :: make 8 39 ++ make 16 39 ++ make 0 34 ++
    [Insn.wait (glob 0) (opdImm false 1 1) 0 0 false false true, wait 8 0 0, wait 0 0 0, leave,
     entry 0, wait 8 162 1, .rte (glob 16), .nop, leave,
     entry 16, .pushr (opdImm false 41 8) (temp 0), .callv (temp 8) (opdImm false 1 8) (temp 0),
     .nop, .wlab 162 1, leave])⟩

/-- The clock moves by two milliseconds after the first fifteen rounds. -/
def staleWaitInps : List Inp :=
  (List.range 32).map fun k =>
    { still (1048576 + 32768 * k) with clock1 := some (if k < 15 then 0 else 2000000) }

/-- What is looked at after the run: the quaint that runs and its instruction, where the quaint
`b` of the program stands, and where it stands after the next round. -/
def staleWaitLook (s : State) : Bool :=
  sparesChain staleWaitObj s && s.cur == 1245184 && s.live.contains 1376256 &&
    staleWaitObj.insns[s.vm.ip]? == some (.wlab 162 1) &&
    (s.vms 1376256).ip == 36 &&
    ((step (still 0) staleWaitObj s).toOption.map fun s' => (s'.vms 1376256).ip) == some 37

/-- The quaint `b` is moved past its reap of `d` by the label that `d` passes. -/
theorem stale_wait_abandons : Compiles staleWait staleWaitObj ∧
    ∃ s i s1 s', ReflTransGen (Guarded (SparesChain staleWaitObj) (Next staleWaitObj))
        (initState staleWaitObj 65536 131072) s ∧
      SparesChain staleWaitObj s ∧ Round staleWaitObj (still 0) i s s1 s' ∧ 1376256 ∈ s.live ∧
      staleWaitObj.insns[(s.vms 1376256).ip]? = some (reapInsn none (opdGlob false 16 8)) ∧
      (s'.vms 1376256).ip ≠ (s.vms 1376256).ip ∧
      ∀ last, ¬ Reaped staleWaitObj (still 0) last s s1 i 1376256 none (opdGlob false 16 8) := by
  have hlook : staleWaitLook <$> runWhile (sparesChain staleWaitObj) staleWaitObj
      (initState staleWaitObj 65536 131072) staleWaitInps = .ok true := by decide +kernel
  obtain ⟨s, hrun, hs⟩ := map_eq_ok.mp hlook
  simp only [staleWaitLook, Bool.and_eq_true, beq_iff_eq, List.contains_iff_mem] at hs
  obtain ⟨⟨⟨⟨⟨hspares, hcur⟩, hlive⟩, hi⟩, hip⟩, hnext⟩ := hs
  obtain ⟨s', hs', hip'⟩ := Option.map_eq_some_iff.mp hnext
  have hstep : step (still 0) staleWaitObj s = .ok s' := by
    cases h : step (still 0) staleWaitObj s with
    | error e => rw [h] at hs'; cases hs'
    | ok t => rw [h] at hs'; cases hs'; rfl
  obtain ⟨i, s1, hr⟩ := step_eq_ok.mp hstep
  obtain rfl : i = .wlab 162 1 := Option.some.inj (hr.fetch.symm.trans hi)
  refine ⟨by decide +kernel, s, _, s1, s', run_of_runWhile (fun _ => sparesChain_sound) hrun,
    sparesChain_sound hspares, hr, hlive, ?_, ?_, ?_⟩
  · rw [hip]
    rfl
  · rw [hip, hip']
    decide
  · -- the running quaint is `d`, which does not return
    intro last hreaped
    cases hreaped with
    | null t hp hq hz hs => rw [hcur] at hp; cases hp
    | ended q t t' hp hq h0 hend hv hn hs => rw [hcur] at hp; cases hp
    | returned retval t t' t'' hp hlast hret hsp hlen hv hn hs => cases hret

/-- A test for `CarefulWaits`. -/
def carefulWaits (o : Obj) (s : State) : Bool :=
  sparesChain o s && !(s.vm.waiting && (o.insns[s.vm.ip]?).any isWait)

lemma carefulWaits_sound (h : carefulWaits o s = true) : CarefulWaits o s := by
  rw [carefulWaits, Bool.and_eq_true, Bool.not_eq_true'] at h
  refine ⟨sparesChain_sound h.1, fun hw i hi hwait => ?_⟩
  simp [hw, hi, hwait] at h

/-- What is looked at after the run: the quaint that runs and its instruction, where the quaint of `f`
stands, and where it stands after the next round. -/
def nestedLook (s : State) : Bool :=
  carefulWaits nestedObj s && s.cur == 1310720 && s.live.contains 1114112 &&
    nestedObj.insns[s.vm.ip]? == some (.ret (opdImm false 16 8)) && (s.vms 1114112).ip == 33 &&
    ((step (still 0) nestedObj s).toOption.map fun s' => (s'.vms 1114112).ip) == some 34

/-- The quaint of `f` moves past its reap in the round in which the quaint of `k` returns. -/
theorem reap_completed_nested : Compiles nested nestedObj ∧ ∃ s last s1 s', ReflTransGen (CarefulNext nestedObj)
      (initState nestedObj 65536 131072, fun _ => 0) (s, last) ∧
    Round nestedObj (still 0) (.ret (opdImm false 16 8)) s s1 s' ∧ s.cur = 1310720 ∧
    Reaped nestedObj (still 0) last s s1 (.ret (opdImm false 16 8)) 1114112 none (opdGlob false 8 8) := by
  have hlook : (fun x => nestedLook x.1) <$> nestedRun (carefulWaits nestedObj) 21 0 = .ok true := by
    decide +kernel
  obtain ⟨⟨s, t⟩, hlook, hs⟩ := map_eq_ok.mp hlook
  simp only [nestedLook, Bool.and_eq_true, beq_iff_eq, List.contains_iff_mem] at hs
  obtain ⟨⟨⟨⟨⟨hcareful, hcur⟩, hlive⟩, hi⟩, hip⟩, hnext⟩ := hs
  obtain ⟨s', hs', hip'⟩ := Option.map_eq_some_iff.mp hnext
  have hstep : step (still 0) nestedObj s = .ok s' := by
    cases h : step (still 0) nestedObj s with
    | error e => rw [h] at hs'; cases hs'
    | ok t => rw [h] at hs'; cases hs'; rfl
  obtain ⟨i, s1, hr⟩ := step_eq_ok.mp hstep
  obtain rfl : i = .ret (opdImm false 16 8) := Option.some.inj (hr.fetch.symm.trans hi)
  obtain ⟨last, run⟩ := exists_notes (run_of_nestedRun (fun _ => carefulWaits_sound) hlook).1 fun _ => 0
  refine ⟨by decide +kernel, s, last, s1, s', run, hr, hcur,
    (reap_completed_of_run (by decide) run (carefulWaits_sound hcareful) hr).1 _ hlive _ _ ?_ ?_⟩
  · rw [hip]
    rfl
  · rw [hip, hip']
    decide

end Run

end Quaint.Reaping
