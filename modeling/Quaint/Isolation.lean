import Quaint.Activation
import Quaint.Memory

/-!
Quaints that are not running.

An instruction stores through its operands, which belong to the running quaint or to none, unless
they are pointers. So a program that stores through no pointer leaves every quaint that does not run
as it is, until one is entered from it or one returns to it.
-/

namespace Quaint.Isolation

open Relation Bytes Code Exec Step Control Partial Effect Memory Activation Transition

/-! ### What is stored to -/

/-- The operands an instruction is stored through, by itself or by a return to it. -/
def stored : Insn → List Opd
  | .mov d _ | .cast d _ | .arith _ d _ _ | .equ _ d _ _ | .cmp _ d _ _ | .not d _ | .neg d _
  | .bneg d _ | .oz d _ | .inc _ d | .callv d _ _ | .ref d _ | .drf d _ | .qat d _ _ _ | .getsp d
  | .qnt d _ _ | .qntv d _ => [d]
  | .incp _ d a | .rtev d a => [d, a]
  | .rte a => [a]
  | _ => []

/-- The program stores through no pointer. -/
def directStores (o : Obj) : Bool := o.insns.all fun i => (stored i).all fun a => !a.indirect

/-- The quaint a region belongs to. -/
def owner : Region → Option Nat
  | .stack vm | .temp vm _ => some vm
  | .bss | .heap _ => none

/-- What becomes of a quaint that is not running: it is left alone, or entered below the one running,
or the one running has returned to it. -/
inductive Fared (o : Obj) (q : Nat) (s s1 : State) : Prop
  | alone (h : s1.vms q = s.vms q)
  | entered (hcur : s1.cur = q) (h : s1.vms q = { s.vms q with parent := s.cur })
  | returned (hcur : s1.cur = q) (hp : s.vm.parent = q) (i : Insn)
    (hi : o.insns[(s.vms q).ip]? = some i) (h : isReap i = true ∨ isWait i = true)

section Stores

variable {o : Obj} {P : Region → Nat → Nat → Prop} {q : Nat} {s s1 s2 : State} {a d : Opd} {l : Loc}
  {r : Region} {off n v : Nat} {bs : List UInt8} {m : Mem}

lemma stored_direct (h : directStores o = true) {i : Insn} {k : Nat} (hi : o.insns[k]? = some i) :
    ∀ a ∈ stored i, a.indirect = false := by
  simp only [directStores, List.all_eq_true, Bool.not_eq_true'] at h
  exact h i (List.mem_of_getElem? hi)

lemma owner_of_direct (ha : a.indirect = false) (hl : s.opdVal a = .ok l)
    (hp : s.place l = some (r, off)) (hne : q ≠ s.cur) : owner r ≠ some q := by
  simp only [State.opdVal, ha, bind_eq_ok, State.opdBase] at hl
  obtain ⟨base, hbase, hl⟩ := hl
  obtain rfl := Except.ok.inj hl
  cases hk : a.opd with
  | imm =>
    simp only [hk, Except.ok.injEq] at hbase
    subst hbase
    cases hp
  | temp =>
    simp only [hk] at hbase
    split at hbase
    · cases hbase
    · obtain rfl := Except.ok.inj hbase
      obtain ⟨rfl, -⟩ := Prod.mk.inj (Option.some.inj hp)
      exact fun h => hne (Option.some.inj h).symm
  | auto =>
    simp only [hk, Except.ok.injEq] at hbase
    subst hbase
    obtain ⟨rfl, -⟩ := Prod.mk.inj (Option.some.inj hp)
    exact fun h => hne (Option.some.inj h).symm
  | glob =>
    simp only [hk, Except.ok.injEq] at hbase
    subst hbase
    obtain ⟨rfl, -⟩ := Prod.mk.inj (Option.some.inj hp)
    intro h
    cases h

lemma vms_setRegion (h : owner r ≠ some q) : (s.setRegion r m).vms q = s.vms q := by
  cases r with
  | stack vm => exact if_neg fun hq => h (congrArg some hq.symm)
  | temp vm depth => exact if_neg fun hq => h (congrArg some hq.symm)
  | bss | heap => rfl

lemma vms_of_wrote (h : Wrote P s s1) (hP : ∀ r off len, P r off len → owner r ≠ some q) :
    s1.vms q = s.vms q := by
  induction h with
  | refl => rfl
  | write _ _ _ hw ih => rw [vms_setRegion (hP _ _ _ hw), ih]

lemma owner_of_to (ha : a.indirect = false) (hne : q ≠ s.cur) {len : Nat} (h : To s a n r off len) :
    owner r ≠ some q := by
  obtain ⟨l, hl, hp, -⟩ := h
  exact owner_of_direct ha hl hp hne

lemma vms_setVm (v : Qvm) (hne : q ≠ s.cur) : (s.setVm v).vms q = s.vms q := if_neg hne

lemma vms_nextIp (hne : q ≠ s.cur) : (nextIp s).vms q = s.vms q := vms_setVm _ hne

lemma vms_storeOpd (ha : a.indirect = false) (hne : q ≠ s.cur) (h : storeOpd s a bs = .ok s1) :
    s1.vms q = s.vms q :=
  vms_of_wrote (wrote_storeOpd h) fun _ _ _ => owner_of_to ha hne

lemma vms_storeWord (ha : a.indirect = false) (hne : q ≠ s.cur) (h : storeWord s a v = .ok s1) :
    s1.vms q = s.vms q :=
  vms_of_wrote (wrote_storeWord h) fun _ _ _ => owner_of_to ha hne

lemma cur_of_ctl (h : ctl s1 = ctl s) : s1.cur = s.cur := congrArg Ctl.cur h

/-- What an instruction stores through direct operands changes no other quaint. -/
lemma vms_of_data {x : M State} (hx : Returns x (Wrote P s)) (hne : q ≠ s.cur)
    (hP : ∀ r off len, P r off len → owner r ≠ some q) (h : nextIp <$> x = .ok s2) :
    s2.vms q = s.vms q := by
  obtain ⟨s1, h1, rfl⟩ := map_eq_ok.mp h
  have hw := hx s1 h1
  rw [vms_nextIp (by rwa [cur_of_ctl hw.ctl]), vms_of_wrote hw hP]

end Stores

/-! ### Instructions -/

section Instructions

variable {o : Obj} {inp : Inp} {q : Nat} {s s1 s' : State} {i : Insn}

lemma vms_store_stack {c off : Nat} {bs : List UInt8} (hne : q ≠ c)
    (h : s.store (.mem (.stack c) off) bs = some s1) : s1.vms q = s.vms q := by
  obtain ⟨-, -, rfl⟩ := store_stack h
  exact if_neg hne

lemma vms_insnPushr {v ssp : Opd} (hne : q ≠ s.cur) (h : insnPushr s v ssp = .ok s') :
    s'.vms q = s.vms q := by
  simp only [insnPushr, State.storeNat, bind_eq_ok, orUb_eq_ok] at h
  obtain ⟨_, _, _, hssp, _, _, _, _, s1, h1, s2, h2, h⟩ := h
  have hc : s2.cur = s.cur := cur_of_ctl ((ctl_store h2).trans (ctl_store h1))
  have hne2 : q ≠ s2.cur := by rwa [hc]
  have hw := vms_storeWord (s := s2.setVm _) (directTemp_of_legal hssp).2 hne2 h
  exact (hw.trans (vms_setVm _ hne2)).trans ((vms_store_stack hne h2).trans (vms_store_stack hne h1))

lemma vms_insnPush {v : Opd} (hne : q ≠ s.cur) (h : insnPush s v = .ok s') : s'.vms q = s.vms q := by
  simp only [insnPush, State.memcpy, bind_eq_ok, pure_eq_ok, orUb_eq_ok] at h
  obtain ⟨_, _, _, _, _, _, l, _, s1, ⟨bs, -, h1⟩, _, _, rfl⟩ := h
  have hc : s1.cur = s.cur := cur_of_ctl (ctl_store h1)
  exact (vms_setVm _ (by rwa [hc])).trans (vms_store_stack hne h1)

lemma vms_copyValue {dst : Option Opd} {p : Nat} (hd : ∀ d ∈ dst, d.indirect = false) (hne : q ≠ s.cur)
    (h : copyValue s dst p = .ok s1) : s1.vms q = s.vms q := by
  cases dst with
  | none => rw [pure_eq_ok.mp h]
  | some d =>
    simp only [copyValue, bind_eq_ok] at h
    obtain ⟨l, hl, h⟩ := h
    exact vms_of_wrote (wrote_memcpy h) fun _ _ _ hp => owner_of_direct (hd d rfl) hl hp.1 hne

lemma vms_zeroValue {dst : Option Opd} (hd : ∀ d ∈ dst, d.indirect = false) (hne : q ≠ s.cur)
    (h : zeroValue s dst = .ok s1) : s1.vms q = s.vms q := by
  cases dst with
  | none => rw [pure_eq_ok.mp h]
  | some d => exact vms_storeOpd (hd d rfl) hne h

/-- A switch to another quaint. -/
lemma fared_activate {s0 : State} {p : Nat} (hcur : s0.cur = s.cur) (h : s0.vms q = s.vms q) :
    Fared o q s (State.activate s0 p) := by
  by_cases hp : q = p
  · subst hp
    refine .entered rfl ?_
    rw [State.activate, hcur, ← h]
    exact if_pos rfl
  · exact .alone ((if_neg hp).trans h)

lemma fared_insnRte {dst : Option Opd} {src : Opd} (hd : ∀ d ∈ dst, d.indirect = false)
    (ha : src.indirect = false) (hne : q ≠ s.cur) (h : insnRte s dst src = .ok s') : Fared o q s s' := by
  obtain ⟨p, -, ⟨-, s1, h1, rfl⟩ | ⟨-, -, -, s1, s2, h1, h2, rfl⟩ | ⟨-, -, -, rfl⟩⟩ := insnRte_cases h
  · have hc := cur_of_ctl (zeroValue_keeps dst _ h1)
    exact .alone ((vms_nextIp (by rwa [hc])).trans (vms_zeroValue hd hne h1))
  · have hc1 := cur_of_ctl (copyValue_keeps dst p _ h1)
    have hc2 : s2.cur = s.cur := (cur_of_ctl (ctl_storeWord h2)).trans hc1
    refine .alone ((vms_nextIp (by rwa [hc2])).trans ?_)
    have hne1 : q ≠ (s1.release p).cur := by
      rw [show (s1.release p).cur = s.cur from hc1]
      exact hne
    have hw : s1.vms q = s.vms q := vms_copyValue hd hne h1
    exact (vms_storeWord ha hne1 h2).trans hw
  · exact fared_activate rfl rfl

lemma fared_startWaiting {p func id : Nat} {noblock units : Bool} {timeout : Option Nat} (hne : q ≠ s.cur)
    (h : startWaiting inp s p func id noblock units timeout = .ok s') : Fared o q s s' := by
  unfold startWaiting at h
  split at h
  · simp only [bind_eq_ok, pure_eq_ok] at h
    obtain ⟨now, -, rfl⟩ := h
    exact fared_activate rfl (if_neg hne)
  · split at h
    · obtain rfl := pure_eq_ok.mp h
      exact fared_activate rfl (if_neg hne)
    · obtain rfl := pure_eq_ok.mp h
      exact fared_activate rfl (if_neg hne)

lemma fared_insnWait {quaint timeout : Opd} {func id : Nat} {noblock units hasTimeout : Bool}
    (hne : q ≠ s.cur) (h : insnWait inp s quaint timeout func id noblock units hasTimeout = .ok s') :
    Fared o q s s' := by
  obtain ⟨p, -, ⟨-, rfl⟩ | ⟨-, -, -, rfl⟩ | ⟨-, -, -, t, -, ⟨-, rfl⟩ | ⟨-, h⟩⟩⟩ := insnWait_cases h
  · exact .alone (vms_nextIp hne)
  · exact .alone (vms_nextIp hne)
  · exact .alone (vms_nextIp hne)
  · exact fared_startWaiting hne h

lemma vms_addVm {a : Nat} {v : Qvm} (hq : q ∈ s.live) {size : Nat} (ha : fresh s a size = true)
    (hsize : 0 < size) : (State.addVm s a v).vms q = s.vms q :=
  if_neg fun h : q = a => (not_live_of_fresh hsize ha).2 (h ▸ hq)

lemma vms_insnQnt {dst loc ssp : Opd} (hq : q ∈ s.live) (hne : q ≠ s.cur)
    (h : insnQnt inp s dst loc ssp = .ok s') : s'.cur = s.cur ∧ s'.vms q = s.vms q := by
  simp only [insnQnt, bind_eq_ok, legalIf_eq_ok, orNomem_eq_ok, orUb_eq_ok, pure_eq_ok] at h
  obtain ⟨_, _, _, hd, _, _, _, _, _, _, _, _, l, _, sp, _, a, ha, _, _, args, _, _, _, s1, h1, rfl⟩ := h
  have hc := cur_of_ctl (ctl_storeWord h1)
  have hne1 : q ≠ (State.addVm s a (newQuaint l args)).cur := hne
  refine ⟨hc, ?_⟩
  rw [vms_setVm _ (by rwa [hc]), vms_storeWord (beq_iff_eq.mp hd) hne1 h1]
  exact vms_addVm hq (alloc_fresh ha) (by decide)

lemma vms_insnQntv {dst val : Opd} (hq : q ∈ s.live) (hne : q ≠ s.cur)
    (h : insnQntv inp s dst val = .ok s') : s'.cur = s.cur ∧ s'.vms q = s.vms q := by
  simp only [insnQntv, bind_eq_ok, legalIf_eq_ok, orNomem_eq_ok] at h
  obtain ⟨_, _, _, hd, _, _, _, _, bs, _, a, ha, _, _, h1⟩ := h
  have hne1 : q ≠ (State.addVm s a (endedQuaint bs)).cur := hne
  have hc := cur_of_ctl (ctl_storeWord h1)
  refine ⟨hc, ?_⟩
  rw [vms_storeWord (beq_iff_eq.mp hd) hne1 h1]
  exact vms_addVm hq (alloc_fresh ha) (by decide)

lemma isReap_isWait_of_return {retval : List UInt8} (h : returnToParent o s retval = .ok s') :
    ∃ i, o.insns[(s.vms s.vm.parent).ip]? = some i ∧ (isReap i = true ∨ isWait i = true) ∧
      s'.cur = s.vm.parent := by
  simp only [returnToParent, bind_eq_ok, orUb_eq_ok] at h
  obtain ⟨_, _, i, hi, h⟩ := h
  refine ⟨i, hi, ?_⟩
  cases i with
  | rtev dst src =>
    simp only [bind_eq_ok, pure_eq_ok] at h
    obtain ⟨_, _, _, _, s1, h1, s2, h2, rfl⟩ := h
    exact ⟨.inl rfl, (cur_of_ctl (ctl_storeWord h2)).trans (cur_of_ctl (ctl_storeOpd h1))⟩
  | rte src =>
    simp only [bind_eq_ok, pure_eq_ok] at h
    obtain ⟨_, _, s1, h1, rfl⟩ := h
    exact ⟨.inl rfl, cur_of_ctl (ctl_storeWord h1)⟩
  | wait quaint timeout func id noblock units hasTimeout =>
    simp only [bind_eq_ok, pure_eq_ok] at h
    obtain ⟨_, _, rfl⟩ := h
    exact ⟨.inr rfl, rfl⟩
  | _ => cases h

/-- A return to the quaint below. -/
lemma vms_returnToParent (hs : directStores o = true) {retval : List UInt8} (hne : q ≠ s.cur)
    (hp : q ≠ s.vm.parent) (h : returnToParent o s retval = .ok s') : s'.vms q = s.vms q := by
  simp only [returnToParent, bind_eq_ok, orUb_eq_ok] at h
  obtain ⟨_, _, i, hi, h⟩ := h
  have hd := stored_direct hs hi
  cases i with
  | rtev dst src =>
    simp only [bind_eq_ok, pure_eq_ok] at h
    obtain ⟨_, _, _, _, s1, h1, s2, h2, rfl⟩ := h
    have hc1 : (s1.release s.cur).cur = s.vm.parent := cur_of_ctl (ctl_storeOpd h1)
    have hc2 : s2.cur = s.vm.parent := (cur_of_ctl (ctl_storeWord h2)).trans hc1
    have hw : s1.vms q = s.vms q := vms_storeOpd (s := s.setCur s.vm.parent) (hd dst (by simp [stored])) hp h1
    rw [vms_nextIp (by rwa [hc2]), vms_storeWord (hd src (by simp [stored])) (by rwa [hc1]) h2]
    exact hw
  | rte src =>
    simp only [bind_eq_ok, pure_eq_ok] at h
    obtain ⟨_, _, s1, h1, rfl⟩ := h
    have hp' : q ≠ ((s.setCur s.vm.parent).release s.cur).cur := hp
    have hc1 : s1.cur = s.vm.parent := cur_of_ctl (ctl_storeWord h1)
    rw [vms_nextIp (by rwa [hc1]), vms_storeWord (hd src (by simp [stored])) hp' h1]
    rfl
  | wait quaint timeout func id noblock units hasTimeout =>
    simp only [bind_eq_ok, pure_eq_ok] at h
    obtain ⟨_, _, rfl⟩ := h
    rw [vms_nextIp hp, vms_setVm _ hp]
    exact vms_setVm _ hne
  | _ => cases h

lemma fared_handleReturn (hs : directStores o = true) {signd : Bool} {retval : List UInt8}
    (hne : q ≠ s.cur) (h : handleReturn o s signd retval = .ok s') : Fared o q s s' := by
  unfold handleReturn at h
  split at h
  · by_cases hp : q = s.vm.parent
    · obtain ⟨i, hi, hk, hc⟩ := isReap_isWait_of_return h
      exact .returned (hc.trans hp.symm) hp.symm i (hp ▸ hi) hk
    · exact .alone (vms_returnToParent hs hne hp h)
  · refine .alone ?_
    split at h
    · simp only [returnFromMain, bind_eq_ok] at h
      obtain ⟨saved, _, h⟩ := h
      split at h
      · split at h
        · cases h
        · rw [← pure_eq_ok.mp h]
          exact vms_setVm _ hne
      · simp only [ne_eq, not_true_eq_false, if_false, pure_eq_ok] at h
        rw [← h]
        exact vms_setVm _ hne
    · simp only [returnToCaller, bind_eq_ok] at h
      obtain ⟨_, _, saved, _, _, _, _, _, h⟩ := h
      split at h
      · rw [← pure_eq_ok.mp h]
        exact (vms_nextIp (s := s.setVm _) hne).trans (vms_setVm _ hne)
      · simp only [bind_eq_ok, orUb_eq_ok] at h
        obtain ⟨i, hi, h⟩ := h
        have hd := stored_direct hs hi
        cases i with
        | callv val loc bp =>
          simp only [bind_eq_ok, pure_eq_ok] at h
          obtain ⟨_, _, s1, h1, rfl⟩ := h
          have hc1 := cur_of_ctl (ctl_storeOpd h1)
          rw [vms_nextIp (by rw [hc1]; exact hne)]
          exact (vms_storeOpd (s := s.setVm _) (hd val (by simp [stored])) hne h1).trans (vms_setVm _ hne)
        | _ => cases h

end Instructions

/-! ### Rounds -/

section Rounds

variable {o : Obj} {inp : Inp} {q : Nat} {s s1 s' : State} {i : Insn}

lemma leaveFrame_vms {size : Opd} (hne : q ≠ s.cur) (h : leaveFrame s size = .ok s1) :
    s1.cur = s.cur ∧ s1.vms q = s.vms q ∧ s1.vm.parent = s.vm.parent := by
  obtain ⟨-, rfl⟩ := leaveFrame_eq_ok h
  refine ⟨rfl, vms_setVm _ hne, ?_⟩
  rw [setVm_vm]

/-- What becomes of a quaint behind an instruction that has changed only the one running. -/
lemma Fared.behind {s0 : State} (hcur : s0.cur = s.cur) (h : s0.vms q = s.vms q)
    (hp : s0.vm.parent = s.vm.parent) (hf : Fared o q s0 s1) : Fared o q s s1 := by
  cases hf with
  | alone h1 => exact .alone (h1.trans h)
  | entered hc h1 => exact .entered hc (by rw [h1, h, hcur])
  | returned hc hp1 i hi hk => exact .returned hc (hp.symm.trans hp1) i (h ▸ hi) hk

lemma fared_insnRet (hs : directStores o = true) {val : Option Opd} {size : Opd} (hne : q ≠ s.cur)
    (h : insnRet o s val size = .ok s') : Fared o q s s' := by
  simp only [insnRet, bind_eq_ok] at h
  obtain ⟨s1, h1, h⟩ := h
  obtain ⟨hc, hv, hp⟩ := leaveFrame_vms hne h1
  have hne1 : q ≠ s1.cur := by rwa [hc]
  cases val with
  | none => exact (fared_handleReturn hs hne1 h).behind hc hv hp
  | some v =>
    simp only [bind_eq_ok] at h
    obtain ⟨_, _, h⟩ := h
    exact (fared_handleReturn hs hne1 h).behind hc hv hp

/-- A built-in changes no other quaint, though it may free one. -/
structure Inner (q : Nat) (s s1 : State) : Prop where
  cur : s1.cur = s.cur
  vms : s1.vms q = s.vms q
  parent : s1.vm.parent = s.vm.parent

lemma inner_popParams {n : Nat} (hne : q ≠ s.cur) (hc : s1.cur = s.cur) (hv : s1.vms = s.vms) :
    Inner q s (popParams s1 n) := by
  refine ⟨hc, ?_, ?_⟩
  · rw [popParams, vms_setVm _ (by rwa [hc]), hv]
  · rw [popParams, setVm_vm, State.vm, State.vm, hc, hv]

lemma mallocBlock_vms {size : Nat} {m : Mem} :
    (mallocBlock inp s size m).1.cur = s.cur ∧ (mallocBlock inp s size m).1.vms = s.vms := by
  unfold mallocBlock
  split <;> exact ⟨rfl, rfl⟩

lemma inner_printNum {signd : Bool} {size : Nat} (hne : q ≠ s.cur) (h : printNum s signd size = .ok s') :
    Inner q s s' := by
  simp only [printNum, bind_eq_ok, pure_eq_ok] at h
  obtain ⟨_, _, a, _, rfl⟩ := h
  have hi := inner_popParams (n := 8) hne (rfl : s.cur = s.cur) rfl
  exact ⟨hi.cur, hi.vms, hi.parent⟩

lemma inner_bfunBody {r : State × List UInt8} (hne : q ≠ s.cur) (h : bfunBody inp s = .ok r) :
    Inner q s r.1 := by
  have pass : ∀ s1, s1.cur = s.cur → s1.vms = s.vms → Inner q s s1 := fun s1 hc hv =>
    ⟨hc, by rw [hv], by rw [State.vm, State.vm, hc, hv]⟩
  unfold bfunBody at h
  split at h
  · cases h
  · simp only [bind_eq_ok, pure_eq_ok] at h
    obtain ⟨now, _, rfl⟩ := h
    exact pass _ rfl rfl
  · simp only [bind_eq_ok, pure_eq_ok] at h
    obtain ⟨_, _, size, _, rfl⟩ := h
    exact inner_popParams hne mallocBlock_vms.1 mallocBlock_vms.2
  · simp only [bind_eq_ok, pure_eq_ok] at h
    obtain ⟨_, _, size, _, rfl⟩ := h
    exact inner_popParams hne mallocBlock_vms.1 mallocBlock_vms.2
  · simp only [bind_eq_ok, orUb_eq_ok, pure_eq_ok] at h
    obtain ⟨_, _, old, _, size, _, s1, hs1, rfl⟩ := h
    obtain ⟨heap, rfl⟩ := reallocBlock_heap hs1
    exact inner_popParams hne rfl rfl
  · simp only [bind_eq_ok, orUb_eq_ok, pure_eq_ok] at h
    obtain ⟨_, _, p, _, s1, hs1, rfl⟩ := h
    have hfree : s1.cur = s.cur ∧ s1.vms = s.vms := by
      unfold freeBlock at hs1
      split at hs1
      · rw [Option.some.inj hs1]
        exact ⟨rfl, rfl⟩
      · split at hs1
        · rw [← Option.some.inj hs1]
          exact ⟨rfl, rfl⟩
        · split at hs1
          · rw [← Option.some.inj hs1]
            exact ⟨rfl, rfl⟩
          · cases hs1
    exact inner_popParams hne hfree.1 hfree.2
  · simp only [bind_eq_ok, pure_eq_ok] at h
    obtain ⟨_, _, p, _, str, _, rfl⟩ := h
    have hi := inner_popParams (n := 8) hne (rfl : s.cur = s.cur) rfl
    exact ⟨hi.cur, hi.vms, hi.parent⟩
  iterate 8
    · simp only [bind_eq_ok, pure_eq_ok] at h
      obtain ⟨s1, h1, rfl⟩ := h
      exact inner_printNum hne h1
  · obtain rfl := pure_eq_ok.mp h
    exact pass _ rfl rfl
  · simp only [bind_eq_ok] at h
    obtain ⟨_, _, a, _, h⟩ := h
    cases h
  · obtain rfl := pure_eq_ok.mp h
    exact pass _ rfl rfl

lemma fared_insnBfun (hs : directStores o = true) (hne : q ≠ s.cur) (h : insnBfun inp o s = .ok s') :
    Fared o q s s' := by
  simp only [insnBfun, bind_eq_ok] at h
  obtain ⟨_, _, _, _, _, _, r, hr, base, _, h⟩ := h
  have hi := inner_bfunBody hne hr
  have hne1 : q ≠ r.1.cur := by rwa [hi.cur]
  have hv : (leaveBfun inp r.1 base).vms q = s.vms q := (vms_setVm _ hne1).trans hi.vms
  have hp : (leaveBfun inp r.1 base).vm.parent = s.vm.parent := by
    rw [leaveBfun, setVm_vm]
    exact hi.parent
  have hf := fared_handleReturn hs (s := leaveBfun inp r.1 base) hne1 h
  have hcur : (leaveBfun inp r.1 base).cur = s.cur := hi.cur
  exact hf.behind hcur hv hp

/-- **What an instruction does to a quaint that is not running.** -/
theorem fared_execInsn (hs : directStores o = true) (hq : q ∈ s.live) (hne : q ≠ s.cur)
    (hi : o.insns[s.vm.ip]? = some i) (h : execInsn inp o s i = .ok s') : Fared o q s s' := by
  have hd := stored_direct hs hi
  have data : ∀ {x : M State} {d : Opd} {n : Nat}, d.indirect = false →
      Returns x (Wrote (To s d n) s) → nextIp <$> x = .ok s' → Fared o q s s' := fun hd hx h =>
    .alone (vms_of_data hx hne (fun _ _ _ => owner_of_to hd hne) h)
  have next : ∀ {x : M State}, (∀ s1, x = .ok s1 → s1.cur = s.cur ∧ s1.vms q = s.vms q) →
      nextIp <$> x = .ok s' → Fared o q s s' := by
    intro x hx h
    obtain ⟨s1, h1, rfl⟩ := map_eq_ok.mp h
    obtain ⟨hc, hv⟩ := hx s1 h1
    exact .alone ((vms_nextIp (by rwa [hc])).trans hv)
  have own : ∀ v : Qvm, Fared o q s (s.setVm v) := fun v => .alone (vms_setVm v hne)
  cases i with
  | nop =>
    obtain rfl := pure_eq_ok.mp h
    exact own _
  | mov d a => exact data (hd d (by simp [stored])) (insnMov_wrote s d a) h
  | cast d a =>
    refine .alone (vms_of_data (insnCast_wrote s d a) hne (fun r off len hw => ?_) h)
    obtain ⟨n, -, hw⟩ := hw
    exact owner_of_to (hd d (by simp [stored])) hne hw
  | arith op d a b => exact data (hd d (by simp [stored])) (insnBinArith_wrote s d a b op) h
  | equ neq d a b => exact data (hd d (by simp [stored])) (insnEquNeq_wrote s d a b neq) h
  | cmp op d a b => exact data (hd d (by simp [stored])) (insnBinLogic_wrote s d a b op) h
  | not d a => exact data (hd d (by simp [stored])) (insnNot_wrote s d a) h
  | neg d a => exact data (hd d (by simp [stored])) (insnNeg_wrote s d a) h
  | bneg d a => exact data (hd d (by simp [stored])) (insnBneg_wrote s d a) h
  | oz d a => exact data (hd d (by simp [stored])) (insnOz_wrote s d a) h
  | inc dec d => exact data (hd d (by simp [stored])) (insnIncDec_wrote s d dec) h
  | incp dec d a =>
    refine .alone (vms_of_data (insnIncpDecp_wrote s d a dec) hne (fun r off len hw => ?_) h)
    rcases hw with hw | ⟨s1, hs1, hw⟩
    · exact owner_of_to (hd a (by simp [stored])) hne hw
    · refine owner_of_to (hd d (by simp [stored])) ?_ hw
      rwa [cur_of_ctl hs1.ctl]
  | jz jnz c loc =>
    simp only [execInsn, insnCjmp, bind_eq_ok] at h
    obtain ⟨_, _, a, _, h⟩ := h
    split at h
    · obtain rfl := pure_eq_ok.mp h
      exact own _
    · obtain rfl := pure_eq_ok.mp h
      exact own _
  | jmp loc =>
    obtain rfl := pure_eq_ok.mp h
    exact own _
  | pushr v ssp =>
    refine next (fun s1 h1 => ⟨?_, vms_insnPushr hne h1⟩) h
    exact congrArg Ctl.cur (insnPushr_ctl h1)
  | push v =>
    refine next (fun s1 h1 => ⟨?_, vms_insnPush hne h1⟩) h
    exact congrArg Ctl.cur (insnPush_ctl h1)
  | call loc bp | callv _ loc bp =>
    simp only [execInsn, insnCall, bind_eq_ok, pure_eq_ok] at h
    obtain ⟨_, _, _, _, _, _, ip, _, b, _, rfl⟩ := h
    exact own _
  | incsp a t =>
    refine next (fun s1 h1 => ?_) h
    simp only [insnIncsp, bind_eq_ok, pure_eq_ok] at h1
    obtain ⟨_, _, _, _, _, _, _, _, _, _, base, _, _, _, rfl⟩ := h1
    exact ⟨rfl, vms_setVm _ hne⟩
  | ret size =>
    have hx : insnRet o s none size = .ok s' := h
    exact fared_insnRet hs hne hx
  | retv v size =>
    have hx : insnRet o s (some v) size = .ok s' := h
    exact fared_insnRet hs hne hx
  | ref d a => exact data (hd d (by simp [stored])) (insnRef_wrote s d a) h
  | drf d a => exact data (hd d (by simp [stored])) (insnDrf_wrote s d a) h
  | rte a =>
    have hx : insnRte s none a = .ok s' := h
    exact fared_insnRte (by simp) (hd a (by simp [stored])) hne hx
  | rtev d a =>
    refine fared_insnRte (fun d' hd' => ?_) (hd a (by simp [stored])) hne h
    obtain rfl := Option.mem_some_iff.mp hd'
    exact hd d (by simp [stored])
  | qat d a func id => exact data (hd d (by simp [stored])) (insnQat_wrote s d a func id) h
  | wait quaint t func id noblock units hasTimeout => exact fared_insnWait hne h
  | wlab func id =>
    obtain rfl := pure_eq_ok.mp h
    exact .alone ((vms_nextIp (s := s.setVm _) hne).trans (vms_setVm _ hne))
  | getsp d => exact data (hd d (by simp [stored])) (insnGetsp_wrote s d) h
  | qnt d loc sp =>
    exact next (fun s1 h1 => vms_insnQnt hq hne h1) h
  | qntv d v =>
    exact next (fun s1 h1 => vms_insnQntv hq hne h1) h
  | noint | int =>
    obtain rfl := pure_eq_ok.mp h
    exact .alone ((vms_nextIp (s := s.setVm _) hne).trans (vms_setVm _ hne))
  | bfun => exact fared_insnBfun hs hne h

/-- The scheduler leaves a quaint alone or moves it past its `wait`. -/
lemma split_vms (h : checkAndEventuallySplitVms inp s = .ok s') : s'.vms q = s.vms q ∨
    s'.cur = q ∧ (s.vms q).waiting = true ∧ s'.vms q = Qvm.advance (Qvm.notWaiting (s.vms q)) := by
  unfold checkAndEventuallySplitVms at h
  split at h
  · obtain rfl := pure_eq_ok.mp h
    exact .inl rfl
  · rename_i s1 hs1
    obtain ⟨now, rfl⟩ := readClock_eq_some hs1
    simp only [bind_eq_ok] at h
    obtain ⟨_, _, r, hr, h⟩ := h
    cases r with
    | none =>
      obtain rfl := pure_eq_ok.mp h
      exact .inl rfl
    | some a =>
      obtain rfl := pure_eq_ok.mp h
      by_cases hq : q = a
      · subst hq
        obtain ⟨b, -, -, hsplits, -⟩ := splitLoop_found hr
        exact .inr ⟨rfl, splits_waiting hsplits, if_pos rfl⟩
      · exact .inl (if_neg hq)

/-- A round in which the quaint does not run, nor is it gone on with. -/
def Aside (o : Obj) (q : Nat) (s s' : State) : Prop :=
  q ∈ s.live ∧ q ≠ s.cur ∧ ∃ inp i s1, Round o inp i s s1 s' ∧ q ≠ s1.cur ∧ q ≠ s'.cur

/-- **A quaint that does not run is left as it is**: its place, its stack, its temporaries and its flags
are those it had, whatever the others do, if the program stores through no pointer. -/
theorem frozen_of_run (hs : directStores o = true) (run : ReflTransGen (Aside o q) s s') :
    s'.vms q = s.vms q := by
  refine invariant_of_run (I := fun x => x.vms q = s.vms q) (fun x x' hx hstep => ?_) rfl run
  obtain ⟨hq, hne, inp, i, s1, hr, hne1, hne2⟩ := hstep
  have h1 : s1.vms q = x.vms q := by
    cases fared_execInsn hs hq hne hr.fetch hr.exec with
    | alone h => exact h
    | entered hc => exact absurd hc.symm hne1
    | returned hc => exact absurd hc.symm hne1
  rcases split_vms (q := q) hr.split with h2 | ⟨hc, -⟩
  · rw [h2, h1, hx]
  · exact absurd hc.symm hne2

/-- Rounds beside a quaint, with the given inputs. -/
def runAside (o : Obj) (q : Nat) : State → List Inp → M State
  | s, [] => .ok s
  | s, inp :: inps => do
    let i ← orUb o.insns[s.vm.ip]?
    let s1 ← execInsn inp o s i
    let s' ← step inp o s
    ubUnless (q ∈ s.live ∧ q ≠ s.cur ∧ q ≠ s1.cur ∧ q ≠ s'.cur)
    runAside o q s' inps

lemma run_of_runAside {inps : List Inp} (h : runAside o q s inps = .ok s') :
    ReflTransGen (Aside o q) s s' := by
  induction inps generalizing s with
  | nil =>
    cases h
    exact .refl
  | cons inp inps ih =>
    simp only [runAside, bind_eq_ok, orUb_eq_ok, ubUnless_eq_ok, decide_eq_true_eq] at h
    obtain ⟨j, hj, s1, hs1, t, ht, _, ⟨hq, hne, hne1, hne2⟩, h⟩ := h
    obtain ⟨i, s2, hr⟩ := step_eq_ok.mp ht
    obtain rfl := Option.some.inj (hr.fetch.symm.trans hj)
    obtain rfl := Except.ok.inj (hr.exec.symm.trans hs1)
    exact .head ⟨hq, hne, inp, i, s2, hr, hne1, hne2⟩ (ih h)

/-- The quaint just made is left as it is while the first one stores its handle. -/
theorem frozen_made : ∃ s s', ReflTransGen (Aside selfWaitObj 1114112) s s' ∧ (s.vms 65536).ip = 20 ∧
    (s'.vms 65536).ip = 22 ∧ s'.vms 1114112 = s.vms 1114112 := by
  have hlook : (do
      let s ← runWhile (fun _ => true) selfWaitObj (initState selfWaitObj 65536 131072) (stillFrom 1048576 3)
      let s' ← runAside selfWaitObj 1114112 s [still 0, still 0]
      return ((s.vms 65536).ip, (s'.vms 65536).ip)) = .ok (20, 22) := by decide +kernel
  simp only [bind_eq_ok, pure_eq_ok, Prod.mk.injEq] at hlook
  obtain ⟨s, -, s', hrun, hip, hip'⟩ := hlook
  have run := run_of_runAside hrun
  exact ⟨s, s', run, hip, hip', frozen_of_run (by decide +kernel) run⟩

end Rounds

end Quaint.Isolation
