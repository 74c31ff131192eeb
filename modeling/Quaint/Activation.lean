import Quaint.Splitting
import Quaint.Transition
import Quaint.Program

/-!
The chain of parents above the running quaint.

`wait` and the reap make the running quaint the parent of the one they go on with. As long
as that one is not already on the chain, the chain stays a list that ends at the first quaint,
and the scheduler's walk along it ends.
-/

namespace Quaint.Activation

open Relation Types Ast Bytes Code Exec Step Control Effect Ancestry Transition Partial Splitting
  Program

/-! ### Runs -/

/-- One round of `exec`, under some inputs. -/
def Next (o : Obj) (s s' : State) : Prop := ∃ inp, step inp o s = .ok s'

/-- The rounds under some inputs, from states that pass a test. -/
def runWhile (ok : State → Bool) (o : Obj) : State → List Inp → M State
  | s, [] => .ok s
  | s, inp :: inps =>
    if ok s then step inp o s >>= fun s' => runWhile ok o s' inps else .error .ub

lemma run_of_runWhile {P : State → Prop} {ok : State → Bool} (hok : ∀ s, ok s = true → P s)
    {o : Obj} {inps : List Inp} {s s' : State} (h : runWhile ok o s inps = .ok s') :
    ReflTransGen (Guarded P (Next o)) s s' := by
  induction inps generalizing s with
  | nil =>
    cases h
    exact .refl
  | cons inp inps ih =>
    rw [runWhile] at h
    split at h
    · rename_i hs
      obtain ⟨s1, h1, h⟩ := bind_eq_ok.mp h
      exact .head ⟨hok s hs, inp, h1⟩ (ih h)
    · cases h

/-- The quaint is the running one or one of those above it. -/
def OnChain (c : Ctl) (q : Nat) : Prop := ReflTransGen (IsParent c.parent) c.cur q

/-- The instruction the running quaint stands at neither waits on, nor reaps, nor frees the
running quaint or one of those above it. -/
def SparesChain (o : Obj) (s : State) : Prop :=
  ∀ i, o.insns[s.vm.ip]? = some i → ∀ q,
    (words s i).handle = some q ∨ (words s i).freed = some q → ¬ OnChain (ctl s) q

/-! ### The invariant -/

/-- The chain is a list that ends at the first quaint, and all on it are in use and not at
their end. -/
def ChainInv (main : Nat) (c : Ctl) : Prop :=
  ∃ l, Chain c.parent main c.cur l ∧
    ∀ a ∈ l, a ≠ 0 ∧ a ∈ c.live ∧ (c.threads a).atEnd = false

/-- A move leaves the part of a thread alone that only switches change. -/
def SameSched (t t' : Thread) : Prop :=
  t'.parent = t.parent ∧ t'.atEnd = t.atEnd ∧ t'.waiting = t.waiting ∧
    t'.waitingFor = t.waitingFor ∧ t'.waitingUntil = t.waitingUntil ∧ t'.w0 = t.w0 ∧ t'.w1 = t.w1

lemma ownMove_sameSched {i : Insn} {t t' : Thread} (h : OwnMove i t t') : SameSched t t' := by
  unfold OwnMove at h
  split at h
  · rcases h with rfl | rfl <;> exact ⟨rfl, rfl, rfl, rfl, rfl, rfl, rfl⟩
  all_goals first
    | exact h.elim
    | (obtain ⟨_, _, rfl⟩ := h; exact ⟨rfl, rfl, rfl, rfl, rfl, rfl, rfl⟩)

lemma parent_congr {c c' : Ctl} {a : Nat} (h : (c'.threads a).parent = (c.threads a).parent) :
    c'.parent a = c.parent a := by simp only [Ctl.parent, h]

section Inv

variable {main : Nat} {c c' : Ctl}

lemma setThis_threads (c : Ctl) (t : Thread) (a : Nat) :
    (c.setThis t).threads a = if a = c.cur then t else c.threads a := rfl

lemma activate_threads (c : Ctl) (q a : Nat) :
    (c.activate q).threads a = if a = q then { c.threads q with parent := c.cur } else c.threads a :=
  rfl

lemma parent_setThis {t : Thread} (h : t.parent = c.this.parent) :
    (c.setThis t).parent = c.parent := by
  funext a
  refine parent_congr ?_
  rw [setThis_threads]
  split
  · rename_i hac
    rw [h, hac]
    rfl
  · rfl

/-- The invariant only reads the running thread, the chain and what is on it. -/
lemma ChainInv.congr (h : ChainInv main c) (hcur : c'.cur = c.cur)
    (hlive : ∀ a, OnChain c a → a ∈ c.live → a ∈ c'.live)
    (hthread : ∀ a, OnChain c a → (c'.threads a).parent = (c.threads a).parent ∧
      (c'.threads a).atEnd = (c.threads a).atEnd) : ChainInv main c' := by
  obtain ⟨l, hl, hmem⟩ := h
  have hon : ∀ a ∈ l, OnChain c a := fun a ha => hl.reaches_of_mem ha
  refine ⟨l, ?_, fun a ha => ⟨(hmem a ha).1, hlive a (hon a ha) (hmem a ha).2.1, ?_⟩⟩
  · rw [hcur]
    exact hl.congr fun a ha => parent_congr (hthread a (hon a ha)).1
  · rw [(hthread a (hon a ha)).2]
    exact (hmem a ha).2.2

/-- A change of the running thread that no switch is part of. -/
lemma ChainInv.setThis (h : ChainInv main c) {t : Thread} (hp : t.parent = c.this.parent)
    (he : t.atEnd = c.this.atEnd) : ChainInv main (c.setThis t) := by
  refine h.congr rfl (fun _ _ ha => ha) fun a _ => ?_
  by_cases hac : a = c.cur
  · subst hac
    have ht : (c.setThis t).threads c.cur = t := Ctl.set_threads_self _ _ _
    rw [ht]
    exact ⟨hp, he⟩
  · have ht : (c.setThis t).threads a = c.threads a := Ctl.set_threads_ne _ _ hac
    rw [ht]
    exact ⟨rfl, rfl⟩

lemma ChainInv.onChain (h : ChainInv main c) {a : Nat} (ha : OnChain c a) :
    a ≠ 0 ∧ a ∈ c.live ∧ (c.threads a).atEnd = false := by
  obtain ⟨l, hl, hmem⟩ := h
  exact hmem a (hl.mem_of_reaches ha)

/-- Another quaint, not on the chain, becomes the running one. -/
lemma ChainInv.activate (h : ChainInv main c) {q : Nat} (hq : ¬ OnChain c q) (h0 : q ≠ 0)
    (hlive : q ∈ c.live) (hend : (c.threads q).atEnd = false) : ChainInv main (c.activate q) := by
  have hcur : c.cur ≠ 0 := (h.onChain .refl).1
  obtain ⟨l, hl, hmem⟩ := h
  have hql : q ∉ l := fun hmem => hq (hl.reaches_of_mem hmem)
  have hother : ∀ a ∈ l, (c.activate q).threads a = c.threads a := fun a ha =>
    Ctl.set_threads_ne _ _ fun haq => hql (haq ▸ ha)
  have hself : (c.activate q).threads q = { c.threads q with parent := c.cur } :=
    Ctl.set_threads_self _ _ _
  refine ⟨q :: l, .link ?_ (hl.congr fun a ha => parent_congr (by rw [hother a ha])), ?_⟩
  · show (c.activate q).parent q = some c.cur
    simp only [Ctl.parent, hself, hcur, if_false]
  · intro a ha
    rcases List.mem_cons.mp ha with rfl | ha
    · rw [hself]
      exact ⟨h0, hlive, hend⟩
    · rw [hother a ha]
      exact hmem a ha

/-- The parent goes on, and the quaint below it is dropped or marked. -/
lemma ChainInv.toParent (h : ChainInv main c) (hp : c.this.parent ≠ 0)
    (hcur : c'.cur = c.this.parent) (hlive : ∀ a ≠ c.cur, a ∈ c.live → a ∈ c'.live)
    (hthread : ∀ a ≠ c.cur, (c'.threads a).parent = (c.threads a).parent ∧
      (c'.threads a).atEnd = (c.threads a).atEnd) : ChainInv main c' := by
  obtain ⟨l, hl, hmem⟩ := h
  obtain ⟨l', hl', rfl⟩ := hl.tail_of (show c.parent c.cur = some c.this.parent from if_neg hp)
  have hnot : ∀ a ∈ l', a ≠ c.cur := by
    rintro a ha rfl
    exact (List.nodup_cons.mp hl.nodup).1 ha
  refine ⟨l', ?_, fun a ha => ?_⟩
  · rw [hcur]
    exact hl'.congr fun a ha => parent_congr (hthread a (hnot a ha)).1
  · have hm := hmem a (List.mem_cons_of_mem _ ha)
    exact ⟨hm.1, hlive a (hnot a ha) hm.2.1, (hthread a (hnot a ha)).2.trans hm.2.2⟩

lemma ChainInv.return {o : Obj} (h : ChainInv main c) (hr : Return o c c') : ChainInv main c' := by
  cases hr with
  | caller ip bp hsp hip => exact h.setThis rfl rfl
  | main ip bp hsp hp => exact h.setThis rfl rfl
  | reap i hsp hp hlive hi hreap =>
    refine h.toParent hp rfl (fun a ha hl => (List.mem_erase_of_ne ha).mpr hl) fun a ha => ?_
    by_cases hap : a = c.this.parent
    · subst hap
      have ht : (((c.release c.cur).setCur c.this.parent).setThis
          (c.threads c.this.parent).advance).threads c.this.parent =
          (c.threads c.this.parent).advance := Ctl.set_threads_self _ _ _
      rw [ht]
      exact ⟨rfl, rfl⟩
    · have ht : (((c.release c.cur).setCur c.this.parent).setThis
          (c.threads c.this.parent).advance).threads a = c.threads a := Ctl.set_threads_ne _ _ hap
      rw [ht]
      exact ⟨rfl, rfl⟩
  | wait i hsp hp hlive hi hwait =>
    refine h.toParent hp rfl (fun a _ hl => hl) fun a ha => ?_
    set d := (c.setThis c.this.ended).setCur c.this.parent with hd
    have hda : d.threads a = c.threads a := Ctl.set_threads_ne _ _ ha
    by_cases hap : a = c.this.parent
    · have ht : (d.setThis d.this.notWaiting.advance).threads a = d.this.notWaiting.advance := by
        rw [hap]
        exact Ctl.set_threads_self _ _ _
      have hdt : d.this = c.threads a := by rw [← hda, hap]; rfl
      rw [ht, hdt]
      exact ⟨rfl, rfl⟩
    · have ht : (d.setThis d.this.notWaiting.advance).threads a = d.threads a :=
        Ctl.set_threads_ne _ _ hap
      rw [ht, hda]
      exact ⟨rfl, rfl⟩

/-- A new quaint is not on the chain. -/
lemma ChainInv.create (h : ChainInv main c) {a : Nat} {t : Thread} (hnew : a ∉ c.live) :
    ChainInv main { c.set a t with live := a :: c.live } := by
  refine h.congr rfl (fun b _ hl => List.mem_cons_of_mem _ hl) fun b hb => ?_
  have hba : b ≠ a := by
    rintro rfl
    exact hnew (h.onChain hb).2.1
  have ht : (c.set a t).threads b = c.threads b := Ctl.set_threads_ne _ _ hba
  exact ⟨congrArg Thread.parent ht, congrArg Thread.atEnd ht⟩

/-- A quaint that is not on the chain may be freed. -/
lemma ChainInv.free (h : ChainInv main c) {freed : Option Nat} {live : List Nat} {now : Nat}
    (hlive : live = c.live ∨ ∃ p, freed = some p ∧ p ≠ c.cur ∧ live = c.live.erase p)
    (hspares : ∀ p, freed = some p → ¬ OnChain c p) : ChainInv main { c with live := live, now := now } := by
  refine h.congr rfl (fun a ha hl => ?_) fun a _ => ⟨rfl, rfl⟩
  rcases hlive with rfl | ⟨p, hp, _, rfl⟩
  · exact hl
  · have hap : a ≠ p := fun hap => hspares p hp (hap ▸ ha)
    exact (List.mem_erase_of_ne hap).mpr hl

/-- One instruction, as long as it leaves the chain alone. -/
theorem ChainInv.exec {o : Obj} {i : Insn} {w : Words} (h : ChainInv main c)
    (hspares : ∀ q, w.handle = some q ∨ w.freed = some q → ¬ OnChain c q)
    (hx : Exec o i w c c') : ChainInv main c' := by
  cases hx with
  | own t hmove hreap hwait =>
    have hs := ownMove_sameSched hmove
    exact h.setThis hs.1 hs.2.1
  | reapEnded q hi hq h0 hlive hend =>
    have hr : ChainInv main (c.release q) := by
      refine h.congr rfl (fun a ha hl => ?_) fun a _ => ⟨rfl, rfl⟩
      have haq : a ≠ q := fun haq => hspares q (.inl hq) (haq ▸ ha)
      exact (List.mem_erase_of_ne haq).mpr hl
    exact hr.setThis rfl rfl
  | reap q hi hq h0 hlive hend => exact h.activate (hspares q (.inl hq)) h0 hlive hend
  | wait q now w0 w1 isFor isUntil hi hq h0 hlive hend =>
    have hn : ChainInv main (c.setNow now) :=
      h.congr rfl (fun _ _ hl => hl) fun _ _ => ⟨rfl, rfl⟩
    have hs : ChainInv main ((c.setNow now).setThis (c.this.startWait isFor isUntil w0 w1)) :=
      hn.setThis rfl rfl
    have hqc : q ≠ c.cur := fun hqc => hspares q (.inl hq) (hqc ▸ .refl)
    have hqt : ((c.setNow now).setThis (c.this.startWait isFor isUntil w0 w1)).threads q =
        c.threads q := Ctl.set_threads_ne _ _ hqc
    refine hs.activate (fun hon => hspares q (.inl hq) ?_) h0 hlive (hqt ▸ hend)
    have hpar : ((c.setNow now).setThis (c.this.startWait isFor isUntil w0 w1)).parent = c.parent :=
      parent_setThis (c := c.setNow now) rfl
    rw [OnChain, hpar] at hon
    exact hon
  | qnt dst loc ssp a ip sp n hi h0 hnew hcur =>
    have hthis := Ctl.set_threads_ne (c := c)
      (thread { Qvm.zero with ip := ip, bp := 16, sp := 16 + n, atStart := true }) hcur
    exact (h.create hnew).setThis (congrArg Thread.parent hthis).symm
      (congrArg Thread.atEnd hthis).symm
  | qntv dst val a hi h0 hnew hcur =>
    have hthis := Ctl.set_threads_ne (c := c)
      (thread { Qvm.zero with atStart := true, atEnd := true }) hcur
    exact (h.create hnew).setThis (congrArg Thread.parent hthis).symm
      (congrArg Thread.atEnd hthis).symm
  | ret size hi hsp c' hr =>
    have hs : ChainInv main (c.setThis { c.this with sp := c.this.sp - size.off }) :=
      h.setThis rfl rfl
    exact hs.return hr
  | bfun now n live hi hlive hsp c' hr =>
    have hl : ChainInv main { c with live := live, now := now } :=
      h.free hlive fun p hp => hspares p (.inr hp)
    have hs : ChainInv main (({ c with live := live, now := now } : Ctl).setThis
        { c.this with sp := c.this.sp - n - 16, depth := c.this.depth + 1 }) :=
      hl.setThis rfl rfl
    exact hs.return hr

theorem ChainInv.sched (h : ChainInv main c) (hs : Sched c c') : ChainInv main c' := by
  cases hs with
  | stay now => exact h.congr rfl (fun _ _ hl => hl) fun _ _ => ⟨rfl, rfl⟩
  | split now a hanc hwait hlive =>
    obtain ⟨l, hl, hmem⟩ := h
    obtain ⟨l', hl', hsuf⟩ := hl.suffix (hl.mem_of_reaches hanc.to_reflTransGen)
    have hthread : ∀ b, (((c.setNow now).set a (c.threads a).notWaiting.advance).threads b).parent =
        (c.threads b).parent ∧
        (((c.setNow now).set a (c.threads a).notWaiting.advance).threads b).atEnd =
        (c.threads b).atEnd := by
      intro b
      by_cases hba : b = a
      · subst hba
        rw [Ctl.set_threads_self]
        exact ⟨rfl, rfl⟩
      · rw [Ctl.set_threads_ne _ _ hba]
        exact ⟨rfl, rfl⟩
    refine ⟨l', hl'.congr fun b _ => parent_congr (hthread b).1, fun b hb => ?_⟩
    have hm := hmem b (hsuf.subset hb)
    exact ⟨hm.1, hm.2.1, (hthread b).2.trans hm.2.2⟩

/-- After an instruction that left the invariant standing, the scheduler returns. -/
lemma ChainInv.split_ends {s : State} {inp : Inp} (h : ChainInv main (ctl s)) :
    ∃ s', checkAndEventuallySplitVms inp s = .ok s' := by
  unfold checkAndEventuallySplitVms
  cases hs : readClock inp s with
  | none => exact ⟨_, rfl⟩
  | some s1 =>
    obtain ⟨now, hc⟩ := readClock_ctl hs
    have h1 : ChainInv main (ctl s1) := by
      rw [hc]
      exact h.congr rfl (fun _ _ hl => hl) fun _ _ => ⟨rfl, rfl⟩
    have hcur : s1.cur ∈ s1.live := (h1.onChain .refl).2.1
    obtain ⟨l, hl, hmem⟩ := h1
    change Chain (ctl s1).parent main s1.cur l at hl
    have hlive : ∀ a ∈ l, a ∈ s1.live := fun a ha => (hmem a ha).2.1
    have hloop := splitLoop_eq hl hlive (length_le_splitFuel hl hlive)
    simp only [State.vm, hcur, decide_true, ubUnless, if_true, hloop]
    cases firstOpen _ _ l with
    | none => exact ⟨_, rfl⟩
    | some a => exact ⟨_, rfl⟩

end Inv

/-! ### Runs that spare the chain -/

section Run

variable {o : Obj} {a b : Nat} {s s' : State}

lemma chainInv_init (ha : a ≠ 0) : ChainInv a (ctl (initState o a b)) := by
  have hp : (ctl (initState o a b)).parent a = none := by
    simp [Ctl.parent, ctl, initState, thread, Qvm.zero]
  refine ⟨[a], .root hp, fun x hx => ?_⟩
  obtain rfl := List.mem_singleton.mp hx
  exact ⟨ha, List.mem_singleton.mpr rfl, by simp [ctl, initState, thread, Qvm.zero]⟩

lemma ChainInv.next (h : ChainInv a (ctl s)) (hs : SparesChain o s) (hn : Next o s s') :
    ChainInv a (ctl s') := by
  obtain ⟨inp, hstep⟩ := hn
  obtain ⟨i, s1, hr⟩ := step_eq_ok.mp hstep
  exact (h.exec (hs i hr.fetch) hr.ctl.1).sched hr.ctl.2

lemma chainInv_of_run (ha : a ≠ 0)
    (run : ReflTransGen (Guarded (SparesChain o) (Next o)) (initState o a b) s) :
    ChainInv a (ctl s) :=
  invariant_of_run (I := fun s => ChainInv a (ctl s)) (fun _ _ h hg => h.next hg.1 hg.2)
    (chainInv_init ha) run

/-- The chain of parents ends at the first quaint, which has none. -/
def ChainEnds (main : Nat) (s : State) : Prop := ∃ l, Chain (ctl s).parent main s.cur l

/-- **The chain of parents**: in a run in which no quaint waits on, reaps or frees itself or
one above it, the chain is acyclic and ends at the first quaint, also between an instruction
and the scheduler's walk, which ends. -/
theorem chain_ends_of_run (ha : a ≠ 0)
    (run : ReflTransGen (Guarded (SparesChain o) (Next o)) (initState o a b) s) :
    (ChainEnds a s ∧ ∀ q, OnChain (ctl s) q → ¬ TransGen (IsParent (ctl s).parent) q q) ∧
    (SparesChain o s → ∀ inp i s', o.insns[s.vm.ip]? = some i → execInsn inp o s i = .ok s' →
      ChainEnds a s' ∧ ∃ s'', checkAndEventuallySplitVms inp s' = .ok s'') := by
  have h := chainInv_of_run ha run
  have hcur : s.cur ∈ s.live := (h.onChain .refl).2.1
  refine ⟨?_, fun hs inp i s' hi hx => ?_⟩
  · obtain ⟨l, hl, _⟩ := h
    exact ⟨⟨l, hl⟩, fun q hq => hl.acyclic (hl.mem_of_reaches hq)⟩
  · have h' : ChainInv a (ctl s') := h.exec (hs i hi) (ctl_execInsn hcur hx)
    obtain ⟨l, hl, _⟩ := id h'
    exact ⟨⟨l, hl⟩, h'.split_ends⟩

/-! ### A quaint that waits on itself -/

/-- `g: quaint(); m { g = ~f(); wait g; } f { wait g; }` -/
def selfWait : Ast.Unit :=
  ⟨[],
    [.decl ⟨false, false, false, [letter 103 0], .quaint 1 .zero, .absent⟩,
     .func ⟨false, letter 109 15, .nil, .none,
       .cons (.expr (.bexp (letter 103 19) .assn (.name (letter 103 19))
         (.uexp .tild (.fexp (.name (letter 102 24)) .nil))))
       (.cons (.wait (.name (letter 103 34)) .absent .absent false false) .nil)⟩,
     .func ⟨false, letter 102 39, .nil, .none,
       .cons (.wait (.name (letter 103 48)) .absent .absent false false) .nil⟩]⟩

def waitSelf : Insn := .wait (opdGlob false 0 8) (opdImm false 0 1) 0 0 false false false

def selfWaitObj : Obj :=
  let temp (off : Nat) : Opd := ⟨.temp, false, false, off, 8⟩
  ⟨8, [], List.replicate 17 Insn.bfun ++
    [Insn.incsp (opdImm false 0 8) (opdImm false 16 8), .getsp (temp 8),
     .qnt (temp 0) (opdImm false 24 8) (temp 8), .mov (opdGlob false 0 8) (temp 0), .nop, waitSelf,
     .ret (opdImm false 16 8), .incsp (opdImm false 0 8) (opdImm false 0 8), waitSelf,
     .ret (opdImm false 16 8)]⟩

/-- The chain from a quaint up, as long as the fuel lasts. -/
def chainList (s : State) : Nat → Nat → Option (List Nat)
  | 0, _ => none
  | n + 1, a =>
    if (s.vms a).parent = 0 then some [a] else (chainList s n (s.vms a).parent).map (a :: ·)

/-- A test for `SparesChain`, on chains of at most eight. -/
def sparesChain (o : Obj) (s : State) : Bool :=
  match o.insns[s.vm.ip]?, chainList s 8 s.cur with
  | some i, some l => [(words s i).handle, (words s i).freed].all fun w => w.all fun q => !l.contains q
  | _, _ => false

lemma chainList_sound {n x : Nat} {l : List Nat} (h : chainList s n x = some l) :
    ∃ root, Chain (ctl s).parent root x l := by
  induction n generalizing x l with
  | zero => cases h
  | succ n ih =>
    rw [chainList] at h
    split at h
    · rename_i hp
      obtain rfl := Option.some.inj h
      exact ⟨x, .root (if_pos hp)⟩
    · rename_i hp
      obtain ⟨l', hl', rfl⟩ := Option.map_eq_some_iff.mp h
      obtain ⟨root, hr⟩ := ih hl'
      exact ⟨root, .link (if_neg hp) hr⟩

lemma sparesChain_sound (h : sparesChain o s = true) : SparesChain o s := by
  intro i hi q hq hon
  cases hl : chainList s 8 s.cur with
  | none => simp [sparesChain, hi, hl] at h
  | some l =>
    obtain ⟨root, hr⟩ := chainList_sound hl
    have hmem : q ∈ l := hr.mem_of_reaches hon
    simp only [sparesChain, hi, hl, List.all_cons, List.all_nil, Bool.and_true,
      Bool.and_eq_true] at h
    rcases hq with hq | hq <;> simp [hq, hmem] at h

/-- Clocks that stand still, and an allocator that takes the given address. -/
def still (addr : Nat) : Inp := ⟨some 0, some 0, some addr, some addr, fun _ => 0, 0⟩

/-- The addresses the allocator takes one after the other. -/
def stillFrom (addr : Nat) (rounds : Nat) : List Inp :=
  (List.range rounds).map fun k => still (addr + 32768 * k)

/-- What is looked at after the run: the instruction, the running quaint and its parent after
it, and whether the scheduler returns. -/
def selfWaitLook (s : State) : Option Insn × M (Nat × Nat) × M PUnit :=
  let after := execInsn (still 0) selfWaitObj s waitSelf
  (selfWaitObj.insns[s.vm.ip]?, (fun s' => (s'.cur, s'.vm.parent)) <$> after,
    after >>= fun s' => (fun _ => ⟨⟩) <$> checkAndEventuallySplitVms (still 0) s')

/-- The quaint becomes its own parent, and the scheduler walks in a circle. -/
theorem self_wait_cycle : Compiles selfWait selfWaitObj ∧
    ∃ s i s', ReflTransGen (Next selfWaitObj) (initState selfWaitObj 65536 131072) s ∧
      selfWaitObj.insns[s.vm.ip]? = some i ∧ execInsn (still 0) selfWaitObj s i = .ok s' ∧
      ¬ ChainEnds 65536 s' ∧ checkAndEventuallySplitVms (still 0) s' = .error .hang := by
  have hlook : selfWaitLook <$> runWhile (fun _ => true) selfWaitObj (initState selfWaitObj 65536 131072)
      (stillFrom 1048576 7) = .ok (some waitSelf, .ok (1114112, 1114112), .error .hang) := by
    decide +kernel
  obtain ⟨s, hrun, hs⟩ := map_eq_ok.mp hlook
  simp only [selfWaitLook, Prod.mk.injEq] at hs
  obtain ⟨hi, hafter, hsplit⟩ := hs
  obtain ⟨s', hx, hs'⟩ := map_eq_ok.mp hafter
  obtain ⟨hcur, hparent⟩ := Prod.mk.inj hs'
  refine ⟨by decide +kernel, s, waitSelf, s', run_of_guarded (run_of_runWhile (P := fun _ => True)
    (fun _ _ => trivial) hrun), hi, hx, ?_, ?_⟩
  · rintro ⟨l, hl⟩
    have hself : IsParent (ctl s').parent s'.cur s'.cur := by
      have hp : (s'.vms s'.cur).parent = s'.cur := hparent.trans hcur.symm
      have h0 : (s'.vms s'.cur).parent ≠ 0 := by
        rw [hp, hcur]
        decide
      exact (if_neg h0).trans (congrArg some hp)
    exact hl.acyclic hl.head_mem (.single hself)
  · simp only [hx, bind, Except.bind] at hsplit
    cases hc : checkAndEventuallySplitVms (still 0) s' with
    | ok s'' => simp [hc, Functor.map, Except.map] at hsplit
    | error e => simpa [hc, Functor.map, Except.map] using hsplit

/-! ### Nested waits and reaps -/

def monotimeSym : Sym := ⟨[109, 111, 110, 111, 116, 105, 109, 101], 165⟩

/-- The quaint a name is given by `name = ~function();`, a statement of 10 characters. -/
def quaintify (name func : UInt8) (beg : Nat) : Stmt :=
  .expr (.bexp (letter name beg) .assn (.name (letter name beg))
    (.uexp .tild (.fexp (.name (letter func (beg + 5))) .nil)))

/-- `g, h: quaint();`
`m { g = ~f(); wait g until f::l; *g; }`
`f { h = ~k(); wait h until k::p; [l] *h; }`
`k { [p] monotime(); }` -/
def nested : Ast.Unit :=
  ⟨[],
    [.decl ⟨false, false, false, [letter 103 0, letter 104 3], .quaint 1 .zero, .absent⟩,
     .func ⟨false, letter 109 16, .nil, .none,
       .cons (quaintify 103 102 20)
       (.cons (.wait (.name (letter 103 35)) .absent
         (.bexp (letter 102 43) .scop (.name (letter 102 43)) (.name (letter 108 46))) false false)
       (.cons (.expr (.uexp .mult (.name (letter 103 50)))) .nil))⟩,
     .func ⟨false, letter 102 55, .nil, .none,
       .cons (quaintify 104 107 59)
       (.cons (.wait (.name (letter 104 74)) .absent
         (.bexp (letter 107 82) .scop (.name (letter 107 82)) (.name (letter 112 85))) false false)
       (.cons (.wlab (letter 108 89)) (.cons (.expr (.uexp .mult (.name (letter 104 93)))) .nil)))⟩,
     .func ⟨false, letter 107 98, .nil, .none,
       .cons (.wlab (letter 112 103)) (.cons (.expr (.fexp (.name monotimeSym) .nil)) .nil)⟩]⟩

def nestedObj : Obj :=
  let temp (off : Nat) : Opd := ⟨.temp, false, false, off, 8⟩
  let glob (off : Nat) : Opd := opdGlob false off 8
  let entry : Insn := .incsp (opdImm false 0 8) (opdImm false 16 8)
  let make (off loc : Nat) : List Insn :=
    [.getsp (temp 8), .qnt (temp 0) (opdImm false loc 8) (temp 8), .mov (glob off) (temp 0), .nop]
  let wait (off func id : Nat) : Insn := .wait (glob off) (opdImm false 0 1) func id false false false
  let leave : Insn := .ret (opdImm false 16 8)
  ⟨16, [], List.replicate 17 Insn.bfun ++ (entry :: make 0 26 ++ [wait 0 57 1, .rte (glob 0), .nop, leave,
     entry] ++ make 8 36 ++ [wait 8 100 1, .wlab 57 1, .rte (glob 8), .nop, leave,
     entry, .wlab 100 1, .pushr (opdImm false 39 8) (temp 0), .callv (temp 8) (opdImm false 1 8) (temp 0),
     .nop, leave])⟩

/-- The state after some rounds, and the one after some more. -/
def nestedRun (ok : State → Bool) (rounds more : Nat) : M (State × State) := do
  let s ← runWhile ok nestedObj (initState nestedObj 65536 131072) (stillFrom 1048576 rounds)
  let t ← runWhile ok nestedObj s (stillFrom 2097152 more)
  return (s, t)

lemma run_of_nestedRun {P : State → Prop} {ok : State → Bool} (hok : ∀ s, ok s = true → P s)
    {rounds more : Nat} {t : State} (h : nestedRun ok rounds more = .ok (s, t)) :
    ReflTransGen (Guarded P (Next nestedObj)) (initState nestedObj 65536 131072) s ∧
      ReflTransGen (Guarded P (Next nestedObj)) s t := by
  simp only [nestedRun, bind_eq_ok, pure_eq_ok, Prod.mk.injEq] at h
  obtain ⟨s, hs, t, ht, rfl, rfl⟩ := h
  exact ⟨run_of_runWhile hok hs, run_of_runWhile hok ht⟩

/-- After two waits and below two reaps the chain has three quaints; the deepest returns, and when both
reaps are over the first quaint is alone. -/
theorem chain_ends_nested : Compiles nested nestedObj ∧ ∃ s t,
    chainList s 8 s.cur = some [1310720, 1114112, 65536] ∧ ChainEnds 65536 s ∧
      (∀ i s', nestedObj.insns[s.vm.ip]? = some i → execInsn (still 0) nestedObj s i = .ok s' →
        ChainEnds 65536 s' ∧ ∃ s'', checkAndEventuallySplitVms (still 0) s' = .ok s'') ∧
      ReflTransGen (Guarded (SparesChain nestedObj) (Next nestedObj)) s t ∧
      t.live = [65536] ∧ ChainEnds 65536 t := by
  have hlook : (fun x => (chainList x.1 8 x.1.cur, sparesChain nestedObj x.1, x.2.live)) <$>
      nestedRun (sparesChain nestedObj) 21 3 =
        .ok (some [1310720, 1114112, 65536], true, [65536]) := by decide +kernel
  obtain ⟨⟨s, t⟩, hlook, hst⟩ := map_eq_ok.mp hlook
  obtain ⟨hchain, hspares, hlive⟩ : chainList s 8 s.cur = some [1310720, 1114112, 65536] ∧
    sparesChain nestedObj s = true ∧ t.live = [65536] := by simpa using hst
  obtain ⟨run, hmore⟩ := run_of_nestedRun (fun _ => sparesChain_sound) hlook
  obtain ⟨⟨hends, -⟩, hnext⟩ := chain_ends_of_run (by decide) run
  exact ⟨by decide +kernel, s, t, hchain, hends, hnext (sparesChain_sound hspares) (still 0), hmore, hlive,
    (chain_ends_of_run (by decide) (run.trans hmore)).1.1⟩

end Run

end Quaint.Activation
