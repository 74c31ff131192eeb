import Quaint.Activation

/-!
The quaints above the running one.

No move but a switch to another quaint changes what is above the running one, and that adds
the thread left behind. So what every thread left behind has stays with all those above.
-/

namespace Quaint.Above

open Relation Code Exec Step Control Effect Ancestry Activation

/-- The quaint is above the running one. -/
def Above (c : Ctl) (x : Nat) : Prop := TransGen (IsParent c.parent) c.cur x

/-- Every quaint above the running one is as `P` says. -/
def AllAbove (P : Thread → Prop) (c : Ctl) : Prop := ∀ x, Above c x → P (c.threads x)

section Parents

variable {main : Nat} {P : Thread → Prop} {c c' : Ctl} {o : Obj} {i : Insn} {w : Words}

/-- The way up is the same if every parent on it is. -/
lemma above_congr {x y : Nat} (h : ∀ a, ReflTransGen (IsParent c.parent) y a → c'.parent a = c.parent a)
    (hx : TransGen (IsParent c'.parent) y x) : TransGen (IsParent c.parent) y x := by
  induction hx with
  | single hb => exact .single ((h y .refl).symm.trans hb)
  | tail _ hb ih => exact ih.tail ((h _ ih.to_reflTransGen).symm.trans hb)

lemma above_ne (h : ChainInv main c) {x : Nat} (hx : Above c x) : x ≠ c.cur := by
  rintro rfl
  obtain ⟨l, hl, -⟩ := h
  exact hl.acyclic hl.head_mem hx

lemma above_parent (hp : c.this.parent ≠ 0) : Above c c.this.parent := .single (if_neg hp)

/-- What is above the running quaint is only read. -/
lemma AllAbove.congr (h : AllAbove P c) (hcur : c'.cur = c.cur)
    (hparent : ∀ a, OnChain c a → (c'.threads a).parent = (c.threads a).parent)
    (hother : ∀ a, Above c a → c'.threads a = c.threads a) : AllAbove P c' := by
  intro x hx
  rw [Above, hcur] at hx
  have hx' : Above c x := above_congr (fun a ha => parent_congr (hparent a ha)) hx
  rw [hother x hx']
  exact h x hx'

lemma AllAbove.setThis (hc : ChainInv main c) (h : AllAbove P c) {t : Thread}
    (hp : t.parent = c.this.parent) : AllAbove P (c.setThis t) := by
  refine h.congr rfl (fun a _ => ?_) fun a ha => ?_
  · rw [setThis_threads]
    split
    · rename_i hac
      rw [hp, hac]
      rfl
    · rfl
  · rw [setThis_threads, if_neg (above_ne hc ha)]

lemma AllAbove.activate (hc : ChainInv main c) (h : AllAbove P c) (hP : P c.this) {q : Nat}
    (hq : ¬ OnChain c q) : AllAbove P (c.activate q) := by
  have hother : ∀ a, OnChain c a → (c.activate q).threads a = c.threads a := fun a ha =>
    Ctl.set_threads_ne _ _ fun haq => hq (haq ▸ ha)
  have hself : (c.activate q).threads q = { c.threads q with parent := c.cur } :=
    Ctl.set_threads_self _ _ _
  have hpar : (c.activate q).parent q = some c.cur := by
    simp only [Ctl.parent, hself, (hc.onChain .refl).1, if_false]
  intro x hx
  obtain ⟨y, hy, hyx⟩ := TransGen.head'_iff.mp hx
  obtain rfl : c.cur = y := Option.some.inj (hpar.symm.trans hy)
  rcases hyx.cases_head with rfl | ⟨z, hz, hzx⟩
  · rw [hother _ .refl]
    exact hP
  · have hx' : Above c x :=
      above_congr (fun a ha => parent_congr (congrArg Thread.parent (hother a ha))) (.head' hz hzx)
    rw [hother x hx'.to_reflTransGen]
    exact h x hx'

/-- A quaint above the running one goes on. -/
lemma AllAbove.climb (hc : ChainInv main c) (h : AllAbove P c) {a : Nat} (ha : Above c a) (hcur : c'.cur = a)
    (hparent : (c'.threads a).parent = (c.threads a).parent)
    (hother : ∀ b, b ≠ a → b ≠ c.cur → c'.threads b = c.threads b) : AllAbove P c' := by
  intro x hx
  obtain ⟨l, hl, -⟩ := id hc
  have hsame : ∀ b, ReflTransGen (IsParent c.parent) a b → c'.parent b = c.parent b := by
    intro b hb
    by_cases hba : b = a
    · exact hba ▸ parent_congr hparent
    · refine parent_congr (congrArg Thread.parent (hother b hba ?_))
      exact above_ne hc (TransGen.trans_left ha hb)
  rw [Above, hcur] at hx
  have hx' : TransGen (IsParent c.parent) a x := above_congr hsame hx
  have hxc : Above c x := ha.trans hx'
  have hxa : x ≠ a := by
    rintro rfl
    exact hl.acyclic (hl.mem_of_reaches ha.to_reflTransGen) hx'
  rw [hother x hxa (above_ne hc hxc)]
  exact h x hxc

lemma AllAbove.return (hc : ChainInv main c) (h : AllAbove P c) (hr : Return o c c') : AllAbove P c' := by
  cases hr with
  | caller ip bp hsp hip => exact h.setThis hc rfl
  | main ip bp hsp hp => exact h.setThis hc rfl
  | reap i hsp hp hlive hi hreap =>
    refine h.climb hc (above_parent hp) rfl ?_ fun b hb _ => Ctl.set_threads_ne _ _ hb
    exact (congrArg Thread.parent (Ctl.set_threads_self _ _ _)).trans rfl
  | wait i hsp hp hlive hi hwait =>
    have hne := above_ne hc (above_parent hp)
    refine h.climb hc (above_parent hp) rfl ?_ fun b hb hbc => ?_
    · have hsame : (c.setThis c.this.ended).threads c.this.parent = c.threads c.this.parent :=
        Ctl.set_threads_ne _ _ hne
      refine (congrArg Thread.parent (Ctl.set_threads_self _ _ _)).trans ?_
      show ((c.setThis c.this.ended).threads c.this.parent).parent = _
      rw [hsame]
    · exact (Ctl.set_threads_ne _ _ hb).trans (Ctl.set_threads_ne _ _ hbc)

/-- A new quaint is above none. -/
lemma AllAbove.create (hc : ChainInv main c) (h : AllAbove P c) {a : Nat} {t : Thread} (hnew : a ∉ c.live) :
    AllAbove P { c.set a t with live := a :: c.live } := by
  have hother : ∀ b, OnChain c b → (c.set a t).threads b = c.threads b := fun b hb =>
    Ctl.set_threads_ne _ _ fun hba => hnew (hba ▸ (hc.onChain hb).2.1)
  exact h.congr rfl (fun b hb => congrArg Thread.parent (hother b hb))
    fun b hb => hother b hb.to_reflTransGen

/-- One instruction, as long as it leaves the chain alone, and the thread it leaves behind is
as `P` says. -/
theorem AllAbove.exec (hc : ChainInv main c) (h : AllAbove P c)
    (hspares : ∀ q, w.handle = some q ∨ w.freed = some q → ¬ OnChain c q) (hx : Exec o i w c c')
    (hreap : isReap i → P c.this) (hwait : ∀ isFor isUntil w0 w1, isWait i → c'.cur ≠ c.cur →
      c'.threads c.cur = c.this.startWait isFor isUntil w0 w1 →
      P (c.this.startWait isFor isUntil w0 w1)) : AllAbove P c' := by
  cases hx with
  | own t hmove _ _ => exact h.setThis hc (ownMove_sameSched hmove).1
  | reapEnded q hi hq h0 hlive hend =>
    exact (h.setThis (t := c.this.advance) hc rfl).congr rfl (fun _ _ => rfl) fun _ _ => rfl
  | reap q hi hq h0 hlive hend => exact h.activate hc (hreap hi) (hspares q (.inl hq))
  | wait q now w0 w1 isFor isUntil hi hq h0 hlive hend =>
    have hn : ChainInv main (c.setNow now) := hc.congr rfl (fun _ _ hl => hl) fun _ _ => ⟨rfl, rfl⟩
    have hs := hn.setThis (t := c.this.startWait isFor isUntil w0 w1) rfl rfl
    have hst : AllAbove P (c.setNow now) := h.congr rfl (fun _ _ => rfl) fun _ _ => rfl
    have hpar : ((c.setNow now).setThis (c.this.startWait isFor isUntil w0 w1)).parent = c.parent :=
      parent_setThis (c := c.setNow now) rfl
    have hqc : q ≠ c.cur := fun hqc => hspares q (.inl hq) (hqc ▸ .refl)
    refine (hst.setThis (t := c.this.startWait isFor isUntil w0 w1) hn rfl).activate hs ?_ fun hon =>
      hspares q (.inl hq) ?_
    · rw [Ctl.setThis_this]
      refine hwait isFor isUntil w0 w1 hi hqc ?_
      exact (Ctl.set_threads_ne _ _ hqc.symm).trans (Ctl.set_threads_self _ _ _)
    · rw [OnChain, hpar] at hon
      exact hon
  | qnt dst loc ssp a ip sp k hi h0 hnew hcur =>
    have hthis := Ctl.set_threads_ne (c := c)
      (thread { Qvm.zero with ip := ip, bp := 16, sp := 16 + k, atStart := true }) hcur
    exact (h.create hc hnew).setThis (hc.create hnew) (congrArg Thread.parent hthis).symm
  | qntv dst val a hi h0 hnew hcur =>
    have hthis := Ctl.set_threads_ne (c := c)
      (thread { Qvm.zero with atStart := true, atEnd := true }) hcur
    exact (h.create hc hnew).setThis (hc.create hnew) (congrArg Thread.parent hthis).symm
  | ret size hi hsp c' hr => 
    have hs := hc.setThis (t := { c.this with sp := c.this.sp - size.off }) rfl rfl
    exact AllAbove.return hs (h.setThis hc rfl) hr
  | bfun now k live hi hlive hsp c' hr =>
    have hl : ChainInv main { c with live := live, now := now } :=
      hc.free hlive fun p hp => hspares p (.inr hp)
    have hst : AllAbove P { c with live := live, now := now } :=
      h.congr rfl (fun _ _ => rfl) fun _ _ => rfl
    have hs := hl.setThis (t := { c.this with sp := c.this.sp - k - 16, depth := c.this.depth + 1 }) rfl rfl
    exact AllAbove.return hs (hst.setThis hl rfl) hr

theorem AllAbove.sched (hc : ChainInv main c) (h : AllAbove P c) (hs : Sched c c') : AllAbove P c' := by
  cases hs with
  | stay now => exact h.congr rfl (fun _ _ => rfl) fun _ _ => rfl
  | split now a hanc hwait hlive =>
    refine h.climb hc hanc rfl ?_ fun b hb _ => Ctl.set_threads_ne _ _ hb
    exact (congrArg Thread.parent (Ctl.set_threads_self _ _ _)).trans rfl

end Parents

end Quaint.Above
