import Quaint.Waiting

/-!
What a `wait` does before it is over.

Along a run it is noted of each quaint which one it went on with last, and whether that one has
executed an instruction since. A `wait` for a label that its quaint has passed before is over in
the round that starts it; every other one is not over before its quaint has run.
-/

namespace Quaint.Progress

open Relation Types Ast Code Exec Step Control Effect Ancestry Transition Partial Splitting Program
  Activation Above Reaping Waiting

/-! ### Switches -/

/-- What an instruction does to the chain: it goes on with a quaint on it, or it is a `wait` or a
reap that goes on with its quaint below the running one. -/
inductive ChainMove (i : Insn) (w : Words) (c c' : Ctl) : Prop
  | stays (hcur : OnChain c c'.cur) (hpar : ∀ a, OnChain c a → c'.parent a = c.parent a)
    (hsame : isReap i = true ∨ isWait i = true → c'.cur = c.cur)
  | below (hsw : isReap i = true ∨ isWait i = true) (hq : w.handle = some c'.cur)
    (hnot : ¬ OnChain c c'.cur) (h0 : c'.cur ≠ 0) (hend : (c.threads c'.cur).atEnd = false)
    (hself : c'.parent c'.cur = some c.cur) (hpar : ∀ a, OnChain c a → c'.parent a = c.parent a)
    (hip : (c'.threads c.cur).ip = c.this.ip)
    (hthis : c'.this = { c.threads c'.cur with parent := c.cur })

section Chain

variable {o : Obj} {main : Nat} {c c' : Ctl} {i : Insn} {w : Words}

lemma stays_setThis {t : Thread} (hp : t.parent = c.this.parent) : ChainMove i w c (c.setThis t) :=
  .stays .refl (fun a _ => congrFun (parent_setThis hp) a) fun _ => rfl

/-- A new quaint is not on the chain. -/
lemma stays_create (hc : ChainInv main c) {a : Nat} {t t' : Thread} {live : List Nat}
    (hnew : a ∉ c.live) (hp : t'.parent = c.this.parent) :
    ChainMove i w c ({ c.set a t with live := live }.setThis t') := by
  refine .stays .refl (fun b hb => parent_congr ?_) fun _ => rfl
  have hba : b ≠ a := fun hba => hnew (hba ▸ (hc.onChain hb).2.1)
  rw [setThis_threads]
  split
  · rename_i hbc
    rw [hp, hbc]
    rfl
  · exact congrArg Thread.parent (Ctl.set_threads_ne c t hba)

/-- A return goes on with the running quaint or its parent. -/
lemma stays_return {d : Ctl} (hr : Return o d c') (hpar : d.parent = c.parent)
    (hcur : d.cur = c.cur) (hnr : isReap i = false) (hnw : isWait i = false) : ChainMove i w c c' := by
  obtain ⟨hon, hsame, -⟩ := return_frame hr
  refine .stays ?_ (fun a _ => (hsame a).trans (congrFun hpar a)) fun hsw => ?_
  · rw [OnChain, hpar, hcur] at hon
    exact hon
  · rcases hsw with h | h
    · rw [hnr] at h
      cases h
    · rw [hnw] at h
      cases h

lemma below_activate {d : Ctl} {q : Nat} (hc : ChainInv main c) (hcur : d.cur = c.cur)
    (hother : ∀ b, b ≠ c.cur → d.threads b = c.threads b)
    (hpar : d.this.parent = c.this.parent) (hip : d.this.ip = c.this.ip)
    (hsw : isReap i = true ∨ isWait i = true) (hq : w.handle = some q) (hnot : ¬ OnChain c q)
    (h0 : q ≠ 0) (hend : (c.threads q).atEnd = false) : ChainMove i w c (d.activate q) := by
  have hqc : q ≠ c.cur := fun hqc => hnot (hqc ▸ .refl)
  have hne : c.cur ≠ 0 := (hc.onChain .refl).1
  have hthis : (d.activate q).this = { c.threads q with parent := c.cur } := by
    rw [← hcur, ← hother q hqc]
    exact if_pos rfl
  have hleft : (d.activate q).threads c.cur = d.this := by
    rw [Ctl.this, hcur]
    exact if_neg hqc.symm
  refine .below hsw hq hnot h0 hend ?_ (fun a ha => parent_congr ?_) ?_ hthis
  · have hp : ((d.activate q).threads q).parent = c.cur := congrArg Thread.parent hthis
    simp only [Ctl.parent, show (d.activate q).cur = q from rfl, hp, hne, if_false]
  · have haq : a ≠ q := fun haq => hnot (haq ▸ ha)
    by_cases hac : a = c.cur
    · subst hac
      rw [hleft]
      exact hpar
    · exact congrArg Thread.parent ((if_neg haq).trans (hother a hac))
  · rw [hleft]
    exact hip

lemma chainMove_of_exec (hc : ChainInv main c)
    (hspares : ∀ q, w.handle = some q ∨ w.freed = some q → ¬ OnChain c q) (hx : Exec o i w c c') :
    ChainMove i w c c' := by
  cases hx with
  | own t hmove => exact stays_setThis (ownMove_sameSched hmove).1
  | reapEnded q =>
    refine .stays .refl (fun a _ => ?_) fun _ => rfl
    exact congrFun (parent_setThis (c := c.release q) (t := c.this.advance) rfl) a
  | reap q hi hq h0 hlive hend =>
    exact below_activate hc rfl (fun _ _ => rfl) rfl rfl (.inl hi) hq (hspares q (.inl hq)) h0 hend
  | wait q now w0 w1 isFor isUntil hi hq h0 hlive hend =>
    have hthis : ((c.setNow now).setThis (c.this.startWait isFor isUntil w0 w1)).this =
        c.this.startWait isFor isUntil w0 w1 := Ctl.setThis_this _ _
    refine below_activate hc rfl (fun b hb => if_neg hb) ?_ ?_ (.inr hi) hq (hspares q (.inl hq))
      h0 hend
    · rw [hthis]
      rfl
    · rw [hthis]
      rfl
  | qnt dst loc ssp a ip sp n hi h0 hnew hcur => exact stays_create hc hnew rfl
  | qntv dst val a hi h0 hnew hcur => exact stays_create hc hnew rfl
  | ret size hi hsp _ hr =>
    refine stays_return hr (parent_setThis rfl) rfl ?_ ?_
    · rcases hi with rfl | ⟨v, rfl⟩ <;> rfl
    · rcases hi with rfl | ⟨v, rfl⟩ <;> rfl
  | bfun now n live hi hlive hsp _ hr =>
    subst hi
    exact stays_return hr (parent_setThis (c := { c with live := live, now := now }) rfl) rfl
      rfl rfl

/-- What is above the running quaint after an instruction was above it before, or is the one
that was running. -/
lemma ChainMove.above (h : ChainMove i w c c') {p : Nat} (hp : Above c' p) :
    Above c p ∨ p = c.cur ∧ (isReap i = true ∨ isWait i = true) ∧ c'.cur ≠ c.cur := by
  obtain ⟨b, hb, hbp⟩ := TransGen.tail'_iff.mp hp
  cases h with
  | stays hcur hpar hsame =>
    have hon := onChain_mono hcur hpar hb
    exact .inl (.tail' hon ((hpar b hon).symm.trans hbp))
  | below hsw hq hnot h0 hend hself hpar hip hthis =>
    have hon : b = c'.cur ∨ OnChain c b := by
      clear hbp hp
      induction hb with
      | refl => exact .inl rfl
      | tail _ hstep ih =>
        rcases ih with rfl | ih
        · exact .inr (Option.some.inj (hself.symm.trans hstep) ▸ .refl)
        · exact .inr (ReflTransGen.tail ih ((hpar _ ih).symm.trans hstep))
    rcases hon with rfl | hon
    · have hpc : p = c.cur := Option.some.inj (hbp.symm.trans hself)
      exact .inr ⟨hpc, hsw, fun hc => hnot (hc ▸ .refl)⟩
    · exact .inl (.tail' hon ((hpar b hon).symm.trans hbp))

end Chain

/-! ### What has run -/

/-- Whether the quaint gone on with last from each has executed an instruction since, brought up
to date by an instruction of `cur` that goes on with `cur'`. -/
def noteRan (last : Nat → Nat) (ran : Nat → Bool) (i : Insn) (cur cur' : Nat) : Nat → Bool :=
  fun p =>
    if p = cur ∧ (isReap i = true ∨ isWait i = true) ∧ cur' ≠ cur then false
    else ran p || last p == cur

/-- The scheduler does not find the label in this thread: `noint` is set, or it passed another
one last. -/
def NotThere (t : Thread) (func id : Nat) : Prop :=
  t.noint = true ∨ ¬ (t.lastFunc = func ∧ t.lastId = id)

/-- A quaint above the running one, with the one it went on with last idle since, went on with
the running one just now; if it waits for a label, that one is not at it. -/
def IdleBelow (o : Obj) (c : Ctl) (last : Nat → Nat) (ran : Nat → Bool) : Prop :=
  ∀ p, Above c p → ran p = false → last p = c.cur ∧
    ∀ quaint timeout func id noblock units,
      o.insns[(c.threads p).ip]? = some (.wait quaint timeout func id noblock units false) →
      func ≠ 0 → NotThere c.this func id

section Idle

variable {o : Obj} {main : Nat} {c c' : Ctl} {i : Insn} {w : Words} {last : Nat → Nat}
  {ran : Nat → Bool}

lemma noteRan_eq_false {cur cur' p : Nat} (hp : p ≠ cur)
    (h : noteRan last ran i cur cur' p = false) : ran p = false ∧ last p ≠ cur := by
  simpa [noteRan, hp] using h

lemma IdleBelow.exec (h : IdleBelow o c last ran) (hc : ChainInv main c)
    (hi : o.insns[c.this.ip]? = some i)
    (hspares : ∀ q, w.handle = some q ∨ w.freed = some q → ¬ OnChain c q) (hx : Exec o i w c c')
    (hfresh : ∀ quaint timeout func id noblock units,
      i = .wait quaint timeout func id noblock units false → func ≠ 0 → ∀ q, w.handle = some q →
      q ≠ 0 → (c.threads q).atEnd = false → NotThere (c.threads q) func id) :
    IdleBelow o c' (note last i c.cur c'.cur) (noteRan last ran i c.cur c'.cur) := by
  have hmove := chainMove_of_exec hc hspares hx
  intro p hp hidle
  rcases hmove.above hp with habove | ⟨rfl, hsw, hne⟩
  · -- the one it went on with last is the running one, which has now run
    obtain ⟨hran, hlast⟩ := noteRan_eq_false (above_ne hc habove) hidle
    exact (hlast (h p habove hran).1).elim
  · refine ⟨?_, ?_⟩
    · rw [note_switch hsw hne]
      exact if_pos rfl
    · intro quaint timeout func id noblock units hj h0
      cases hmove with
      | stays hcur hpar hsame => exact (hne (hsame hsw)).elim
      | below _ hq hnot hq0 hend hself hpar hip hthis =>
        rw [hip, hi] at hj
        rw [hthis]
        exact hfresh _ _ _ _ _ _ (Option.some.inj hj) h0 _ hq hq0 hend

lemma IdleBelow.sched (h : IdleBelow o c last ran) (hc : ChainInv main c) (hl : LinksHold o c last)
    (hs : Sched c c') : IdleBelow o c' last ran := by
  have hpar := sched_parent hs
  cases hs with
  | stay now => exact h
  | split now a hanc hwait hlive =>
    intro p hp hidle
    obtain ⟨b, hb, hbp⟩ := TransGen.tail'_iff.mp hp
    have hba : ReflTransGen (IsParent c.parent) a b :=
      ReflTransGen.mono (fun x y hxy => (hpar x).symm.trans hxy) _ _ hb
    have hon : TransGen (IsParent c.parent) c.cur b := hanc.trans_left hba
    have hbp' : IsParent c.parent b p := (hpar b).symm.trans hbp
    -- the quaint just below is above the one that was running
    have hlast := (hl b p hon.to_reflTransGen hbp').1
    exact (above_ne hc hon (hlast.symm.trans (h p (.tail hon hbp') hidle).1)).elim

end Idle

/-! ### Runs -/

section Run

variable {o : Obj} {a b : Nat} {s s1 s' : State} {inp : Inp} {i : Insn}

/-- Where `noint` is set in the running quaint, the scheduler moves no quaint. -/
lemma split_noint (h : checkAndEventuallySplitVms inp s = .ok s') (hn : s.vm.noint = true) :
    s'.vms = s.vms := by
  unfold checkAndEventuallySplitVms at h
  split at h
  · exact pure_eq_ok.mp h ▸ rfl
  · rename_i s1 hs1
    obtain ⟨now, rfl⟩ := readClock_eq_some hs1
    simp only [bind_eq_ok] at h
    obtain ⟨_, _, r, hr, h⟩ := h
    rw [show State.vm { s with cycles := s.cycles + 1, now := now } = s.vm from rfl, hn, splitFuel,
      splitLoop, if_pos (.inr rfl)] at hr
    obtain rfl := Except.ok.inj hr
    exact pure_eq_ok.mp h ▸ rfl

/-- The instruction spares the chain, and is no `wait` for a label that the quaint it goes on with
passed last, unless that one has `noint` set. -/
def FreshWaits (o : Obj) (s : State) : Prop :=
  SparesChain o s ∧ ∀ quaint timeout func id noblock units,
    o.insns[s.vm.ip]? = some (.wait quaint timeout func id noblock units false) → func ≠ 0 →
    ∀ q, loadWord s quaint = .ok q → q ≠ 0 → (s.vms q).atEnd = false →
      NotThere (thread (s.vms q)) func id

/-- The quaint last gone on with from each, and whether it has executed an instruction since. -/
abbrev History := (Nat → Nat) × (Nat → Bool)

def History.after (h : History) (i : Insn) (cur cur' : Nat) : History :=
  (note h.1 i cur cur', noteRan h.1 h.2 i cur cur')

def NotesRan (o : Obj) (h : History) (s s' : State) (h' : History) : Prop :=
  ∃ inp i s1, Round o inp i s s1 s' ∧ h' = h.after i s.cur s1.cur

/-- Rounds with fresh waits that keep the history. -/
def FreshNext (o : Obj) : State × History → State × History → Prop :=
  WithHistory (Guarded (FreshWaits o) (Next o)) (NotesRan o)

/-- The quaints above the running one wait as `WaitInv` says, and an idle one below them runs. -/
def ProgressInv (o : Obj) (main : Nat) (c : Ctl) (h : History) : Prop :=
  WaitInv o main c h.1 ∧ IdleBelow o c h.1 h.2

lemma ProgressInv.round {h : History} (hinv : ProgressInv o a (ctl s) h) (hs : FreshWaits o s)
    (hr : Round o inp i s s1 s') :
    ProgressInv o a (ctl s1) (h.after i s.cur s1.cur) ∧
      ProgressInv o a (ctl s') (h.after i s.cur s1.cur) := by
  obtain ⟨hwait, hidle⟩ := hinv
  obtain ⟨hx, hsched⟩ := hr.ctl
  obtain ⟨h1, h2⟩ := hwait.round hs.1 hr
  have hidle1 := hidle.exec hwait.chain hr.fetch (hs.1 i hr.fetch) hx (by
    rintro quaint timeout func id noblock units rfl h0 q hq hq0 hend
    refine hs.2 _ _ _ _ _ _ hr.fetch h0 q ?_ hq0 hend
    cases hl : loadWord s quaint with
    | error e => simp [words, hl, Except.toOption] at hq
    | ok v =>
      rw [words, hl] at hq
      exact congrArg _ (Option.some.inj hq))
  exact ⟨⟨h1, hidle1⟩, h2, hidle1.sched h1.chain h1.links hsched⟩

lemma progressInv_of_run (ha : a ≠ 0) {h0 h : History}
    (run : ReflTransGen (FreshNext o) (initState o a b, h0) (s, h)) :
    ProgressInv o a (ctl s) h := by
  refine invariant_of_run (I := fun x => ProgressInv o a (ctl x.1) x.2) (fun x x' hinv hn => ?_)
    ⟨waitInv_init ha h0.1, fun p hp => ?_⟩ run
  · obtain ⟨⟨hs, _⟩, inp, i, s1, hr, hh⟩ := hn
    rw [hh]
    exact (hinv.round hs hr).2
  · -- the first quaint has no parent
    obtain ⟨x, hx, -⟩ := TransGen.head'_iff.mp hp
    simp [IsParent, Ctl.parent, ctl, initState, thread, Qvm.zero] at hx

/-- **A wait for a label is not over before its quaint has run**: in every run that leaves the chain
alone and has no `wait` for a label that its quaint passed last, whenever a quaint moves past a
`wait` for a label, the one it waits for has executed an instruction since, or it moves itself and
finds the handle null or its quaint at its end. -/
theorem wait_progress_of_run (ha : a ≠ 0) {h : History}
    (run : ReflTransGen (FreshNext o) (initState o a b, fun _ => 0, fun _ => false) (s, h))
    (hs : FreshWaits o s) (hr : Round o inp i s s1 s') {p : Nat} (hp : p ∈ s.live)
    (quaint timeout : Opd) (func id : Nat) (noblock units : Bool)
    (hj : o.insns[(s.vms p).ip]? = some (.wait quaint timeout func id noblock units false))
    (h0 : func ≠ 0) (hmoved : (s'.vms p).ip ≠ (s.vms p).ip) :
    (h.after i s.cur s1.cur).2 p = true ∨
      p = s.cur ∧ ∃ q, loadWord s quaint = .ok q ∧ (q = 0 ∨ (s.vms q).atEnd = true) := by
  have hinv := progressInv_of_run ha run
  obtain ⟨⟨h1, hidle1⟩, -⟩ := hinv.round hs hr
  by_cases hmoved1 : (s1.vms p).ip = (s.vms p).ip
  · -- the scheduler found the label
    refine .inl (Bool.of_not_eq_false fun hran => ?_)
    rw [← hmoved1] at hj hmoved
    obtain ⟨c, hc, hcp, -⟩ := split_of_moved hr.split hmoved
    obtain ⟨hlast, hnot⟩ := hidle1 p (.tail' hc hcp) hran
    rcases hnot _ _ _ _ _ _ hj h0 with hn | hn
    · exact hmoved (congrArg Qvm.ip (congrFun (split_noint hr.split hn) p))
    · cases expired_of_moved h1.links h1.flags hr.split hj hmoved with
      | elapsed ht => cases ht
      | passed _ hfunc hid =>
        rw [hlast] at hfunc hid
        exact hn ⟨hfunc, hid⟩
  · have hlink : p ≠ 0 → s.vm.parent = p → h.1 p = s.cur := fun h0 hpar =>
      (hinv.1.links s.cur p .refl
        ((if_neg (hpar ▸ h0 : s.vm.parent ≠ 0)).trans (congrArg some hpar))).1
    have hpar : s.vm.parent ≠ s.cur := fun hpar =>
      have hcur0 : s.cur ≠ 0 := (hinv.1.chain.onChain .refl).1
      above_ne hinv.1.chain (above_parent (hpar ▸ hcur0 : s.vm.parent ≠ 0)) hpar
    cases over_of_moved hr.live hr.fetch hr.exec hp hj hmoved1 hlink with
    | null hpc hq => exact .inr ⟨hpc, 0, hq, .inl rfl⟩
    | ended q hpc hq h0 hend => exact .inr ⟨hpc, q, hq, .inr hend⟩
    | zero _ ht => cases ht
    | returned hpp hlast hend =>
      refine .inl ?_
      have hpc : p ≠ s.cur := fun hpc => hpar (hpp.trans hpc)
      simp [History.after, noteRan, hpc, hlast]

/-- Any other `wait` for a label, on a quaint that is there, not at its end and off the chain, is
over in the round that starts it, if the clock can be read. -/
theorem wait_skips {main q func id : Nat} {quaint timeout : Opd} {noblock units : Bool}
    (hc : ChainInv main (ctl s)) (hs : SparesChain o s)
    (hr : Round o inp (.wait quaint timeout func id noblock units false) s s1 s')
    (hq : loadWord s quaint = .ok q) (hq0 : q ≠ 0) (hend : (s.vms q).atEnd = false) (h0 : func ≠ 0)
    (hthere : ¬ NotThere (thread (s.vms q)) func id) (hclock : (readClock inp s1).isSome = true) :
    s'.cur = s.cur ∧ (s'.vms s.cur).ip = s.vm.ip + 1 ∧ s'.vms q = s1.vms q := by
  obtain ⟨hx, -⟩ := hr.ctl
  have hnot : ¬ OnChain (ctl s) q := hs _ hr.fetch q (.inl (toOption_eq_some hq))
  have hqc : q ≠ s.cur := fun hqc => hnot (hqc ▸ .refl)
  -- what the `wait` leaves behind
  obtain rfl : s1 = State.activate (s.setVm (Qvm.startWait s.vm false true noblock func id)) q := by
    obtain ⟨q', hq', h⟩ := insnWait_cases hr.exec
    obtain rfl := Except.ok.inj (hq.symm.trans hq')
    rcases h with ⟨h, -⟩ | ⟨-, -, h, -⟩ | ⟨-, -, -, t, ht, h⟩
    · exact (hq0 h).elim
    · rw [hend] at h
      cases h
    · obtain rfl := pure_eq_ok.mp ht
      rcases h with ⟨h, -⟩ | ⟨-, h⟩
      · cases h
      · rw [startWaiting, if_pos h0] at h
        exact (pure_eq_ok.mp h).symm
  generalize hs1 : State.activate (s.setVm (Qvm.startWait s.vm false true noblock func id)) q = s1
    at *
  have hvq : s1.vms q = { s.vms q with parent := s.cur } := by
    rw [← hs1]
    exact (if_pos rfl).trans (congrArg (fun v : Qvm => { v with parent := s.cur }) (if_neg hqc))
  have hvp : s1.vms s.cur = Qvm.startWait s.vm false true noblock func id := by
    rw [← hs1]
    exact (if_neg hqc.symm).trans (if_pos rfl)
  have hcur : s1.cur = q := by rw [← hs1]; rfl
  obtain ⟨l, hl, hmem⟩ := hc.exec (hs _ hr.fetch) hx
  change Chain (ctl s1).parent main s1.cur l at hl
  have hlink : (ctl s1).parent s1.cur = some s.cur := by
    have hp : ((ctl s1).threads q).parent = s.cur := congrArg Qvm.parent hvq
    simp only [hcur, Ctl.parent, hp]
    exact if_neg (hc.onChain .refl).1
  obtain ⟨l', hl', rfl⟩ := hl.tail_of hlink
  obtain ⟨post, rfl⟩ : ∃ post, l' = s.cur :: post := by
    cases hl' with
    | root => exact ⟨_, rfl⟩
    | link => exact ⟨_, rfl⟩
  obtain ⟨s2, hs2⟩ := Option.isSome_iff_exists.mp hclock
  obtain ⟨now, hs2'⟩ := readClock_eq_some hs2
  simp only [NotThere, not_or, not_not, Bool.not_eq_true] at hthere
  obtain ⟨hn, hfunc, hid⟩ := hthere
  have hcan : CanResume s2 (s1.cur :: s.cur :: post) [] s1.cur s.cur := by
    rw [hs2']
    refine ⟨⟨post, rfl⟩, ?_, .inr ?_, fun x hx => ?_⟩
    · simp only [hvp, Qvm.startWait]
    · simp only [hvp, hcur, hvq]
      exact ⟨rfl, rfl, hfunc, hid⟩
    · obtain rfl := List.mem_singleton.mp hx
      simp only [hcur, hvq]
      exact hn
  obtain ⟨t, ht, -, htc, htA, hother⟩ := nearest_resumed hl (fun x hx => (hmem x hx).2.1) hs2
    ⟨[], s1.cur, hcan, fun _ _ _ _ => Nat.zero_le _⟩
  obtain rfl := Except.ok.inj (hr.split.symm.trans ht)
  refine ⟨htc, ?_, hother q hqc⟩
  rw [htA, hvp]
  rfl

/-! ### A wait that is skipped -/

/-- `g: quaint(); m { g = ~f(); wait g until f::l; wait g until f::l; } f { [l] [l] }` -/
def waitTwice : Ast.Unit :=
  let label (beg : Nat) : Expr :=
    .bexp (letter 102 beg) .scop (.name (letter 102 beg)) (.name (letter 108 (beg + 3)))
  ⟨[],
    [.decl ⟨false, false, false, [letter 103 0], .quaint 1 .zero, .absent⟩,
     .func ⟨false, letter 109 15, .nil, .none,
       .cons (quaintify 103 102 19)
       (.cons (.wait (.name (letter 103 34)) .absent (label 42) false false)
       (.cons (.wait (.name (letter 103 53)) .absent (label 61) false false) .nil))⟩,
     .func ⟨false, letter 102 120, .nil, .none,
       .cons (.wlab (letter 108 125)) (.cons (.wlab (letter 108 130)) .nil)⟩]⟩

def waitTwiceObj : Obj :=
  let temp (off : Nat) : Opd := ⟨.temp, false, false, off, 8⟩
  let wait : Insn := .wait (opdGlob false 0 8) (opdImm false 0 1) 122 1 false false false
  ⟨8, [], List.replicate 17 Insn.bfun ++
    [Insn.incsp (opdImm false 0 8) (opdImm false 16 8), .getsp (temp 8),
     .qnt (temp 0) (opdImm false 25 8) (temp 8), .mov (opdGlob false 0 8) (temp 0), .nop,
     wait, wait, .ret (opdImm false 16 8),
     .incsp (opdImm false 0 8) (opdImm false 0 8), .wlab 122 1, .wlab 122 1,
     .ret (opdImm false 16 8)]⟩

/-- A test for `FreshWaits`, on chains of at most eight. -/
def freshWaits (o : Obj) (s : State) : Bool :=
  sparesChain o s && match o.insns[s.vm.ip]? with
  | some (.wait quaint _ func id _ _ false) =>
    match loadWord s quaint with
    | .ok q => func == 0 || q == 0 || (s.vms q).atEnd || (s.vms q).noint ||
      !((s.vms q).lastFunc == func && (s.vms q).lastId == id)
    | .error _ => true
  | _ => true

lemma freshWaits_sound (h : freshWaits o s = true) : FreshWaits o s := by
  obtain ⟨hs, hw⟩ := Bool.and_eq_true_iff.mp h
  refine ⟨sparesChain_sound hs, fun quaint timeout func id noblock units hi h0 q hq hq0 hend => ?_⟩
  simp only [hi, hq, Bool.or_eq_true, beq_iff_eq, Bool.not_eq_true', Bool.and_eq_false_iff,
    beq_eq_false_iff_ne, h0, hq0, hend, false_or, Bool.false_eq_true] at hw
  exact hw.imp (fun hn => hn) fun hne hand => hne.elim (· hand.1) (· hand.2)

/-- Rounds with the given inputs in states that pass the test, and the history they keep. -/
def runNoted (ok : State → Bool) (o : Obj) : State × History → List Inp → M (State × History)
  | x, [] => .ok x
  | x, inp :: inps =>
    if ok x.1 then do
      let insn ← orUb o.insns[x.1.vm.ip]?
      let s1 ← execInsn inp o x.1 insn
      let s' ← step inp o x.1
      runNoted ok o (s', x.2.after insn x.1.cur s1.cur) inps
    else .error .ub

lemma run_of_runNoted {P : State → Prop} {ok : State → Bool} (hok : ∀ s, ok s = true → P s)
    {inps : List Inp} {x x' : State × History} (h : runNoted ok o x inps = .ok x') :
    ReflTransGen (WithHistory (Guarded P (Next o)) (NotesRan o)) x x' := by
  induction inps generalizing x with
  | nil =>
    cases h
    exact .refl
  | cons inp inps ih =>
    rw [runNoted] at h
    split at h
    · rename_i hs
      simp only [bind_eq_ok, orUb_eq_ok] at h
      obtain ⟨insn, hi, s1, hs1, s', hs', h⟩ := h
      obtain ⟨i, s1', hr⟩ := step_eq_ok.mp hs'
      obtain rfl := Option.some.inj (hr.fetch.symm.trans hi)
      obtain rfl := Except.ok.inj (hr.exec.symm.trans hs1)
      exact .head ⟨⟨hok x.1 hs, inp, hs'⟩, inp, i, s1', hr, rfl⟩ (ih h)
    · cases h

/-- The `wait` for the label `l` of `f` on `g`. -/
def waitForLabel : Insn := .wait (opdGlob false 0 8) (opdImm false 0 1) 122 1 false false false

/-- A last round from a state that passes the test: where the first quaint, which stands at a
`wait` for the label, is before and after it, its entry of the history, and the quaint in `g`. -/
def notedLook (ok : State → Bool) (inp : Inp) (x : State × History) :
    M (Nat × Nat × Bool × Nat × Bool) :=
  if ok x.1 ∧ 65536 ∈ x.1.live ∧ waitTwiceObj.insns[(x.1.vms 65536).ip]? = some waitForLabel then do
    let insn ← orUb waitTwiceObj.insns[x.1.vm.ip]?
    let s1 ← execInsn inp waitTwiceObj x.1 insn
    let s' ← step inp waitTwiceObj x.1
    let q ← loadWord x.1 (opdGlob false 0 8)
    return ((x.1.vms 65536).ip, (s'.vms 65536).ip, (x.2.after insn x.1.cur s1.cur).2 65536, q,
      (x.1.vms q).atEnd)
  else .error .ub

/-- A run with a last round, read off what was looked at. -/
lemma round_of_notedLook {P : State → Prop} {ok : State → Bool} (hok : ∀ s, ok s = true → P s)
    {inps : List Inp} {x : State × History} {ip ip' q : Nat} {ran atEnd : Bool}
    (hx : runNoted ok waitTwiceObj x inps >>= notedLook ok inp = .ok (ip, ip', ran, q, atEnd))
    (hip : ip' ≠ ip) :
    ∃ s h i s1 s',
      ReflTransGen (WithHistory (Guarded P (Next waitTwiceObj)) (NotesRan waitTwiceObj)) x (s, h) ∧
      P s ∧ Round waitTwiceObj inp i s s1 s' ∧ 65536 ∈ s.live ∧
      waitTwiceObj.insns[(s.vms 65536).ip]? = some waitForLabel ∧
      (s'.vms 65536).ip ≠ (s.vms 65536).ip ∧ (h.after i s.cur s1.cur).2 65536 = ran ∧
      loadWord s (opdGlob false 0 8) = .ok q ∧ (s.vms q).atEnd = atEnd := by
  obtain ⟨⟨s, h⟩, hrun, hlook⟩ := bind_eq_ok.mp hx
  unfold notedLook at hlook
  split at hlook
  · rename_i hat
    simp only [bind_eq_ok, orUb_eq_ok, pure_eq_ok, Prod.mk.injEq] at hlook
    obtain ⟨j, hj, s1, hs1, s', hs', _, hq, rfl, rfl, hran, rfl, hend⟩ := hlook
    obtain ⟨i, s1', hr⟩ := step_eq_ok.mp hs'
    obtain rfl := Option.some.inj (hr.fetch.symm.trans hj)
    obtain rfl := Except.ok.inj (hr.exec.symm.trans hs1)
    exact ⟨s, h, i, s1', s', run_of_runNoted hok hrun, hok s hat.1, hr, hat.2.1, hat.2.2, hip, hran,
      hq, hend⟩
  · cases hlook

/-- The second `wait` is over in the round that starts it. -/
theorem second_wait_skipped : Compiles waitTwice waitTwiceObj ∧
    ∃ s h inp i s1 s' q,
      ReflTransGen (WithHistory (Guarded (SparesChain waitTwiceObj) (Next waitTwiceObj))
        (NotesRan waitTwiceObj)) (initState waitTwiceObj 65536 131072, fun _ => 0, fun _ => false) (s, h) ∧
      Round waitTwiceObj inp i s s1 s' ∧ 65536 ∈ s.live ∧
      waitTwiceObj.insns[(s.vms 65536).ip]? = some waitForLabel ∧
      loadWord s (opdGlob false 0 8) = .ok q ∧ q ≠ 0 ∧ (s.vms q).atEnd = false ∧
      (s'.vms 65536).ip ≠ (s.vms 65536).ip ∧ (h.after i s.cur s1.cur).2 65536 = false := by
  have hlook : runNoted (sparesChain waitTwiceObj) waitTwiceObj
      (initState waitTwiceObj 65536 131072, fun _ => 0, fun _ => false) (stillFrom 1048576 8) >>=
        notedLook (sparesChain waitTwiceObj) (still 0) = .ok (23, 24, false, 1114112, false) := by
    decide +kernel
  obtain ⟨s, h, i, s1, s', run, -, hr, hp, hj, hmoved, hran, hq, hend⟩ :=
    round_of_notedLook (fun _ => sparesChain_sound) hlook (by decide)
  exact ⟨by decide +kernel, s, h, _, i, s1, s', _, run, hr, hp, hj, hq, by decide, hend, hmoved,
    hran⟩

/-- The first `wait` is over when `f` has passed the label. -/
theorem first_wait_progresses : ∃ s h i s1 s',
    ReflTransGen (FreshNext waitTwiceObj)
      (initState waitTwiceObj 65536 131072, fun _ => 0, fun _ => false) (s, h) ∧
    Round waitTwiceObj (still 0) i s s1 s' ∧ (s'.vms 65536).ip ≠ (s.vms 65536).ip ∧
    ((h.after i s.cur s1.cur).2 65536 = true ∨
      65536 = s.cur ∧ ∃ q, loadWord s (opdGlob false 0 8) = .ok q ∧
        (q = 0 ∨ (s.vms q).atEnd = true)) := by
  have hlook : runNoted (freshWaits waitTwiceObj) waitTwiceObj
      (initState waitTwiceObj 65536 131072, fun _ => 0, fun _ => false) (stillFrom 1048576 7) >>=
        notedLook (freshWaits waitTwiceObj) (still 0) = .ok (22, 23, true, 1114112, false) := by
    decide +kernel
  obtain ⟨s, h, i, s1, s', run, hs, hr, hp, hj, hmoved, -⟩ :=
    round_of_notedLook (fun _ => freshWaits_sound) hlook (by decide)
  exact ⟨s, h, i, s1, s', run, hr, hmoved,
    wait_progress_of_run (by decide) run hs hr hp _ _ _ _ _ _ hj (by decide) hmoved⟩

end Run

end Quaint.Progress
