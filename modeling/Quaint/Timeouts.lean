import Quaint.Reaping

/-!
Time along a run.

A run is taken together with the exact time, in nanoseconds, of the clock the machine reads
modulo `2 ^ 64`. The log of a run notes for each quaint when its last `wait` with a timeout
started, and how long it was to last.
-/

namespace Quaint.Timeouts

open Relation Types Ast Code Exec Step Control Effect Ancestry Transition Partial Program Activation
  Reaping

/-! ### The clock -/

/-- A reading of the clock at a time. -/
def Shows (reading : Option Nat) (time : Nat) : Prop := ∀ v, reading = some v → v = time % 2 ^ 64

/-- The difference of two readings is at most the time that has passed. -/
lemma elapsed_le {t t' : Nat} (h : t ≤ t') :
    (2 ^ 64 + t' % 2 ^ 64 - t % 2 ^ 64) % 2 ^ 64 ≤ t' - t := by omega

/-- The nanoseconds of a timeout, in exact arithmetic. -/
def exactNs (units : Bool) (t : Nat) : Nat := t * if units then 1000000000 else 1000000

lemma timeoutNs_eq (units : Bool) (t : Nat) : timeoutNs units t = exactNs units t % 2 ^ 64 := rfl

/-- The interval is honoured, whatever the clock shows, just where the nanoseconds of the timeout
fit in a word. -/
theorem interval_honoured_iff (units : Bool) (t : Nat) :
    (∀ start time, start ≤ time →
      timeoutNs units t ≤ (2 ^ 64 + time % 2 ^ 64 - start % 2 ^ 64) % 2 ^ 64 →
      start + exactNs units t ≤ time) ↔ exactNs units t < 2 ^ 64 := by
  constructor
  · intro h
    have hlt := Nat.mod_lt (exactNs units t) (Nat.two_pow_pos 64)
    have hle := h 0 (timeoutNs units t) (Nat.zero_le _)
    rw [timeoutNs_eq] at hle
    omega
  · intro h start time hle hint
    have helapsed := elapsed_le hle
    rw [timeoutNs_eq, Nat.mod_eq_of_lt h] at hint
    omega

/-! ### The log of a run -/

structure Log where
  time : Nat
  start : Nat → Nat
  span : Nat → Nat

/-- The nanoseconds of the `wait` with a timeout that an instruction is about to start. -/
def timedWait (s : State) : Insn → Option Nat
  | .wait quaint timeout _ _ _ units true =>
    match loadWord s quaint, loadOpdNat s timeout with
    | .ok q, .ok t =>
      if q = 0 ∨ (s.vms q).atEnd = true ∨ t = 0 then none else some (exactNs units t)
    | _, _ => none
  | _ => none

/-- The log after a round in which the clock is read at `t1` and at `t2`. -/
def Log.after (l : Log) (s : State) (i : Insn) (t1 t2 : Nat) : Log :=
  match timedWait s i with
  | some d =>
    ⟨t2, fun p => if p = s.cur then t1 else l.start p, fun p => if p = s.cur then d else l.span p⟩
  | none => { l with time := t2 }

/-- A round of the machine between two times, with a clock that does not go back. -/
structure TimedRound (o : Obj) (inp : Inp) (i : Insn) (s s1 s' : State) (l : Log) (t1 t2 : Nat) :
    Prop where
  round : Round o inp i s s1 s'
  first : l.time ≤ t1
  second : t1 ≤ t2
  clock1 : Shows inp.clock1 t1
  clock2 : Shows inp.clock2 t2

/-- Rounds that keep the log. -/
def TimedNext (o : Obj) (x x' : State × Log) : Prop :=
  ∃ inp i s1 t1 t2, TimedRound o inp i x.1 s1 x'.1 x.2 t1 t2 ∧ x'.2 = x.2.after x.1 i t1 t2

/-- The last reading of the clock is not after `time`, and what a quaint that waits for a time
notes is what the log says, modulo `2 ^ 64`. -/
def TimerInv (c : Ctl) (l : Log) : Prop :=
  ∃ t ≤ l.time, c.now = t % 2 ^ 64 ∧ ∀ p, (c.threads p).waitingFor = true →
    (c.threads p).w0 = l.start p % 2 ^ 64 ∧ (c.threads p).w1 = l.span p % 2 ^ 64 ∧ l.start p ≤ t

/-! ### One round -/

section Rounds

variable {o : Obj} {inp : Inp} {i : Insn} {s s1 s' : State} {l : Log} {t1 t2 : Nat}

/-- What a thread notes of a `wait` for a time. -/
def SameTimer (t t' : Thread) : Prop :=
  t'.waitingFor = t.waitingFor ∧ t'.w0 = t.w0 ∧ t'.w1 = t.w1

/-- A thread does not wait for a time, or it does as before. -/
def KeepsTimer (t t' : Thread) : Prop := t'.waitingFor = false ∨ SameTimer t t'

lemma KeepsTimer.refl (t : Thread) : KeepsTimer t t := .inr ⟨rfl, rfl, rfl⟩

lemma keepsTimer_set {c : Ctl} {a : Nat} {t : Thread} (h : KeepsTimer (c.threads a) t) (p : Nat) :
    KeepsTimer (c.threads p) ((c.set a t).threads p) := by
  by_cases hp : p = a
  · subst hp
    exact (Ctl.set_threads_self c p t).symm ▸ h
  · rw [Ctl.set_threads_ne _ _ hp]
    exact .refl _

lemma keepsTimer_activate (c : Ctl) (q p : Nat) :
    KeepsTimer (c.threads p) ((c.activate q).threads p) := by
  rw [activate_threads]
  split
  · rename_i hp
    exact .inr (hp ▸ ⟨rfl, rfl, rfl⟩)
  · exact .refl _

lemma KeepsTimer.trans {t t' t'' : Thread} (h : KeepsTimer t t') (h' : KeepsTimer t' t'') :
    KeepsTimer t t'' := by
  rcases h' with h' | ⟨hf', h0', h1'⟩
  · exact .inl h'
  · rcases h with h | ⟨hf, h0, h1⟩
    · exact .inl (hf'.trans h)
    · exact .inr ⟨hf'.trans hf, h0'.trans h0, h1'.trans h1⟩

lemma keepsTimer_return {c c' : Ctl} (h : Return o c c') (p : Nat) :
    KeepsTimer (c.threads p) (c'.threads p) ∧ c'.now = c.now := by
  cases h with
  | caller =>
    refine ⟨keepsTimer_set ?_ p, rfl⟩
    exact .inr ⟨rfl, rfl, rfl⟩
  | main =>
    refine ⟨keepsTimer_set ?_ p, rfl⟩
    exact .inr ⟨rfl, rfl, rfl⟩
  | reap =>
    refine ⟨keepsTimer_set (c := (c.release c.cur).setCur c.this.parent) ?_ p, rfl⟩
    exact .inr ⟨rfl, rfl, rfl⟩
  | wait =>
    refine ⟨.trans (keepsTimer_set (t := c.this.ended) ?_ p)
      (keepsTimer_set (c := (c.setThis c.this.ended).setCur c.this.parent) ?_ p), rfl⟩
    · exact .inr ⟨rfl, rfl, rfl⟩
    · exact .inl rfl

/-- A new quaint does not wait. -/
lemma keepsTimer_create {c : Ctl} {a : Nat} {live : List Nat} {t t' : Thread} (ha : c.cur ≠ a)
    (ht : t.waitingFor = false) (ht' : SameTimer c.this t') (p : Nat) :
    KeepsTimer (c.threads p) ((({ c.set a t with live := live }).setThis t').threads p) := by
  refine .trans (keepsTimer_set (c := c) (a := a) (t := t) (.inl ht) p)
    (keepsTimer_set (c := { c.set a t with live := live }) (a := c.cur) (.inr ?_) p)
  show SameTimer ((c.set a t).threads c.cur) t'
  rwa [Ctl.set_threads_ne _ _ ha]

/-- An instruction that is not a `wait` starts no wait, and leaves the clock alone unless it is
a built-in. -/
lemma keepsTimer_exec {c c' : Ctl} {w : Words} (h : Exec o i w c c') (hw : isWait i = false) (p : Nat) :
    KeepsTimer (c.threads p) (c'.threads p) ∧ (i ≠ .bfun → c'.now = c.now) := by
  cases h with
  | own t hmove =>
    obtain ⟨-, -, -, hfor, -, h0, h1⟩ := ownMove_sameSched hmove
    exact ⟨keepsTimer_set (.inr ⟨hfor, h0, h1⟩) p, fun _ => rfl⟩
  | reapEnded q =>
    refine ⟨keepsTimer_set (c := c.release q) ?_ p, fun _ => rfl⟩
    exact .inr ⟨rfl, rfl, rfl⟩
  | reap q => exact ⟨keepsTimer_activate c q p, fun _ => rfl⟩
  | wait _ _ _ _ _ _ hi =>
    rw [hw] at hi
    cases hi
  | qnt dst loc ssp a ip sp n hi h0 hnew hcur =>
    refine ⟨keepsTimer_create hcur rfl ?_ p, fun _ => rfl⟩
    exact ⟨rfl, rfl, rfl⟩
  | qntv dst val a hi h0 hnew hcur =>
    refine ⟨keepsTimer_create hcur rfl ?_ p, fun _ => rfl⟩
    exact ⟨rfl, rfl, rfl⟩
  | ret size hi hsp _ hret =>
    obtain ⟨hkeeps, hnow⟩ := keepsTimer_return hret p
    refine ⟨.trans (keepsTimer_set (c := c) (a := c.cur) ?_ p) hkeeps, fun _ => hnow⟩
    exact .inr ⟨rfl, rfl, rfl⟩
  | bfun now n live hi hlive hsp _ hret =>
    refine ⟨.trans (keepsTimer_set (c := { c with live := live, now := now }) (a := c.cur) ?_ p)
      (keepsTimer_return hret p).1, fun hb => (hb hi).elim⟩
    exact .inr ⟨rfl, rfl, rfl⟩

lemma mallocBlock_now (size : Nat) (m : Bytes.Mem) : (mallocBlock inp s size m).1.now = s.now := by
  unfold mallocBlock
  split <;> rfl

/-- A built-in reads the clock once, or leaves it alone. -/
lemma bfunBody_now {r : State × List UInt8} (h : bfunBody inp s = .ok r) :
    r.1.now = s.now ∨ inp.clock1 = some r.1.now := by
  unfold bfunBody at h
  split at h
  · cases h
  · simp only [bind_eq_ok, orNomem_eq_ok, pure_eq_ok] at h
    obtain ⟨now, hnow, rfl⟩ := h
    exact .inr hnow
  · simp only [bind_eq_ok, pure_eq_ok] at h
    obtain ⟨_, _, size, _, rfl⟩ := h
    exact .inl (mallocBlock_now size _)
  · simp only [bind_eq_ok, pure_eq_ok] at h
    obtain ⟨_, _, size, _, rfl⟩ := h
    exact .inl (mallocBlock_now size _)
  · simp only [bind_eq_ok, orUb_eq_ok, pure_eq_ok] at h
    obtain ⟨_, _, old, _, size, _, s', hs', rfl⟩ := h
    obtain ⟨heap, rfl⟩ := reallocBlock_heap hs'
    exact .inl rfl
  · simp only [bind_eq_ok, orUb_eq_ok, pure_eq_ok] at h
    obtain ⟨_, _, p, _, s', hs', rfl⟩ := h
    refine .inl ?_
    unfold freeBlock at hs'
    split at hs'
    · obtain rfl := Option.some.inj hs'
      rfl
    · split at hs'
      · obtain rfl := Option.some.inj hs'
        rfl
      · split at hs'
        · obtain rfl := Option.some.inj hs'
          rfl
        · cases hs'
  · simp only [bind_eq_ok, pure_eq_ok] at h
    obtain ⟨_, _, p, _, str, _, rfl⟩ := h
    exact .inl rfl
  iterate 8
    · simp only [printNum, bind_eq_ok, pure_eq_ok] at h
      obtain ⟨_, ⟨_, _, a, _, rfl⟩, rfl⟩ := h
      exact .inl rfl
  · obtain rfl := pure_eq_ok.mp h
    exact .inl rfl
  · simp only [bind_eq_ok] at h
    obtain ⟨_, _, a, _, h⟩ := h
    cases h
  · obtain rfl := pure_eq_ok.mp h
    exact .inl rfl

lemma insnBfun_now (h : insnBfun inp o s = .ok s1) : s1.now = s.now ∨ inp.clock1 = some s1.now := by
  simp only [insnBfun, bind_eq_ok] at h
  obtain ⟨_, _, _, _, _, _, r, hr, base, _, h⟩ := h
  have hnow : s1.now = r.1.now := (keepsTimer_return (handleReturn_ctl h) 0).2
  rw [hnow]
  exact bfunBody_now hr

/-- An instruction other than a `wait` leaves the clock alone or reads it. -/
lemma execInsn_now (hcur : s.cur ∈ s.live) (hw : isWait i = false) (h : execInsn inp o s i = .ok s1) :
    s1.now = s.now ∨ inp.clock1 = some s1.now := by
  by_cases hb : i = .bfun
  · subst hb
    exact insnBfun_now h
  · exact .inl ((keepsTimer_exec (ctl_execInsn hcur h) hw 0).2 hb)

/-- The invariant only reads the clock and what threads note of their waits for a time. -/
lemma TimerInv.keeps {c c' : Ctl} (h : TimerInv c l) (hkeeps : ∀ p, KeepsTimer (c.threads p) (c'.threads p))
    (ht : l.time ≤ t1) (hnow : c'.now = c.now ∨ c'.now = t1 % 2 ^ 64) :
    TimerInv c' { l with time := t1 } := by
  obtain ⟨t, hle, hc, htimers⟩ := h
  have hold : ∀ p, (c'.threads p).waitingFor = true → (c'.threads p).w0 = l.start p % 2 ^ 64 ∧
      (c'.threads p).w1 = l.span p % 2 ^ 64 ∧ l.start p ≤ t := by
    intro p hp
    rcases hkeeps p with hf | ⟨hf, h0, h1⟩
    · rw [hp] at hf
      cases hf
    · rw [h0, h1]
      exact htimers p (hf.symm.trans hp)
  rcases hnow with hnow | hnow
  · exact ⟨t, Nat.le_trans hle ht, hnow.trans hc, hold⟩
  · refine ⟨t1, Nat.le_refl _, hnow, fun p hp => ?_⟩
    obtain ⟨h0, h1, hstart⟩ := hold p hp
    exact ⟨h0, h1, Nat.le_trans hstart (Nat.le_trans hle ht)⟩

lemma waitTimeout_some {timeout : Opd} {hasTimeout : Bool} {t : Nat}
    (h : waitTimeout s timeout hasTimeout = .ok (some t)) :
    hasTimeout = true ∧ loadOpdNat s timeout = .ok t := by
  cases hasTimeout with
  | true =>
    simp only [waitTimeout, if_true, bind_eq_ok, pure_eq_ok, Option.some.injEq] at h
    obtain ⟨_, _, _, _, t', ht, rfl⟩ := h
    exact ⟨rfl, ht⟩
  | false => simp [waitTimeout, pure_eq_ok] at h

lemma waitTimeout_none {timeout : Opd} {hasTimeout : Bool}
    (h : waitTimeout s timeout hasTimeout = .ok none) : hasTimeout = false := by
  cases hasTimeout with
  | true =>
    simp only [waitTimeout, if_true, bind_eq_ok, pure_eq_ok] at h
    obtain ⟨_, _, _, _, t, _, ht⟩ := h
    cases ht
  | false => rfl

/-- A `wait` for a time that goes on with a quaint notes the reading and the interval. -/
lemma TimerInv.startTimed (h : TimerInv (ctl s) l) (ht : l.time ≤ t1) {q d : Nat}
    (hc : ctl s1 = (((ctl s).setNow (t1 % 2 ^ 64)).setThis
      ((ctl s).this.startWait true false (t1 % 2 ^ 64) (d % 2 ^ 64))).activate q) :
    TimerInv (ctl s1) ⟨t1, fun p => if p = s.cur then t1 else l.start p,
      fun p => if p = s.cur then d else l.span p⟩ := by
  obtain ⟨t, hle, -, htimers⟩ := h
  refine ⟨t1, Nat.le_refl _, congrArg Ctl.now hc, fun p hp => ?_⟩
  have hact := keepsTimer_activate (((ctl s).setNow (t1 % 2 ^ 64)).setThis
    ((ctl s).this.startWait true false (t1 % 2 ^ 64) (d % 2 ^ 64))) q p
  rw [hc] at hp ⊢
  rcases hact with hf | ⟨hf, h0, h1⟩
  · rw [hp] at hf
    cases hf
  · rw [h0, h1]
    rw [hf] at hp
    by_cases hpc : p = s.cur
    · subst hpc
      simp only [if_true]
      rw [show (((ctl s).setNow (t1 % 2 ^ 64)).setThis _).threads s.cur = _ from
        Ctl.set_threads_self _ _ _]
      exact ⟨rfl, rfl, Nat.le_refl _⟩
    · have hother : (((ctl s).setNow (t1 % 2 ^ 64)).setThis
          ((ctl s).this.startWait true false (t1 % 2 ^ 64) (d % 2 ^ 64))).threads p =
          (ctl s).threads p := Ctl.set_threads_ne _ _ hpc
      rw [hother] at hp ⊢
      simp only [hpc, if_false]
      obtain ⟨hw0, hw1, hstart⟩ := htimers p hp
      exact ⟨hw0, hw1, Nat.le_trans hstart (Nat.le_trans hle ht)⟩

lemma TimerInv.nextIp (h : TimerInv (ctl s) l) (ht : l.time ≤ t1) :
    TimerInv (ctl (nextIp s)) { l with time := t1 } := by
  rw [ctl_nextIp]
  refine h.keeps (fun p => keepsTimer_set ?_ p) ht (.inl rfl)
  exact .inr ⟨rfl, rfl, rfl⟩

section Wait

variable {quaint timeout : Opd} {func id q t : Nat} {noblock units hasTimeout : Bool}

lemma timedWait_eq_none (hq : loadWord s quaint = .ok q) (h : q = 0 ∨ (s.vms q).atEnd = true ∨
    hasTimeout = false ∨ loadOpdNat s timeout = .ok 0) :
    timedWait s (.wait quaint timeout func id noblock units hasTimeout) = none := by
  cases hasTimeout with
  | false => rfl
  | true =>
    cases ht : loadOpdNat s timeout with
    | error => simp only [timedWait, hq, ht]
    | ok t =>
      simp only [timedWait, hq, ht]
      refine if_pos ?_
      rcases h with h | h | h | h
      · exact .inl h
      · exact .inr (.inl h)
      · cases h
      · exact .inr (.inr (Except.ok.inj (ht.symm.trans h)))

lemma timedWait_eq_some (hq : loadWord s quaint = .ok q) (h0 : q ≠ 0) (hend : (s.vms q).atEnd = false)
    (ht : loadOpdNat s timeout = .ok t) (ht0 : t ≠ 0) :
    timedWait s (.wait quaint timeout func id noblock units true) = some (exactNs units t) := by
  simp [timedWait, hq, ht, h0, hend, ht0]

lemma TimerInv.wait (h : TimerInv (ctl s) l)
    (hx : insnWait inp s quaint timeout func id noblock units hasTimeout = .ok s1)
    (ht : l.time ≤ t1) (hclock : Shows inp.clock1 t1) :
    TimerInv (ctl s1) (l.after s (.wait quaint timeout func id noblock units hasTimeout) t1 t1) := by
  obtain ⟨q, hq, hcases⟩ := insnWait_cases hx
  rcases hcases with ⟨h0, rfl⟩ | ⟨-, -, hend, rfl⟩ | ⟨h0, -, hend, t, htime, ⟨rfl, rfl⟩ | ⟨ht0, hgo⟩⟩
  · rw [Log.after, timedWait_eq_none hq (.inl h0)]
    exact h.nextIp ht
  · rw [Log.after, timedWait_eq_none hq (.inr (.inl hend))]
    exact h.nextIp ht
  · rw [Log.after, timedWait_eq_none hq (.inr (.inr (.inr (waitTimeout_some htime).2)))]
    exact h.nextIp ht
  · rcases startWaiting_cases hgo with ⟨t, now, rfl, hnow, hc⟩ | ⟨rfl, w0, w1, isUntil, hc⟩
    · obtain ⟨rfl, hload⟩ := waitTimeout_some htime
      rw [Log.after, timedWait_eq_some hq h0 hend hload fun h => ht0 (congrArg some h)]
      obtain rfl := hclock now hnow
      exact h.startTimed ht hc
    · rw [Log.after, timedWait_eq_none hq (.inr (.inr (.inl (waitTimeout_none htime))))]
      rw [hc]
      refine h.keeps (fun p => .trans (keepsTimer_set (a := s.cur) (.inl ?_) p)
        (keepsTimer_activate (((ctl s).setNow s.now).setThis _) q p)) ht (.inl rfl)
      rfl

end Wait

/-- One instruction, at the time of the first reading. -/
theorem TimerInv.exec (h : TimerInv (ctl s) l) (hcur : s.cur ∈ s.live)
    (hx : execInsn inp o s i = .ok s1) (ht : l.time ≤ t1) (hclock : Shows inp.clock1 t1) :
    TimerInv (ctl s1) (l.after s i t1 t1) := by
  cases hw : isWait i with
  | true =>
    cases i with
    | wait quaint timeout func id noblock units hasTimeout => exact h.wait hx ht hclock
    | _ => cases hw
  | false =>
    have hnone : timedWait s i = none := by
      cases i with
      | wait => cases hw
      | _ => rfl
    rw [Log.after, hnone]
    refine h.keeps (fun p => (keepsTimer_exec (ctl_execInsn hcur hx) hw p).1) ht ?_
    exact (execInsn_now hcur hw hx).imp_right (hclock _)

/-- The scheduler reads the clock once, or leaves it alone. -/
lemma split_now (h : checkAndEventuallySplitVms inp s = .ok s') :
    s'.now = s.now ∨ inp.clock2 = some s'.now := by
  unfold checkAndEventuallySplitVms at h
  split at h
  · obtain rfl := pure_eq_ok.mp h
    exact .inl rfl
  · rename_i s1 hs1
    have hread : s1.now = s.now ∨ inp.clock2 = some s1.now := by
      unfold readClock at hs1
      split at hs1
      · obtain ⟨now, hnow, rfl⟩ := Option.map_eq_some_iff.mp hs1
        exact .inr hnow
      · obtain rfl := Option.some.inj hs1
        exact .inl rfl
    simp only [bind_eq_ok] at h
    obtain ⟨_, _, r, _, h⟩ := h
    cases r with
    | none => exact pure_eq_ok.mp h ▸ hread
    | some a => exact pure_eq_ok.mp h ▸ hread

/-- The scheduler, at the time of the second reading. -/
lemma TimerInv.sched (h : TimerInv (ctl s) l) (hs : checkAndEventuallySplitVms inp s = .ok s')
    (ht : l.time ≤ t2) (hclock : Shows inp.clock2 t2) :
    TimerInv (ctl s') { l with time := t2 } := by
  refine h.keeps (fun p => ?_) ht ((split_now hs).imp_right (hclock _))
  have hsched := ctl_split hs
  generalize ctl s' = c' at hsched ⊢
  cases hsched with
  | stay now => exact .refl _
  | split now a hanc hwait hlive =>
    refine keepsTimer_set (c := (ctl s).setNow now) ?_ p
    exact .inl rfl

lemma after_time (l : Log) (s : State) (i : Insn) (t1 t2 t3 : Nat) :
    { l.after s i t1 t2 with time := t3 } = l.after s i t1 t3 := by
  unfold Log.after
  split <;> rfl

end Rounds

/-! ### Runs -/

section Run

variable {o : Obj} {inp : Inp} {i : Insn} {a b t1 t2 : Nat} {s s1 s' : State} {l l0 : Log}

lemma TimedRound.inv (hr : TimedRound o inp i s s1 s' l t1 t2) (h : TimerInv (ctl s) l) :
    TimerInv (ctl s1) (l.after s i t1 t1) ∧ TimerInv (ctl s') (l.after s i t1 t2) := by
  have h1 := h.exec hr.round.live hr.round.exec hr.first hr.clock1
  refine ⟨h1, ?_⟩
  have htime : (l.after s i t1 t1).time ≤ t2 := by
    rw [← after_time l s i t1 t1 t1]
    exact hr.second
  rw [← after_time l s i t1 t1 t2]
  exact h1.sched hr.round.split htime hr.clock2

lemma timerInv_init (l : Log) : TimerInv (ctl (initState o a b)) l := by
  refine ⟨0, Nat.zero_le _, rfl, fun p hp => ?_⟩
  have hf : ((ctl (initState o a b)).threads p).waitingFor = false := by
    simp only [ctl, initState]
    split <;> rfl
  rw [hf] at hp
  cases hp

lemma timerInv_of_run (run : ReflTransGen (TimedNext o) (initState o a b, l0) (s, l)) :
    TimerInv (ctl s) l := by
  refine invariant_of_run (I := fun x => TimerInv (ctl x.1) x.2) (fun x x' h hn => ?_)
    (timerInv_init l0) run
  obtain ⟨inp, i, s1, t1, t2, hr, hl⟩ := hn
  rw [hl]
  exact (hr.inv h).2

/-- **A timeout that fits in a word is honoured**: in every run with a clock that does not go
back, whenever the scheduler moves on a quaint that waits for a time, all of that time has passed
since its wait started, as long as it is less than `2 ^ 64` nanoseconds. -/
theorem timeout_honoured_of_run (run : ReflTransGen (TimedNext o) (initState o a b, l0) (s, l))
    (hr : TimedRound o inp i s s1 s' l t1 t2) {p : Nat} (hmoved : (s'.vms p).ip ≠ (s1.vms p).ip)
    (hfor : (s1.vms p).waitingFor = true) (hfits : (l.after s i t1 t2).span p < 2 ^ 64) :
    (l.after s i t1 t2).start p + (l.after s i t1 t2).span p ≤ t2 := by
  obtain ⟨t, hle, hnow, htimers⟩ := (hr.inv (timerInv_of_run run)).1
  obtain ⟨h0, h1, hstart⟩ := htimers p hfor
  rw [← after_time l s i t1 t2 t1] at hle h0 h1 hstart
  simp only [ctl, thread] at h0 h1 hnow
  obtain ⟨c, -, -, hsplits⟩ := split_of_moved hr.round.split hmoved
  simp only [splits, hfor, if_true, Bool.and_eq_true, decide_eq_true_eq, h0, h1,
    Nat.mod_eq_of_lt hfits] at hsplits
  obtain ⟨t', hstart', hnow', hle'⟩ : ∃ t', (l.after s i t1 t2).start p ≤ t' ∧
      s'.now = t' % 2 ^ 64 ∧ t' ≤ t2 := by
    rcases split_now hr.round.split with hsame | hread
    · exact ⟨t, hstart, hsame.trans hnow, Nat.le_trans hle hr.second⟩
    · exact ⟨t2, Nat.le_trans hstart (Nat.le_trans hle hr.second), hr.clock2 _ hread, Nat.le_refl _⟩
  rw [hnow'] at hsplits
  have helapsed := elapsed_le hstart'
  omega

/-! ### A timeout that is cut short -/

/-- `g: quaint(); m { g = ~f(); wait g for <time>; } f { monotime(); }` -/
def timedProgram (time : Nat) (units : Bool) : Ast.Unit :=
  ⟨[],
    [.decl ⟨false, false, false, [letter 103 0], .quaint 1 .zero, .absent⟩,
     .func ⟨false, letter 109 15, .nil, .none,
       .cons (quaintify 103 102 19)
       (.cons (.wait (.name (letter 103 34)) (.nmbr time) .absent false units) .nil)⟩,
     .func ⟨false, letter 102 120, .nil, .none, .cons (.expr (.fexp (.name monotimeSym) .nil)) .nil⟩]⟩

def timedProgramObj (time size : Nat) (units : Bool) : Obj :=
  let temp (off : Nat) : Opd := ⟨.temp, false, false, off, 8⟩
  ⟨8, [], List.replicate 17 Insn.bfun ++
    [Insn.incsp (opdImm false 0 8) (opdImm false 16 8), .getsp (temp 8),
     .qnt (temp 0) (opdImm false 24 8) (temp 8), .mov (opdGlob false 0 8) (temp 0), .nop,
     .wait (opdGlob false 0 8) (opdImm false time size) 0 0 false units true,
     .ret (opdImm false 16 8), .incsp (opdImm false 0 8) (opdImm false 16 8),
     .pushr (opdImm false 26 8) (temp 0), .callv (temp 8) (opdImm false 1 8) (temp 0), .nop,
     .ret (opdImm false 16 8)]⟩

/-- The clock shows the given times, and the allocator takes the given address. -/
def timedInp (addr t1 t2 : Nat) : Inp := ⟨some t1, some t2, some addr, some addr, fun _ => 0, 0⟩

/-- The rounds at the given times, with the addresses the allocator takes. -/
def runTimed (o : Obj) : State × Log → List (Nat × Nat × Nat) → M (State × Log)
  | x, [] => .ok x
  | (s, l), (addr, t1, t2) :: rest =>
    if l.time ≤ t1 ∧ t1 ≤ t2 ∧ t2 < 2 ^ 64 then do
      let insn ← orUb o.insns[s.vm.ip]?
      let s' ← step (timedInp addr t1 t2) o s
      runTimed o (s', l.after s insn t1 t2) rest
    else .error .ub

lemma timedRound_of_step {addr : Nat} (h : step (timedInp addr t1 t2) o s = .ok s')
    (ht : l.time ≤ t1 ∧ t1 ≤ t2 ∧ t2 < 2 ^ 64) :
    ∃ i s1, TimedRound o (timedInp addr t1 t2) i s s1 s' l t1 t2 := by
  obtain ⟨i, s1, hr⟩ := step_eq_ok.mp h
  refine ⟨i, s1, hr, ht.1, ht.2.1, ?_, ?_⟩
  · rintro _ ⟨⟩
    exact (Nat.mod_eq_of_lt (Nat.lt_of_le_of_lt ht.2.1 ht.2.2)).symm
  · rintro _ ⟨⟩
    exact (Nat.mod_eq_of_lt ht.2.2).symm

lemma run_of_runTimed {rounds : List (Nat × Nat × Nat)} {x x' : State × Log}
    (h : runTimed o x rounds = .ok x') : ReflTransGen (TimedNext o) x x' := by
  induction rounds generalizing x with
  | nil =>
    cases h
    exact .refl
  | cons r rounds ih =>
    obtain ⟨addr, t1, t2⟩ := r
    rw [runTimed] at h
    split at h
    · rename_i ht
      simp only [bind_eq_ok, orUb_eq_ok] at h
      obtain ⟨insn, hi, s', hs', h⟩ := h
      obtain ⟨i, s1, hr⟩ := timedRound_of_step hs' ht
      obtain rfl := Option.some.inj (hr.round.fetch.symm.trans hi)
      exact .head ⟨_, _, s1, t1, t2, hr, rfl⟩ (ih h)
    · cases h

/-- The first rounds of the program: enter `m`, make the quaint, and come to the `wait`. -/
def toWait : List (Nat × Nat × Nat) := (List.range 5).map fun k => (1048576 + 32768 * k, 0, 0)

/-- What is looked at in a last round: the instruction, where the first quaint stands before the
scheduler looks and whether it waits for a time, where it stands after, and its entry of the
log. -/
def timedLook (o : Obj) (addr t1 t2 : Nat) (x : State × Log) :
    M (Insn × (Nat × Bool) × Nat × Nat × Nat) :=
  if x.2.time ≤ t1 ∧ t1 ≤ t2 ∧ t2 < 2 ^ 64 then do
    let insn ← orUb o.insns[x.1.vm.ip]?
    let s1 ← execInsn (timedInp addr t1 t2) o x.1 insn
    let s' ← step (timedInp addr t1 t2) o x.1
    let l := x.2.after x.1 insn t1 t2
    return (insn, ((s1.vms 65536).ip, (s1.vms 65536).waitingFor), (s'.vms 65536).ip,
      l.start 65536, l.span 65536)
  else .error .ub

/-- A run with a last round, read off what was looked at. -/
lemma timedRound_of_look {addr ip ip' start span : Nat} {rounds : List (Nat × Nat × Nat)}
    {x : State × Log}
    (h : runTimed o x rounds >>= timedLook o addr t1 t2 = .ok (i, (ip, true), ip', start, span))
    (hip : ip' ≠ ip) :
    ∃ s l s1 s', ReflTransGen (TimedNext o) x (s, l) ∧
      TimedRound o (timedInp addr t1 t2) i s s1 s' l t1 t2 ∧
      (s'.vms 65536).ip ≠ (s1.vms 65536).ip ∧ (s1.vms 65536).waitingFor = true ∧
      (l.after s i t1 t2).start 65536 = start ∧ (l.after s i t1 t2).span 65536 = span := by
  obtain ⟨⟨s, l⟩, hrun, hlook⟩ := bind_eq_ok.mp h
  unfold timedLook at hlook
  split at hlook
  · rename_i ht
    simp only [bind_eq_ok, orUb_eq_ok, pure_eq_ok, Prod.mk.injEq] at hlook
    obtain ⟨j, hj, s1, hs1, s', hs', rfl, ⟨rfl, hfor⟩, rfl, hstart, hspan⟩ := hlook
    obtain ⟨i', s1', hr⟩ := timedRound_of_step hs' ht
    obtain rfl := Option.some.inj (hr.round.fetch.symm.trans hj)
    obtain rfl := Except.ok.inj (hr.round.exec.symm.trans hs1)
    exact ⟨s, l, s1', s', run_of_runTimed hrun, hr, hip, hfor, hstart, hspan⟩
  · cases hlook

/-- A wait for `2 ^ 55` seconds is over as soon as it starts. -/
theorem timeout_cut_short :
    Compiles (timedProgram 36028797018963968 true) (timedProgramObj 36028797018963968 8 true) ∧
    ∃ s l inp i s1 s' t1 t2, ReflTransGen (TimedNext (timedProgramObj 36028797018963968 8 true))
        (initState (timedProgramObj 36028797018963968 8 true) 65536 131072,
          ⟨0, fun _ => 0, fun _ => 0⟩) (s, l) ∧
      TimedRound (timedProgramObj 36028797018963968 8 true) inp i s s1 s' l t1 t2 ∧
      (s'.vms 65536).ip ≠ (s1.vms 65536).ip ∧ (s1.vms 65536).waitingFor = true ∧
      (l.after s i t1 t2).span 65536 = exactNs true 36028797018963968 ∧
      ¬ (l.after s i t1 t2).start 65536 + (l.after s i t1 t2).span 65536 ≤ t2 := by
  have hlook : runTimed (timedProgramObj 36028797018963968 8 true)
      (initState (timedProgramObj 36028797018963968 8 true) 65536 131072,
        ⟨0, fun _ => 0, fun _ => 0⟩) toWait >>=
        timedLook (timedProgramObj 36028797018963968 8 true) 1310720 0 0 =
      .ok (.wait (opdGlob false 0 8) (opdImm false 36028797018963968 8) 0 0 false true true,
        (22, true), 23, 0, 36028797018963968000000000) := by decide +kernel
  obtain ⟨s, l, s1, s', run, hr, hmoved, hfor, hstart, hspan⟩ := timedRound_of_look hlook (by decide)
  refine ⟨by decide +kernel, s, l, _, _, s1, s', 0, 0, run, hr, hmoved, hfor, hspan, ?_⟩
  rw [hstart, hspan]
  decide

/-- A wait for one millisecond, over when the quaint has read a clock two milliseconds later. -/
theorem timeout_honoured_msec : ∃ s l inp i s1 s',
    ReflTransGen (TimedNext (timedProgramObj 1 1 false))
      (initState (timedProgramObj 1 1 false) 65536 131072, ⟨0, fun _ => 0, fun _ => 0⟩) (s, l) ∧
    TimedRound (timedProgramObj 1 1 false) inp i s s1 s' l 2000000 2000000 ∧
    (l.after s i 2000000 2000000).span 65536 = 1000000 ∧
    (l.after s i 2000000 2000000).start 65536 + (l.after s i 2000000 2000000).span 65536 ≤
      2000000 := by
  have hlook : runTimed (timedProgramObj 1 1 false)
      (initState (timedProgramObj 1 1 false) 65536 131072, ⟨0, fun _ => 0, fun _ => 0⟩)
        (toWait ++ [(1212416, 0, 0), (1245184, 0, 0), (1277952, 0, 0), (1310720, 0, 0)]) >>=
        timedLook (timedProgramObj 1 1 false) 1441792 2000000 2000000 =
      .ok (.bfun, (22, true), 23, 0, 1000000) := by decide +kernel
  obtain ⟨s, l, s1, s', run, hr, hmoved, hfor, -, hspan⟩ := timedRound_of_look hlook (by decide)
  exact ⟨s, l, _, _, s1, s', run, hr, hspan,
    timeout_honoured_of_run run hr hmoved hfor (by rw [hspan]; decide)⟩

end Run

end Quaint.Timeouts
