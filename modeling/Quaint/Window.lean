import Quaint.Memory
import Quaint.Certain

/-!
What code without calls and pointers sees of the machine.

Such code reads and writes the stack of the running quaint and its frame of temporaries, and changes
nothing else. As long as no ancestor takes over, its runs are those of a machine that has only
these and the place of the next instruction.
-/

namespace Quaint.Window

open Bytes Code Exec Step Control Partial Effect Memory Certain

/-! ### Sites -/

/-- The place of the next instruction, the stack and the temporaries. -/
structure View where
  ip : Nat
  stack : Mem
  temps : Mem

def View.next (w : View) : View := { w with ip := w.ip + 1 }

def View.jump (w : View) (loc : Nat) : View := { w with ip := loc }

/-- Whatever the time, no ancestor of the running quaint takes over. -/
def Quiet (s : State) : Prop :=
  ∀ now, splitLoop { s with now := now } (splitFuel s) s.cur s.vm.parent s.vm.noint = .ok none

/-- What the code leaves alone: the machine around it, its frame of temporaries and those of its
callers. -/
structure Site where
  state : State
  frame : TmpFrame
  prev : List TmpFrame
  live : state.cur ∈ state.live
  quiet : Quiet state

namespace Site

variable (S : Site)

def bp : Nat := S.state.vm.bp

/-- The running quaint, of which the code sees `w`. -/
def qvm (w : View) : Qvm :=
  { S.state.vm with ip := w.ip, stack := w.stack, temps := { S.frame with mem := w.temps } :: S.prev }

/-- The machine of which the code sees `w`. -/
def seen (w : View) (cycles now : Nat) : State :=
  { S.state.setVm (S.qvm w) with cycles := cycles, now := now }

/-- The bytes of a direct operand. -/
def load (w : View) (a : Opd) : Option (List UInt8) :=
  match a.opd with
  | .imm => if a.size ≤ 8 then some (leBytes a.size a.off) else none
  | .temp => if a.off + a.size ≤ S.frame.size then some (readMem w.temps a.off a.size) else none
  | .auto =>
    if S.bp + a.off + a.size ≤ stackSize then some (readMem w.stack (S.bp + a.off) a.size) else none
  | .glob => none

def store (w : View) (a : Opd) (bs : List UInt8) : Option View :=
  match a.opd with
  | .temp =>
    if a.off + bs.length ≤ S.frame.size then some { w with temps := writeMem w.temps a.off bs }
    else none
  | .auto =>
    if S.bp + a.off + bs.length ≤ stackSize then
      some { w with stack := writeMem w.stack (S.bp + a.off) bs }
    else none
  | _ => none

end Site

section Sites

variable {S : Site} {w w' : View} {c n : Nat} {a : Opd} {bs : List UInt8}

@[simp] lemma seen_cur : (S.seen w c n).cur = S.state.cur := rfl

@[simp] lemma seen_live : (S.seen w c n).live = S.state.live := rfl

@[simp] lemma seen_vm : (S.seen w c n).vm = S.qvm w := if_pos rfl

lemma seen_setVm (v : View) : (S.seen w c n).setVm (S.qvm v) = S.seen v c n := by
  simp only [Site.seen, State.setVm, State.setVms]
  congr 1
  funext x
  by_cases hx : x = S.state.cur <;> simp [hx]

lemma seen_nextIp : nextIp (S.seen w c n) = S.seen w.next c n := by
  rw [nextIp, seen_vm]
  exact seen_setVm w.next

lemma seen_jump (loc : Nat) :
    (S.seen w c n).setVm { (S.seen w c n).vm with ip := loc } = S.seen (w.jump loc) c n := by
  rw [seen_vm]
  exact seen_setVm (w.jump loc)

/-! ### Reading and writing -/

lemma seen_temp : (S.seen w c n).region (.temp S.state.cur S.prev.length) =
    some (S.frame.size, w.temps) := by
  have htemps : (S.seen w c n).vm.temps = { S.frame with mem := w.temps } :: S.prev := by
    rw [seen_vm]
    rfl
  exact (region_temp htemps).trans (if_pos S.live)

lemma seen_stack : (S.seen w c n).region (.stack S.state.cur) = some (stackSize, w.stack) := by
  have h : ((S.seen w c n).vms S.state.cur).stack = w.stack := congrArg Qvm.stack (seen_vm (c := c) (n := n))
  simp only [State.region, seen_live, if_pos S.live, h]

/-- The place of a direct operand. -/
def Site.loc (S : Site) (a : Opd) : Loc :=
  match a.opd with
  | .imm => .imm a.off
  | .temp => .mem (.temp S.state.cur S.prev.length) a.off
  | .auto => .mem (.stack S.state.cur) (S.bp + a.off)
  | .glob => .mem .bss a.off

lemma opdVal_seen (ha : a.indirect = false) : (S.seen w c n).opdVal a = .ok (S.loc a) := by
  rw [State.opdVal, ha, State.opdBase, Site.loc, seen_vm]
  cases a.opd <;> rfl

lemma load_seen (h : S.load w a = some bs) : (S.seen w c n).load (S.loc a) a.size = some bs := by
  unfold Site.load at h
  unfold Site.loc
  cases hk : a.opd with
  | imm => rwa [hk] at h
  | temp =>
    rw [hk] at h
    exact (load_of_place rfl seen_temp).trans h
  | auto =>
    rw [hk] at h
    exact (load_of_place rfl seen_stack).trans h
  | glob =>
    rw [hk] at h
    cases h

lemma loadOpd_seen (ha : a.indirect = false) (h : S.load w a = some bs) :
    loadOpd (S.seen w c n) a = .ok bs := loadOpd_eq_ok.mpr ⟨S.loc a, opdVal_seen ha, load_seen h⟩

lemma seen_setStack (m : Mem) : (S.seen w c n).setRegion (.stack S.state.cur) m =
    S.seen { w with stack := m } c n := by
  have h := seen_setVm (S := S) (w := w) (c := c) (n := n) { w with stack := m }
  rw [← h, State.setRegion, show (S.seen w c n).vms S.state.cur = S.qvm w from seen_vm]
  rfl

lemma seen_setTemps (m : Mem) :
    (S.seen w c n).setRegion (.temp S.state.cur S.prev.length) m = S.seen { w with temps := m } c n := by
  have h := seen_setVm (S := S) (w := w) (c := c) (n := n) { w with temps := m }
  rw [← h, State.setRegion, show (S.seen w c n).vms S.state.cur = S.qvm w from seen_vm]
  simp [Site.qvm, State.setVm]

lemma store_seen (h : S.store w a bs = some w') :
    (S.seen w c n).store (S.loc a) bs = some (S.seen w' c n) := by
  refine store_eq_some.mpr ?_
  unfold Site.store at h
  unfold Site.loc
  cases hk : a.opd with
  | temp =>
    simp only [hk, Option.ite_none_right_eq_some, Option.some.injEq] at h
    obtain ⟨hle, rfl⟩ := h
    exact ⟨_, _, _, _, rfl, seen_temp, hle, (seen_setTemps _).symm⟩
  | auto =>
    simp only [hk, Option.ite_none_right_eq_some, Option.some.injEq] at h
    obtain ⟨hle, rfl⟩ := h
    exact ⟨_, _, _, _, rfl, seen_stack, hle, (seen_setStack _).symm⟩
  | imm | glob =>
    rw [hk] at h
    cases h

lemma storeOpd_seen (ha : a.indirect = false) (h : S.store w a bs = some w') :
    storeOpd (S.seen w c n) a bs = .ok (S.seen w' c n) := by
  simp only [storeOpd, bind_eq_ok, orUb_eq_ok]
  exact ⟨S.loc a, opdVal_seen ha, store_seen h⟩

/-! ### Frames -/

/-- Nothing changes but the place of the next instruction and the temporaries from an offset on. -/
structure Calm (n : Nat) (w w' : View) : Prop where
  stack : w'.stack = w.stack
  temps : ∀ i < n, w'.temps i = w.temps i

/-- The operand is direct and, if it is a temporary, ends below the offset. -/
structure Under (n : Nat) (a : Opd) : Prop where
  direct : a.indirect = false
  temp : a.opd = .temp → a.off + a.size ≤ n

lemma Calm.refl (k : Nat) (w : View) : Calm k w w := ⟨rfl, fun _ _ => rfl⟩

lemma Calm.trans {k m : Nat} {w1 w2 w3 : View} (h : Calm k w1 w2) (h' : Calm m w2 w3) (hk : k ≤ m) :
    Calm k w1 w3 :=
  ⟨h'.stack.trans h.stack, fun i hi => (h'.temps i (hi.trans_le hk)).trans (h.temps i hi)⟩

lemma Under.mono {k m : Nat} (h : Under k a) (hk : k ≤ m) : Under m a :=
  ⟨h.direct, fun ht => (h.temp ht).trans hk⟩

/-- What is below the offset is read as before. -/
lemma Calm.load {k : Nat} (h : Calm k w w') (ha : Under k a) : S.load w' a = S.load w a := by
  unfold Site.load
  cases hk : a.opd with
  | imm => rfl
  | temp =>
    have hle := ha.temp hk
    have hread : readMem w'.temps a.off a.size = readMem w.temps a.off a.size :=
      readMem_congr fun i _ hi => h.temps i (by omega)
    simp only [hread]
  | auto => simp only [h.stack]
  | glob => rfl

/-- What is written to a temporary is read from it, and nothing below it changes. -/
lemma store_temp (hk : a.opd = .temp) (hlen : bs.length = a.size) (hle : a.off + a.size ≤ S.frame.size)
    (w : View) : ∃ w', S.store w a bs = some w' ∧ w'.ip = w.ip ∧ S.load w' a = some bs ∧
      Calm a.off w w' := by
  refine ⟨{ w with temps := writeMem w.temps a.off bs }, ?_, rfl, ?_, rfl, fun i hi => ?_⟩
  · rw [Site.store, hk, hlen]
    exact if_pos hle
  · rw [Site.load, hk, ← hlen, readMem_writeMem_same]
    exact if_pos (hlen ▸ hle)
  · exact writeMem_of_lt _ _ hi

/-- What a cast leaves in a temporary above its operand: the lower bytes, and zeros. -/
lemma cast_seen {d : Opd} (hk : d.opd = .temp) (hd : d.indirect = false)
    (hle : d.off + d.size ≤ S.frame.size) (ha : Under d.off a) (hl : S.load w a = some bs) :
    ∃ w', (∀ c n, insnCast (S.seen w c n) d a = .ok (S.seen w' c n)) ∧ w'.ip = w.ip ∧
      S.load w' d = some (bs.take (min a.size d.size) ++ List.replicate (d.size - a.size) 0) ∧
      Calm d.off w w' := by
  have hlen : bs.length = a.size := by
    have hload := load_seen (c := 0) (n := 0) hl
    exact load_length hload
  obtain ⟨w1, hw1, hip1, hzero, hcalm1⟩ :=
    store_temp (S := S) hk (List.length_replicate : (List.replicate d.size (0 : UInt8)).length = d.size)
      hle w
  have hl1 : S.load w1 a = some bs := (hcalm1.load ha).trans hl
  have htake : (bs.take (min a.size d.size)).length = min a.size d.size :=
    List.length_take_of_le (by omega)
  set w2 : View := { w1 with temps := writeMem w1.temps d.off (bs.take (min a.size d.size)) } with hw2
  have hst : S.store w1 d (bs.take (min a.size d.size)) = some w2 := by
    rw [Site.store, hk, htake]
    exact if_pos (by omega)
  refine ⟨w2, fun c n => ?_, hip1, ?_, hcalm1.trans ⟨rfl, fun i hi => writeMem_of_lt _ _ hi⟩ le_rfl⟩
  · simp only [insnCast, State.memcpy, bind_eq_ok, orUb_eq_ok]
    exact ⟨_, opdVal_seen hd, _, opdVal_seen ha.direct, _, store_seen hw1, _,
      load_take (load_seen hl1) (min_le_left _ _), store_seen hst⟩
  · rw [Site.load, hk, if_pos hle] at hzero
    have hread : readMem w2.temps d.off d.size =
        bs.take (min a.size d.size) ++ List.replicate (d.size - a.size) 0 := by
      rw [hw2, readMem_writeMem_prefix _ _ (by omega), Option.some.inj hzero, List.drop_replicate, htake]
      congr 2
      omega
    rw [Site.load, hk]
    exact (if_pos hle).trans (congrArg some hread)

end Sites

/-! ### Instructions

Each stores the bytes of a number at its destination, if it is legal and its operands can be read.
-/

section Instructions

variable {s : State} {d a b : Opd} {bs cs : List UInt8}

lemma ok_bind {α β : Type} {x : α} {f : α → M β} : (Except.ok x >>= f) = f x := rfl

lemma orUb_some {α : Type} (x : α) : orUb (some x) = .ok x := rfl

lemma loadOpdNat_eq (ha : loadOpd s a = .ok bs) : loadOpdNat s a = .ok (leNat bs) := by
  rw [loadOpdNat, ha]
  rfl

lemma insnMov_eq (hs : d.size = a.size) (ha : loadOpd s a = .ok bs) :
    insnMov s d a = storeOpd s d bs := by
  obtain ⟨l, hl, hload⟩ := loadOpd_eq_ok.mp ha
  simp only [insnMov, legalIf, hs, decide_true, if_true, storeOpd, hl, State.memcpy, hload, ok_bind,
    orUb_some]

lemma insnBinArith_eq {op : ArithOp} {n : Nat} (hw : isWidth d.size = true)
    (has : a.size = d.size) (hag : a.signd = d.signd) (hbs : b.size = d.size) (hbg : b.signd = d.signd)
    (ha : loadOpd s a = .ok bs) (hb : loadOpd s b = .ok cs)
    (hn : arithOp op d.signd d.size (leNat bs) (leNat cs) = some n) :
    insnBinArith s op d a b = storeOpd s d (leBytes d.size n) := by
  simp only [insnBinArith, legalIf, has, hag, hbs, hbg, hw, loadOpdNat_eq ha, loadOpdNat_eq hb, hn,
    BEq.rfl, Bool.and_self, decide_true, if_true, and_self, ok_bind, orUb_some, storeOpdNat]

lemma insnEquNeq_eq {neq : Bool} (hds : d.size = 1) (hdg : d.signd = false) (hbs : b.size = a.size)
    (ha : loadOpd s a = .ok bs) (hb : loadOpd s b = .ok cs) :
    insnEquNeq s neq d a b = storeOpd s d (leBytes 1 (if (bs == cs) != neq then 1 else 0)) := by
  simp only [insnEquNeq, legalIf, hds, hdg, hbs, ha, hb, BEq.rfl, decide_true, if_true, ok_bind,
    storeOpdNat]

lemma insnBinLogic_eq {op : CmpOp} (hds : d.size = 1) (hdg : d.signd = false)
    (hw : isWidth a.size = true) (hbs : b.size = a.size) (hbg : b.signd = a.signd)
    (ha : loadOpd s a = .ok bs) (hb : loadOpd s b = .ok cs) :
    insnBinLogic s op d a b = storeOpd s d (leBytes 1 (if cmpOp op (toInt a.signd a.size (leNat bs))
      (toInt a.signd a.size (leNat cs)) then 1 else 0)) := by
  simp only [insnBinLogic, legalIf, hds, hdg, hw, hbs, hbg, loadOpdNat_eq ha, loadOpdNat_eq hb, BEq.rfl,
    decide_true, if_true, ok_bind, storeOpdNat]

lemma insnNot_eq (hw : isWidth d.size = true) (has : a.size = d.size) (hag : a.signd = d.signd)
    (ha : loadOpd s a = .ok bs) :
    insnNot s d a = storeOpd s d (leBytes d.size (if leNat bs = 0 then 1 else 0)) := by
  simp only [insnNot, legalIf, hw, has, hag, loadOpdNat_eq ha, BEq.rfl, decide_true, if_true, ok_bind,
    storeOpdNat]

lemma insnNeg_eq (hw : isWidth d.size = true) (hdg : d.signd = true) (has : a.size = d.size)
    (ha : loadOpd s a = .ok bs) :
    insnNeg s d a = storeOpd s d (leBytes d.size (ofInt d.size (-toInt a.signd d.size (leNat bs)))) := by
  simp only [insnNeg, legalIf, hw, hdg, has, loadOpdNat_eq ha, BEq.rfl, decide_true, if_true, ok_bind,
    storeOpdNat]

lemma insnBneg_eq (hw : isWidth d.size = true) (hdg : d.signd = false) (has : a.size = d.size)
    (hag : a.signd = false) (ha : loadOpd s a = .ok bs) :
    insnBneg s d a = storeOpd s d (leBytes d.size (2 ^ (8 * d.size) - 1 - leNat bs)) := by
  simp only [insnBneg, legalIf, hw, hdg, has, hag, loadOpdNat_eq ha, BEq.rfl, decide_true, if_true,
    ok_bind, storeOpdNat]

lemma insnOz_eq (hds : d.size = 1) (hdg : d.signd = false) (hw : isWidth a.size = true)
    (ha : loadOpd s a = .ok bs) :
    insnOz s d a = storeOpd s d (leBytes 1 (if leNat bs = 0 then 0 else 1)) := by
  simp only [insnOz, legalIf, hds, hdg, hw, loadOpdNat_eq ha, BEq.rfl, decide_true, if_true, ok_bind,
    storeOpdNat]

lemma insnCjmp_eq {jnz : Bool} {loc : Nat} (hs : 0 < a.size) (ha : loadOpd s a = .ok bs) :
    insnCjmp s jnz a loc = .ok (if leNat bs = 0 ↔ jnz = false then s.setVm { s.vm with ip := loc }
      else nextIp s) := by
  simp only [insnCjmp, legalIf, gt_iff_lt, hs, decide_true, if_true, loadOpdNat_eq ha, ok_bind]
  split <;> rfl

end Instructions

/-! ### Rounds -/

section Rounds

variable {S : Site} {o : Obj} {w w' : View} {c n : Nat} {a d : Opd} {bs : List UInt8} {i : Insn}
  {inp : Inp} {P Q : View → Prop}

/-- The scheduler does not see where the quaints stand, nor their stacks and temporaries. -/
lemma splitLoop_congr {s t : State} (hlive : s.live = t.live) (hnow : s.now = t.now)
    (hvms : ∀ x, ∃ b ip sp st tm, s.vms x = { t.vms x with
      atStart := b, ip := ip, sp := sp, stack := st, temps := tm }) (fuel old next : Nat) (noint : Bool) :
    splitLoop s fuel old next noint = splitLoop t fuel old next noint := by
  induction fuel generalizing old next noint with
  | zero => rfl
  | succ fuel ih =>
    obtain ⟨_, _, _, _, _, hold⟩ := hvms old
    obtain ⟨_, _, _, _, _, hnext⟩ := hvms next
    simp only [splitLoop, ih, hold, hnext, hlive, hnow]
    rfl

/-- The scheduler sees nothing of what the code changes. -/
lemma splitLoop_seen (fuel old next : Nat) (noint : Bool) :
    splitLoop (S.seen w c n) fuel old next noint =
      splitLoop { S.state with now := n } fuel old next noint := by
  refine splitLoop_congr (s := S.seen w c n) (t := { S.state with now := n }) rfl rfl (fun x => ?_)
    fuel old next noint
  by_cases hx : x = S.state.cur
  · subst hx
    exact ⟨_, _, _, _, _, seen_vm⟩
  · exact ⟨_, _, _, _, _, if_neg hx⟩

/-- Nor does the scheduler see that a function is entered. -/
lemma quiet_enter {s : State} (h : Quiet s) (sp : Nat) (f : TmpFrame) :
    Quiet (s.setVm (Qvm.enter s.vm sp f)) := by
  intro now
  rw [setVm_vm]
  refine (splitLoop_congr (s := { s.setVm (Qvm.enter s.vm sp f) with now := now })
    (t := { s with now := now }) rfl rfl (fun x => ?_) _ _ _ _).trans (h now)
  by_cases hx : x = s.cur
  · subst hx
    exact ⟨_, _, _, _, _, if_pos rfl⟩
  · exact ⟨_, _, _, _, _, if_neg hx⟩

/-- A quaint without a parent has no ancestors that could take over. -/
lemma quiet_of_root {s : State} (h : s.vm.parent = 0) : Quiet s := fun now => by
  rw [h]
  exact if_pos (.inl rfl)

lemma sched_seen (inp : Inp) :
    ∃ c' n', checkAndEventuallySplitVms inp (S.seen w c n) = .ok (S.seen w c' n') := by
  unfold checkAndEventuallySplitVms
  cases hr : readClock inp (S.seen w c n) with
  | none => exact ⟨c + 1, n, rfl⟩
  | some s =>
    obtain ⟨n', rfl⟩ : ∃ n', s = S.seen w (c + 1) n' := by
      unfold readClock at hr
      split at hr
      · obtain ⟨now, -, rfl⟩ := Option.map_eq_some_iff.mp hr
        exact ⟨now, rfl⟩
      · exact ⟨n, (Option.some.inj hr).symm⟩
    have hquiet : splitLoop (S.seen w (c + 1) n') (splitFuel (S.seen w (c + 1) n'))
        (S.seen w (c + 1) n').cur (S.seen w (c + 1) n').vm.parent (S.seen w (c + 1) n').vm.noint =
        .ok none := by
      rw [splitLoop_seen, seen_vm]
      exact S.quiet n'
    exact ⟨c + 1, n', bind_eq_ok.mpr ⟨⟨⟩, if_pos (decide_eq_true S.live),
      bind_eq_ok.mpr ⟨none, hquiet, rfl⟩⟩⟩

/-- A round executes an instruction, if the code goes on. -/
lemma step_seen {s : State} (hlive : s.cur ∈ s.live) (hi : o.insns[s.vm.ip]? = some i)
    (hx : execInsn inp o s i = .ok (S.seen w c n)) (hip : w.ip < o.insnCount) :
    ∃ c' n', step inp o s = .ok (S.seen w c' n') := by
  obtain ⟨c', n', hsched⟩ := sched_seen (S := S) (w := w) (c := c) (n := n) inp
  exact ⟨c', n', step_eq_ok.mpr ⟨i, _, hlive, hi, hx, hsched, by rw [seen_vm]; exact hip⟩⟩

/-- The runs from the view come to one with the property. -/
def Site.Reaches (S : Site) (o : Obj) (P : View → Prop) (w : View) : Prop :=
  ∀ c n, ComesTo (fun inp s => step inp o s) (fun s => ∃ w' c' n', s = S.seen w' c' n' ∧ P w')
    (S.seen w c n)

lemma reaches_here (h : P w) : S.Reaches o P w := fun c n => .here ⟨w, c, n, rfl, h⟩

theorem Site.Reaches.bind (h : S.Reaches o P w) (hP : ∀ w, P w → S.Reaches o Q w) :
    S.Reaches o Q w := fun c n => (h c n).bind fun s hs => by
  obtain ⟨w', c', n', rfl, hw⟩ := hs
  exact hP w' hw c' n'

lemma Site.Reaches.mono (h : S.Reaches o P w) (hP : ∀ w, P w → Q w) : S.Reaches o Q w :=
  h.bind fun w hw => reaches_here (hP w hw)

/-- An instruction is executed, and the code goes on. -/
theorem reaches_exec (hi : o.insns[w.ip]? = some i)
    (hx : ∀ inp c n, execInsn inp o (S.seen w c n) i = .ok (S.seen w' c n)) (hip : w'.ip < o.insnCount)
    (h : S.Reaches o P w') : S.Reaches o P w := fun c n => ComesTo.of_step fun inp => by
  obtain ⟨c', n', hstep⟩ := step_seen (s := S.seen w c n) S.live (by rw [seen_vm]; exact hi)
    (hx inp c n) hip
  exact ⟨_, hstep, h c' n'⟩

/-- An instruction that stores some bytes is executed, and the code goes on behind it. -/
theorem reaches_store (hi : o.insns[w.ip]? = some i)
    (hx : ∀ inp c n, execInsn inp o (S.seen w c n) i = nextIp <$> storeOpd (S.seen w c n) d bs)
    (hd : d.indirect = false) (hst : S.store w d bs = some w') (hip : w'.ip + 1 < o.insnCount)
    (h : S.Reaches o P w'.next) : S.Reaches o P w :=
  reaches_exec hi (fun inp c n => by rw [hx, storeOpd_seen hd hst, ← seen_nextIp]; rfl) hip h

/-- An instruction that stores some bytes in a temporary is executed, and the code goes on behind it. -/
lemma reaches_temp (b : List UInt8) (hi : o.insns[w.ip]? = some i)
    (hx : ∀ inp c n, execInsn inp o (S.seen w c n) i = nextIp <$> storeOpd (S.seen w c n) d b)
    (hd : d.indirect = false) (hk : d.opd = .temp) (hlen : b.length = d.size)
    (hle : d.off + d.size ≤ S.frame.size) (hip : w.ip + 1 < o.insnCount)
    (h : ∀ w', w'.ip = w.ip + 1 → S.load w' d = some b → Calm d.off w w' → S.Reaches o P w') :
    S.Reaches o P w := by
  obtain ⟨w1, hw1, hip1, hload, hcalm⟩ := store_temp (S := S) hk hlen hle w
  exact reaches_store hi hx hd hw1 (by rwa [hip1])
    (h w1.next (congrArg (· + 1) hip1) hload ⟨hcalm.stack, hcalm.temps⟩)

lemma reaches_jmp {loc : Nat} (hi : o.insns[w.ip]? = some (.jmp loc)) (hip : loc < o.insnCount)
    (h : S.Reaches o P (w.jump loc)) : S.Reaches o P w :=
  reaches_exec hi (fun _ _ _ => congrArg Except.ok (seen_jump loc)) hip h

end Rounds

end Quaint.Window
