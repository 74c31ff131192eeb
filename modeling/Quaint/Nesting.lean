import Quaint.Correct
import Quaint.Solitary

/-!
What code that calls functions sees of the machine.

Such code reads and writes the stack of the running quaint from the frame of its function on, and its
frame of temporaries; what it calls uses the stack above and frames of its own, and gives them back. A
run may stop for want of memory or of room on the stack. The quaint has no parent, so that nothing else
runs meanwhile. Code that calls no built-in functions keeps to what is the quaint's own.
-/

namespace Quaint.Nesting

open Bytes Types Ast Code Exec Step Control Partial Effect Memory Window Certain
open Solitary (localOpd localInsn leavesBottom keepsToItself keepsToItself_iff)

/-! ### Spots -/

/-- What a function keeps to as long as it runs: its quaint, its frame on the stack, its temporaries and
those of its callers. -/
structure Spot where
  cur : Nat
  bp : Nat
  sp : Nat
  frame : TmpFrame
  prev : List TmpFrame

/-- The machine of which the code at the spot sees `w`, with what has been written. -/
structure Seen (S : Spot) (w : View) (out : List Out) (s : State) : Prop where
  cur : s.cur = S.cur
  live : s.cur ∈ s.live
  root : s.vm.parent = 0
  bp : s.vm.bp = S.bp
  sp : s.vm.sp = S.sp
  ip : s.vm.ip = w.ip
  stack : s.vm.stack = w.stack
  temps : s.vm.temps = { S.frame with mem := w.temps } :: S.prev
  out : s.out = out

/-- The site is at the spot. -/
structure Spot.Is (S : Spot) (T : Site) : Prop where
  frame : T.frame = S.frame
  prev : T.prev = S.prev
  bp : T.bp = S.bp

namespace Spot

variable (S : Spot)

/-- The bytes of a direct operand. -/
def load (w : View) (a : Opd) : Option (List UInt8) :=
  match a.opd with
  | .imm => if a.size ≤ 8 then some (leBytes a.size a.off) else none
  | .temp => if a.off + a.size ≤ S.frame.size then some (readMem w.temps a.off a.size) else none
  | .auto =>
    if S.bp + a.off + a.size ≤ stackSize then some (readMem w.stack (S.bp + a.off) a.size) else none
  | .glob => none

def store (w : View) (a : Opd) (bs : List UInt8) : Option View :=
  match a.opd with
  | .temp =>
    if a.off + bs.length ≤ S.frame.size then some { w with temps := writeMem w.temps a.off bs }
    else none
  | .auto =>
    if S.bp + a.off + bs.length ≤ stackSize then
      some { w with stack := writeMem w.stack (S.bp + a.off) bs }
    else none
  | _ => none

/-- The stack below the top and the temporaries below an offset are as before. -/
structure Kept (n : Nat) (w w' : View) : Prop where
  stack : ∀ i < S.sp, w'.stack i = w.stack i
  temps : ∀ i < n, w'.temps i = w.temps i

end Spot

/-- What a run may stop for: no memory, or no room on the stack. -/
def Spent (e : Stop) : Prop :=
  e ∈ [.nomem, .illegal "vm->sp + 16 <= STACK_SIZE", .illegal "vm->sp + val_size <= STACK_SIZE",
    .illegal "vm->sp <= STACK_SIZE"]

/-- A round. A quaint that is to keep to itself makes it only by an instruction on what is its own. -/
def inside (solo : Bool) (inp : Inp) (o : Obj) (s : State) : M State := do
  ubUnless (!solo || keepsToItself o s.vm)
  step inp o s

/-- Every run from the state comes to the property, unless it stops before. -/
abbrev Runs (solo : Bool) (o : Obj) (P : State → Prop) : State → Prop :=
  ComesUnless (fun inp s => inside solo inp o s) Spent P

/-- The runs from the view at one spot come to a view at another. -/
def Spot.Leads (S : Spot) (solo : Bool) (o : Obj) (T : Spot) (P : View → List Out → Prop) (w : View)
    (out : List Out) : Prop :=
  ∀ s, Seen S w out s → Runs solo o (fun s' => ∃ w' out', Seen T w' out' s' ∧ P w' out') s

/-- A quaint that is to keep to itself may execute the instruction with its stack pointer there. -/
def Allowed (solo : Bool) (sp : Nat) (i : Insn) : Prop :=
  solo = true → localInsn i = true ∧ ∀ v : Qvm, v.sp = sp → leavesBottom v i = false

section Spots

variable {solo : Bool} {S T U : Spot} {o : Obj} {w w' : View} {out out' : List Out} {s s1 s' : State} {a d : Opd}
  {bs : List UInt8} {n m : Nat} {P Q : View → List Out → Prop} {i : Insn} {inp : Inp}

/-! ### The sites of a spot -/

/-- The site a state is seen at. -/
def siteOf (S : Spot) (h : Seen S w out s) : Site :=
  ⟨s, S.frame, S.prev, h.live, quiet_of_root h.root⟩

lemma siteOf_is (h : Seen S w out s) : S.Is (siteOf S h) := ⟨rfl, rfl, h.bp⟩

lemma seen_siteOf (h : Seen S w out s) : (siteOf S h).seen w s.cycles s.now = s := by
  have hq : (siteOf S h).qvm w = s.vm := by
    rw [Site.qvm, show (siteOf S h).state.vm = s.vm from rfl, ← h.ip, ← h.stack,
      show { (siteOf S h).frame with mem := w.temps } :: (siteOf S h).prev = s.vm.temps from h.temps.symm]
  rw [Site.seen, hq]
  show { s.setVm s.vm with cycles := s.cycles, now := s.now } = s
  have hset : s.setVm s.vm = s := by
    simp only [State.setVm, State.setVms]
    congr 1
    funext x
    by_cases hx : x = s.cur <;> simp [hx, State.vm]
  rw [hset]

lemma seen_of_site (h : Seen S w out s) (w' : View) (c k : Nat) : Seen S w' out ((siteOf S h).seen w' c k) where
  cur := h.cur
  live := h.live
  root := by rw [seen_vm]; exact h.root
  bp := by rw [seen_vm]; exact h.bp
  sp := by rw [seen_vm]; exact h.sp
  ip := by rw [seen_vm]; rfl
  stack := by rw [seen_vm]; rfl
  temps := by rw [seen_vm]; rfl
  out := h.out

lemma Spot.Is.load {T : Site} (h : S.Is T) (w : View) (a : Opd) : T.load w a = S.load w a := by
  cases hk : a.opd <;> simp only [Site.load, Spot.load, hk, h.frame, h.bp]

lemma Spot.Is.store {T : Site} (h : S.Is T) (w : View) (a : Opd) (bs : List UInt8) :
    T.store w a bs = S.store w a bs := by
  cases hk : a.opd <;> simp only [Site.store, Spot.store, hk, h.frame, h.bp]

lemma loadOpd_spot (h : Seen S w out s) (ha : a.indirect = false) (hl : S.load w a = some bs) :
    loadOpd s a = .ok bs := by
  rw [← (siteOf_is h).load] at hl
  have hload := loadOpd_seen (c := s.cycles) (n := s.now) ha hl
  rwa [seen_siteOf] at hload

lemma storeOpd_spot (h : Seen S w out s) (ha : a.indirect = false) (hst : S.store w a bs = some w') :
    ∃ s1, storeOpd s a bs = .ok s1 ∧ Seen S w' out s1 := by
  rw [← (siteOf_is h).store] at hst
  have hstore := storeOpd_seen (c := s.cycles) (n := s.now) ha hst
  rw [seen_siteOf] at hstore
  exact ⟨_, hstore, seen_of_site h _ _ _⟩

/-! ### Runs -/

lemma leads_here (h : P w out) : S.Leads solo o S P w out := fun _ hs => .here ⟨w, out, hs, h⟩

theorem Spot.Leads.bind (h : S.Leads solo o T P w out) (hP : ∀ w' out', P w' out' → T.Leads solo o U Q w' out') :
    S.Leads solo o U Q w out := fun s hs => (h s hs).bind fun s' hs' => by
  obtain ⟨w', out', hs', hp⟩ := hs'
  exact hP w' out' hp s' hs'

lemma Spot.Leads.mono (h : S.Leads solo o T P w out) (hP : ∀ w' out', P w' out' → Q w' out') :
    S.Leads solo o T Q w out := h.bind fun w' out' hp => leads_here (hP w' out' hp)

/-- The scheduler leaves a quaint without a parent running. -/
lemma sched_root (hlive : s.cur ∈ s.live) (hroot : s.vm.parent = 0) (inp : Inp) :
    ∃ c k, checkAndEventuallySplitVms inp s = .ok { s with cycles := c, now := k } := by
  let T : Site := ⟨s, ⟨0, 0, fun _ => 0⟩, [], hlive, quiet_of_root hroot⟩
  unfold checkAndEventuallySplitVms
  cases hr : readClock inp s with
  | none => exact ⟨s.cycles + 1, s.now, rfl⟩
  | some t =>
    obtain ⟨k, rfl⟩ : ∃ k, t = { s with cycles := s.cycles + 1, now := k } := by
      unfold readClock at hr
      split at hr
      · obtain ⟨now, -, rfl⟩ := Option.map_eq_some_iff.mp hr
        exact ⟨now, rfl⟩
      · exact ⟨s.now, (Option.some.inj hr).symm⟩
    refine ⟨s.cycles + 1, k, bind_eq_ok.mpr ⟨⟨⟩, if_pos (decide_eq_true hlive), bind_eq_ok.mpr ⟨none, ?_, rfl⟩⟩⟩
    show splitLoop _ (_ + 1) _ s.vm.parent _ = _
    rw [hroot]
    exact if_pos (.inl rfl)

/-- A round of a quaint without a parent is an instruction. -/
lemma step_root (hlive : s.cur ∈ s.live) (hi : o.insns[s.vm.ip]? = some i)
    (hx : execInsn inp o s i = .ok s1) (hlive1 : s1.cur ∈ s1.live) (hroot : s1.vm.parent = 0)
    (hip : s1.vm.ip < o.insnCount) : ∃ c k, step inp o s = .ok { s1 with cycles := c, now := k } := by
  obtain ⟨c, k, hsched⟩ := sched_root hlive1 hroot inp
  exact ⟨c, k, step_eq_ok.mpr ⟨i, s1, hlive, hi, hx, hsched, hip⟩⟩

lemma step_error {e : Stop} (hlive : s.cur ∈ s.live) (hi : o.insns[s.vm.ip]? = some i)
    (hx : execInsn inp o s i = .error e) : step inp o s = .error e := by
  simp only [step, ubUnless, hlive, decide_true, if_true, hi, ok_bind, orUb_some, hx]
  rfl

lemma inside_eq (hi : o.insns[s.vm.ip]? = some i) (hk : Allowed solo s.vm.sp i) (inp : Inp) :
    inside solo inp o s = step inp o s := by
  have hok : (!solo || keepsToItself o s.vm) = true := by
    cases solo with
    | false => rfl
    | true =>
      obtain ⟨hlocal, hb⟩ := hk rfl
      exact keepsToItself_iff.mpr ⟨i, hi, hlocal, hb _ rfl⟩
  rw [inside, ubUnless, hok]
  rfl

/-- What a round leads to, from what its instruction does. -/
lemma runs_insn {P : State → Prop} (hlive : s.cur ∈ s.live) (hi : o.insns[s.vm.ip]? = some i)
    (hk : Allowed solo s.vm.sp i)
    (hx : ∀ inp, (∃ s1, execInsn inp o s i = .ok s1 ∧ s1.cur ∈ s1.live ∧ s1.vm.parent = 0 ∧
        s1.vm.ip < o.insnCount ∧ ∀ c k, Runs solo o P { s1 with cycles := c, now := k }) ∨
      ∃ e, execInsn inp o s i = .error e ∧ Spent e) : Runs solo o P s := by
  refine .later (fun inp s' hs' => ?_) fun inp e he => ?_
  · rw [inside_eq hi hk] at hs'
    rcases hx inp with ⟨s1, h1, hl1, hr1, hip, hrun⟩ | ⟨e, h1, -⟩
    · obtain ⟨c, k, hstep⟩ := step_root hlive hi h1 hl1 hr1 hip
      obtain rfl := Except.ok.inj (hstep.symm.trans hs')
      exact hrun c k
    · cases (step_error hlive hi h1).symm.trans hs'
  · rw [inside_eq hi hk] at he
    rcases hx inp with ⟨s1, h1, hl1, hr1, hip, -⟩ | ⟨e', h1, hspent⟩
    · obtain ⟨c, k, hstep⟩ := step_root hlive hi h1 hl1 hr1 hip
      cases hstep.symm.trans he
    · obtain rfl := Except.error.inj ((step_error hlive hi h1).symm.trans he)
      exact hspent

/-- An instruction is executed, and the code goes on, unless the run stops. -/
theorem leads_insn (T : Spot) (out' : List Out) {Q : View → Prop} (hi : o.insns[w.ip]? = some i) (hk : Allowed solo S.sp i)
    (hx : ∀ inp s, Seen S w out s → (∃ s1 w1, execInsn inp o s i = .ok s1 ∧ Seen T w1 out' s1 ∧ Q w1) ∨
      ∃ e, execInsn inp o s i = .error e ∧ Spent e)
    (h : ∀ w1, Q w1 → w1.ip < o.insnCount ∧ T.Leads solo o U P w1 out') : S.Leads solo o U P w out := fun s hs => by
  refine runs_insn hs.live (hs.ip ▸ hi) (hs.sp ▸ hk) fun inp =>
    (hx inp s hs).imp_left fun ⟨s1, w1, h1, hs1, hq⟩ => ?_
  obtain ⟨hip, hrun⟩ := h w1 hq
  refine ⟨s1, h1, hs1.live, hs1.root, hs1.ip ▸ hip, fun c k => hrun _ ?_⟩
  exact ⟨hs1.cur, hs1.live, hs1.root, hs1.bp, hs1.sp, hs1.ip, hs1.stack, hs1.temps, hs1.out⟩

/-- An instruction that cannot fail. -/
lemma leads_exec (w' : View) (hi : o.insns[w.ip]? = some i) (hk : Allowed solo S.sp i) (hip : w'.ip < o.insnCount)
    (hx : ∀ inp s, Seen S w out s → ∃ s1, execInsn inp o s i = .ok s1 ∧ Seen T w' out' s1)
    (h : T.Leads solo o U P w' out') : S.Leads solo o U P w out := by
  refine leads_insn T out' (Q := fun w1 => w1 = w') hi hk (fun inp s hs => .inl ?_) ?_
  · obtain ⟨s1, h1, hs1⟩ := hx inp s hs
    exact ⟨s1, w', h1, hs1, rfl⟩
  · rintro w1 rfl
    exact ⟨hip, h⟩

/-- An instruction at which the run stops. -/
lemma leads_stop {e : Stop} (hi : o.insns[w.ip]? = some i) (hk : Allowed solo S.sp i) (he : Spent e)
    (hx : ∀ inp s, Seen S w out s → execInsn inp o s i = .error e) : S.Leads solo o U P w out := fun s hs =>
  runs_insn hs.live (hs.ip ▸ hi) (hs.sp ▸ hk) fun inp => .inr ⟨e, hx inp s hs, he⟩

/-! ### What is the quaint's own -/

lemma allowed_of (h : localInsn i = true) (hb : ∀ v, leavesBottom v i = false) {sp : Nat} : Allowed solo sp i :=
  fun _ => ⟨h, fun v _ => hb v⟩

lemma localOpd_imm (signd : Bool) (v size : Nat) : localOpd (opdImm signd v size) = true := rfl

lemma localOpd_of_load (hd : a.indirect = false) (hl : S.load w a = some bs) : localOpd a = true := by
  have hk : a.opd ≠ .glob := by
    intro hk
    simp [Spot.load, hk] at hl
  simp [localOpd, hd, hk]

end Spots

/-! ### The stack -/

section Stack

variable {solo : Bool} {S T U : Spot} {o : Obj} {w w' : View} {out out' : List Out} {s s1 s' : State} {a d : Opd}
  {bs : List UInt8} {n m off k : Nat} {P Q : View → List Out → Prop} {i : Insn} {inp : Inp}

lemma load_stack (h : Seen S w out s) (off n : Nat) (hle : off + n ≤ stackSize) :
    s.load (.mem (.stack s.cur) off) n = some (readMem w.stack off n) := by
  have hr := seen_stack (S := siteOf S h) (w := w) (c := s.cycles) (n := s.now)
  rw [seen_siteOf h] at hr
  exact (load_of_place rfl hr).trans (if_pos hle)

lemma store_stack (h : Seen S w out s) (off : Nat) (bs : List UInt8) (hle : off + bs.length ≤ stackSize) :
    ∃ s1, s.store (.mem (.stack s.cur) off) bs = some s1 ∧
      Seen S { w with stack := writeMem w.stack off bs } out s1 := by
  have hr := seen_stack (S := siteOf S h) (w := w) (c := s.cycles) (n := s.now)
  have hset := seen_setStack (S := siteOf S h) (w := w) (c := s.cycles) (n := s.now)
    (writeMem w.stack off bs)
  rw [seen_siteOf h] at hr hset
  refine ⟨_, store_eq_some.mpr ⟨_, _, _, _, rfl, hr, hle, rfl⟩, ?_⟩
  rw [show (siteOf S h).state.cur = s.cur from rfl] at hset
  rw [hset]
  exact seen_of_site h _ _ _

/-- The registers of the running quaint are set. -/
lemma seen_regs (h : Seen S w out s) {v : Qvm} (hroot : v.parent = 0) (hbp : v.bp = T.bp)
    (hsp : v.sp = T.sp) (hip : v.ip = w'.ip) (hstack : v.stack = w'.stack)
    (htemps : v.temps = { T.frame with mem := w'.temps } :: T.prev) (hcur : T.cur = S.cur) :
    Seen T w' out (s.setVm v) where
  cur := h.cur.trans hcur.symm
  live := h.live
  root := by rw [setVm_vm]; exact hroot
  bp := by rw [setVm_vm]; exact hbp
  sp := by rw [setVm_vm]; exact hsp
  ip := by rw [setVm_vm]; exact hip
  stack := by rw [setVm_vm]; exact hstack
  temps := by rw [setVm_vm]; exact htemps
  out := h.out

lemma seen_next (h : Seen S w out s) : Seen S w.next out (nextIp s) :=
  seen_regs h h.root h.bp h.sp (congrArg (· + 1) h.ip) h.stack h.temps rfl

lemma seen_jump (h : Seen S w out s) (loc : Nat) :
    Seen S (w.jump loc) out (s.setVm { s.vm with ip := loc }) :=
  seen_regs h h.root h.bp h.sp rfl h.stack h.temps rfl

/-- Bytes are stored, and the code goes on. -/
lemma leads_store (hi : o.insns[w.ip]? = some i) (hk : Allowed solo S.sp i)
    (hx : ∀ inp s, Seen S w out s → execInsn inp o s i = nextIp <$> storeOpd s d bs)
    (hd : d.indirect = false) (hst : S.store w d bs = some w') (hip : w'.ip + 1 < o.insnCount)
    (h : S.Leads solo o U P w'.next out) : S.Leads solo o U P w out := by
  refine leads_exec _ hi hk hip (fun inp s hs => ?_) h
  obtain ⟨s1, h1, hs1⟩ := storeOpd_spot hs hd hst
  exact ⟨nextIp s1, by rw [hx inp s hs, h1]; rfl, seen_next hs1⟩

/-- The spot with the top of its stack elsewhere. -/
def Spot.top (S : Spot) (sp : Nat) : Spot := { S with sp := sp }

lemma seen_top (h : Seen S w out s) (sp : Nat) : Seen (S.top sp) w out (s.setVm { s.vm with sp := sp }) :=
  seen_regs h h.root h.bp rfl h.ip h.stack h.temps rfl

/-- A word is stored in a temporary. -/
lemma storeWord_temp (h : Seen S w out s) (hk : a.opd = .temp) (hd : a.indirect = false)
    (hle : a.off + 8 ≤ S.frame.size) (v : Nat) : ∃ s1, storeWord s a v = .ok s1 ∧
      Seen S { w with temps := writeMem w.temps a.off (leBytes 8 v) } out s1 := by
  have hst : S.store w a (leBytes 8 v) = some { w with temps := writeMem w.temps a.off (leBytes 8 v) } := by
    rw [Spot.store, hk, leBytes_length]
    exact if_pos hle
  obtain ⟨s1, h1, hs1⟩ := storeOpd_spot h hd hst
  refine ⟨s1, ?_, hs1⟩
  simpa only [storeOpd, storeWord, State.storeNat] using h1

lemma localOpd_word {k : OpdKind} (h : isWord k a = true) (hk : k ≠ .glob := by decide) : localOpd a = true := by
  simp only [isWord, Bool.and_eq_true, beq_iff_eq] at h
  obtain ⟨⟨⟨rfl, -⟩, hd⟩, -⟩ := h
  simp [localOpd, hd, hk]

/-- The word at an operand. -/
lemma loadWord_spot (h : Seen S w out s) (hd : a.indirect = false) (hs : a.size = 8)
    (hl : S.load w a = some bs) : loadWord s a = .ok (leNat bs) := by
  obtain ⟨l, hl, hload⟩ := loadOpd_eq_ok.mp (loadOpd_spot h hd hl)
  simp only [loadWord, hl, ok_bind, State.loadNat, ← hs, hload, Option.map_some, orUb_some]

/-! ### Calling -/

lemma legal_imm (name : String) (v : Nat) :
    (legalWord .imm name "_is_imm" (opdImm false v 8) : M PUnit.{1}) = .ok ⟨⟩ := rfl

lemma legal_temp (name : String) (h : isWord .temp a = true) :
    (legalWord .temp name "_is_temp" a : M PUnit.{1}) = .ok ⟨⟩ := by
  simp only [isWord, Bool.and_eq_true, beq_iff_eq] at h
  obtain ⟨⟨⟨hk, hg⟩, hd⟩, hs⟩ := h
  simp only [legalWord, hk, hg, hd, hs]
  rfl

/-- `pushr` saves the place to return to and the frame of the caller. -/
lemma leads_pushr (hi : o.insns[w.ip]? = some (.pushr (opdImm false k 8) a)) (ha : isWord .temp a = true)
    (hroom : a.off + 8 ≤ S.frame.size) (hal : S.sp % 8 = 0) (hip : w.ip + 1 < o.insnCount)
    (h : S.sp + 16 ≤ stackSize → (S.top (S.sp + 16)).Leads solo o U P
      ⟨w.ip + 1, writeMem (writeMem w.stack S.sp (leBytes 8 k)) (S.sp + 8) (leBytes 8 S.bp),
        writeMem w.temps a.off (leBytes 8 (S.sp + 16))⟩ out) : S.Leads solo o U P w out := by
  have hk : (opdImm false k 8).off = k := rfl
  have hown : Allowed solo S.sp (.pushr (opdImm false k 8) a) :=
    allowed_of (by simp [localInsn, Insn.opds, localOpd_imm, localOpd_word ha]) fun _ => rfl
  by_cases hle : S.sp + 16 ≤ stackSize
  · refine leads_exec _ hi hown hip (fun inp s hs0 => ?_) (h hle)
    obtain ⟨s1, h1, hs1⟩ := store_stack hs0 S.sp (leBytes 8 k) (by
      rw [leBytes_length]
      omega)
    obtain ⟨s2, h2, hs2⟩ := store_stack hs1 (S.sp + 8) (leBytes 8 S.bp) (by
      rw [leBytes_length]
      omega)
    simp only [isWord, Bool.and_eq_true, beq_iff_eq] at ha
    obtain ⟨s3, h3, hs3⟩ := storeWord_temp (seen_top hs2 (S.sp + 16)) ha.1.1.1 ha.1.2 hroom (S.sp + 16)
    refine ⟨nextIp s3, ?_, seen_next hs3⟩
    rw [hs1.cur.trans hs0.cur.symm] at h2
    simp only [execInsn, insnPushr, legal_imm, legal_temp, isWord, ha, BEq.rfl, Bool.and_self, ok_bind, legalIf,
      hs0.sp, hs0.bp, hal, hle, decide_true, if_true, State.storeNat, hk, h1, orUb_some, h2, h3]
    rfl
  · refine leads_stop (e := .illegal "vm->sp + 16 <= STACK_SIZE") hi hown (by simp [Spent]) fun inp s hs0 => ?_
    simp only [execInsn, insnPushr, legal_imm, legal_temp _ ha, ok_bind, legalIf, hs0.sp, hal, hle, decide_true,
      decide_false, if_true]
    rfl

lemma alignedSp_eq (hal : k % 8 = 0) (hn : 0 < n) (hn8 : n ≤ 8) (hle : k + 8 < 2 ^ 64) :
    alignedSp (k + n) = k + 8 := by
  have hmod : (k + n) % 2 ^ 64 = k + n := Nat.mod_eq_of_lt (by omega)
  simp only [alignedSp, hmod]
  split <;> omega

/-- `push` puts a number of at most eight bytes in a word of the stack. -/
lemma leads_push (hi : o.insns[w.ip]? = some (.push a)) (hd : a.indirect = false)
    (hl : S.load w a = some bs) (hs : 0 < a.size) (hs8 : a.size ≤ 8) (hal : S.sp % 8 = 0)
    (hsp : S.sp ≤ stackSize) (hip : w.ip + 1 < o.insnCount)
    (h : S.sp + 8 ≤ stackSize → (S.top (S.sp + 8)).Leads solo o U P
      ⟨w.ip + 1, writeMem w.stack S.sp bs, w.temps⟩ out) : S.Leads solo o U P w out := by
  have hsize : stackSize = 16304 := rfl
  have hmod : (S.sp + a.size) % 2 ^ 64 = S.sp + a.size := Nat.mod_eq_of_lt (by omega)
  have hup := alignedSp_eq hal hs hs8 (by omega)
  have hown : Allowed solo S.sp (.push a) :=
    allowed_of (by simp [localInsn, Insn.opds, localOpd_of_load hd hl]) fun _ => rfl
  by_cases hle : S.sp + 8 ≤ stackSize
  · refine leads_exec _ hi hown hip (fun inp s hs0 => ?_) (h hle)
    obtain ⟨l, hval, hload⟩ := loadOpd_eq_ok.mp (loadOpd_spot hs0 hd hl)
    have hlen := load_length hload
    obtain ⟨s1, h1, hs1⟩ := store_stack hs0 S.sp bs (by omega)
    refine ⟨nextIp (s1.setVm { s1.vm with sp := S.sp + 8 }), ?_, seen_next (seen_top hs1 (S.sp + 8))⟩
    simp only [execInsn, insnPush, legalIf, gt_iff_lt, hs, hs0.sp, hal, hmod, show S.sp + a.size ≤ stackSize by omega,
      hval, State.memcpy, hload, h1, hup, hle, decide_true, if_true, ok_bind, orUb_some]
    rfl
  · refine leads_stop (e := .illegal "vm->sp + val_size <= STACK_SIZE") hi hown (by simp [Spent]) fun inp s hs0 => ?_
    simp only [execInsn, insnPush, legalIf, gt_iff_lt, hs, hs0.sp, hal, hmod, decide_true, if_true, ok_bind,
      show ¬ S.sp + a.size ≤ stackSize by omega, decide_false]
    rfl

/-- The instruction enters the function at the word `loc`, with the frame at `ssp`. -/
def isCall (loc ssp : Opd) (i : Insn) : Prop := i = .call loc ssp ∨ ∃ v, i = .callv v loc ssp

/-- A call goes on in the function, with its frame at the word the arguments start at. -/
lemma leads_call {b e : Nat} (hi : o.insns[w.ip]? = some i) (hc : isCall (opdImm false e 8) a i)
    (hown : localInsn i = true) (ha : isWord .temp a = true) (hl : S.load w a = some (leBytes 8 b)) (hb : b < 2 ^ 64)
    (he : e < o.insnCount) (hcount : o.insnCount ≤ 2 ^ 64)
    (h : Spot.Leads { S with bp := b } solo o U P (w.jump e) out) : S.Leads solo o U P w out := by
  have hstays (v : Qvm) : leavesBottom v i = false := by
    rcases hc with rfl | ⟨v, rfl⟩ <;> rfl
  refine leads_exec _ hi (allowed_of hown hstays) he (fun inp s hs0 => ?_) h
  have hw := ha
  simp only [isWord, Bool.and_eq_true, beq_iff_eq] at hw
  have hnat (v : Nat) (hv : v < 2 ^ 64) : leNat (leBytes 8 v) = v := by
    rw [leNat_leBytes]
    exact Nat.mod_eq_of_lt hv
  have hloc : loadWord s (opdImm false e 8) = .ok e := by
    rw [loadWord_spot hs0 rfl rfl (show S.load w (opdImm false e 8) = some (leBytes 8 e) from rfl),
      hnat e (by omega)]
  have hbp : loadWord s a = .ok b := by
    rw [loadWord_spot hs0 hw.1.2 hw.2 hl, hnat b hb]
  have hcall : insnCall s (opdImm false e 8) a = .ok (s.setVm { s.vm with ip := e, bp := b }) := by
    simp only [insnCall, legalIf, show (opdImm false e 8).signd = false from rfl,
      show (opdImm false e 8).size = 8 from rfl, BEq.rfl, decide_true, if_true, ok_bind, legal_temp _ ha, hloc, hbp]
    rfl
  refine ⟨s.setVm { s.vm with ip := e, bp := b }, ?_, ?_⟩
  · rcases hc with rfl | ⟨v, rfl⟩ <;> exact hcall
  · exact seen_regs hs0 hs0.root rfl hs0.sp rfl hs0.stack hs0.temps rfl

/-! ### Returning -/

/-- The caller at the spot, whose temporaries are `tm`, goes on behind `k` once the function returns. -/
structure Awaits (S : Spot) (tm : Mem) (k : Nat) (T : Spot) (st : Mem) : Prop where
  cur : T.cur = S.cur
  prev : T.prev = { S.frame with mem := tm } :: S.prev
  ip : readMem st S.sp 8 = leBytes 8 k
  bp : readMem st (S.sp + 8) 8 = leBytes 8 S.bp
  pos : 0 < S.sp
  room : S.sp + 16 ≤ stackSize
  frame : S.bp ≤ S.sp

lemma Awaits.congr {tm st st' : Mem} (h : Awaits S tm k T st) (hst : ∀ i < S.sp + 16, st' i = st i) :
    Awaits S tm k T st' where
  cur := h.cur
  prev := h.prev
  ip := (readMem_congr fun i _ hi => hst i (by omega)).trans h.ip
  bp := (readMem_congr fun i _ hi => hst i (by omega)).trans h.bp
  pos := h.pos
  room := h.room
  frame := h.frame

/-- What the caller is left with: the number of a call with a value is in its destination. -/
def Received (o : Obj) (S : Spot) (k : Nat) (retval : List UInt8) (w w' : View) : Prop :=
  w'.ip = k + 1 ∧ w'.stack = w.stack ∧
    if retval.length = 0 then w'.temps = w.temps
    else ∃ d loc ssp, o.insns[k]? = some (.callv d loc ssp) ∧ S.load w' d = some retval ∧
      ∀ i < d.off, w'.temps i = w.temps i

/-- The destination of a call with a value is a temporary of the size of the value. -/
def Fits (o : Obj) (S : Spot) (k : Nat) (retval : List UInt8) : Prop :=
  retval.length ≠ 0 → ∃ d loc ssp, o.insns[k]? = some (.callv d loc ssp) ∧ d.opd = .temp ∧
    d.indirect = false ∧ retval.length = d.size ∧ d.off + d.size ≤ S.frame.size

/-- `handle_return` goes back to the caller. -/
lemma handleReturn_spot {tm : Mem} {retval : List UInt8} (hs : Seen T w out s)
    (h : Awaits S tm k T w.stack) (hsp : T.sp = S.sp) (hk : k < o.insnCount) (hcount : o.insnCount ≤ 2 ^ 64)
    (hfit : Fits o S k retval) (signd : Bool) :
    ∃ s1 w1, handleReturn o s signd retval = .ok s1 ∧ Seen S w1 out s1 ∧
      Received o S k retval ⟨k, w.stack, tm⟩ w1 := by
  have hsize : stackSize = 16304 := rfl
  have hpos := h.pos
  have hroom := h.room
  have hframe := h.frame
  have hsps : s.vm.sp = S.sp := hs.sp.trans hsp
  have hnat (v : Nat) (hv : v < 2 ^ 64) : leNat (leBytes 8 v) = v := by
    rw [leNat_leBytes]
    exact Nat.mod_eq_of_lt hv
  -- the words saved by the caller
  have hsaved : savedWords s = .ok (k, S.bp) := by
    have h1 := load_stack hs S.sp 8 (by omega)
    have h2 := load_stack hs (S.sp + 8) 8 (by omega)
    rw [h.ip] at h1
    rw [h.bp] at h2
    simp only [savedWords, hsps, State.loadNat, h1, h2, Option.map_some, orUb_some, ok_bind,
      hnat k (by omega), hnat S.bp (by omega)]
    rfl
  have hs1 : Seen S ⟨k, w.stack, tm⟩ out (s.setVm (Qvm.restore s.vm (k, S.bp) s.vm.temps.tail)) := by
    refine seen_regs hs hs.root rfl hsps rfl hs.stack ?_ h.cur.symm
    show s.vm.temps.tail = _
    rw [hs.temps]
    exact h.prev
  have hne : s.vm.temps.isEmpty = false := by
    rw [hs.temps]
    rfl
  have hback : handleReturn o s signd retval = returnToCaller o s retval := by
    rw [handleReturn, if_neg (by omega), if_neg (by omega)]
  rw [hback]
  simp only [returnToCaller, hne, hsaved, ok_bind, ubUnless, legalIf, hk, show S.bp ≤ stackSize by omega,
    Bool.not_false, decide_true, if_true]
  by_cases h0 : retval.length = 0
  · rw [if_pos h0]
    refine ⟨_, _, rfl, seen_next hs1, rfl, rfl, ?_⟩
    rw [if_pos h0]
    rfl
  · rw [if_neg h0]
    obtain ⟨d, loc, ssp, hi, hdk, hd, hlen, hle⟩ := hfit h0
    have hst : S.store ⟨k, w.stack, tm⟩ d retval =
        some ⟨k, w.stack, writeMem tm d.off retval⟩ := by
      rw [Spot.store, hdk]
      exact if_pos (by omega)
    obtain ⟨s2, h2, hs2⟩ := storeOpd_spot hs1 hd hst
    refine ⟨nextIp s2, View.next ⟨k, w.stack, writeMem tm d.off retval⟩, ?_, seen_next hs2, rfl, rfl, ?_⟩
    · simp only [hi, orUb_some, ok_bind, hlen, decide_true, if_true, h2]
      rfl
    · rw [if_neg h0]
      refine ⟨d, loc, ssp, hi, ?_, fun i hi => writeMem_of_lt _ _ hi⟩
      rw [Spot.load, hdk]
      refine (if_pos hle).trans (congrArg some ?_)
      show readMem (writeMem tm d.off retval) d.off d.size = retval
      rw [← hlen]
      exact readMem_writeMem_same _ _ _

/-- The instruction leaves the function with the bytes, which are none for `ret`. -/
inductive Yielded (S : Spot) (w : View) (size : Opd) : List UInt8 → Insn → Prop
  | none : Yielded S w size [] (.ret size)
  | value (a : Opd) (bs : List UInt8) (hd : a.indirect = false) (hl : S.load w a = some bs) :
    Yielded S w size bs (.retv a size)

/-- The sign an instruction that leaves a function gives its value. -/
def retSigned : Insn → Bool
  | .retv a _ => a.signd
  | _ => false

/-- `ret` and `retv` take the frame off the stack. -/
lemma insnRet_spot (o : Obj) (inp : Inp) {size : Opd} {retval : List UInt8} (hs : Seen T w out s) (hy : Yielded T w size retval i)
    (hword : isWord .imm size = true) (hbp : T.bp % 8 = 0) (hsp : T.sp % 8 = 0) (hle : size.off ≤ T.sp) :
    ∃ s1, Seen (T.top (T.sp - size.off)) w out s1 ∧
      execInsn inp o s i = handleReturn o s1 (retSigned i) retval := by
  have hw : (legalWord .imm "size" "_is_imm" size : M PUnit.{1}) = .ok ⟨⟩ := by
    simp only [isWord, Bool.and_eq_true, beq_iff_eq] at hword
    obtain ⟨⟨⟨hk, hg⟩, hd⟩, hs⟩ := hword
    simp only [legalWord, hk, hg, hd, hs]
    rfl
  have hne : s.vm.temps.isEmpty = false := by
    rw [hs.temps]
    rfl
  have hleave : leaveFrame s size = .ok (s.setVm { s.vm with sp := T.sp - size.off }) := by
    simp only [leaveFrame, legalIf, hs.sp, hs.bp, hbp, hsp, hw, hne, ge_iff_le, hle, Bool.not_false, decide_true,
      if_true, ok_bind]
    rfl
  have hs1 := seen_top hs (T.sp - size.off)
  cases hy with
  | none =>
    refine ⟨_, hs1, ?_⟩
    simp only [execInsn, insnRet, hleave, ok_bind, retSigned]
  | value a _ hd hl =>
    refine ⟨_, hs1, ?_⟩
    simp only [execInsn, insnRet, hleave, ok_bind, loadOpd_spot hs1 hd hl, retSigned]

/-- A quaint may leave a function, but not its bottom frame. -/
lemma allowed_ret {size : Opd} {retval : List UInt8} (hy : Yielded T w size retval i)
    (hword : isWord .imm size = true) (hne : n ≠ size.off) : Allowed solo n i := fun _ => by
  have hsize : localOpd size = true := localOpd_word hword
  cases hy with
  | none =>
    refine ⟨by simp [localInsn, Insn.opds, hsize], fun v hv => ?_⟩
    simp [leavesBottom, hv, hne]
  | value a _ hd hl =>
    refine ⟨by simp [localInsn, Insn.opds, hsize, localOpd_of_load hd hl], fun v hv => ?_⟩
    simp [leavesBottom, hv, hne]

/-- A function gives the bytes back to its caller. -/
lemma leads_ret {tm : Mem} {size : Opd} {retval : List UInt8} (hi : o.insns[w.ip]? = some i)
    (hy : Yielded T w size retval i) (hword : isWord .imm size = true) (hbp : T.bp % 8 = 0)
    (hsp : T.sp % 8 = 0) (hoff : T.sp = S.sp + size.off) (h : Awaits S tm k T w.stack)
    (hk : k + 1 < o.insnCount) (hcount : o.insnCount ≤ 2 ^ 64) (hfit : Fits o S k retval)
    (hP : ∀ w', Received o S k retval ⟨k, w.stack, tm⟩ w' → S.Leads solo o U P w' out) : T.Leads solo o U P w out := by
  have hpos := h.pos
  refine fun s hs => runs_insn hs.live (hs.ip ▸ hi) (allowed_ret hy hword (by rw [hs.sp]; omega)) fun inp => .inl ?_
  obtain ⟨s1, hs1, hx⟩ := insnRet_spot o inp hs hy hword hbp hsp (by omega)
  have hA : Awaits S tm k (T.top (T.sp - size.off)) w.stack :=
    ⟨h.cur, h.prev, h.ip, h.bp, h.pos, h.room, h.frame⟩
  obtain ⟨s2, w2, h2, hs2, hrec⟩ := handleReturn_spot hs1 hA (by
    show T.sp - size.off = S.sp
    omega) (by omega) hcount hfit (retSigned i)
  refine ⟨s2, hx.trans h2, hs2.live, hs2.root, ?_, fun c n => hP w2 hrec _ ?_⟩
  · rw [hs2.ip, hrec.1]
    exact hk
  · exact ⟨hs2.cur, hs2.live, hs2.root, hs2.bp, hs2.sp, hs2.ip, hs2.stack, hs2.temps, hs2.out⟩

/-- The signedness and size of what the built-in functions from `pu8` to `pi64` write. -/
def printer : Nat → Option (Bool × Nat)
  | 7 => some (false, 1)
  | 8 => some (true, 1)
  | 9 => some (false, 2)
  | 10 => some (true, 2)
  | 11 => some (false, 4)
  | 12 => some (true, 4)
  | 13 => some (false, 8)
  | 14 => some (true, 8)
  | _ => none

/-- What the built-in function writes that is entered with its frame at `bp`, and the bytes of its
parameters. -/
inductive Writes (w : View) (bp : Nat) : Nat → List Out → Prop
  | line (hip : w.ip = 15) : Writes w bp 0 [.bytes [10]]
  | num (signd : Bool) (n : Nat) (hip : printer w.ip = some (signd, n)) :
    Writes w bp 8 [.num (toInt signd n (leNat (readMem w.stack bp n)))]

lemma bfunBody_num (inp : Inp) {signd : Bool} (h : printer s.vm.ip = some (signd, n)) :
    n ≤ 8 ∧ bfunBody inp s = printNum s signd n >>= fun s' => pure (s', []) := by
  unfold printer at h
  split at h <;> simp only [Option.some.injEq, Prod.mk.injEq, reduceCtorEq] at h <;>
    obtain ⟨rfl, rfl⟩ := h <;> exact ⟨by decide, by simp only [bfunBody, *]⟩

lemma bfunBody_spot (inp : Inp) {pops : Nat} {ws : List Out} (hs : Seen T w out s) (hw : Writes w T.bp pops ws)
    (hsp : T.sp = T.bp + pops) (hbp : 16 ≤ T.bp) (hroom : T.sp ≤ stackSize) :
    ∃ s', bfunBody inp s = .ok (s', []) ∧ Seen (T.top T.bp) w (out ++ ws) s' := by
  have htop : Seen (T.top T.bp) w out (s.setVm { s.vm with sp := T.bp }) := seen_top hs T.bp
  cases hw with
  | line hip =>
    have hip' : s.vm.ip = 15 := hs.ip.trans hip
    refine ⟨{ s with out := s.out ++ [.bytes [10]] }, by simp only [bfunBody, hip']; rfl, ?_⟩
    exact ⟨hs.cur, hs.live, hs.root, hs.bp, hs.sp.trans hsp, hs.ip, hs.stack, hs.temps, by rw [← hs.out]⟩
  | num signd n hip =>
    have hip' : printer s.vm.ip = some (signd, n) := (congrArg printer hs.ip).trans hip
    obtain ⟨hn, hbody⟩ := bfunBody_num inp hip'
    have hread := load_stack hs T.bp n (by omega)
    have hparam : param s 0 n = .ok (leNat (readMem w.stack T.bp n)) := by
      simp only [param, hs.bp, Nat.add_zero, State.loadNat, hread, Option.map_some, orUb_some]
    have hpop : popParams s 8 = s.setVm { s.vm with sp := T.bp } := by
      rw [popParams, hs.sp, hsp, Nat.add_sub_cancel]
    refine ⟨{ s.setVm { s.vm with sp := T.bp } with
      out := s.out ++ [.num (toInt signd n (leNat (readMem w.stack T.bp n)))] }, ?_, ?_⟩
    · simp only [hbody, printNum, paramsLegal, legalIf, hs.sp, hs.bp, ge_iff_le, show 16 + 8 ≤ T.sp by omega,
        show T.bp + n ≤ stackSize by omega, decide_true, if_true, ok_bind, hparam, hpop]
      rfl
    · exact ⟨htop.cur, htop.live, htop.root, htop.bp, htop.sp, htop.ip, htop.stack, htop.temps,
        by rw [← hs.out]⟩

/-- A built-in function that writes goes back to its caller. -/
lemma leads_bfun {pops : Nat} {ws : List Out} (hsolo : solo = false) (hi : o.insns[w.ip]? = some .bfun)
    (hw : Writes w T.bp pops ws) (hsp : T.sp = T.bp + pops) (hroom : T.sp ≤ stackSize)
    (hbp : T.bp = S.sp + 16) (hal : S.sp % 8 = 0)
    (h : ∀ f : TmpFrame, Awaits S w.temps k ⟨S.cur, T.bp, S.sp, f, { S.frame with mem := w.temps } :: S.prev⟩ w.stack)
    (hcur : T.cur = S.cur) (hframe : T.frame = S.frame) (hprev : T.prev = S.prev)
    (hk : k + 1 < o.insnCount) (hcount : o.insnCount ≤ 2 ^ 64)
    (hP : ∀ w', Received o S k [] ⟨k, w.stack, w.temps⟩ w' → S.Leads solo o U P w' (out ++ ws)) :
    T.Leads solo o U P w out := by
  have hown (n : Nat) : Allowed solo n .bfun := fun h => by
    rw [hsolo] at h
    cases h
  refine fun s hs => runs_insn hs.live (hs.ip ▸ hi) (hown _) fun inp => ?_
  obtain ⟨s1, h1, hs1⟩ := bfunBody_spot inp hs hw hsp (by omega) hroom
  have hmod : T.sp % 8 = 0 := by
    cases hw <;> omega
  cases haddr : inp.frameAddr with
  | none =>
    refine .inr ⟨.nomem, ?_, by simp [Spent]⟩
    simp only [execInsn, insnBfun, legalIf, hs.sp, hs.bp, hmod, show T.bp % 8 = 0 by omega, ge_iff_le,
      show 16 ≤ T.sp by omega, decide_true, if_true, ok_bind, h1, haddr]
    rfl
  | some base =>
    left
    let f : TmpFrame := ⟨base + tmpFrameSize, 0, inp.junk⟩
    have hs2 : Seen ⟨S.cur, T.bp, S.sp, f, { S.frame with mem := w.temps } :: S.prev⟩
        ⟨w.ip, w.stack, inp.junk⟩ (out ++ ws) (leaveBfun inp s1 base) := by
      refine seen_regs hs1 hs1.root hs1.bp ?_ hs1.ip hs1.stack ?_ hcur.symm
      · show s1.vm.sp - 16 = S.sp
        have := hs1.sp
        simp only [Spot.top] at this
        omega
      · show f :: s1.vm.temps = _
        rw [hs1.temps]
        show f :: { T.frame with mem := w.temps } :: T.prev = _
        rw [hframe, hprev]
    have hfit : Fits o S k [] := fun h0 => (h0 rfl).elim
    obtain ⟨s3, w3, h3, hs3, hrec⟩ := handleReturn_spot hs2 (h f) rfl (by omega) hcount hfit false
    refine ⟨s3, ?_, hs3.live, hs3.root, ?_, fun c n => hP w3 hrec _ ?_⟩
    · simp only [execInsn, insnBfun, legalIf, hs.sp, hs.bp, hmod, show T.bp % 8 = 0 by omega, ge_iff_le,
        show 16 ≤ T.sp by omega, decide_true, if_true, ok_bind, h1, haddr]
      exact h3
    · rw [hs3.ip, hrec.1]
      exact hk
    · exact ⟨hs3.cur, hs3.live, hs3.root, hs3.bp, hs3.sp, hs3.ip, hs3.stack, hs3.temps, hs3.out⟩

/-! ### Entering -/

/-- `incsp` makes room for the variables of a function and its temporaries. -/
lemma runs_incsp {addend size sp : Nat} {R : State → Prop} (hlive : s.cur ∈ s.live) (hroot : s.vm.parent = 0)
    (hi : o.insns[s.vm.ip]? = some (.incsp (opdImm false addend 8) (opdImm false size 8)))
    (hadd : addend % 8 = 0) (hsp : (s.vm.sp + addend) % 2 ^ 64 = sp) (hmod : sp % 8 = 0)
    (hfit : tmpFrameSize + size < 2 ^ 64) (hip : s.vm.ip + 1 < o.insnCount)
    (h : sp ≤ stackSize → ∀ f : TmpFrame, f.size = size → ∀ s',
      Seen ⟨s.cur, s.vm.bp, sp, f, s.vm.temps⟩ ⟨s.vm.ip + 1, s.vm.stack, f.mem⟩ s.out s' → Runs solo o R s') :
    Runs solo o R s := by
  refine runs_insn hlive hi (allowed_of rfl fun _ => rfl) fun inp => ?_
  by_cases hle : sp ≤ stackSize
  · cases hbase : alloc s inp.addr (tmpFrameSize + size) with
    | none =>
      refine .inr ⟨.nomem, ?_, by simp [Spent]⟩
      subst hsp
      simp only [execInsn, insnIncsp, legal_imm, ok_bind, legalIf, show ∀ v, (opdImm false v 8).off = v from fun _ => rfl,
        hadd, hle, hmod, decide_true, if_true, Nat.mod_eq_of_lt hfit, hbase]
      rfl
    | some base =>
      let f : TmpFrame := ⟨base + tmpFrameSize, size, inp.junk⟩
      refine .inl ⟨nextIp (s.setVm (Qvm.enter s.vm sp f)), ?_, hlive, ?_, ?_, fun c n => h hle f rfl _ ?_⟩
      · rw [execInsn, Correct.insnIncsp_eq hadd hsp hle hmod hbase]
        rfl
      · rw [nextIp_vm, setVm_vm]
        exact hroot
      · rw [nextIp_vm, setVm_vm]
        exact hip
      · have hvm : (nextIp (s.setVm (Qvm.enter s.vm sp f))).vm = Qvm.advance (Qvm.enter s.vm sp f) := by
          rw [nextIp_vm, setVm_vm]
        constructor <;> first | exact hlive | rfl | skip
        all_goals
          refine (congrArg _ hvm).trans ?_
          first | exact hroot | rfl
  · refine .inr ⟨.illegal "vm->sp <= STACK_SIZE", ?_, by simp [Spent]⟩
    subst hsp
    simp only [execInsn, insnIncsp, legal_imm, ok_bind, legalIf, show ∀ v, (opdImm false v 8).off = v from fun _ => rfl,
      hadd, hle, decide_true, decide_false, if_true]
    rfl

end Stack

end Quaint.Nesting
