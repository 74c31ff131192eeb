import Quaint.Isolation
import Quaint.Operand
import Quaint.Progress

/-!
Quaints that keep to themselves.

An instruction that uses neither pointers nor global data, nor any other quaint, reads and changes
nothing but the running quaint. So a quaint that executes only such instructions goes through the
states it goes through when it is alone on the machine, whenever it is suspended and whatever runs
meanwhile, as long as nothing else stores to its memory.
-/

namespace Quaint.Solitary

open Relation Bytes Code Exec Step Control Partial Effect Memory Isolation Transition
open Activation (runWhile stillFrom)

/-! ### Quaints on their own -/

/-- What the instructions of a quaint find of it. -/
structure Own where
  ip : Nat
  sp : Nat
  bp : Nat
  temps : List TmpFrame
  stack : Mem

def own (v : Qvm) : Own := ⟨v.ip, v.sp, v.bp, v.temps, v.stack⟩

/-- The machine has nothing but one quaint, which has no parent. -/
structure Alone (q : Nat) (t : State) : Prop where
  cur : t.cur = q
  live : t.live = [q]
  heap : t.heap = []
  bssBase : t.bssBase = 0
  bssSize : t.bssSize = 0
  parent : (t.vms q).parent = 0

/-- A quaint alone on a machine. -/
def alone (q : Nat) (v : Qvm) : State :=
  { live := [q], vms := fun _ => { v with parent := 0 }, cur := q, now := 0, cycles := 0
    bssBase := 0, bssSize := 0, bss := fun _ => 0, heap := [], out := [] }

lemma alone_alone (q : Nat) (v : Qvm) : Alone q (alone q v) := ⟨rfl, rfl, rfl, rfl, rfl, rfl⟩

/-- The operand is the quaint's own. -/
def localOpd (a : Opd) : Bool := !a.indirect && a.opd != .glob

/-- The instruction uses no pointer, no global data and no other quaint. -/
def localInsn (i : Insn) : Bool :=
  i.opds.all localOpd &&
    match i with
    | .ref _ _ | .drf _ _ | .rte _ | .rtev _ _ | .qat _ _ _ _ | .wait _ _ _ _ _ _ _ | .qnt _ _ _
    | .qntv _ _ | .bfun => false
    | _ => true

/-- The instruction returns from the bottom frame of the quaint. -/
def leavesBottom (v : Qvm) : Insn → Bool
  | .ret size | .retv _ size => v.sp == size.off
  | _ => false

/-- The running quaint is seen alone on the other machine. -/
structure Mirrors (q : Nat) (s t : State) : Prop where
  cur : s.cur = q
  live : q ∈ s.live
  alone : Alone q t
  own : own (t.vms q) = own (s.vms q)

/-- What leads the first machine on leads the other one on. -/
def Follows (q : Nat) (x y : M State) : Prop := ∀ s1, x = .ok s1 → ∃ t1, y = .ok t1 ∧ Mirrors q s1 t1

/-- The place is the quaint's own. -/
def OwnLoc (q : Nat) : Loc → Prop
  | .imm _ => True
  | .mem r _ => owner r = some q
  | .addr _ => False

section Mirrors

variable {q n v : Nat} {s t s1 : State} {a d : Opd} {l : Loc} {r : Region} {bs : List UInt8}

lemma Mirrors.vm (h : Mirrors q s t) : Solitary.own t.vm = Solitary.own s.vm := by
  rw [State.vm, State.vm, h.cur, h.alone.cur]
  exact h.own

lemma Mirrors.bp (h : Mirrors q s t) : t.vm.bp = s.vm.bp := congrArg Own.bp h.vm
lemma Mirrors.sp (h : Mirrors q s t) : t.vm.sp = s.vm.sp := congrArg Own.sp h.vm
lemma Mirrors.ip (h : Mirrors q s t) : t.vm.ip = s.vm.ip := congrArg Own.ip h.vm
lemma Mirrors.temps (h : Mirrors q s t) : t.vm.temps = s.vm.temps := congrArg Own.temps h.vm
lemma Mirrors.stack (h : Mirrors q s t) : t.vm.stack = s.vm.stack := congrArg Own.stack h.vm
lemma Mirrors.curs (h : Mirrors q s t) : t.cur = s.cur := h.alone.cur.trans h.cur.symm

lemma Mirrors.parent (h : Mirrors q s t) : t.vm.parent = 0 := by
  rw [State.vm, h.alone.cur]
  exact h.alone.parent

/-- The running quaints are changed alike. -/
lemma mirrors_setVm (h : Mirrors q s t) {w w' : Qvm} (hw : Solitary.own w' = Solitary.own w)
    (hp : w'.parent = 0) : Mirrors q (s.setVm w) (t.setVm w') := by
  have ht : (t.setVm w').vms q = w' := if_pos h.alone.cur.symm
  have hs : (s.setVm w).vms q = w := if_pos h.cur.symm
  refine ⟨h.cur, h.live, ⟨h.alone.cur, h.alone.live, h.alone.heap, h.alone.bssBase, h.alone.bssSize, ?_⟩, ?_⟩
  · rw [ht, hp]
  · rw [ht, hs, hw]

lemma region_mirror (h : Mirrors q s t) (hr : owner r = some q) : t.region r = s.region r := by
  have hl : q ∈ t.live := by simp [h.alone.live]
  cases r with
  | stack vm =>
    obtain rfl := Option.some.inj hr
    simp only [State.region, if_pos hl, if_pos h.live, show (t.vms vm).stack = (s.vms vm).stack from
      congrArg Own.stack h.own]
  | temp vm depth =>
    obtain rfl := Option.some.inj hr
    simp only [State.region, if_pos hl, if_pos h.live, show (t.vms vm).temps = (s.vms vm).temps from
      congrArg Own.temps h.own]
  | bss | heap => cases hr

lemma mirrors_setRegion (h : Mirrors q s t) (hr : owner r = some q) (m : Mem) :
    Mirrors q (s.setRegion r m) (t.setRegion r m) := by
  have hst : (t.vms q).stack = (s.vms q).stack := congrArg Own.stack h.own
  have htm : (t.vms q).temps = (s.vms q).temps := congrArg Own.temps h.own
  obtain ⟨hc, hl, ⟨h1, h2, h3, h4, h5, h6⟩, ho⟩ := h
  cases r with
  | stack vm =>
    obtain rfl := Option.some.inj hr
    refine ⟨hc, hl, ⟨h1, h2, h3, h4, h5, ?_⟩, ?_⟩
    · exact (congrArg Qvm.parent (if_pos rfl)).trans h6
    · simp only [own, Own.mk.injEq] at ho ⊢
      simpa [State.setRegion, State.setVms] using ⟨ho.1, ho.2.1, ho.2.2.1, ho.2.2.2.1⟩
  | temp vm depth =>
    obtain rfl := Option.some.inj hr
    refine ⟨hc, hl, ⟨h1, h2, h3, h4, h5, ?_⟩, ?_⟩
    · exact (congrArg Qvm.parent (if_pos rfl)).trans h6
    · simp only [own, Own.mk.injEq] at ho ⊢
      simpa [State.setRegion, State.setVms, htm] using ⟨ho.1, ho.2.1, ho.2.2.1, ho.2.2.2.2⟩
  | bss | heap => cases hr

/-! ### Reading and writing -/

lemma opdVal_mirror (h : Mirrors q s t) (ha : localOpd a = true) : t.opdVal a = s.opdVal a := by
  simp only [localOpd, Bool.and_eq_true, Bool.not_eq_true'] at ha
  simp only [State.opdVal, State.opdBase, ha.1, h.curs, h.bp, h.temps]
  rfl

lemma ownLoc_of_opdVal (hc : s.cur = q) (ha : localOpd a = true) (hl : s.opdVal a = .ok l) :
    OwnLoc q l := by
  simp only [localOpd, Bool.and_eq_true, Bool.not_eq_true', bne_iff_ne, ne_eq] at ha
  simp only [State.opdVal, ha.1, bind_eq_ok, State.opdBase] at hl
  obtain ⟨base, hbase, hl⟩ := hl
  obtain rfl := Except.ok.inj hl
  cases hk : a.opd with
  | imm =>
    simp only [hk, Except.ok.injEq] at hbase
    subst hbase
    trivial
  | temp =>
    simp only [hk] at hbase
    split at hbase
    · cases hbase
    · obtain rfl := Except.ok.inj hbase
      exact congrArg some hc
  | auto =>
    simp only [hk, Except.ok.injEq] at hbase
    subst hbase
    exact congrArg some hc
  | glob => exact absurd hk ha.2

lemma load_mirror (h : Mirrors q s t) (hl : OwnLoc q l) : t.load l n = s.load l n := by
  cases l with
  | imm v => rfl
  | mem r off => simp only [State.load, State.place, region_mirror h hl]
  | addr p => exact hl.elim

lemma store_mirror (h : Mirrors q s t) (hl : OwnLoc q l) (hs : s.store l bs = some s1) :
    ∃ t1, t.store l bs = some t1 ∧ Mirrors q s1 t1 := by
  obtain ⟨r, off, size, m, hp, hr, hle, rfl⟩ := store_eq_some.mp hs
  cases l with
  | imm v => cases hp
  | mem r' off' =>
    obtain ⟨rfl, rfl⟩ := Prod.mk.inj (Option.some.inj hp)
    exact ⟨_, store_eq_some.mpr ⟨r', off', size, m, rfl, (region_mirror h hl).trans hr, hle, rfl⟩,
      mirrors_setRegion h hl _⟩
  | addr p => exact hl.elim

lemma loadOpd_mirror (h : Mirrors q s t) (ha : localOpd a = true) : loadOpd t a = loadOpd s a := by
  simp only [loadOpd, opdVal_mirror h ha]
  cases hl : s.opdVal a with
  | error e => rfl
  | ok l => exact congrArg orUb (load_mirror h (ownLoc_of_opdVal h.cur ha hl))

lemma loadOpdNat_mirror (h : Mirrors q s t) (ha : localOpd a = true) : loadOpdNat t a = loadOpdNat s a := by
  rw [loadOpdNat, loadOpdNat, loadOpd_mirror h ha]

lemma loadWord_mirror (h : Mirrors q s t) (ha : localOpd a = true) : loadWord t a = loadWord s a := by
  simp only [loadWord, opdVal_mirror h ha]
  cases hl : s.opdVal a with
  | error e => rfl
  | ok l => exact congrArg (fun x => orUb (x.map leNat)) (load_mirror h (ownLoc_of_opdVal h.cur ha hl))

/-! ### Computations -/

section Computations

variable {α : Type} {x y : M State} {f g : α → M State}

lemma follows_ok (h : Mirrors q s t) : Follows q (.ok s) (.ok t) := by
  rintro s1 ⟨⟩
  exact ⟨t, rfl, h⟩

/-- Both machines compute the same, and go on. -/
lemma follows_same {u v : M α} (he : v = u) (h : ∀ b, u = .ok b → Follows q (f b) (g b)) :
    Follows q (u >>= f) (v >>= g) := by
  intro s1 hs
  obtain ⟨b, hb, hs⟩ := bind_eq_ok.mp hs
  obtain ⟨t1, ht, hm⟩ := h b hb s1 hs
  exact ⟨t1, bind_eq_ok.mpr ⟨b, he.trans hb, ht⟩, hm⟩

/-- Both machines change alike, and go on. -/
lemma follows_bind {u v : M State} {f g : State → M State} (huv : Follows q u v)
    (h : ∀ s t, Mirrors q s t → Follows q (f s) (g t)) : Follows q (u >>= f) (v >>= g) := by
  intro s1 hs
  obtain ⟨s0, h0, hs⟩ := bind_eq_ok.mp hs
  obtain ⟨t0, ht0, hm⟩ := huv s0 h0
  obtain ⟨t1, ht, hm'⟩ := h s0 t0 hm s1 hs
  exact ⟨t1, bind_eq_ok.mpr ⟨t0, ht0, ht⟩, hm'⟩

lemma follows_store (h : Mirrors q s t) (hl : OwnLoc q l) :
    Follows q (orUb (s.store l bs)) (orUb (t.store l bs)) := by
  intro s1 hs
  obtain ⟨t1, ht, hm⟩ := store_mirror h hl (orUb_eq_ok.mp hs)
  exact ⟨t1, orUb_eq_ok.mpr ht, hm⟩

lemma follows_storeOpd (h : Mirrors q s t) (hd : localOpd d = true) :
    Follows q (storeOpd s d bs) (storeOpd t d bs) :=
  follows_same (opdVal_mirror h hd) fun _ hl => follows_store h (ownLoc_of_opdVal h.cur hd hl)

lemma follows_storeOpdNat (h : Mirrors q s t) (hd : localOpd d = true) :
    Follows q (storeOpdNat s d v) (storeOpdNat t d v) := follows_storeOpd h hd

lemma follows_storeWord (h : Mirrors q s t) (hd : localOpd d = true) :
    Follows q (storeWord s d v) (storeWord t d v) :=
  follows_same (opdVal_mirror h hd) fun _ hl => follows_store h (ownLoc_of_opdVal h.cur hd hl)

lemma follows_memcpy (h : Mirrors q s t) {l' : Loc} (hl : OwnLoc q l) (hl' : OwnLoc q l') :
    Follows q (s.memcpy l l' n) (t.memcpy l l' n) :=
  follows_same (congrArg orUb (load_mirror h hl')) fun _ _ => follows_store h hl

lemma own_advance {v w : Qvm} (h : Solitary.own w = Solitary.own v) :
    Solitary.own (Qvm.advance w) = Solitary.own (Qvm.advance v) := by
  simp only [Solitary.own, Own.mk.injEq, Qvm.advance] at h ⊢
  simpa using h

lemma mirrors_nextIp (h : Mirrors q s t) : Mirrors q (nextIp s) (nextIp t) :=
  mirrors_setVm h (own_advance h.vm) h.parent

lemma follows_next (h : Follows q x y) : Follows q (nextIp <$> x) (nextIp <$> y) := by
  intro s1 hs
  obtain ⟨s0, h0, rfl⟩ := map_eq_ok.mp hs
  obtain ⟨t0, ht0, hm⟩ := h s0 h0
  exact ⟨_, map_eq_ok.mpr ⟨t0, ht0, rfl⟩, mirrors_nextIp hm⟩

end Computations

end Mirrors

/-! ### Instructions -/

section Instructions

variable {o : Obj} {inp : Inp} {q : Nat} {s t s1 : State} {a b d : Opd} {i : Insn}

lemma follows_mov (h : Mirrors q s t) (hd : localOpd d = true) (ha : localOpd a = true) :
    Follows q (insnMov s d a) (insnMov t d a) :=
  follows_same rfl fun _ _ => follows_same (opdVal_mirror h hd) fun _ hl =>
    follows_same (opdVal_mirror h ha) fun _ hl' =>
      follows_memcpy h (ownLoc_of_opdVal h.cur hd hl) (ownLoc_of_opdVal h.cur ha hl')

lemma follows_cast (h : Mirrors q s t) (hd : localOpd d = true) (ha : localOpd a = true) :
    Follows q (insnCast s d a) (insnCast t d a) :=
  follows_same (opdVal_mirror h hd) fun _ hl => follows_same (opdVal_mirror h ha) fun _ hl' =>
    follows_bind (follows_store h (ownLoc_of_opdVal h.cur hd hl)) fun _ _ h' =>
      follows_memcpy h' (ownLoc_of_opdVal h.cur hd hl) (ownLoc_of_opdVal h.cur ha hl')

lemma follows_arith (h : Mirrors q s t) (op : ArithOp) (hd : localOpd d = true)
    (ha : localOpd a = true) (hb : localOpd b = true) :
    Follows q (insnBinArith s op d a b) (insnBinArith t op d a b) :=
  follows_same rfl fun _ _ => follows_same rfl fun _ _ => follows_same rfl fun _ _ =>
    follows_same rfl fun _ _ => follows_same rfl fun _ _ =>
      follows_same (loadOpdNat_mirror h ha) fun _ _ => follows_same (loadOpdNat_mirror h hb) fun _ _ =>
        follows_same rfl fun _ _ => follows_storeOpdNat h hd

lemma follows_equ (h : Mirrors q s t) (neq : Bool) (hd : localOpd d = true)
    (ha : localOpd a = true) (hb : localOpd b = true) :
    Follows q (insnEquNeq s neq d a b) (insnEquNeq t neq d a b) :=
  follows_same rfl fun _ _ => follows_same rfl fun _ _ => follows_same rfl fun _ _ =>
    follows_same (loadOpd_mirror h ha) fun _ _ => follows_same (loadOpd_mirror h hb) fun _ _ =>
      follows_storeOpdNat h hd

lemma follows_cmp (h : Mirrors q s t) (op : CmpOp) (hd : localOpd d = true)
    (ha : localOpd a = true) (hb : localOpd b = true) :
    Follows q (insnBinLogic s op d a b) (insnBinLogic t op d a b) :=
  follows_same rfl fun _ _ => follows_same rfl fun _ _ => follows_same rfl fun _ _ =>
    follows_same rfl fun _ _ => follows_same rfl fun _ _ => follows_same rfl fun _ _ =>
      follows_same (loadOpdNat_mirror h ha) fun _ _ => follows_same (loadOpdNat_mirror h hb) fun _ _ =>
        follows_storeOpdNat h hd

lemma follows_not (h : Mirrors q s t) (hd : localOpd d = true) (ha : localOpd a = true) :
    Follows q (insnNot s d a) (insnNot t d a) :=
  follows_same rfl fun _ _ => follows_same rfl fun _ _ => follows_same rfl fun _ _ =>
    follows_same rfl fun _ _ => follows_same (loadOpdNat_mirror h ha) fun _ _ => follows_storeOpdNat h hd

lemma follows_neg (h : Mirrors q s t) (hd : localOpd d = true) (ha : localOpd a = true) :
    Follows q (insnNeg s d a) (insnNeg t d a) :=
  follows_same rfl fun _ _ => follows_same rfl fun _ _ => follows_same rfl fun _ _ =>
    follows_same rfl fun _ _ => follows_same (loadOpdNat_mirror h ha) fun _ _ => follows_storeOpdNat h hd

lemma follows_bneg (h : Mirrors q s t) (hd : localOpd d = true) (ha : localOpd a = true) :
    Follows q (insnBneg s d a) (insnBneg t d a) :=
  follows_same rfl fun _ _ => follows_same rfl fun _ _ => follows_same rfl fun _ _ =>
    follows_same rfl fun _ _ => follows_same rfl fun _ _ =>
      follows_same (loadOpdNat_mirror h ha) fun _ _ => follows_storeOpdNat h hd

lemma follows_oz (h : Mirrors q s t) (hd : localOpd d = true) (ha : localOpd a = true) :
    Follows q (insnOz s d a) (insnOz t d a) :=
  follows_same rfl fun _ _ => follows_same rfl fun _ _ => follows_same rfl fun _ _ =>
    follows_same (loadOpdNat_mirror h ha) fun _ _ => follows_storeOpdNat h hd

lemma follows_incDec (h : Mirrors q s t) (dec : Bool) (hd : localOpd d = true) :
    Follows q (insnIncDec s dec d) (insnIncDec t dec d) :=
  follows_same rfl fun _ _ => follows_same (loadOpdNat_mirror h hd) fun _ _ => follows_storeOpdNat h hd

lemma follows_incpDecp (h : Mirrors q s t) (dec : Bool) (hd : localOpd d = true) (ha : localOpd a = true) :
    Follows q (insnIncpDecp s dec d a) (insnIncpDecp t dec d a) :=
  follows_same rfl fun _ _ => follows_same rfl fun _ _ => follows_same rfl fun _ _ =>
    follows_same rfl fun _ _ => follows_same (loadOpdNat_mirror h ha) fun _ _ =>
      follows_bind (follows_storeOpdNat h ha) fun _ _ h' => follows_storeOpdNat h' hd

lemma follows_getsp (h : Mirrors q s t) (hd : localOpd d = true) :
    Follows q (insnGetsp s d) (insnGetsp t d) :=
  follows_same rfl fun _ _ => h.sp ▸ follows_storeWord h hd

/-- The running quaints jump alike. -/
lemma mirrors_jump (h : Mirrors q s t) (loc : Nat) :
    Mirrors q (s.setVm { s.vm with ip := loc }) (t.setVm { t.vm with ip := loc }) := by
  refine mirrors_setVm h ?_ h.parent
  simp only [own, h.sp, h.bp, h.temps, h.stack]

lemma follows_cjmp (h : Mirrors q s t) (jnz : Bool) (loc : Nat) (ha : localOpd a = true) :
    Follows q (insnCjmp s jnz a loc) (insnCjmp t jnz a loc) := by
  refine follows_same rfl fun _ _ => follows_same (loadOpdNat_mirror h ha) fun v _ => ?_
  split
  · exact follows_ok (mirrors_jump h loc)
  · exact follows_ok (mirrors_nextIp h)

lemma follows_pushr (h : Mirrors q s t) (hb : localOpd b = true) :
    Follows q (insnPushr s a b) (insnPushr t a b) := by
  simp only [insnPushr, h.sp, h.bp, h.curs]
  refine follows_same rfl fun _ _ => follows_same rfl fun _ _ => follows_same rfl fun _ _ =>
    follows_same rfl fun _ _ => ?_
  have hown (off : Nat) : OwnLoc q (.mem (.stack s.cur) off) := congrArg some h.cur
  refine follows_bind (follows_store h (hown _)) fun s1 t1 h1 =>
    follows_bind (follows_store h1 (hown _)) fun s2 t2 h2 => follows_storeWord (mirrors_setVm h2 ?_ h2.parent) hb
  simp only [own, h2.ip, h2.bp, h2.temps, h2.stack]

lemma follows_push (h : Mirrors q s t) (ha : localOpd a = true) :
    Follows q (insnPush s a) (insnPush t a) := by
  simp only [insnPush, h.sp, h.curs]
  refine follows_same rfl fun _ _ => follows_same rfl fun _ _ => follows_same rfl fun _ _ =>
    follows_same (opdVal_mirror h ha) fun l hl => ?_
  refine follows_bind (follows_memcpy h (congrArg some h.cur) (ownLoc_of_opdVal h.cur ha hl))
    fun s1 t1 h1 => follows_same rfl fun _ _ => follows_ok (mirrors_setVm h1 ?_ h1.parent)
  simp only [own, h1.ip, h1.bp, h1.temps, h1.stack]

lemma follows_call (h : Mirrors q s t) (ha : localOpd a = true) (hb : localOpd b = true) :
    Follows q (insnCall s a b) (insnCall t a b) := by
  refine follows_same rfl fun _ _ => follows_same rfl fun _ _ => follows_same rfl fun _ _ =>
    follows_same (loadWord_mirror h ha) fun _ _ => follows_same (loadWord_mirror h hb) fun _ _ =>
      follows_ok (mirrors_setVm h ?_ h.parent)
  simp only [own, h.sp, h.temps, h.stack]

/-- What is fresh in the greater machine is fresh in the other. -/
lemma fresh_mirror (h : Mirrors q s t) {base n : Nat} (hf : fresh s base n = true) :
    fresh t base n = true := by
  have hq : ((t.vms q).temps) = (s.vms q).temps := congrArg Own.temps h.own
  simp only [fresh, Bool.and_eq_true, decide_eq_true_eq, List.all_eq_true] at hf ⊢
  obtain ⟨⟨⟨⟨⟨h0, hle⟩, h16⟩, -⟩, -⟩, hlive⟩ := hf
  refine ⟨⟨⟨⟨⟨h0, hle⟩, h16⟩, ?_⟩, by simp [h.alone.heap]⟩, ?_⟩
  · simp [apart, h.alone.bssBase, h.alone.bssSize]
  · intro vm hvm
    obtain rfl : vm = q := by simpa [h.alone.live] using hvm
    rw [hq]
    exact hlive vm h.live

lemma follows_incsp (h : Mirrors q s t) : Follows q (insnIncsp inp s a b) (insnIncsp inp t a b) := by
  intro s1 hs
  simp only [insnIncsp, bind_eq_ok, orNomem_eq_ok, pure_eq_ok] at hs ⊢
  obtain ⟨_, h1, _, h2, _, h3, _, h4, _, h5, base, hbase, _, h6, rfl⟩ := hs
  have hbase' : alloc t inp.addr ((tmpFrameSize + b.off) % 2 ^ 64) = some base := by
    rw [alloc, Option.filter_eq_some_iff] at hbase ⊢
    exact ⟨hbase.1, fresh_mirror h hbase.2⟩
  refine ⟨_, ⟨_, h1, _, h2, _, h3, _, by rwa [h.sp], _, by rwa [h.sp], base, hbase', _, h6, rfl⟩,
    mirrors_setVm h ?_ h.parent⟩
  simp only [own, Qvm.enter, h.sp, h.ip, h.bp, h.temps, h.stack]

/-- A call or a reap with a value leaves it in a temporary. -/
def resultTemp : Insn → Bool
  | .callv val _ _ | .rtev val _ => val.opd == .temp && !val.indirect
  | _ => true

def ResultsInTemps (o : Obj) : Prop := ∀ i ∈ o.insns, resultTemp i = true

lemma directTemp_of_callv {val loc bp : Opd} {n : Nat} (ho : ResultsInTemps o)
    (hi : o.insns[n]? = some (.callv val loc bp)) : DirectTemp val := by
  simpa [resultTemp, DirectTemp] using ho _ (List.mem_of_getElem? hi)

lemma directTemp_of_rtev {val src : Opd} {n : Nat} (ho : ResultsInTemps o)
    (hi : o.insns[n]? = some (.rtev val src)) : DirectTemp val := by
  simpa [resultTemp, DirectTemp] using ho _ (List.mem_of_getElem? hi)

lemma localOpd_of_temp (h : DirectTemp a) : localOpd a = true := by
  simp [localOpd, h.1, h.2]

lemma savedWords_mirror (h : Mirrors q s t) : savedWords t = savedWords s := by
  have hload (off : Nat) : t.loadNat (.mem (.stack s.cur) off) 8 = s.loadNat (.mem (.stack s.cur) off) 8 := by
    simp only [State.loadNat, load_mirror h (l := .mem (.stack s.cur) off) (congrArg some h.cur)]
  simp only [savedWords, h.curs, h.sp, hload]

lemma follows_returnToCaller (ho : ResultsInTemps o) (h : Mirrors q s t) (retval : List UInt8) :
    Follows q (returnToCaller o s retval) (returnToCaller o t retval) := by
  simp only [returnToCaller, h.temps, savedWords_mirror h]
  refine follows_same rfl fun _ _ => follows_same rfl fun saved _ => follows_same rfl fun _ _ =>
    follows_same rfl fun _ _ => ?_
  have hm : Mirrors q (s.setVm (Qvm.restore s.vm saved s.vm.temps.tail))
      (t.setVm (Qvm.restore t.vm saved s.vm.temps.tail)) := by
    refine mirrors_setVm h ?_ h.parent
    simp only [own, Qvm.restore, h.sp, h.stack]
  split
  · exact follows_ok (mirrors_nextIp hm)
  · refine follows_same rfl fun j hj => ?_
    cases j with
    | callv val loc bp =>
      have hval := localOpd_of_temp (directTemp_of_callv ho (orUb_eq_ok.mp hj))
      exact follows_same rfl fun _ _ => follows_bind (follows_storeOpd hm hval) fun s1 t1 h1 =>
        follows_ok (mirrors_nextIp h1)
    | _ =>
      intro s1 hs
      cases hs

lemma follows_ret (ho : ResultsInTemps o) (h : Mirrors q s t) {val : Option Opd} {size : Opd}
    (hval : ∀ v ∈ val, localOpd v = true) (hb : s.vm.sp ≠ size.off) :
    Follows q (insnRet o s val size) (insnRet o t val size) := by
  have hleave : Follows q (leaveFrame s size) (leaveFrame t size) := by
    simp only [leaveFrame, h.sp, h.bp, h.temps]
    refine follows_same rfl fun _ _ => follows_same rfl fun _ _ => follows_same rfl fun _ _ =>
      follows_same rfl fun _ _ => follows_same rfl fun _ _ => follows_ok (mirrors_setVm h ?_ h.parent)
    simp only [own, h.ip, h.stack]
  intro s1 hs
  obtain ⟨s0, h0, hs⟩ := bind_eq_ok.mp hs
  obtain ⟨t0, ht0, hm⟩ := hleave s0 h0
  -- the frame is not the bottom one
  have hsp : s0.vm.sp ≠ 0 := by
    obtain ⟨hle, rfl⟩ := leaveFrame_eq_ok h0
    rw [setVm_vm]
    show s.vm.sp - size.off ≠ 0
    omega
  have hret (signd : Bool) (retval : List UInt8) :
      Follows q (handleReturn o s0 signd retval) (handleReturn o t0 signd retval) := by
    simp only [handleReturn, hm.sp, hsp, false_and, if_false]
    exact follows_returnToCaller ho hm retval
  cases val with
  | none =>
    obtain ⟨t1, ht1, hm1⟩ := hret _ _ s1 hs
    exact ⟨t1, bind_eq_ok.mpr ⟨t0, ht0, ht1⟩, hm1⟩
  | some v =>
    obtain ⟨t1, ht1, hm1⟩ := follows_same (loadOpd_mirror hm (hval v rfl)) (fun bs _ => hret v.signd bs) s1 hs
    exact ⟨t1, bind_eq_ok.mpr ⟨t0, ht0, ht1⟩, hm1⟩

/-- **An instruction that uses only what is the quaint's own does the same where the quaint is alone.** -/
theorem follows_execInsn (ho : ResultsInTemps o) (h : Mirrors q s t) (hi : localInsn i = true)
    (hb : leavesBottom s.vm i = false) : Follows q (execInsn inp o s i) (execInsn inp o t i) := by
  have keep {w w' : Qvm} (hw : own w' = own w) (hp : w'.parent = 0) :
      Follows q (.ok (nextIp (s.setVm w))) (.ok (nextIp (t.setVm w'))) :=
    follows_ok (mirrors_nextIp (mirrors_setVm h hw hp))
  cases i <;> simp only [localInsn, Insn.opds, List.all_cons, List.all_nil, Bool.and_true, Bool.and_false,
    Bool.false_eq_true, Bool.and_eq_true] at hi
  case nop => exact follows_ok (mirrors_nextIp h)
  case mov d a => exact follows_next (follows_mov h hi.1 hi.2)
  case cast d a => exact follows_next (follows_cast h hi.1 hi.2)
  case arith op d a b => exact follows_next (follows_arith h op hi.1 hi.2.1 hi.2.2)
  case equ neq d a b => exact follows_next (follows_equ h neq hi.1 hi.2.1 hi.2.2)
  case cmp op d a b => exact follows_next (follows_cmp h op hi.1 hi.2.1 hi.2.2)
  case not d a => exact follows_next (follows_not h hi.1 hi.2)
  case neg d a => exact follows_next (follows_neg h hi.1 hi.2)
  case bneg d a => exact follows_next (follows_bneg h hi.1 hi.2)
  case oz d a => exact follows_next (follows_oz h hi.1 hi.2)
  case inc dec d => exact follows_next (follows_incDec h dec hi)
  case incp dec d a => exact follows_next (follows_incpDecp h dec hi.1 hi.2)
  case jz jnz c loc => exact follows_cjmp h jnz loc hi
  case jmp loc => exact follows_ok (mirrors_jump h loc)
  case pushr v ssp => exact follows_next (follows_pushr h hi.2)
  case push v => exact follows_next (follows_push h hi)
  case call loc bp => exact follows_call h hi.1 hi.2
  case callv v loc bp => exact follows_call h hi.2.1 hi.2.2
  case incsp a b => exact follows_next (follows_incsp h)
  case ret size =>
    have hret : Follows q (insnRet o s none size) (insnRet o t none size) :=
      follows_ret ho h (by simp) (by simpa [leavesBottom] using hb)
    exact hret
  case retv v size =>
    have hret : Follows q (insnRet o s (some v) size) (insnRet o t (some v) size) :=
      follows_ret ho h (by simpa using hi.1) (by simpa [leavesBottom] using hb)
    exact hret
  case wlab func id => exact keep (by simp only [own, h.sp, h.ip, h.bp, h.temps, h.stack]) h.parent
  case getsp d => exact follows_next (follows_getsp h hi)
  case noint => exact keep (by simp only [own, h.sp, h.ip, h.bp, h.temps, h.stack]) h.parent
  case int => exact keep (by simp only [own, h.sp, h.ip, h.bp, h.temps, h.stack]) h.parent

end Instructions

/-! ### The results of a compiled program -/

section Results

open Codegen Emit Generated Listing

variable {cx : Cx} {x : Item} {p p' : Pt} {code : List Insn} {r : Option Opd} {a b : Opd}

lemma scaled_results {m : Nat} (h : Scaled p m a code b p') : code.all resultTemp = true := by
  cases h <;> rfl

lemma indexed_results {m k : Nat} (h : Indexed p m k a code b p') : code.all resultTemp = true := by
  cases h <;> rfl

lemma fetched_results (h : Fetched p a code b p') : code.all resultTemp = true := by
  cases h <;> rfl

lemma base_results (h : Base p a code b p') : code.all resultTemp = true := by
  cases h <;> rfl

lemma inits_results {t : Types.Ty} {ns : List Types.Sym} (h : Inits cx t a ns code) :
    code.all resultTemp = true := by
  induction h with
  | nil => rfl
  | cons n ns ofs code hn h ih => exact ih

/-- Every call and every reap of an item leaves its value in a temporary. -/
theorem results_item (h : Emit cx x p code r p') : code.all resultTemp = true := by
  induction h with
  | equl hop _ _ _ ihl ihr =>
    obtain ⟨neq, rfl⟩ | ⟨cop, rfl⟩ | ⟨aop, rfl⟩ := bexpInsn_cases hop <;> simp [resultTemp, ihl, ihr]
  | unary hop _ _ ih => obtain rfl | rfl | rfl := unaryInsn_cases hop <;> simp [resultTemp, ih]
  | plus _ _ _ hs _ ihl ihr | aspl _ _ _ hs _ ihl ihr => simp [resultTemp, ihl, ihr, scaled_results hs]
  | arow _ _ hf _ ih => simp [resultTemp, ih, fetched_results hf]
  | aexp _ _ hi ha ihb iho => simp [resultTemp, ihb, iho, indexed_results hi, base_results ha]
  | declInit _ hi ih => rw [List.all_append, ih, inits_results hi, Bool.and_self]
  | multValue _ _ _ ih => simp [resultTemp, Pt.temp, ih]
  | callv _ _ _ iha ihl => simp [resultTemp, Pt.temp, iha, ihl]
  | _ => simp [resultTemp, *]

lemma resultTemp_printOpd {locs : List (Nat × Nat)} {i : Insn} (h : resultTemp i = true) :
    resultTemp (i.mapOpds (printOpd locs)) = true := by
  cases i <;> first | rfl | simpa only [Insn.mapOpds, resultTemp, Operand.printOpd_opd,
    Operand.printOpd_indirect] using h

/-- **Every call and every reap of a compiled program leaves its value in a temporary.** -/
theorem results_of_compiles {u : Ast.Unit} {o : Obj} (h : Program.Compiles u o) : ResultsInTemps o := by
  obtain ⟨tops, fns, -, hl⟩ := listed_of_compiles h
  intro i hi
  rw [hl.insns] at hi
  obtain ⟨j, hj, rfl⟩ := List.mem_map.mp hi
  refine resultTemp_printOpd ?_
  rcases List.mem_append.mp hj with hj | hj
  · obtain rfl := List.eq_of_mem_replicate hj
    rfl
  · obtain ⟨fn, hfn, hj⟩ := List.mem_flatMap.mp hj
    have hbody := List.all_eq_true.mp (results_item (Operand.emitted_of_listed hl hfn))
    simp only [Fn.code, List.cons_append, List.mem_cons, List.mem_append, List.not_mem_nil, or_false] at hj
    rcases hj with rfl | hj | rfl
    · rfl
    · exact hbody j hj
    · rfl

end Results

/-! ### Runs -/

section Runs

variable {o : Obj} {inp : Inp} {q : Nat} {s s' t : State} {i : Insn} {is : List Inp}

/-- The instructions a quaint executes under a list of inputs, alone on the machine. -/
def soloRun (o : Obj) : State → List Inp → M State
  | t, [] => .ok t
  | t, inp :: is => do
    let i ← orUb o.insns[t.vm.ip]?
    let t' ← execInsn inp o t i
    soloRun o t' is

lemma soloRun_append (is js : List Inp) (t : State) :
    soloRun o t (is ++ js) = soloRun o t is >>= fun t' => soloRun o t' js := by
  induction is generalizing t with
  | nil => rfl
  | cons inp is ih =>
    simp only [List.cons_append, soloRun]
    cases orUb o.insns[t.vm.ip]? with
    | error e => rfl
    | ok i =>
      show (execInsn inp o t i >>= fun t' => soloRun o t' (is ++ js)) =
        (execInsn inp o t i >>= fun t' => soloRun o t' is) >>= fun t' => soloRun o t' js
      cases execInsn inp o t i with
      | error e => rfl
      | ok t' => exact ih t'

/-- The quaint stands at an instruction that uses only what is its own, and does not return from its
bottom frame. -/
def keepsToItself (o : Obj) (v : Qvm) : Bool :=
  o.insns[v.ip]?.any fun i => localInsn i && !leavesBottom v i

lemma keepsToItself_iff {v : Qvm} : keepsToItself o v = true ↔
    ∃ i, o.insns[v.ip]? = some i ∧ localInsn i = true ∧ leavesBottom v i = false := by
  simp [keepsToItself, Option.any_eq_true]

/-- Whoever runs, nothing else stores to the memory of the quaint. -/
def Spared (q : Nat) (s s' : State) : Prop :=
  s.cur ≠ q → (s'.vms q).stack = (s.vms q).stack ∧ (s'.vms q).temps = (s.vms q).temps

/-- A round of a machine on which a quaint keeps to itself, with the inputs of the rounds it runs. -/
def Turn (o : Obj) (q : Nat) (x x' : State × List Inp) : Prop :=
  q ∈ x.1.live ∧ keepsToItself o (x.1.vms q) = true ∧ Spared q x.1 x'.1 ∧
    ∃ inp, step inp o x.1 = .ok x'.1 ∧ x'.2 = if x.1.cur = q then x.2 ++ [inp] else x.2

/-- What the scheduler and the others see of a thread, but for its parent. -/
def SameThread (t t' : Thread) : Prop :=
  t'.ip = t.ip ∧ t'.sp = t.sp ∧ t'.bp = t.bp ∧ t'.waiting = t.waiting ∧ t'.atEnd = t.atEnd

/-- A thread that does not run and stands neither at a `wait` nor at a reap is left as it is. -/
lemma sameThread_of_exec {w : Words} {c c' : Ctl} {a : Nat} (hx : Exec o i w c c') (ha : a ∈ c.live)
    (hne : a ≠ c.cur) (hat : ∀ j, o.insns[(c.threads a).ip]? = some j → isReap j = false ∧ isWait j = false) :
    SameThread (c.threads a) (c'.threads a) := by
  have same {t : Thread} (h : t = c.threads a) : SameThread (c.threads a) t := by
    subst h
    exact ⟨rfl, rfl, rfl, rfl, rfl⟩
  have activate {d : Ctl} (p : Nat) (h : d.threads a = c.threads a) :
      SameThread (c.threads a) ((d.activate p).threads a) := by
    rw [Activation.activate_threads]
    split
    · rename_i hp
      rw [← hp, h]
      exact ⟨rfl, rfl, rfl, rfl, rfl⟩
    · exact same h
  have ret {d : Ctl} (hcur : d.cur = c.cur) (h : d.threads a = c.threads a) (hr : Return o d c') :
      SameThread (c.threads a) (c'.threads a) := by
    have hned : a ≠ d.cur := by rwa [hcur]
    cases hr with
    | caller | main => exact same ((if_neg hned).trans h)
    | reap j hsp hp hlive hj hreap =>
      have hpa : a ≠ d.this.parent := by
        intro hpa
        rw [← hpa, h] at hj
        rw [(hat j hj).1] at hreap
        cases hreap
      exact same ((if_neg hpa).trans h)
    | wait j hsp hp hlive hj hwait =>
      have hpa : a ≠ d.this.parent := by
        intro hpa
        rw [← hpa, h] at hj
        rw [(hat j hj).2] at hwait
        cases hwait
      exact same ((if_neg hpa).trans ((if_neg hned).trans h))
  cases hx with
  | own | reapEnded => exact same (if_neg hne)
  | reap p => exact activate p rfl
  | wait p => exact activate p (if_neg hne)
  | qnt dst loc ssp b ip sp n hi h0 hnew hcur =>
    have hb : a ≠ b := fun hb => hnew (hb ▸ ha)
    exact same ((if_neg hne).trans (if_neg hb))
  | qntv dst val b hi h0 hnew hcur =>
    have hb : a ≠ b := fun hb => hnew (hb ▸ ha)
    exact same ((if_neg hne).trans (if_neg hb))
  | ret size hi hsp _ hr =>
    refine ret ?_ ?_ hr
    · rfl
    · exact if_neg hne
  | bfun now n live hi hlive hsp _ hr =>
    refine ret ?_ ?_ hr
    · rfl
    · exact if_neg hne

lemma not_wait_of_local (hi : localInsn i = true) : isReap i = false ∧ isWait i = false := by
  cases i <;> first | exact ⟨rfl, rfl⟩ | simp [localInsn] at hi

/-- The running thread is left among those it was among by an instruction on what is its own. -/
lemma stays_of_local (hx : Exec o i w c c') (hi : localInsn i = true)
    (hb : ∀ size, (i = .ret size ∨ ∃ v, i = .retv v size) → c.this.sp ≠ size.off) :
    c'.cur = c.cur ∧ (c'.threads c.cur).parent = c.this.parent ∧
      (c'.threads c.cur).atEnd = c.this.atEnd ∧ (c'.threads c.cur).waiting = c.this.waiting := by
  obtain ⟨hr, hw⟩ := not_wait_of_local hi
  cases hx with
  | own t hmove =>
    obtain ⟨hp, hend, hwait, -⟩ := Activation.ownMove_sameSched hmove
    have ht : (c.setThis t).threads c.cur = t := Ctl.set_threads_self _ _ _
    rw [ht]
    exact ⟨rfl, hp, hend, hwait⟩
  | reapEnded q hi' | reap q hi' => cases hr.symm.trans hi'
  | wait q now w0 w1 isFor isUntil hi' => cases hw.symm.trans hi'
  | qnt dst loc ssp b ip sp n hi' =>
    subst hi'
    simp [localInsn] at hi
  | qntv dst val b hi' =>
    subst hi'
    simp [localInsn] at hi
  | bfun now n live hi' =>
    subst hi'
    simp [localInsn] at hi
  | ret size hi' hsp _ hret =>
    have hne := hb size hi'
    cases hret with
    | caller ip bp hsp' hip =>
      have hself (t : Thread) : ((c.setThis { c.this with sp := c.this.sp - size.off }).setThis t).threads
          c.cur = t := Ctl.set_threads_self _ _ _
      rw [Ctl.setThis_this, hself]
      exact ⟨rfl, rfl, rfl, rfl⟩
    | main ip bp h0 | reap j h0 | wait j h0 =>
      rw [Ctl.setThis_this] at h0
      have h0' : c.this.sp - size.off = 0 := h0
      omega

/-- What a turn leaves behind: the quaint does not wait, and is where it is alone on the machine. -/
def Solo (o : Obj) (q : Nat) (v : Qvm) (x : State × List Inp) : Prop :=
  (x.1.vms q).waiting = false ∧
    ∃ t, soloRun o (alone q v) x.2 = .ok t ∧ Alone q t ∧ own (t.vms q) = own (x.1.vms q)

lemma solo_turn (ho : ResultsInTemps o) {v : Qvm} {x x' : State × List Inp} (h : Solo o q v x)
    (hturn : Turn o q x x') : Solo o q v x' := by
  obtain ⟨hw, t, ht, hta, hown⟩ := h
  obtain ⟨hlive, hkeeps, hspared, inp, hstep, his⟩ := hturn
  obtain ⟨i, hi, hlocal, hb⟩ := keepsToItself_iff.mp hkeeps
  obtain ⟨j, s1, hr⟩ := step_eq_ok.mp hstep
  by_cases hcur : x.1.cur = q
  · subst hcur
    obtain rfl := Option.some.inj (hr.fetch.symm.trans hi)
    have hm : Mirrors x.1.cur x.1 t := ⟨rfl, hlive, hta, hown⟩
    obtain ⟨t1, ht1, hm1⟩ := follows_execInsn ho hm hlocal hb s1 hr.exec
    have hw1 : (s1.vms x.1.cur).waiting = false := by
      obtain ⟨-, -, -, hx⟩ := stays_of_local (ctl_execInsn hr.live hr.exec) hlocal fun size hsize => by
        have hsp : (x.1.vms x.1.cur).sp ≠ size.off := by
          rcases hsize with rfl | ⟨v, rfl⟩ <;> simpa [leavesBottom] using hb
        exact hsp
      exact hx.trans hw
    have hs1 : x'.1.vms x.1.cur = s1.vms x.1.cur := by
      rcases split_vms hr.split with h | ⟨-, h, -⟩
      · exact h
      · rw [hw1] at h
        cases h
    refine ⟨by rw [hs1, hw1], t1, ?_, hm1.alone, by rw [hs1, hm1.own]⟩
    rw [his, if_pos rfl, soloRun_append]
    refine bind_eq_ok.mpr ⟨t, ht, ?_⟩
    have hfetch : o.insns[t.vm.ip]? = some j := by rw [hm.ip]; exact hr.fetch
    simp only [soloRun, hfetch]
    exact bind_eq_ok.mpr ⟨j, rfl, bind_eq_ok.mpr ⟨t1, ht1, rfl⟩⟩
  · have hsame := sameThread_of_exec (ctl_execInsn hr.live hr.exec) hlive (fun h => hcur h.symm)
      fun j hj => by
        obtain rfl := Option.some.inj (hi.symm.trans hj)
        exact not_wait_of_local hlocal
    obtain ⟨hip, hsp, hbp, hwait, -⟩ := hsame
    have hs1 : x'.1.vms q = s1.vms q := by
      rcases split_vms hr.split with h | ⟨-, h, -⟩
      · exact h
      · cases (hwait.trans hw).symm.trans h
    obtain ⟨hstack, htemps⟩ := hspared hcur
    refine ⟨by rw [hs1]; exact hwait.trans hw, t, ?_, hta, hown.trans ?_⟩
    · rw [his, if_neg hcur, ht]
    · have e1 : (x'.1.vms q).ip = (x.1.vms q).ip := by rw [hs1]; exact hip
      have e2 : (x'.1.vms q).sp = (x.1.vms q).sp := by rw [hs1]; exact hsp
      have e3 : (x'.1.vms q).bp = (x.1.vms q).bp := by rw [hs1]; exact hbp
      simp only [own, e1, e2, e3, hstack, htemps]

/-- **A quaint that keeps to itself does not see how it is scheduled.** However its turns are mixed with
those of other quaints, it is after them where the same turns lead it alone on the machine. -/
theorem solo_of_run {u : Ast.Unit} (h : Program.Compiles u o) (hw : (s.vms q).waiting = false)
    (run : ReflTransGen (Turn o q) (s, []) (s', is)) :
    ∃ t, soloRun o (alone q (s.vms q)) is = .ok t ∧ own (t.vms q) = own (s'.vms q) := by
  have h0 : Solo o q (s.vms q) (s, []) := ⟨hw, _, rfl, alone_alone _ _, rfl⟩
  have ho := results_of_compiles h
  obtain ⟨-, t, ht, -, hown⟩ :=
    invariant_of_run (I := Solo o q (s.vms q)) (fun _ _ h => solo_turn ho h) h0 run
  exact ⟨t, ht, hown⟩

/-- A program that stores through no pointer spares a quaint that keeps to itself. -/
theorem spared_of_direct (hs : directStores o = true) (hq : q ∈ s.live)
    (hk : keepsToItself o (s.vms q) = true) (hstep : step inp o s = .ok s') : Spared q s s' := by
  intro hcur
  obtain ⟨i, s1, hr⟩ := step_eq_ok.mp hstep
  have h1 : (s1.vms q).stack = (s.vms q).stack ∧ (s1.vms q).temps = (s.vms q).temps := by
    cases fared_execInsn hs hq (fun h => hcur h.symm) hr.fetch hr.exec with
    | alone h | entered _ h =>
      rw [h]
      exact ⟨rfl, rfl⟩
    | returned _ _ j hj h =>
      obtain ⟨k, hk, hlocal, -⟩ := keepsToItself_iff.mp hk
      obtain rfl := Option.some.inj (hk.symm.trans hj)
      simp [not_wait_of_local hlocal] at h
  rcases split_vms (q := q) hr.split with h | ⟨-, -, h⟩
  · rw [h]
    exact h1
  · rw [h]
    exact h1

/-- Rounds in which a quaint keeps to itself, with the given inputs. -/
def runTurns (o : Obj) (q : Nat) : State × List Inp → List Inp → M (State × List Inp)
  | x, [] => .ok x
  | x, inp :: inps => do
    ubUnless (q ∈ x.1.live ∧ keepsToItself o (x.1.vms q) = true)
    let s' ← step inp o x.1
    runTurns o q (s', if x.1.cur = q then x.2 ++ [inp] else x.2) inps

lemma run_of_runTurns (hs : directStores o = true) {x x' : State × List Inp} {inps : List Inp}
    (h : runTurns o q x inps = .ok x') : ReflTransGen (Turn o q) x x' := by
  induction inps generalizing x with
  | nil =>
    cases h
    exact .refl
  | cons inp inps ih =>
    simp only [runTurns, bind_eq_ok, ubUnless_eq_ok, decide_eq_true_eq] at h
    obtain ⟨_, ⟨hq, hk⟩, s1, hs1, h⟩ := h
    exact .head ⟨hq, hk, spared_of_direct hs hq hk hs1, inp, hs1, rfl⟩ (ih h)

/-- A quaint is entered, passes a label, and is entered again. -/
theorem solo_entered_twice : ∃ s s' is, is.length = 2 ∧ (s.vms 1114112).ip = 25 ∧ s'.cur = 65536 ∧
    (s'.vms 1114112).ip = 27 ∧ ReflTransGen (Turn Progress.waitTwiceObj 1114112) (s, []) (s', is) ∧
    ∃ t, soloRun Progress.waitTwiceObj (alone 1114112 (s.vms 1114112)) is = .ok t ∧
      own (t.vms 1114112) = own (s'.vms 1114112) := by
  have hlook : (do
      let s ← runWhile (fun _ => true) Progress.waitTwiceObj (initState Progress.waitTwiceObj 65536 131072)
        (stillFrom 1048576 6)
      let x ← runTurns Progress.waitTwiceObj 1114112 (s, []) (stillFrom 2097152 3)
      return (x.2.length, (s.vms 1114112).ip, (s.vms 1114112).waiting, x.1.cur, (x.1.vms 1114112).ip)) =
        .ok (2, 25, false, 65536, 27) := by decide +kernel
  simp only [bind_eq_ok, pure_eq_ok, Prod.mk.injEq] at hlook
  obtain ⟨s, -, ⟨s', is⟩, hrun, hlen, hip, hw, hcur, hip'⟩ := hlook
  have hc : Program.Compiles Progress.waitTwice Progress.waitTwiceObj := by decide +kernel
  have run := run_of_runTurns (by decide +kernel) hrun
  exact ⟨s, s', is, hlen, hip, hcur, hip', run, solo_of_run hc hw run⟩

end Runs

end Quaint.Solitary
