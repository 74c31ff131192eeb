import Quaint.Addresses
import Quaint.Generated
import Quaint.Mutability

/-!
The operator `&`.

`gen_uexp_amps` generates its operand as one that is read, an assignment as one that is
written. The two differ for `*p` only, which is copied to a temporary when it is read: there
`&` gives the address of the copy.
-/

namespace Quaint.AddressOf

open Relation Types Ast Bytes Code Exec Step Partial Effect Memory Codegen Generated Typing Mutability
  Addresses Activation Program TypeCheck Scope Transition

/-! ### Operands that are read and written alike -/

def isStar : TExpr → Bool
  | .uexp .mult _ _ => true
  | _ => false

section Operands

variable {cx : Cx} {e r : TExpr} {t : Ty}

/-- Only a `*` below the members and subscripts asks whether it is written. -/
lemma genExpr_need : ∀ (e : TExpr), isStar (root e) = false → ∀ n n', genExpr cx e n = genExpr cx e n'
  | .memb l idx t, h, n, n' => by
    have hl := genExpr_need l h n n'
    show some <$> genBexpMemb (gen cx l) (typeOfExpr l) idx n =
      some <$> genBexpMemb (gen cx l) (typeOfExpr l) idx n'
    simp only [genBexpMemb, gen, hl]
  | .aexp b o t, h, n, n' => by
    have hb := genExpr_need b h n n'
    show some <$> genAexp (gen cx b) (gen cx o) (typeOfExpr o) t n =
      some <$> genAexp (gen cx b) (gen cx o) (typeOfExpr o) t n'
    simp only [genAexp, gen, hb]
  | .uexp op r t, h, n, n' => by
    cases op
    case mult => cases h
    case tild => cases r <;> rfl
    all_goals rfl
  | .bexp _ _ _ _, _, _, _ | .scop _ _, _, _, _ | .atsi _ _ _, _, _, _ | .arow _ _ _, _, _, _
  | .cast _ _ _, _, _, _ | .szof _ _ _, _, _, _ | .fexp _ _ _, _, _, _ | .xexp _ _ _, _, _, _
  | .texp _ _ _ _, _, _, _ | .name _ _, _, _, _ | .nmbr _ _, _, _, _ | .strl _ _, _, _, _ => rfl

lemma amps_generated {n : Bool} {st st' : GenSt} {o : Option Opd}
    (hgen : genExpr cx (.uexp .amps e t) n st = .ok (o, st')) :
    ∃ res st1, genExpr cx e false st = .ok (some res, st1) ∧ t.bytes ≠ 0 ∧
      o = some (tempAt st1 false t.bytes) ∧
      st' = emitted (allocated st1 t.bytes) (.ref (tempAt st1 false t.bytes) res) := by
  have h : (some <$> genUexpAmps (gen cx e) t) st = .ok (o, st') := hgen
  rw [map_ok] at h
  obtain ⟨dst, h, rfl⟩ := h
  simp only [genUexpAmps, bind_ok, operand_ok, opdTemp_ok, emit_ok, pure_ok] at h
  obtain ⟨res, st1, h1, _, _, ⟨ht, rfl, rfl⟩, _, _, rfl, rfl, rfl⟩ := h
  exact ⟨res, st1, h1, ht, rfl, rfl⟩

end Operands

/-! ### The address that is stored -/

/-- The address of what an operand stands for. -/
def address (s : State) (a : Opd) : M Nat := do
  let l ← s.opdVal a
  orUb (s.addrOf l)

section States

variable {s s' : State} {dst res src : Opd} {p size : Nat} {old : List UInt8} {o : Obj} {inp : Inp}
  {signd : Bool}

lemma insnRef_ok (hdst : DirectTemp dst) (hsignd : dst.signd = false) (hsize : dst.size = 8)
    (ha : address s res = .ok p) (hold : loadOpd s dst = .ok old) :
    ∃ s1, execInsn inp o s (.ref dst res) = .ok s1 ∧ loadOpd s1 dst = .ok (leBytes 8 p) := by
  obtain ⟨ld, hld, hlold⟩ := loadOpd_eq_ok.mp hold
  obtain ⟨f, prev, -, rfl⟩ := opdVal_temp hdst hld
  simp only [address, bind_eq_ok, orUb_eq_ok] at ha
  obtain ⟨l, hl, hp⟩ := ha
  obtain ⟨s1, hs1, hload⟩ := store_of_load (leBytes 8 p) rfl hlold (by simp [hsize])
  have hx : insnRef s dst res = .ok s1 := by
    simp only [insnRef, hsignd, hdst.2, hsize, legalIf, beq_self_eq_true, decide_true, if_true, hl,
      storeWord, hld, State.storeNat]
    show (orUb (s.addrOf l) >>= _) = _
    rw [hp]
    exact orUb_eq_ok.mpr hs1
  refine ⟨nextIp s1, by simp only [execInsn, hx]; rfl, ?_⟩
  rw [loadOpd_nextIp]
  refine loadOpd_eq_ok.mpr ⟨_, (opdVal_congr (ctl_store hs1) hdst.2).trans hld, ?_⟩
  have hdrop : old.drop (leBytes 8 p).length = [] := by
    rw [leBytes_length, List.drop_eq_nil_iff, load_length hlold, hsize]
  rw [hload, hdrop, List.append_nil]

/-- What is stored through an address of an operand is stored to the operand. -/
lemma insnMov_through (hlaid : Laid s) (hdst : dst.indirect = false) (hw : loadWord s dst = .ok p)
    (ha : address s res = .ok p) (hpos : 0 < res.size) (h : insnMov s res src = .ok s') :
    insnMov s (dst.setIndirect signd res.size) src = .ok s' := by
  simp only [address, bind_eq_ok, orUb_eq_ok] at ha
  obtain ⟨l, hl, hp⟩ := ha
  simp only [insnMov, bind_eq_ok, legalIf_eq_ok, decide_eq_true_eq] at h ⊢
  obtain ⟨_, hsize, l', hl', a, hla, h⟩ := h
  obtain rfl := Except.ok.inj (hl.symm.trans hl')
  have hind : s.opdVal (dst.setIndirect signd res.size) = .ok (.addr p) := by
    simp only [loadWord, State.opdVal, hdst, bind_eq_ok] at hw
    obtain ⟨base, ⟨b, hb, hbase⟩, hw⟩ := hw
    obtain rfl := pure_eq_ok.mp hbase
    have hval : s.opdVal (dst.setIndirect signd res.size) =
        (s.opdBase dst >>= fun base => s.loadNat base 8 >>= fun p => pure (.addr p)) := rfl
    rw [hval, hb]
    show (s.loadNat b 8 >>= _) = _
    rw [hw]
    rfl
  refine ⟨⟨⟩, hsize, _, hind, a, hla, ?_⟩
  simp only [State.memcpy, bind_eq_ok, orUb_eq_ok] at h ⊢
  obtain ⟨bs, hbs, h⟩ := h
  refine ⟨bs, hbs, ?_⟩
  obtain ⟨r, off, size, m, hplace, hr, hle, rfl⟩ := store_eq_some.mp h
  refine store_eq_some.mpr ⟨r, off, size, m, ?_, hr, hle, rfl⟩
  cases l with
  | imm v => cases hp
  | addr q =>
    obtain rfl := Option.some.inj hp
    exact hplace
  | mem r' off' =>
    obtain ⟨rfl, rfl⟩ := Prod.mk.inj (Option.some.inj hplace)
    have hlen : bs.length = res.size := load_length hbs
    exact locate_addrOf hlaid hr (by omega) hp

/-- The address of a temporary. -/
lemma address_temp {f : TmpFrame} {prev : List TmpFrame} (ha : DirectTemp res)
    (ht : s.vm.temps = f :: prev) : address s res = .ok (f.base + res.off) := by
  have hat : frameAt (s.vms s.cur).temps prev.length = some f := by
    rw [show (s.vms s.cur).temps = f :: prev from ht, frameAt_cons, if_pos rfl]
  simp only [address, opdVal_of_temps ha ht]
  show orUb (s.addrOf (.mem (.temp s.cur prev.length) res.off)) = _
  simp only [State.addrOf, hat]
  rfl

end States

/-! ### The two kinds of operands -/

section Results

variable {cx : Cx} {K : ScopeObj → Ty → Prop} {e p : TExpr} {t : Ty} {n : Bool} {st st' : GenSt}
  {r : Option Opd}

/-- The code of `&e` notes the address of the operand that an assignment to `e` stores to, and what
is stored through that address is stored to `e`. -/
def GivesAddress (cx : Cx) (e : TExpr) (st : GenSt) (r : Option Opd) (st' : GenSt) : Prop :=
  ∃ dst res st1, r = some dst ∧ genExpr cx e true st = .ok (some res, st1) ∧
    st'.insns = st1.insns ++ [Insn.ref dst res] ∧
    (∀ (o : Obj) (inp : Inp) (s : State) (a : Nat) (old : List UInt8), address s res = .ok a →
      loadOpd s dst = .ok old →
      ∃ s1, execInsn inp o s (.ref dst res) = .ok s1 ∧ loadOpd s1 dst = .ok (leBytes 8 a)) ∧
    ∀ (o : Obj) (v b : Nat) (s s1 : State) (a : Nat) (signd : Bool) (src : Opd),
      Apart (v + qvmSize) stackSize b (o.dataSize + o.strings.length) →
      ReflTransGen (Next o) (initState o v b) s → loadWord s dst = .ok a → address s res = .ok a →
      0 < res.size → insnMov s res src = .ok s1 →
      insnMov s (dst.setIndirect signd res.size) src = .ok s1

/-- The code of `&*p` copies what `p` points to, and notes the address of the copy. -/
def GivesCopy (cx : Cx) (p : TExpr) (st : GenSt) (r : Option Opd) (st' : GenSt) : Prop :=
  ∃ dst tmp res st1, r = some dst ∧ genExpr cx p false st = .ok (some res, st1) ∧
    st'.insns = st1.insns ++ [Insn.drf tmp res, .ref dst tmp] ∧ DirectTemp tmp ∧
    ∀ (o : Obj) (inp : Inp) (s : State) (f : TmpFrame) (prev : List TmpFrame) (old : List UInt8),
      s.vm.temps = f :: prev → loadOpd s dst = .ok old →
      ∃ s1, execInsn inp o s (.ref dst tmp) = .ok s1 ∧
        loadOpd s1 dst = .ok (leBytes 8 (f.base + tmp.off))

lemma ptr_bytes (hc : Checked K (.uexp .amps e t)) : t.bytes = 8 := by
  have h := hc.1
  simp only [typeFromUexp, requireLvalue_ok, TRes.ok.injEq, TExpr.uexp.injEq] at h
  rw [← h.2.2.2]
  rfl

lemma gives_address (hc : Checked K (.uexp .amps e t)) (he : isStar (root e) = false)
    (hgen : genExpr cx (.uexp .amps e t) n st = .ok (r, st')) : GivesAddress cx e st r st' := by
  obtain ⟨res, st1, h1, -, rfl, rfl⟩ := amps_generated hgen
  rw [genExpr_need e he false true] at h1
  rw [ptr_bytes hc]
  refine ⟨_, res, st1, rfl, h1, rfl, fun o inp s a old ha hold => ?_, ?_⟩
  · exact insnRef_ok ⟨rfl, rfl⟩ rfl rfl ha hold
  · intro o v b s s1 a signd src hab run hw ha hpos h
    exact insnMov_through (laid_of_run hab run) rfl hw ha hpos h

lemma gives_copy {t' : Ty} (hc : Checked K (.uexp .amps (.uexp .mult p t) t'))
    (hgen : genExpr cx (.uexp .amps (.uexp .mult p t) t') n st = .ok (r, st')) :
    GivesCopy cx p st r st' := by
  obtain ⟨tmp, st2, h2, -, rfl, rfl⟩ := amps_generated hgen
  have hptr : ((typeOfExpr p).t == .ptr) = true := by
    obtain ⟨-, hl⟩ := modified_lvalue hc (m := .uexp .mult p t) rfl
    obtain ⟨count, sub, hp⟩ := mult_operand hc.2 (by simpa [exprIsLvalue] using hl)
    rw [hp]
    rfl
  have h2 : genUexpMult (gen cx p) (typeOfExpr p) t false st = .ok (some tmp, st2) := h2
  simp only [genUexpMult, hptr, Bool.and_false, Bool.false_eq_true, if_false, if_true, bind_ok,
    operand_ok, opdTemp_ok, emit_ok, pure_ok] at h2
  obtain ⟨res, st1, h1, _, _, ⟨-, rfl, rfl⟩, _, _, rfl, hsome, rfl⟩ := h2
  obtain rfl := Option.some.inj hsome
  rw [ptr_bytes hc]
  refine ⟨_, tempAt st1 t.signd t.bytes, res, st1, rfl, h1, by simp [emitted, allocated], ⟨rfl, rfl⟩, ?_⟩
  intro o inp s f prev old ht hold
  exact insnRef_ok ⟨rfl, rfl⟩ rfl rfl (address_temp ⟨rfl, rfl⟩ ht) hold

/-- **What `&` gives**: for every operand that the checker accepts, whose root is not a `*`, the
address of what an assignment to it changes, and for `*p` the address of a copy. -/
theorem address_of (hc : Checked K (.uexp .amps e t))
    (hgen : genExpr cx (.uexp .amps e t) n st = .ok (r, st')) :
    (isStar (root e) = false → GivesAddress cx e st r st') ∧
      ∀ p t', e = .uexp .mult p t' → GivesCopy cx p st r st' := by
  refine ⟨fun he => gives_address hc he hgen, ?_⟩
  rintro p t' rfl
  exact gives_copy hc hgen

end Results

/-! ### The address of a copy -/

def u8Ptr : Ty := .ptr 1 (.int .u8 1)

/-- `x: u8; p: ptr(u8); q: ptr(u8); m { p = &x; q = &*p; *&*p = 1; }` -/
def lookBack : Ast.Unit :=
  ⟨[],
    [.decl ⟨false, false, false, [letter 120 0], .int .u8 1, .absent⟩,
     .decl ⟨false, false, false, [letter 112 6], u8Ptr, .absent⟩,
     .decl ⟨false, false, false, [letter 113 17], u8Ptr, .absent⟩,
     .func ⟨false, letter 109 28, .nil, .none,
       .cons (.expr (.bexp (letter 112 32) .assn (.name (letter 112 32))
         (.uexp .amps (.name (letter 120 36)))))
       (.cons (.expr (.bexp (letter 113 40) .assn (.name (letter 113 40))
         (.uexp .amps (.uexp .mult (.name (letter 112 44))))))
       (.cons (.expr (.bexp (letter 42 48) .assn
         (.uexp .mult (.uexp .amps (.uexp .mult (.name (letter 112 52))))) (.nmbr 1))) .nil))⟩]⟩

def copyOpd : Opd := ⟨.temp, false, false, 0, 1⟩
def addrOpd : Opd := ⟨.temp, false, false, 8, 8⟩

def lookBackObj : Obj :=
  ⟨24, [], List.replicate 17 Insn.bfun ++
    [Insn.incsp (opdImm false 0 8) (opdImm false 16 8),
     .ref ⟨.temp, false, false, 0, 8⟩ (opdGlob false 0 1),
     .mov (opdGlob false 8 8) ⟨.temp, false, false, 0, 8⟩, .nop,
     .drf copyOpd (opdGlob false 8 8), .ref addrOpd copyOpd, .mov (opdGlob false 16 8) addrOpd, .nop,
     .drf copyOpd (opdGlob false 8 8), .ref addrOpd copyOpd,
     .mov ⟨.temp, false, true, 8, 1⟩ (opdImm false 1 1), .nop, .ret (opdImm false 16 8)]⟩

/-- `q` is not `p`, and `x` is not changed. -/
theorem address_of_copy : Compiles lookBack lookBackObj ∧
    ∃ s p q,
      ReflTransGen (Next lookBackObj) (initState lookBackObj 65536 131072) s ∧
      lookBackObj.insns[s.vm.ip]? = some .nop ∧ s.vm.ip = 28 ∧
      loadOpd s (opdGlob false 8 8) = .ok p ∧ loadOpd s (opdGlob false 16 8) = .ok q ∧ p ≠ q ∧
      loadOpd s (opdGlob false 0 1) = .ok [0] := by
  have hlook : (do
      let s ← runWhile (fun _ => true) lookBackObj (initState lookBackObj 65536 131072)
        (stillFrom 1048576 11)
      let p ← loadOpd s (opdGlob false 8 8)
      let q ← loadOpd s (opdGlob false 16 8)
      let x ← loadOpd s (opdGlob false 0 1)
      return (s.vm.ip, p != q, x) : M (Nat × Bool × List UInt8)) = .ok (28, true, [0]) := by
    decide +kernel
  simp only [bind_eq_ok, pure_eq_ok, Prod.mk.injEq, bne_iff_ne] at hlook
  obtain ⟨s, hrun, p, hp, q, hq, x, hx, hip, hne, rfl⟩ := hlook
  have run := run_of_guarded (run_of_runWhile (P := fun _ => True) (fun _ _ => trivial) hrun)
  exact ⟨by decide +kernel, s, p, q, run, by rw [hip]; rfl, hip, hp, hq, hne, hx⟩

def varX : TExpr :=
  .name ⟨letter 120 0, .gvar ⟨false, false, false, [letter 120 0], .int .u8 1, .absent⟩⟩ (.int .u8 1)

def varP : TExpr := .name ⟨letter 112 6, .gvar ⟨false, false, false, [letter 112 6], u8Ptr, .absent⟩⟩ u8Ptr

def u8Addr (e : TExpr) : TExpr := .uexp .amps e u8Ptr

/-- Between the variables of `lookBack`. -/
def inLookBack : Cx := ⟨24, [(0, ⟨0, 1⟩), (6, ⟨8, 8⟩)], ⟨0, 0, []⟩⟩

/-- `&x` is the address of `x`, `&*p` that of a copy. -/
theorem address_of_both :
    (∃ r st', genExpr inLookBack (u8Addr varX) false ⟨[], [], 0, 0, 0⟩ = .ok (r, st') ∧
      GivesAddress inLookBack varX ⟨[], [], 0, 0, 0⟩ r st') ∧
    ∃ r st', genExpr inLookBack (u8Addr (.uexp .mult varP (.int .u8 1))) false ⟨[], [], 0, 0, 0⟩ =
        .ok (r, st') ∧ GivesCopy inLookBack varP ⟨[], [], 0, 0, 0⟩ r st' := by
  have hx : Checked (fun _ _ => True) (u8Addr varX) := ⟨rfl, trivial⟩
  have hp : Checked (fun _ _ => True) (u8Addr (.uexp .mult varP (.int .u8 1))) :=
    ⟨rfl, rfl, trivial⟩
  have gx : genExpr inLookBack (u8Addr varX) false ⟨[], [], 0, 0, 0⟩ =
      .ok (some ⟨.temp, false, false, 0, 8⟩,
        ⟨[.ref ⟨.temp, false, false, 0, 8⟩ (opdGlob false 0 1)], [], 8, 8, 8⟩) := rfl
  have gp : genExpr inLookBack (u8Addr (.uexp .mult varP (.int .u8 1))) false ⟨[], [], 0, 0, 0⟩ =
      .ok (some addrOpd,
        ⟨[.drf copyOpd (opdGlob false 8 8), .ref addrOpd copyOpd], [], 16, 16, 16⟩) := rfl
  exact ⟨⟨_, _, gx, (address_of hx gx).1 rfl⟩, _, _, gp, (address_of hp gp).2 _ _ rfl⟩

end Quaint.AddressOf
