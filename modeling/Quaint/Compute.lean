import Quaint.Arith
import Quaint.Window
import Quaint.Parts
import Quaint.Storage
import Quaint.Linking

/-!
The code of an integer expression.

Where the expression has a number, every run of its code comes to its end, with the number at its
operand. The variables and the temporaries below those of the expression are as before.
-/

namespace Quaint.Compute

open Types Ast TypeCheck Bytes Code Codegen Exec Step Typing Layout Emit Listing Operand Linking Bounds
  Parts Storage Casting Arith Source Window

/-! ### Integer types -/

section Ints

variable {K : ScopeObj → Ty → Prop} {t : Ty}

lemma scalar_of_int (h : isInt t = true) : Scalar t := by
  cases t with
  | int k c => exact ⟨beq_iff_eq.mp h, .inl (by cases k <;> rfl)⟩
  | _ => cases h

lemma isWidth_le {n : Nat} (h : isWidth n = true) : n ≤ 8 := by
  simp only [isWidth, Bool.or_eq_true, beq_iff_eq] at h
  omega

lemma width_of_int (h : isInt t = true) : isWidth t.bytes = true := (width_of_scalar (scalar_of_int h)).2

lemma int_of_binary {op : BOp} {l r : TExpr} (hp : isPure op = true)
    (h : typeFromBexp op l r = .ok (.bexp op l r t)) (hl : isInt (typeOfExpr l) = true)
    (hr : isInt (typeOfExpr r) = true) : isInt t = true := by
  cases op <;> simp only [isPure, Bool.false_eq_true] at hp
  case plus | mins => exact (plus_checked rfl h).2.2 ▸ hl
  case mult | divi | modu | lshf | rshf | amps | care | pipe => exact (arith_checked rfl h).2 ▸ hl
  case equl | neql => exact (equ_checked rfl h).2 ▸ rfl
  case lthn | gthn | lteq | gteq => exact (cmp_checked rfl h).2 ▸ rfl
  case conj | disj => exact (conj_checked rfl h).2 ▸ rfl
  case coma =>
    simp only [typeFromBexp, TRes.ok.injEq, TExpr.bexp.injEq, true_and] at h
    exact h ▸ hr

lemma int_of_unary {op : UOp} {r : TExpr} (hp : isPureUnary op = true)
    (h : typeFromUexp op r = .ok (.uexp op r t)) (hr : isInt (typeOfExpr r) = true) : isInt t = true := by
  cases op <;> simp only [isPureUnary, Bool.false_eq_true] at hp
  case plus => exact (uplus_checked h).2 ▸ hr
  case mins =>
    simp only [typeFromUexp, require_ok, beq_iff_eq] at h
    obtain ⟨hc, -, h⟩ := h
    cases hk : typeOfExpr r with
    | int k c =>
      simp only [hk, TRes.ok.injEq, TExpr.uexp.injEq, true_and] at h
      rw [hk] at hc
      rw [← h]
      exact beq_iff_eq.mpr hc
    | _ => simp [hk] at h
  case excl =>
    simp only [typeFromUexp, require_ok, TRes.ok.injEq, TExpr.uexp.injEq, true_and] at h
    exact h.2.2 ▸ hr
  case care =>
    simp only [typeFromUexp, require_ok, TRes.ok.injEq, TExpr.uexp.injEq, true_and] at h
    exact h.2.2.2 ▸ hr

/-- The type of an integer expression is that of one integer. -/
theorem int_of_expr : ∀ {e : TExpr}, intExpr e = true → Checked K e → isInt (typeOfExpr e) = true
  | .nmbr v t, _, hc => by
    have ht := hc.2
    simp only [typeFromNmbr, TExpr.nmbr.injEq, true_and] at ht
    subst ht
    rfl
  | .name so t, h, _ => by
    simp only [intExpr, Bool.and_eq_true] at h
    exact h.1
  | .bexp op l r t, h, hc => by
    simp only [intExpr, Bool.and_eq_true] at h
    have hl := int_of_expr h.1.2 hc.2.1
    exact int_of_binary h.1.1 hc.1 hl (int_of_expr h.2 hc.2.2)
  | .uexp op r t, h, hc => by
    simp only [intExpr, Bool.and_eq_true] at h
    exact int_of_unary h.1 hc.1 (int_of_expr h.2 hc.2)
  | .cast l c t, h, hc => by
    simp only [intExpr, Bool.and_eq_true] at h
    rw [typeOfExpr, hc.1]
    exact h.1.1
  | .texp c tv fv t, h, hc => by
    simp only [intExpr, Bool.and_eq_true] at h
    rw [typeOfExpr, (texp_checked hc.1).2.2]
    exact int_of_expr h.1.2 hc.2.2.1

end Ints

/-! ### Variables -/

/-- The parameters and the variables of a function. -/
def vars (f : TFunc) : List Var := f.params.toList ++ localVars f

/-- The stack holds the numbers of the variables that have one. -/
def Holds (f : TFunc) (bp : Nat) (env : Numbers) (st : Mem) : Prop :=
  ∀ v ∈ vars f, ∀ x, env v.1.beg = some x → ∃ ofs, htabGet (funcTag f).layout v.1 = some ofs ∧
    Represents v.2 (readMem st (bp + ofs.off) ofs.size) x

/-- The code of a function of an accepted unit, in an object and on a machine that has room for its
variables. -/
structure Ground (tops : List TTop) (f : TFunc) (cx : Cx) (fns : List Fn) (o : Obj) (S : Site) :
    Prop where
  unit : InUnit tops f cx
  laid : VarsLaid (vars f) (funcTag f).layout (funcTag f).frameSize
  room : S.bp + (funcTag f).frameSize ≤ stackSize

/-- The operand of an expression of the type: a literal, a variable or a temporary below the offset. -/
structure Yields (f : TFunc) (t : Ty) (n : Nat) (a : Opd) : Prop where
  under : Under n a
  size : a.size = t.bytes
  signd : a.signd = t.signd
  slot : a.opd = .auto → ∃ v ∈ vars f, htabGet (funcTag f).layout v.1 = some ⟨a.off, a.size⟩

/-- The code has come to its end, the number is at the operand, and nothing else has changed. -/
structure Gives (S : Site) (t : Ty) (x : Int) (a : Opd) (n : Nat) (p' : Pt) (w w' : View) : Prop where
  ip : w'.ip = p'.ip
  calm : Calm n w w'
  value : ∃ bs, S.load w' a = some bs ∧ Represents t bs x

/-- The code of the expression computes the number. -/
def Computes (f : TFunc) (cx : Cx) (fns : List Fn) (o : Obj) (S : Site) (env : Numbers) (e : TExpr)
    (x : Int) : Prop :=
  ∀ need p code r p', Emit cx (.expr e need) p code r p' → At o.insns p.ip (code.map (link fns)) →
    p'.ip < o.insnCount → p'.peak ≤ room S.frame.size →
    ∃ a, r = some a ∧ Yields f (typeOfExpr e) p'.tempOff a ∧ ∀ w, w.ip = p.ip →
      Holds f S.bp env w.stack → S.Reaches o (Gives S (typeOfExpr e) x a p.tempOff p' w) w

section Expressions

variable {tops : List TTop} {f : TFunc} {cx : Cx} {fns : List Fn} {o : Obj} {S : Site} {p p' : Pt}
  {code : List Insn} {need : Bool} {env : Numbers} {e l r : TExpr} {t : Ty} {x y : Int} {w w' : View}
  {n : Nat} {a : Opd} {bs : List UInt8} {i : Insn} {res : Option Opd}

lemma emit_peak {x : Item} {r : Option Opd} (h : Emit cx x p code r p') : p.peak ≤ p'.peak :=
  (emit_below h Below.refl).peak

lemma yields_temp {m : Nat} (h : ((p.alloc t.bytes).skip 1).peak ≤ room m) :
    Yields f t ((p.alloc t.bytes).skip 1).tempOff (p.temp t.signd t.bytes) :=
  ⟨⟨rfl, fun _ => (alloc_end h).ge⟩, rfl, rfl, nofun⟩

/-- An instruction that stores the number in a new temporary. -/
lemma gives_temp (hi : o.insns[w'.ip]? = some i)
    (hx : ∀ inp c k, execInsn inp o (S.seen w' c k) i =
      nextIp <$> storeOpd (S.seen w' c k) (p.temp t.signd t.bytes) bs) (hbs : Represents t bs x)
    (hip : w'.ip = p.ip) (hcalm : Calm n w w') (hn : n ≤ p.tempOff)
    (hroom : ((p.alloc t.bytes).skip 1).peak ≤ room S.frame.size)
    (hend : ((p.alloc t.bytes).skip 1).ip < o.insnCount) :
    S.Reaches o (Gives S t x (p.temp t.signd t.bytes) n ((p.alloc t.bytes).skip 1) w) w' := by
  have hle : p.slot t.bytes + t.bytes ≤ S.frame.size := slot_room hroom
  refine reaches_temp _ hi hx rfl rfl hbs.1 hle (by rwa [hip]) fun w1 hip1 hload hcalm1 =>
    reaches_here ⟨hip1.trans ?_, hcalm.trans hcalm1 (hn.trans (slot_up hroom)), bs, hload, hbs⟩
  rw [hip]
  rfl

/-- A number is computed without any code. -/
lemma gives_here (hip : w.ip = p.ip) (hload : S.load w a = some bs) (hbs : Represents t bs x) :
    S.Reaches o (Gives S t x a n p w) w := reaches_here ⟨hip, Calm.refl n w, bs, hload, hbs⟩

lemma computes_nmbr {v : Nat} (hc : Checked (KnownIn tops f) (.nmbr v t)) :
    Computes f cx fns o S env (.nmbr v t) v := by
  intro need p code r p' he _ _ _
  cases he
  obtain ⟨hbytes, hrep⟩ := represents_nmbr hc.1 hc.2
  have hw := width_of_int (int_of_expr (e := .nmbr v t) rfl hc)
  refine ⟨_, rfl, ⟨⟨rfl, nofun⟩, hbytes.symm, rfl, nofun⟩, fun w hip _ => gives_here hip ?_ hrep⟩
  exact if_pos (hbytes ▸ isWidth_le hw)

/-- A local name is one of the variables. -/
lemma var_of_known {so : ScopeObj} (hK : KnownIn tops f so t) (hl : isLocal so = true) :
    (so.name, t) ∈ vars f := by
  obtain ⟨ht, hk⟩ := hK
  unfold isLocal at hl
  cases hso : so.obj with
  | avar d =>
    simp only [hso, objType, Option.some.injEq] at ht hk
    exact List.mem_append_right _ (ht ▸ mem_vars hk.2 hk.1)
  | parm u =>
    simp only [hso, objType, Option.some.injEq] at ht hk
    exact List.mem_append_left _ (ht ▸ hk)
  | _ => simp [hso] at hl

/-- The place of a variable is that of an operand inside the stack. -/
lemma slot_of_var (G : Ground tops f cx fns o S) {v : Var} (hv : v ∈ vars f) (ht : isInt v.2 = true) :
    ∃ ofs, htabGet (funcTag f).layout v.1 = some ofs ∧ ofs.size = v.2.bytes ∧
      S.bp + ofs.off + ofs.size ≤ stackSize := by
  obtain ⟨ofs, hofs, hsize, -, hle⟩ := G.laid.inside v hv
  have hb := width_of_scalar (scalar_of_int ht)
  have hroom := G.room
  refine ⟨ofs, hofs, ?_, by omega⟩
  rw [hsize, hb.1, (scalar_of_int ht).1, Nat.one_mul]

/-- The operand of a local name. -/
lemma nameOpd_local (G : Ground tops f cx fns o S) {so : ScopeObj} (hK : KnownIn tops f so t)
    (hl : isLocal so = true) (ht : isInt t = true) (ha : nameOpd cx so t = some a) :
    ∃ ofs, htabGet (funcTag f).layout so.name = some ofs ∧ a = opdAuto t.signd ofs.off ofs.size ∧
      S.bp + ofs.off + ofs.size ≤ stackSize ∧ Yields f t n a := by
  have hv := var_of_known hK hl
  obtain ⟨ofs, hofs, hsize, hle⟩ := slot_of_var G hv ht
  obtain rfl : opdAuto t.signd ofs.off ofs.size = a := by
    unfold isLocal at hl
    cases hso : so.obj <;> simp [hso] at hl
    all_goals simpa [nameOpd, hso, G.unit.ftag, hofs] using ha
  exact ⟨ofs, hofs, rfl, hle, ⟨rfl, fun h => by cases h⟩, hsize, rfl, fun _ => ⟨_, hv, hofs⟩⟩

/-- The number of a local name is on the stack. -/
lemma load_local {so : ScopeObj} (hK : KnownIn tops f so t) (hl : isLocal so = true) {ofs : Ofs}
    (hofs : htabGet (funcTag f).layout so.name = some ofs) (hle : S.bp + ofs.off + ofs.size ≤ stackSize)
    (hx : evalName env so = some x) (hw : Holds f S.bp env w.stack) :
    ∃ bs, S.load w (opdAuto t.signd ofs.off ofs.size) = some bs ∧ Represents t bs x := by
  have henv : env so.name.beg = some x := by
    unfold isLocal at hl
    unfold evalName at hx
    cases hso : so.obj <;> simp [hso] at hl hx
    all_goals exact hx
  obtain ⟨ofs', hofs', hrep⟩ := hw _ (var_of_known hK hl) x henv
  obtain rfl := Option.some.inj (hofs.symm.trans hofs')
  exact ⟨_, if_pos hle, hrep⟩

/-- The operand of `true` and of `false`. -/
lemma nameOpd_const {so : ScopeObj} (hK : KnownIn tops f so t) (hl : isConst so = true)
    (hx : evalName env so = some x) (ha : nameOpd cx so t = some a) :
    ∃ b : Bool, t = .int .u8 1 ∧ x = (if b then 1 else 0) ∧
      a = opdImm false (if b then 1 else 0) 1 := by
  unfold isConst at hl
  cases hso : so.obj <;> simp only [hso, Bool.false_eq_true] at hl
  rename_i id
  have ht := hK.1
  simp only [evalName, hso] at hx
  simp only [hso, objType] at ht
  simp only [nameOpd, hso] at ha
  rcases id with _ | _ | _ | id
  · cases hx
  · cases hx
    cases ht
    cases ha
    exact ⟨true, rfl, rfl, rfl⟩
  · cases hx
    cases ht
    cases ha
    exact ⟨false, rfl, rfl, rfl⟩
  · cases hx

lemma computes_name (G : Ground tops f cx fns o S) {so : ScopeObj} (hint : intExpr (.name so t) = true)
    (hc : Checked (KnownIn tops f) (.name so t)) (hx : evalName env so = some x) :
    Computes f cx fns o S env (.name so t) x := by
  intro need p code r p' he _ _ _
  simp only [intExpr, Bool.and_eq_true, Bool.or_eq_true] at hint
  cases he with | name ha => ?_
  rcases hint.2 with hl | hl
  · obtain ⟨ofs, hofs, rfl, hle, hy⟩ := nameOpd_local (n := p.tempOff) G hc hl hint.1 ha
    refine ⟨_, rfl, hy, fun w hip hw => ?_⟩
    obtain ⟨bs, hload, hbs⟩ := load_local hc hl hofs hle hx hw
    exact gives_here hip hload hbs
  · obtain ⟨b, rfl, rfl, rfl⟩ := nameOpd_const hc hl hx ha
    refine ⟨_, rfl, ⟨⟨rfl, nofun⟩, rfl, rfl, nofun⟩,
      fun w hip _ => gives_here hip ?_ (represents_flag rfl b)⟩
    rfl

lemma emit_unary {op : UOp} {mk : Opd → Opd → Insn} (hop : unaryInsn op = some mk)
    (he : Emit cx (.expr (.uexp op r t) need) p code res p') :
    ∃ p1 cr a, Emit cx (.expr r false) p cr (some a) p1 ∧ code = cr ++ [mk (p1.temp t.signd t.bytes) a] ∧
      res = some (p1.temp t.signd t.bytes) ∧ p' = (p1.alloc t.bytes).skip 1 := by
  cases he with
  | unary hop' h ht =>
    obtain rfl := Option.some.inj (hop.symm.trans hop')
    exact ⟨_, _, _, h, rfl, rfl, rfl⟩
  | incr hop' | incrBy hop' => cases op <;> simp [unaryInsn, incrOp] at hop hop'
  | _ => cases hop

/-- The instruction of a unary operator computes its number. -/
lemma unary_computes {op : UOp} {mk : Opd → Opd → Insn} {d : Opd}
    (hop : unaryInsn op = some mk) (hc : typeFromUexp op r = .ok (.uexp op r t))
    (hir : isInt (typeOfExpr r) = true) (ha : a.size = (typeOfExpr r).bytes)
    (hag : a.signd = (typeOfExpr r).signd) (hd : d.size = t.bytes) (hdg : d.signd = t.signd)
    (hbs : Represents (typeOfExpr r) bs y) (hx : unary op t y = some x) :
    ∃ cs, Represents t cs x ∧ ∀ inp s, loadOpd s a = .ok bs →
      execInsn inp o s (mk d a) = nextIp <$> storeOpd s d cs := by
  have hwr := width_of_int hir
  obtain ⟨-, -, hbytes, hmk⟩ := unary_checked hop hc
  have has : a.size = d.size := ha.trans (hbytes.symm.trans hd.symm)
  have hw : isWidth d.size = true := hd ▸ hbytes ▸ hwr
  cases op <;> simp only [unaryInsn, reduceCtorEq, Option.some.injEq] at hop <;> subst hop
  case mins =>
    obtain rfl := Option.some.inj hx
    have hg : t.signd = true := by
      rcases hmk with ⟨-, hg⟩ | ⟨h, -⟩ | ⟨h, -⟩
      · exact hg
      · cases congrFun (congrFun h d) d
      · cases congrFun (congrFun h d) d
    refine ⟨_, represents_wrap (isWidth_pos (hbytes ▸ hwr)) (-y), fun inp s hload => ?_⟩
    have hnum : toInt a.signd d.size (leNat bs) = y := by rw [hag, hd, hbytes]; exact hbs.2
    rw [execInsn, insnNeg_eq hw (hdg.trans hg) has hload, hnum, hd]
  case excl =>
    obtain rfl := Option.some.inj hx
    obtain rfl : t = typeOfExpr r := by
      rcases hmk with ⟨h, -⟩ | ⟨-, ht⟩ | ⟨h, -⟩
      · cases congrFun (congrFun h d) d
      · exact ht
      · cases congrFun (congrFun h d) d
    have hrep := represents_flag hwr (decide (y = 0))
    simp only [decide_eq_true_eq] at hrep
    refine ⟨_, hrep, fun inp s hload => ?_⟩
    rw [execInsn, insnNot_eq hw has (hag.trans hdg.symm) hload, hd]
    simp only [leNat_eq_zero hbs]
  case care =>
    obtain rfl := Option.some.inj hx
    obtain ⟨rfl, hg⟩ : t = typeOfExpr r ∧ t.signd = false := by
      rcases hmk with ⟨h, -⟩ | ⟨h, -⟩ | ⟨-, ht⟩
      · cases congrFun (congrFun h d) d
      · cases congrFun (congrFun h d) d
      · exact ht
    refine ⟨_, represents_compl hg hbs, fun inp s hload => ?_⟩
    rw [execInsn, insnBneg_eq hw (hdg.trans hg) has (hag.trans hg) hload, hd]

lemma link_of_sized (h : ∀ a ∈ i.opds, a.opd ≠ .imm ∨ a.size ≠ 0) : link fns i = i := by
  have hp : ∀ a ∈ i.opds, printOpd (locsOf fns) a = a := fun a ha => printOpd_of_ne (h a ha)
  cases i <;> simp_all [link, Insn.mapOpds, Insn.opds]

/-- The code behind that of a part. -/
lemma at_split {q q' : Pt} {z : Item} {c1 c2 : List Insn} (h : Emit cx z q c1 res q')
    (hat : At o.insns q.ip ((c1 ++ c2).map (link fns))) :
    At o.insns q.ip (c1.map (link fns)) ∧ At o.insns q'.ip (c2.map (link fns)) := by
  rw [List.map_append] at hat
  have hr := hat.right
  rw [List.length_map, ← emit_ip h] at hr
  exact ⟨hat.left, hr⟩

/-- The code behind an instruction. -/
lemma at_next {m : Nat} {c2 : List Insn} (hat : At o.insns m ((i :: c2).map (link fns))) :
    At o.insns (m + 1) (c2.map (link fns)) := by
  have hat' : At o.insns m ([link fns i] ++ c2.map (link fns)) := hat
  exact hat'.right

/-- The instruction at a place, and the code behind it. -/
lemma at_insn {m : Nat} {c2 : List Insn} (hat : At o.insns m ((i :: c2).map (link fns)))
    (hi : ∀ a ∈ i.opds, a.opd ≠ .imm ∨ a.size ≠ 0) :
    o.insns[m]? = some i ∧ At o.insns (m + 1) (c2.map (link fns)) := by
  have hhead := At.head hat
  rw [link_of_sized hi] at hhead
  exact ⟨hhead, at_next hat⟩

lemma Yields.sized (h : Yields f t n a) (ht : isInt t = true) : a.opd ≠ .imm ∨ a.size ≠ 0 :=
  .inr (h.size ▸ isWidth_pos (width_of_int ht))

lemma temp_sized {s : Bool} : (p.temp s n).opd ≠ .imm ∨ (p.temp s n).size ≠ 0 := .inl nofun

lemma computes_unary {op : UOp} (hp : isPureUnary op = true)
    (hc : typeFromUexp op r = .ok (.uexp op r t)) (hir : isInt (typeOfExpr r) = true)
    (hr : Computes f cx fns o S env r y) (hx : unary op t y = some x) :
    Computes f cx fns o S env (.uexp op r t) x := by
  intro need p code res p' he hat hend hpeak
  cases hop : unaryInsn op with
  | none =>
    obtain rfl : op = .plus := by cases op <;> simp_all [isPureUnary, unaryInsn]
    obtain rfl := Option.some.inj hx
    obtain ⟨-, rfl⟩ := uplus_checked hc
    cases he with
    | uplus h => exact hr _ _ _ _ _ h hat hend hpeak
    | unary hop' => cases hop'
    | incr hop' | incrBy hop' => cases hop'
  | some mk =>
    obtain ⟨p1, cr, a, h, rfl, rfl, rfl⟩ := emit_unary hop he
    have hpeak1 : p1.peak ≤ room S.frame.size := (le_max_left _ _).trans hpeak
    obtain ⟨hatr, hati⟩ := at_split h hat
    obtain ⟨_, ⟨⟩, hy, hrun⟩ := hr _ _ _ _ _ h hatr (Nat.lt_of_succ_lt hend) hpeak1
    obtain ⟨hi, -⟩ := at_insn hati (by
      rcases unaryInsn_cases hop with rfl | rfl | rfl <;>
        simp only [Insn.opds, List.forall_mem_cons] <;> exact ⟨temp_sized, hy.sized hir, List.forall_mem_nil _⟩)
    refine ⟨_, rfl, yields_temp hpeak, fun w hip hw => (hrun w hip hw).bind fun w1 h1 => ?_⟩
    obtain ⟨bs, hload, hbs⟩ := h1.value
    obtain ⟨cs, hcs, hexec⟩ := unary_computes (o := o) (d := p1.temp t.signd t.bytes) hop hc hir hy.size
      hy.signd rfl rfl hbs hx
    refine gives_temp (by rwa [h1.ip]) (fun inp c k => hexec inp _ (loadOpd_seen hy.under.direct hload)) hcs
      h1.ip h1.calm (expr_up h (peak_lt hpeak1)) hpeak hend

lemma computes_cast {c : Ty} (hint : intExpr (.cast l c t) = true) (ht : t = c)
    (hil : isInt (typeOfExpr l) = true) (hl : Computes f cx fns o S env l y) :
    Computes f cx fns o S env (.cast l c t) (wrap c y) := by
  intro need p code res p' he hat hend hpeak
  subst ht
  simp only [intExpr, Bool.and_eq_true, Bool.or_eq_true, Bool.not_eq_true', decide_eq_true_eq] at hint
  obtain ⟨⟨hit, hwide⟩, -⟩ := hint
  cases he with | @cast _ _ _ _ _ p1 cl a h hb => ?_
  have hpeak1 : p1.peak ≤ room S.frame.size := (le_max_left _ _).trans hpeak
  have hroom : p1.slot t.bytes + t.bytes ≤ S.frame.size := slot_room hpeak
  obtain ⟨hatl, hati⟩ := at_split h hat
  obtain ⟨_, ⟨⟩, hy, hrun⟩ := hl _ _ _ _ _ h hatl (Nat.lt_of_succ_lt hend) hpeak1
  obtain ⟨hi, -⟩ := at_insn hati (List.forall_mem_cons.mpr
    ⟨temp_sized, List.forall_mem_cons.mpr ⟨hy.sized hil, nofun⟩⟩)
  refine ⟨_, rfl, yields_temp hpeak, fun w hip hw => (hrun w hip hw).bind fun w1 h1 => ?_⟩
  obtain ⟨bs, hload, hbs⟩ := h1.value
  obtain ⟨w2, hcast, hip2, hload2, hcalm2⟩ := cast_seen (S := S) (d := p1.temp t.signd t.bytes) rfl rfl
    hroom (hy.under.mono (slot_up hpeak)) hload
  have hv : 0 ≤ y ∨ t.bytes ≤ (typeOfExpr l).bytes :=
    hwide.imp_left fun hs => by rw [nonneg_of_represents hs hbs]; exact Int.natCast_nonneg _
  have hrep := represents_cast (D := t) hb hbs hv
  rw [← hy.size] at hrep
  have hlt : w2.next.ip < o.insnCount := by
    rw [View.next, hip2, h1.ip]
    exact hend
  refine reaches_exec (by rwa [h1.ip]) (fun inp k m => ?_) hlt (reaches_here ⟨?_, ?_, _, hload2, hrep⟩)
  · rw [execInsn, hcast, ← seen_nextIp]
    rfl
  · exact congrArg (· + 1) (hip2.trans h1.ip)
  · exact h1.calm.trans ⟨hcalm2.stack, hcalm2.temps⟩ ((expr_up h (peak_lt hpeak1)).trans (slot_up hpeak))

lemma represents_alike {u : Ty} (hb : t.bytes = u.bytes) (hs : t.signd = u.signd)
    (h : Represents t bs x) : Represents u bs x := by
  rw [Represents, ← hb, ← hs]
  exact h

/-- Operators on bits have unsigned operands. -/
lemma unsigned_of_bits {op : BOp} (hb : onBits op = true) (h : typeFromBexp op l r = .ok (.bexp op l r t)) :
    (typeOfExpr l).signd = false := by
  cases op <;> simp only [onBits, Bool.false_eq_true] at hb
  all_goals
    simp only [typeFromBexp, requireScalars, requireBits, require_ok] at h
    exact signd_of_unsigned h.2.2.2.1

lemma emit_binary {op : BOp} (hp : isPure op = true) (hop : conjOp op = none) (hcoma : op ≠ .coma)
    (hil : isInt (typeOfExpr l) = true) (he : Emit cx (.expr (.bexp op l r t) need) p code res p') :
    ∃ p1 p2 cl cr a b mk s, Emit cx (.expr l false) p cl (some a) p1 ∧
      Emit cx (.expr r false) p1 cr (some b) p2 ∧ code = cl ++ (cr ++ [mk (p2.temp s t.bytes) a b]) ∧
      res = some (p2.temp s t.bytes) ∧ p' = (p2.alloc t.bytes).skip 1 ∧
      ((∃ aop, plusOp op = some (aop, false) ∧ mk = .arith aop ∧ s = a.signd) ∨
        bexpInsn op = some mk ∧ s = t.signd) := by
  cases he with
  | plus hplus hl hr hs ht =>
    cases hs with
    | one =>
      exact ⟨_, _, _, _, _, _, _, _, hl, hr, by simp, rfl, rfl, .inl ⟨_, hplus, rfl, rfl⟩⟩
    | many hm =>
      refine absurd ?_ hm
      cases hk : typeOfExpr l <;> simp [hk, isInt] at hil
      rfl
  | equl hinsn hl hr ht =>
    exact ⟨_, _, _, _, _, _, _, _, hl, hr, by simp, rfl, rfl, .inr ⟨hinsn, rfl⟩⟩
  | coma => exact absurd rfl hcoma
  | conj hconj => cases hop.symm.trans hconj
  | assn => cases hp
  | asmu hop' => cases op <;> simp [asmuOp, isPure] at hop' hp
  | aspl hop' => cases op <;> simp [plusOp, isPure] at hop' hp

/-- Operands of comparisons of bytes are alike. -/
lemma signd_of_equ {op : BOp} {neq : Bool} (hop : bexpInsn op = some (.equ neq))
    (h : typeFromBexp op l r = .ok (.bexp op l r t)) :
    (typeOfExpr l).signd = (typeOfExpr r).signd := by
  rcases equ_op hop with rfl | rfl <;>
  · simp only [typeFromBexp, reduceCtorEq, or_false, false_or, if_true, require_ok, beq_iff_eq] at h
    exact h.2.2.2.2.1

/-- The instruction of a binary operator computes its number. -/
lemma binary_computes {op : BOp} {mk : Opd → Opd → Opd → Insn} {b d : Opd} {cs : List UInt8} {s : Bool}
    (hop : (∃ aop, plusOp op = some (aop, false) ∧ mk = .arith aop ∧ s = a.signd) ∨
      bexpInsn op = some mk ∧ s = t.signd)
    (hc : typeFromBexp op l r = .ok (.bexp op l r t)) (hil : isInt (typeOfExpr l) = true)
    (ha : a.size = (typeOfExpr l).bytes) (hag : a.signd = (typeOfExpr l).signd)
    (hb : b.size = (typeOfExpr r).bytes) (hbg : b.signd = (typeOfExpr r).signd) (hd : d.size = t.bytes)
    (hdg : d.signd = s) (hbs : Represents (typeOfExpr l) bs x) (hcs : Represents (typeOfExpr r) cs y)
    {v : Int} (hv : binary op (typeOfExpr l) x y = some v) :
    s = t.signd ∧ ∃ ds, Represents t ds v ∧ ∀ inp s, loadOpd s a = .ok bs → loadOpd s b = .ok cs →
      execInsn inp o s (mk d a b) = nextIp <$> storeOpd s d ds := by
  have hw := width_of_int hil
  -- what both ways to compute a number have in common
  have harith {aop : ArithOp} (haop : arithOf op = some aop) (hlike : Alike (typeOfExpr l) (typeOfExpr r))
      (ht : t = typeOfExpr l) (hs : s = t.signd) : ∃ ds, Represents t ds v ∧ ∀ inp s,
        loadOpd s a = .ok bs → loadOpd s b = .ok cs →
          execInsn inp o s (.arith aop d a b) = nextIp <$> storeOpd s d ds := by
    subst ht
    obtain ⟨n, hn, hrep⟩ := arithOp_represents haop hw (fun hb => unsigned_of_bits hb hc) hbs
      (represents_alike hlike.bytes.symm hlike.signd.symm hcs) hv
    refine ⟨_, hrep, fun inp s hla hlb => ?_⟩
    rw [execInsn, insnBinArith_eq (hd ▸ hw) (ha.trans hd.symm) (hag.trans (hdg.trans hs).symm)
      (hb.trans (hlike.bytes.symm.trans hd.symm)) (hbg.trans (hlike.signd.symm.trans (hdg.trans hs).symm))
      hla hlb (by rw [hdg, hs, hd]; exact hn), hd]
  rcases hop with ⟨aop, hplus, rfl, rfl⟩ | ⟨hinsn, rfl⟩
  · obtain ⟨-, hlike, ht⟩ := plus_checked hplus hc
    have hs : a.signd = t.signd := hag.trans (by rw [ht])
    exact ⟨hs, harith (plusOp_op hplus) hlike ht hs⟩
  refine ⟨rfl, ?_⟩
  rcases bexpInsn_op hinsn with ⟨aop, rfl, haop⟩ | ⟨cop, rfl, hcop⟩ | ⟨neq, rfl, hneq⟩
  · obtain ⟨hlike, ht⟩ := arith_checked hinsn hc
    exact harith haop hlike ht rfl
  · obtain ⟨hlike, rfl⟩ := cmp_checked hinsn hc
    obtain rfl := Option.some.inj ((hcop _ _ _).symm.trans hv)
    have hcs' := represents_alike hlike.bytes.symm hlike.signd.symm hcs
    refine ⟨_, represents_flag rfl _, fun inp s hla hlb => ?_⟩
    rw [execInsn, insnBinLogic_eq hd hdg (ha ▸ hw) (hb.trans (hlike.bytes.symm.trans ha.symm))
      (hbg.trans (hlike.signd.symm.trans hag.symm)) hla hlb, hag, ha, hbs.2, hcs'.2]
    rfl
  · obtain ⟨hbytes, rfl⟩ := equ_checked hinsn hc
    obtain rfl := Option.some.inj ((hneq _ _ _).symm.trans hv)
    have hcs' := represents_alike hbytes.symm (signd_of_equ hinsn hc).symm hcs
    refine ⟨_, represents_flag rfl _, fun inp s hla hlb => ?_⟩
    rw [execInsn, insnEquNeq_eq hd hdg (hb.trans (hbytes.symm.trans ha.symm)) hla hlb,
      beq_represents hbs hcs']
    rfl

lemma Yields.mono {k : Nat} (h : Yields f t n a) (hk : n ≤ k) : Yields f t k a :=
  ⟨h.under.mono hk, h.size, h.signd, h.slot⟩

lemma Holds.calm {bp : Nat} (h : Holds f bp env w.stack) (hc : Calm n w w') : Holds f bp env w'.stack := by
  rwa [hc.stack]

/-- The numbers of two expressions, computed one after the other, are at their operands. -/
lemma computes_both {p1 p2 : Pt} {cl cr : List Insn} {a b : Opd} (hl : Computes f cx fns o S env l x)
    (hr : Computes f cx fns o S env r y) (hel : Emit cx (.expr l false) p cl (some a) p1)
    (her : Emit cx (.expr r false) p1 cr (some b) p2) (hatl : At o.insns p.ip (cl.map (link fns)))
    (hatr : At o.insns p1.ip (cr.map (link fns))) (hend : p2.ip < o.insnCount)
    (hpeak : p2.peak ≤ room S.frame.size) :
    Yields f (typeOfExpr l) p2.tempOff a ∧ Yields f (typeOfExpr r) p2.tempOff b ∧
      ∀ w, w.ip = p.ip → Holds f S.bp env w.stack → S.Reaches o (fun w' => w'.ip = p2.ip ∧
        Calm p.tempOff w w' ∧ (∃ bs, S.load w' a = some bs ∧ Represents (typeOfExpr l) bs x) ∧
        ∃ cs, S.load w' b = some cs ∧ Represents (typeOfExpr r) cs y) w := by
  obtain ⟨_, ⟨⟩, hyl, hrunl⟩ := hl _ _ _ _ _ hel hatl ((emit_le her).trans_lt hend)
    ((emit_peak her).trans hpeak)
  obtain ⟨_, ⟨⟩, hyr, hrunr⟩ := hr _ _ _ _ _ her hatr hend hpeak
  refine ⟨hyl.mono (expr_up her (peak_lt hpeak)), hyr, fun w hip hw => ?_⟩
  refine (hrunl w hip hw).bind fun w1 h1 => (hrunr w1 h1.ip (hw.calm h1.calm)).mono fun w2 h2 => ?_
  obtain ⟨bs, hload, hbs⟩ := h1.value
  exact ⟨h2.ip, h1.calm.trans h2.calm (expr_up hel (peak_lt ((emit_peak her).trans hpeak))), ⟨bs, (h2.calm.load hyl.under).trans hload, hbs⟩,
    h2.value⟩

lemma computes_binary {op : BOp} {v : Int} (hp : isPure op = true) (hop : conjOp op = none)
    (hcoma : op ≠ .coma) (hc : typeFromBexp op l r = .ok (.bexp op l r t))
    (hil : isInt (typeOfExpr l) = true) (hir : isInt (typeOfExpr r) = true)
    (hl : Computes f cx fns o S env l x) (hr : Computes f cx fns o S env r y)
    (hv : binary op (typeOfExpr l) x y = some v) : Computes f cx fns o S env (.bexp op l r t) v := by
  intro need p code res p' he hat hend hpeak
  obtain ⟨p1, p2, cl, cr, a, b, mk, s, hel, her, rfl, rfl, rfl, hmk⟩ := emit_binary hp hop hcoma hil he
  obtain ⟨hatl, hatr⟩ := at_split hel hat
  obtain ⟨hatr, hati⟩ := at_split her hatr
  obtain ⟨hya, hyb, hrun⟩ := computes_both hl hr hel her hatl hatr (Nat.lt_of_succ_lt hend)
    ((le_max_left _ _).trans hpeak)
  obtain ⟨hi, -⟩ := at_insn hati (by
    have hopds : (mk (p2.temp s t.bytes) a b).opds = [p2.temp s t.bytes, a, b] := by
      rcases hmk with ⟨aop, -, rfl, -⟩ | ⟨hinsn, -⟩
      · rfl
      · rcases bexpInsn_cases hinsn with ⟨neq, rfl⟩ | ⟨cop, rfl⟩ | ⟨aop, rfl⟩ <;> rfl
    rw [hopds]
    simp only [List.forall_mem_cons]
    exact ⟨temp_sized, hya.sized hil, hyb.sized hir, nofun⟩)
  obtain rfl : s = t.signd := by
    rcases hmk with ⟨aop, hplus, -, rfl⟩ | ⟨-, rfl⟩
    · rw [hya.signd, (plus_checked hplus hc).2.2]
    · rfl
  refine ⟨_, rfl, yields_temp hpeak, fun w hip hw => (hrun w hip hw).bind fun w1 h1 => ?_⟩
  obtain ⟨hip1, hcalm1, ⟨bs, hla, hbs⟩, cs, hlb, hcs⟩ := h1
  obtain ⟨ds, hds, hexec⟩ := (binary_computes (o := o) (d := p2.temp t.signd t.bytes) hmk hc hil
    hya.size hya.signd hyb.size hyb.signd rfl rfl hbs hcs hv).2
  have hfit2 : p2.peak < 2 ^ 64 := peak_lt ((le_max_left _ _).trans hpeak)
  exact gives_temp (by rwa [hip1]) (fun inp c k => hexec inp _ (loadOpd_seen hya.under.direct hla)
    (loadOpd_seen hyb.under.direct hlb)) hds hip1 hcalm1
    ((expr_up hel ((emit_peak her).trans_lt hfit2)).trans (expr_up her hfit2)) hpeak hend

lemma computes_coma (hl : Computes f cx fns o S env l x) (hr : Computes f cx fns o S env r y)
    (ht : t = typeOfExpr r) : Computes f cx fns o S env (.bexp .coma l r t) y := by
  intro need p code res p' he hat hend hpeak
  cases he with
  | coma hel her =>
    obtain ⟨hatl, hatr⟩ := at_split hel hat
    obtain ⟨a, rfl, -, hrunl⟩ := hl _ _ _ _ _ hel hatl ((emit_le her).trans_lt hend)
      ((emit_peak her).trans hpeak)
    obtain ⟨b, rfl, hyb, hrunr⟩ := hr _ _ _ _ _ her hatr hend hpeak
    refine ⟨b, rfl, by rwa [typeOfExpr, ht], fun w hip hw => (hrunl w hip hw).bind fun w1 h1 => ?_⟩
    refine (hrunr w1 h1.ip (hw.calm h1.calm)).mono fun w2 h2 => ⟨h2.ip, ?_, ?_⟩
    · exact h1.calm.trans h2.calm le_rfl
    · rw [typeOfExpr, ht]
      exact h2.value
  | asmu hop' | plus hop' | aspl hop' | conj hop' | equl hop' => cases hop'

/-- A conditional jump jumps, or the code goes on. -/
lemma reaches_cond {P : View → Prop} {jnz : Bool} {loc : Nat} (hi : o.insns[w.ip]? = some (.jz jnz a loc))
    (hy : Yields f t n a) (ht : isInt t = true) (hload : S.load w a = some bs) (hbs : Represents t bs x)
    (hjump : (x = 0 ↔ jnz = false) → loc < o.insnCount ∧ S.Reaches o P (w.jump loc))
    (hnext : ¬ (x = 0 ↔ jnz = false) → w.ip + 1 < o.insnCount ∧ S.Reaches o P w.next) :
    S.Reaches o P w := by
  have hsize : 0 < a.size := hy.size ▸ Nat.pos_of_ne_zero (isWidth_pos (width_of_int ht))
  have hx (inp : Inp) (c k : Nat) : execInsn inp o (S.seen w c k) (.jz jnz a loc) =
      .ok (if x = 0 ↔ jnz = false then S.seen (w.jump loc) c k else S.seen w.next c k) := by
    rw [execInsn, insnCjmp_eq hsize (loadOpd_seen hy.under.direct hload), seen_jump, seen_nextIp]
    simp only [leNat_eq_zero hbs]
  by_cases h : x = 0 ↔ jnz = false
  · simp only [if_pos h] at hx
    exact reaches_exec hi hx (hjump h).1 (hjump h).2
  · simp only [if_neg h] at hx
    exact reaches_exec hi hx (hnext h).1 (hnext h).2

/-- The flag of a number. -/
lemma represents_truth (x : Int) :
    Represents (.int .u8 1) (leBytes 1 (if x = 0 then 0 else 1)) (truth x) := by
  by_cases hx : x = 0
  · rw [truth, if_pos hx, if_pos hx]
    exact represents_flag (t := .int .u8 1) rfl false
  · rw [truth, if_neg hx, if_neg hx]
    exact represents_flag (t := .int .u8 1) rfl true

/-- The flag of a number is stored in a temporary. -/
lemma reaches_oz {P : View → Prop} {q : Pt} (hi : o.insns[w.ip]? = some (.oz (q.temp false 1) a))
    (hy : Yields f t n a) (ht : isInt t = true) (hload : S.load w a = some bs) (hbs : Represents t bs x)
    (hroom : q.slot 1 + 1 ≤ S.frame.size) (hip : w.ip + 1 < o.insnCount)
    (h : ∀ w', w'.ip = w.ip + 1 → S.load w' (q.temp false 1) =
      some (leBytes 1 (if x = 0 then 0 else 1)) → Calm (q.slot 1) w w' → S.Reaches o P w') :
    S.Reaches o P w := by
  refine reaches_temp (leBytes 1 (if x = 0 then 0 else 1)) hi (fun inp c k => ?_) rfl rfl
    (leBytes_length _ _) hroom hip h
  rw [execInsn, insnOz_eq rfl rfl (hy.size ▸ width_of_int ht) (loadOpd_seen hy.under.direct hload)]
  simp only [leNat_eq_zero hbs]

/-- The last instruction of `&&` and `||` leaves the flag as it is. -/
lemma arithOp_flag (disj : Bool) (x : Int) : arithOp (if disj then .or else .and) false 1
    (leNat (leBytes 1 (if disj then 0 else 1))) (leNat (leBytes 1 (if x = 0 then 0 else 1))) =
      some (if x = 0 then 0 else 1) := by
  by_cases hx : x = 0
  · rw [if_pos hx]
    cases disj <;> decide
  · rw [if_neg hx]
    cases disj <;> decide

lemma emit_conj {op : BOp} {disj : Bool} (hop : conjOp op = some disj)
    (he : Emit cx (.expr (.bexp op l r t) need) p code res p') :
    ∃ p1 p2 cl cr a b, Emit cx (.expr l false) p cl (some a) p1 ∧
      Emit cx (.expr r false) ((p1.alloc t.bytes).skip 2) cr (some b) p2 ∧
      code = cl ++ (Insn.oz (p1.temp t.signd t.bytes) a :: .jz disj a (p2.ip + 2) :: (cr ++
        [Insn.oz (p1.temp t.signd t.bytes) b,
         .arith (if disj then .or else .and) (p1.temp t.signd t.bytes)
          (opdImm t.signd (if disj then 0 else 1) t.bytes) (p1.temp t.signd t.bytes)])) ∧
      res = some (p1.temp t.signd t.bytes) ∧ p' = p2.skip 2 := by
  cases he with
  | conj hop' hel ht her =>
    obtain rfl := Option.some.inj (hop.symm.trans hop')
    exact ⟨_, _, _, _, _, _, hel, her, by simp, rfl, rfl⟩
  | plus hop' | aspl hop' | asmu hop' | equl hop' =>
    cases op <;> simp [plusOp, asmuOp, bexpInsn, conjOp] at hop' hop
  | assn | coma => cases hop

lemma computes_conj {op : BOp} {disj : Bool} {v : Int} (hop : conjOp op = some disj)
    (hc : typeFromBexp op l r = .ok (.bexp op l r t)) (hil : isInt (typeOfExpr l) = true)
    (hir : isInt (typeOfExpr r) = true) (hl : Computes f cx fns o S env l x)
    (hshort : (x = 0 ↔ disj = false) → v = truth x)
    (hr : ¬ (x = 0 ↔ disj = false) → ∃ y, Computes f cx fns o S env r y ∧ v = truth y) :
    Computes f cx fns o S env (.bexp op l r t) v := by
  intro need p code res p' he hat hend hpeak
  obtain ⟨p1, p2, cl, cr, a, b, hel, her, rfl, rfl, rfl⟩ := emit_conj hop he
  obtain ⟨-, rfl⟩ := conj_checked hop hc
  have hle : p1.ip + 2 ≤ p2.ip := emit_le her
  have hpeak' : (p1.alloc 1).peak ≤ room S.frame.size := (emit_peak her).trans hpeak
  have hupr := expr_up her (peak_lt hpeak)
  have hup : p1.slot 1 + 1 ≤ p2.tempOff := (alloc_end hpeak').ge.trans hupr
  have hroom : p1.slot 1 + 1 ≤ S.frame.size := slot_room hpeak'
  have hslot : p.tempOff ≤ p1.slot 1 :=
    (expr_up hel (peak_lt ((le_max_left _ _).trans hpeak'))).trans (slot_up hpeak')
  have hover := hslot.trans ((Nat.le_succ _).trans (alloc_end hpeak').ge)
  have hend' : p2.ip + 2 < o.insnCount := hend
  have hsd : (p1.temp false 1).opd ≠ .imm ∨ (p1.temp false 1).size ≠ 0 := temp_sized
  -- the left operand, its flag, and the jump
  obtain ⟨hatl, hat⟩ := at_split hel hat
  obtain ⟨_, ⟨⟩, hya, hrunl⟩ := hl _ _ _ _ _ hel hatl (by omega) ((le_max_left _ _).trans hpeak')
  obtain ⟨hoz, hat⟩ := at_insn hat (List.forall_mem_cons.mpr ⟨hsd, List.forall_mem_cons.mpr
    ⟨hya.sized hil, nofun⟩⟩)
  obtain ⟨hjz, hat⟩ := at_insn hat (List.forall_mem_cons.mpr ⟨hya.sized hil, nofun⟩)
  refine ⟨_, rfl, ⟨⟨rfl, fun _ => hup⟩, rfl, rfl, nofun⟩, fun w hip hw =>
    (hrunl w hip hw).bind fun w1 h1 => ?_⟩
  obtain ⟨bs, hload1, hbs⟩ := h1.value
  refine reaches_oz (by rwa [h1.ip]) hya hil hload1 hbs hroom (by rw [h1.ip]; omega)
    fun w2 hip2 hload2 hcalm2 => ?_
  have hcalm : Calm p.tempOff w w2 := h1.calm.trans hcalm2 hslot
  rw [h1.ip] at hip2
  refine reaches_cond (by rwa [hip2]) hya hil ((hcalm2.load (hya.under.mono (slot_up hpeak'))).trans hload1) hbs
    (fun h => ⟨hend', reaches_here ⟨rfl, ⟨hcalm.stack, hcalm.temps⟩, _, hload2, ?_⟩⟩)
    fun h => ⟨by rw [hip2]; omega, ?_⟩
  · rw [hshort h]
    exact represents_truth x
  -- the right operand and its flag
  obtain ⟨y, hcr, rfl⟩ := hr h
  obtain ⟨hatr, hat⟩ := at_split her hat
  obtain ⟨_, ⟨⟩, hyb, hrunr⟩ := hcr _ _ _ _ _ her hatr (by omega) hpeak
  obtain ⟨hoz, hat⟩ := at_insn hat (List.forall_mem_cons.mpr ⟨hsd, List.forall_mem_cons.mpr
    ⟨hyb.sized hir, nofun⟩⟩)
  obtain ⟨har, -⟩ := at_insn hat (by
    simp only [Insn.opds, List.forall_mem_cons]
    exact ⟨hsd, .inr Nat.one_ne_zero, hsd, nofun⟩)
  have hcalm' : Calm p.tempOff w w2.next := ⟨hcalm.stack, hcalm.temps⟩
  refine (hrunr w2.next (congrArg (· + 1) hip2) (hw.calm hcalm')).bind fun w3 h3 => ?_
  obtain ⟨cs, hload3, hcs⟩ := h3.value
  refine reaches_oz (by rwa [h3.ip]) hyb hir hload3 hcs hroom (by rw [h3.ip]; omega)
    fun w4 hip4 hload4 hcalm4 => ?_
  have hcalm3 : Calm p.tempOff w w4 :=
    (hcalm'.trans h3.calm hover).trans hcalm4 hslot
  rw [h3.ip] at hip4
  refine reaches_temp (d := p1.temp false 1) (leBytes 1 (if y = 0 then 0 else 1)) (by rwa [hip4])
    (fun inp c k => ?_) rfl rfl (leBytes_length _ _) hroom (by rw [hip4]; omega)
    fun w5 hip5 hload5 hcalm5 => reaches_here ⟨?_, hcalm3.trans hcalm5 hslot, _, hload5, represents_truth y⟩
  · have himm : loadOpd (S.seen w4 c k) (opdImm false (if disj then 0 else 1) 1) =
        .ok (leBytes 1 (if disj then 0 else 1)) := loadOpd_seen rfl rfl
    rw [execInsn]
    exact congrArg _ (insnBinArith_eq rfl rfl rfl rfl rfl himm (loadOpd_seen rfl hload4)
      (arithOp_flag disj y))
  · rw [hip5, hip4]
    rfl

/-- A number is moved to a temporary. -/
lemma reaches_mov {P : View → Prop} {q : Pt} {u : Ty}
    (hi : o.insns[w.ip]? = some (.mov (q.temp t.signd t.bytes) a)) (hy : Yields f u n a) (hb : u.bytes = t.bytes) (hs : u.signd = t.signd)
    (hload : ∃ bs, S.load w a = some bs ∧ Represents u bs x)
    (hroom : q.slot t.bytes + t.bytes ≤ S.frame.size)
    (hip : w.ip + 1 < o.insnCount)
    (h : ∀ w', w'.ip = w.ip + 1 → (∃ bs, S.load w' (q.temp t.signd t.bytes) = some bs ∧ Represents t bs x) →
      Calm (q.slot t.bytes) w w' → S.Reaches o P w') : S.Reaches o P w := by
  obtain ⟨bs, hload, hbs⟩ := hload
  have hbs' := represents_alike hb hs hbs
  refine reaches_temp (d := q.temp t.signd t.bytes) bs hi (fun inp c k => ?_) rfl rfl hbs'.1 hroom
    hip fun w' hip' hload' hcalm => h w' hip' ⟨bs, hload', hbs'⟩ hcalm
  rw [execInsn, insnMov_eq (hb.symm.trans hy.size.symm) (loadOpd_seen hy.under.direct hload)]

lemma computes_texp {c tv fv : TExpr} {v : Int} (hc : typeFromTexp c tv fv = .ok (.texp c tv fv t))
    (hic : isInt (typeOfExpr c) = true) (hit : isInt (typeOfExpr tv) = true)
    (hif : isInt (typeOfExpr fv) = true) (hcc : Computes f cx fns o S env c x)
    (htrue : x ≠ 0 → Computes f cx fns o S env tv v) (hfalse : x = 0 → Computes f cx fns o S env fv v) :
    Computes f cx fns o S env (.texp c tv fv t) v := by
  intro need p code res p' he hat hend hpeak
  obtain ⟨-, heq, rfl⟩ := texp_checked hc
  set u := typeOfExpr tv with hu
  cases he with | @texp _ _ _ _ _ _ p1 p2 p3 cc ct cf a b d hec ht het hef => ?_
  have hle : p1.ip + 1 ≤ p2.ip := emit_le het
  have hle' : p2.ip + 2 ≤ p3.ip := emit_le hef
  have hend' : p3.ip + 1 < o.insnCount := hend
  have hpeak3 : p3.peak ≤ room S.frame.size := hpeak
  have hpeak2 : p2.peak ≤ room S.frame.size := (emit_peak hef).trans hpeak3
  have hpeak1 : (p1.alloc u.bytes).peak ≤ room S.frame.size := (emit_peak het).trans hpeak2
  have hupf := expr_up hef (peak_lt hpeak3)
  have hup : p1.slot u.bytes + u.bytes ≤ p3.tempOff := (alloc_end hpeak1).ge.trans hupf
  have hroom : p1.slot u.bytes + u.bytes ≤ S.frame.size := slot_room hpeak1
  have hslot : p.tempOff ≤ p1.slot u.bytes :=
    (expr_up hec (peak_lt ((le_max_left _ _).trans hpeak1))).trans (slot_up hpeak1)
  have hover := hslot.trans ((Nat.le_add_right _ _).trans (alloc_end hpeak1).ge)
  have hsd : (p1.temp u.signd u.bytes).opd ≠ .imm ∨ (p1.temp u.signd u.bytes).size ≠ 0 := temp_sized
  simp only [List.append_assoc, List.cons_append, List.nil_append] at hat
  -- the condition
  obtain ⟨hatc, hat⟩ := at_split hec hat
  obtain ⟨_, ⟨⟩, hya, hrunc⟩ := hcc _ _ _ _ _ hec hatc (by omega) ((le_max_left _ _).trans hpeak1)
  obtain ⟨hjz, hat⟩ := at_insn hat (List.forall_mem_cons.mpr ⟨hya.sized hic, nofun⟩)
  obtain ⟨hatt, hat⟩ := at_split het hat
  refine ⟨_, rfl, ⟨⟨rfl, fun _ => hup⟩, rfl, rfl, nofun⟩, fun w hip hw =>
    (hrunc w hip hw).bind fun w1 h1 => ?_⟩
  obtain ⟨bs, hload1, hbs⟩ := h1.value
  refine reaches_cond (by rwa [h1.ip]) hya hic hload1 hbs (fun h => ⟨by omega, ?_⟩)
    fun h => ⟨by rw [h1.ip]; omega, ?_⟩
  · -- the arm behind the jump
    have hatf := at_next (at_next hat)
    obtain ⟨hatf, hat⟩ := at_split hef hatf
    obtain ⟨_, ⟨⟩, hyd, hrunf⟩ := hfalse (h.mpr rfl) _ _ _ _ _ hef hatf (by omega) hpeak3
    obtain ⟨hmov, -⟩ := at_insn hat (List.forall_mem_cons.mpr ⟨hsd, List.forall_mem_cons.mpr
      ⟨hyd.sized hif, nofun⟩⟩)
    have hcalm1 : Calm p.tempOff w (w1.jump (p2.ip + 2)) := ⟨h1.calm.stack, h1.calm.temps⟩
    refine (hrunf _ rfl (hw.calm hcalm1)).bind fun w2 h2 => ?_
    have hcalm2 := hcalm1.trans h2.calm hover
    refine reaches_mov (by rwa [h2.ip]) hyd (bytes_of_equals heq).symm (signd_of_equals heq).symm h2.value
      hroom (by rw [h2.ip]; omega) fun w3 hip3 hv hcalm3 =>
        reaches_here ⟨?_, hcalm2.trans hcalm3 hslot, hv⟩
    rw [hip3, h2.ip]
    rfl
  · obtain ⟨_, ⟨⟩, hyb, hrunt⟩ := htrue (fun hx => h ⟨fun _ => rfl, fun _ => hx⟩) _ _ _ _ _ het hatt
      (by omega) hpeak2
    obtain ⟨hmov, hat⟩ := at_insn hat (List.forall_mem_cons.mpr ⟨hsd, List.forall_mem_cons.mpr
      ⟨hyb.sized hit, nofun⟩⟩)
    obtain ⟨hjmp, -⟩ := at_insn hat nofun
    have hcalm1 : Calm p.tempOff w w1.next := ⟨h1.calm.stack, h1.calm.temps⟩
    refine (hrunt w1.next (congrArg (· + 1) h1.ip) (hw.calm hcalm1)).bind fun w2 h2 => ?_
    have hcalm2 := hcalm1.trans h2.calm hover
    refine reaches_mov (by rwa [h2.ip]) hyb rfl rfl h2.value hroom (by rw [h2.ip]; omega)
      fun w3 hip3 hv hcalm3 => ?_
    have hcalm := hcalm2.trans hcalm3 hslot
    rw [h2.ip] at hip3
    exact reaches_jmp (by rwa [hip3]) hend' (reaches_here ⟨rfl, ⟨hcalm.stack, hcalm.temps⟩, hv⟩)

/-- Both operands of an operator other than `&&`, `||` and the comma have numbers. -/
lemma eval_binary {op : BOp} (hop : conjOp op = none) (hcoma : op ≠ .coma) :
    eval env (.bexp op l r t) =
      (eval env l).bind fun x => (eval env r).bind fun y => binary op (typeOfExpr l) x y := by
  cases op <;> first | rfl | exact absurd rfl hcoma | cases hop

end Expressions

/-- **The code of an expression computes its number.** -/
theorem expr_computes {tops : List TTop} {f : TFunc} {cx : Cx} {fns : List Fn} {o : Obj} {S : Site}
    {env : Numbers} (G : Ground tops f cx fns o S) : ∀ {e : TExpr} {x : Int}, intExpr e = true →
      Checked (KnownIn tops f) e → eval env e = some x → Computes f cx fns o S env e x
  | .nmbr v t, x, _, hc, hx => by
    obtain rfl := Option.some.inj hx
    exact computes_nmbr hc
  | .name so t, x, hint, hc, hx => computes_name G hint hc hx
  | .uexp op r t, x, hint, hc, hx => by
    simp only [intExpr, Bool.and_eq_true] at hint
    simp only [eval, Option.bind_eq_bind, Option.bind_eq_some_iff] at hx
    obtain ⟨y, hy, hx⟩ := hx
    exact computes_unary hint.1 hc.1 (int_of_expr hint.2 hc.2) (expr_computes G hint.2 hc.2 hy) hx
  | .cast l c t, x, hint, hc, hx => by
    have hil : intExpr l = true := by
      simp only [intExpr, Bool.and_eq_true] at hint
      exact hint.2
    simp only [eval, Option.map_eq_some_iff] at hx
    obtain ⟨y, hy, rfl⟩ := hx
    exact computes_cast hint hc.1 (int_of_expr hil hc.2.2.2) (expr_computes G hil hc.2.2.2 hy)
  | .texp c tv fv t, x, hint, hc, hx => by
    simp only [intExpr, Bool.and_eq_true] at hint
    obtain ⟨⟨hic, hit⟩, hif⟩ := hint
    simp only [eval, Option.bind_eq_bind, Option.bind_eq_some_iff] at hx
    obtain ⟨y, hy, hx⟩ := hx
    refine computes_texp hc.1 (int_of_expr hic hc.2.1) (int_of_expr hit hc.2.2.1)
      (int_of_expr hif hc.2.2.2) (expr_computes G hic hc.2.1 hy) (fun h => ?_) fun h => ?_
    · rw [if_neg h] at hx
      exact expr_computes G hit hc.2.2.1 hx
    · rw [if_pos h] at hx
      exact expr_computes G hif hc.2.2.2 hx
  | .bexp op l r t, x, hint, hc, hx => by
    simp only [intExpr, Bool.and_eq_true] at hint
    obtain ⟨⟨hp, hil⟩, hir⟩ := hint
    have hl {y : Int} (hy : eval env l = some y) := expr_computes G hil hc.2.1 hy
    have hr {y : Int} (hy : eval env r = some y) := expr_computes G hir hc.2.2 hy
    have htl := int_of_expr hil hc.2.1
    have htr := int_of_expr hir hc.2.2
    by_cases hcoma : op = .coma
    · subst hcoma
      simp only [eval, Option.bind_eq_bind, Option.bind_eq_some_iff] at hx
      obtain ⟨y, hy, hx⟩ := hx
      refine computes_coma (hl hy) (hr hx) ?_
      have ht := hc.1
      simp only [typeFromBexp, TRes.ok.injEq, TExpr.bexp.injEq, true_and] at ht
      exact ht.symm
    cases hop : conjOp op with
    | none =>
      simp only [eval_binary hop hcoma, Option.bind_eq_some_iff] at hx
      obtain ⟨y, hy, z, hz, hx⟩ := hx
      exact computes_binary hp hop hcoma hc.1 htl htr (hl hy) (hr hz) hx
    | some disj =>
      cases op <;> simp only [conjOp, reduceCtorEq, Option.some.injEq] at hop <;> subst hop
      all_goals
        simp only [eval, Option.bind_eq_bind, Option.bind_eq_some_iff] at hx
        obtain ⟨y, hy, hx⟩ := hx
      case conj =>
        refine computes_conj rfl hc.1 htl htr (hl hy) (fun h => ?_) fun h => ?_
        · rw [if_pos (h.mpr rfl), Option.some.injEq] at hx
          rw [truth, if_pos (h.mpr rfl), hx]
        · rw [if_neg (fun h0 => h ⟨fun _ => rfl, fun _ => h0⟩)] at hx
          obtain ⟨z, hz, rfl⟩ := Option.map_eq_some_iff.mp hx
          exact ⟨z, hr hz, rfl⟩
      case disj =>
        refine computes_conj rfl hc.1 htl htr (hl hy) (fun h => ?_) fun h => ?_
        · have hy0 : y ≠ 0 := fun h0 => by cases h.mp h0
          rw [if_neg hy0, Option.some.injEq] at hx
          rw [truth, if_neg hy0, hx]
        · have hy0 : y = 0 := by
            by_contra h0
            exact h ⟨fun h1 => absurd h1 h0, fun h1 => by cases h1⟩
          rw [if_pos hy0] at hx
          obtain ⟨z, hz, rfl⟩ := Option.map_eq_some_iff.mp hx
          exact ⟨z, hr hz, rfl⟩

end Quaint.Compute
