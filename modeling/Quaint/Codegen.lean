import Quaint.Scope
import Quaint.Code

/-!
Code generation.

Instructions are appended to the list of the object, and jump targets are filled in later,
as in the source. A result that a function leaves unset is `none`; to read it, to align to
a multiple of `0`, and to reach an `abort` are errors. The counters of temporaries, of
instructions and of string bytes are unbounded.
-/

namespace Quaint.Codegen

open Types Ast Scope Code

/-! ### Storage layout -/

structure Ofs where
  off : Nat
  size : Nat

/-- A table from declared names to their place, keyed by the address of the name. -/
abbrev Layout := List (Nat × Ofs)

/-- A frame under construction, as `create_frame_layout` passes it along. -/
structure Frame where
  size : Nat
  layout : Layout

/-- `htab_get` -/
def htabGet (l : Layout) (name : Sym) : Option Ofs := (l.find? (fun e => e.1 == name.beg)).map Prod.snd

/-- One name of a declaration. -/
def layoutName (t : Ty) (fr : Frame) (name : Sym) : Frame :=
  let off := wrap64 (alignUp fr.size t.alignment)
  ⟨wrap64 (off + t.bytes), (name.beg, ⟨off, t.bytes⟩) :: fr.layout⟩

def layoutDecl (names : List Sym) (t : Ty) (fr : Frame) : Frame := names.foldl (layoutName t) fr

/-- One parameter. -/
def layoutParam (fr : Frame) (name : Sym) (t : Ty) : Frame :=
  ⟨wrap64 (alignUp (wrap64 (fr.size + t.bytes)) 8), (name.beg, ⟨fr.size, t.bytes⟩) :: fr.layout⟩

def layoutParams : Fields → Frame → Frame
  | .nil, fr => fr
  | .cons n t rest, fr => layoutParams rest (layoutParam fr n t)

mutual
/-- `create_frame_layout` -/
def layoutStmt : TStmt → Frame → Frame
  | .decl names t _, fr => layoutDecl names t fr
  | .blok b, fr | .noin b, fr | .whil _ b, fr | .dowh b _, fr => layoutStmts b fr
  | .cond _ b rest, fr => layoutElifs rest (layoutStmts b fr)
  | _, fr => fr
def layoutStmts : TStmts → Frame → Frame
  | .nil, fr => fr
  | .cons s rest, fr => layoutStmts rest (layoutStmt s fr)
def layoutElifs : TElifs → Frame → Frame
  | .none, fr => fr
  | .els b, fr => layoutStmts b fr
  | .elif _ b rest, fr => layoutElifs rest (layoutStmts b fr)
end

/-- `struct func_tag` -/
structure FuncTag where
  frameSize : Nat
  argsSize : Nat
  layout : Layout

/-- `create_frame_layout` on a function -/
def funcTag (f : TFunc) : FuncTag :=
  let args := layoutParams f.params ⟨0, []⟩
  let all := layoutStmts f.stmts args
  ⟨wrap64 (alignUp all.size 8), args.size, all.layout⟩

/-- `create_global_and_frame_layouts`, the global part -/
def globalFrame : List TTop → Frame → Frame
  | [], fr => fr
  | .decl names t :: rest, fr => globalFrame rest (layoutDecl names t fr)
  | _ :: rest, fr => globalFrame rest fr

/-! ### The generator -/

inductive GenErr
  | unset
  | zeroAlign
  | abort
  deriving DecidableEq

/-- The statics of the generator. `tempReach` is not among them and read by nothing: it is what
`tempOffPeak` would be if a `size_t` did not wrap around. -/
structure GenSt where
  insns : List Insn
  strings : List UInt8
  tempOff : Nat
  tempOffPeak : Nat
  tempReach : Nat

/-- The statics that stay fixed while a function is generated. -/
structure Cx where
  dataSize : Nat
  globals : Layout
  ftag : FuncTag

abbrev GenM := StateT GenSt (Except GenErr)

def getIp : GenM Nat := fun st => .ok (st.insns.length, st)

def emit (i : Insn) : GenM PUnit := fun st => .ok (⟨⟩, { st with insns := st.insns ++ [i] })

def getTempOff : GenM Nat := fun st => .ok (st.tempOff, st)

def setTempOff (n : Nat) : GenM PUnit := fun st => .ok (⟨⟩, { st with tempOff := n })

/-- `OPD_TEMP` -/
def opdTemp (signd : Bool) (size : Nat) : GenM Opd := fun st =>
  if size = 0 then .error .zeroAlign
  else
    let beg := wrap64 (alignUp st.tempOff (if size ≤ 8 then size else 8))
    let off := wrap64 (beg + size)
    .ok (⟨.temp, signd, false, beg, size⟩,
      { st with
        tempOff := off
        tempOffPeak := max st.tempOffPeak off
        tempReach := max st.tempReach (alignUp st.tempOff (if size ≤ 8 then size else 8) + size) })

def Insn.setLoc (loc : Nat) : Insn → Insn
  | .jz b c _ => .jz b c loc
  | .jmp _ => .jmp loc
  | i => i

def Insn.setPushr (imm : Nat) : Insn → Insn
  | .pushr v s => .pushr { v with off := imm } s
  | i => i

def Insn.setTsize (imm : Nat) : Insn → Insn
  | .incsp a t => .incsp a { t with off := imm }
  | i => i

/-- Change the instruction emitted at `pos`. -/
def patch (pos : Nat) (f : Insn → Insn) : GenM PUnit := fun st =>
  .ok (⟨⟩, { st with insns := st.insns.modify pos f })

/-- `o->insns[pos].jmp.loc = ip` -/
def patchJmp (pos : Nat) : GenM PUnit := do
  let ip ← getIp
  patch pos (Insn.setLoc ip)

/-- Read a result that must have been set. -/
def operand (g : GenM (Option Opd)) : GenM Opd := do
  match ← g with
  | some o => return o
  | none => throw .unset

def orAbort {α : Type} : Option α → GenM α
  | some a => return a
  | none => throw .abort

/-- The generator of an operand, given `need_lvalue`. -/
abbrev Gen := Bool → GenM Opd

/-- `gen_bexp_assn` -/
def genBexpAssn (lhs rhs : Gen) : GenM Opd := do
  let dst ← lhs true
  let src ← rhs false
  emit (.mov dst src)
  return dst

/-- `gen_bexp_asmu` -/
def genBexpAsmu (op : ArithOp) (lhs rhs : Gen) : GenM Opd := do
  let res1 ← lhs true
  let res2 ← rhs false
  emit (.arith op res1 res1 res2)
  return res1

/-- `gen_bexp_scop`: the value of the first name equal to the one given -/
def genBexpScop (value : Sym) (type : Ty) : GenM Opd :=
  match type with
  | .enum _ values _ =>
    return opdImm false (((values.find? (fun v => lexSymbolsEqual v.1 value)).map Prod.snd).getD 0)
      type.bytes
  | _ => throw .abort

/-- The `func` and `wlab_id` operands of a label. -/
def wlabOperand : WlabRef → Option (Nat × Nat)
  | .none => some (0, 0)
  | .atEnd => some (1, 0)
  | .wlab f idx => (f.wlabs[idx]?).map fun w => (nodeAddr f.name, w.2)

/-- `gen_bexp_atsi` -/
def genBexpAtsi (lhs : Gen) (label : WlabRef) (type : Ty) : GenM Opd := do
  let res ← lhs false
  let lab ← orAbort (wlabOperand label)
  let dst ← opdTemp type.signd type.bytes
  emit (.qat dst res lab.1 lab.2)
  return dst

/-- The type and offset of a member. -/
def memberAt (t : Ty) (idx : Nat) : Option (Ty × Nat) :=
  match t.members.toList[idx]?, t.offsets[idx]? with
  | some m, some off => some (m.2, off)
  | _, _ => none

/-- `gen_bexp_memb` -/
def genBexpMemb (lhs : Gen) (lhsType : Ty) (idx : Nat) (needLvalue : Bool) : GenM Opd := do
  let res ← lhs needLvalue
  let (memb, offset) ← orAbort (memberAt lhsType idx)
  if !res.indirect then
    return { res with off := wrap64 (res.off + offset), signd := memb.signd, size := memb.bytes }
  else
    let res := res.setDirect
    let dstDrf ← opdTemp false 8
    emit (.drf dstDrf res)
    let dst ← opdTemp false 8
    emit (.arith .add dst dstDrf (opdImm false offset 8))
    return dst.setIndirect memb.signd memb.bytes

/-- `gen_bexp_arow` -/
def genBexpArow (lhs : Gen) (subtype : Ty) (idx : Nat) : GenM Opd := do
  let res ← lhs false
  let res ← if res.indirect then do
      let dst ← opdTemp false 8
      emit (.drf dst res.setDirect)
      pure dst
    else pure res
  let (memb, offset) ← orAbort (memberAt subtype idx)
  let dst ← opdTemp false 8
  emit (.arith .add dst res (opdImm false offset 8))
  return dst.setIndirect memb.signd memb.bytes

/-- The instruction of a binary operator of `gen_bexp_equl`. -/
def bexpInsn : BOp → Option (Opd → Opd → Opd → Insn)
  | .equl => some (.equ false)
  | .neql => some (.equ true)
  | .lthn => some (.cmp .lt)
  | .gthn => some (.cmp .gt)
  | .lteq => some (.cmp .lte)
  | .gteq => some (.cmp .gte)
  | .mult => some (.arith .mul)
  | .divi => some (.arith .div)
  | .modu => some (.arith .mod)
  | .lshf => some (.arith .lsh)
  | .rshf => some (.arith .rsh)
  | .amps => some (.arith .and)
  | .care => some (.arith .xor)
  | .pipe => some (.arith .or)
  | _ => none

/-- `gen_bexp_equl` -/
def genBexpEqul (mk : Opd → Opd → Opd → Insn) (lhs rhs : Gen) (type : Ty) : GenM Opd := do
  let res1 ← lhs false
  let res2 ← rhs false
  let dst ← opdTemp type.signd type.bytes
  emit (mk dst res1 res2)
  return dst

/-- `gen_bexp_conj` and, with `disj`, `gen_bexp_disj` -/
def genBexpConj (disj : Bool) (lhs rhs : Gen) (type : Ty) : GenM Opd := do
  let res1 ← lhs false
  let dst ← opdTemp type.signd type.bytes
  emit (.oz dst res1)
  let jzIp ← getIp
  emit (.jz disj res1 0)
  let res2 ← rhs false
  emit (.oz dst res2)
  if disj then emit (.arith .or dst (opdImm dst.signd 0 dst.size) dst)
  else emit (.arith .and dst (opdImm dst.signd 1 dst.size) dst)
  patchJmp jzIp
  return dst

/-- The size a pointer to `t` moves by, `1` for an integer. -/
def stepOf : Ty → Nat
  | .ptr _ s => s.bytes
  | _ => 1

/-- `gen_bexp_plus` -/
def genBexpPlus (op : ArithOp) (isAssignment : Bool) (lhs rhs : Gen) (lhsType type : Ty) :
    GenM Opd := do
  let res1 ← lhs isAssignment
  let res2 ← rhs false
  let multiplier := stepOf lhsType
  let res2 ← if multiplier ≠ 1 then do
      let dst ← opdTemp false 8
      emit (.arith .mul dst res2 (opdImm false multiplier 8))
      pure dst
    else pure res2
  let dst ← opdTemp res1.signd type.bytes
  if isAssignment then
    emit (.arith op res1 res1 res2)
    return res1
  else
    emit (.arith op dst res1 res2)
    return dst

/-- `gen_bexp_coma` -/
def genBexpComa (lhs rhs : Bool → GenM (Option Opd)) : GenM (Option Opd) := do
  let savedTempOff ← getTempOff
  let _ ← lhs false
  setTempOff savedTempOff
  rhs false

/-- `gen_bexp_cast` -/
def genBexpCast (lhs : Gen) (cast : Ty) : GenM Opd := do
  let res ← lhs false
  let dst ← opdTemp cast.signd cast.bytes
  emit (.cast dst res)
  return dst

/-- `gen_uexp_mins` -/
def genUexpMins (mk : Opd → Opd → Insn) (rhs : Gen) (type : Ty) : GenM Opd := do
  let res ← rhs false
  let dst ← opdTemp type.signd type.bytes
  emit (mk dst res)
  return dst

/-- `gen_uexp_tild` on a call; `args` pushes the arguments -/
def genUexpTildCall (args : GenM PUnit) (lhs : Gen) (type : Ty) : GenM Opd := do
  let dst ← opdTemp false type.bytes
  let ssp ← opdTemp false 8
  emit (.getsp ssp)
  args
  let lhsRes ← lhs false
  emit (.qnt dst lhsRes ssp)
  return dst

/-- `gen_uexp_tild` on a value -/
def genUexpTildValue (rhs : Gen) (type : Ty) : GenM Opd := do
  let dst ← opdTemp false type.bytes
  let res ← rhs false
  emit (.qntv dst res)
  return dst

/-- `gen_uexp_mult` -/
def genUexpMult (rhs : Gen) (rhsType type : Ty) (needLvalue : Bool) : GenM (Option Opd) := do
  let res ← rhs false
  let isPtr := rhsType.t == .ptr
  if isPtr && needLvalue then
    return some (res.setIndirect type.signd type.bytes)
  else if isPtr then
    let dst ← opdTemp type.signd type.bytes
    emit (.drf dst res)
    return some dst
  else if type.bytes ≠ 0 then
    let dst ← opdTemp type.signd type.bytes
    emit (.rtev dst res)
    return some dst
  else
    emit (.rte res)
    return none

/-- `gen_uexp_amps` -/
def genUexpAmps (rhs : Gen) (type : Ty) : GenM Opd := do
  let res ← rhs false
  let dst ← opdTemp false type.bytes
  emit (.ref dst res)
  return dst

/-- `gen_uexp_incr` -/
def genUexpIncr (dec : Bool) (rhs : Gen) (rhsType type : Ty) : GenM Opd := do
  let res ← rhs true
  let step := stepOf rhsType
  if step = 1 then emit (.inc dec res)
  else
    emit (.arith (if dec then .sub else .add) res res (opdImm type.signd step type.bytes))
  return res

/-- `gen_uexp_szof` -/
def genUexpSzof (alignof : Bool) (spec : Ty) : GenM Opd :=
  return opdImm false (if alignof then spec.alignment else spec.bytes) 8

/-- `gen_fexp`; `args` pushes the arguments -/
def genFexp (args : GenM PUnit) (lhs : Gen) (type : Ty) : GenM (Option Opd) := do
  let ssp ← opdTemp false 8
  let pushrIp ← getIp
  emit (.pushr (opdImm false 0 8) ssp)
  args
  let lhsRes ← lhs false
  let ip ← getIp
  patch pushrIp (Insn.setPushr ip)
  if type.bytes ≠ 0 then
    let val ← opdTemp type.signd type.bytes
    emit (.callv val lhsRes ssp)
    return some val
  else
    emit (.call lhsRes ssp)
    return none

/-- `gen_xexp_incr` -/
def genXexpIncr (dec : Bool) (lhs : Gen) (lhsType type : Ty) : GenM Opd := do
  let res ← lhs true
  let step := stepOf lhsType
  let dst ← opdTemp type.signd type.bytes
  if step = 1 then emit (.incp dec dst res)
  else
    emit (.mov dst res)
    emit (.arith (if dec then .sub else .add) res res (opdImm type.signd step type.bytes))
  return dst

/-- `gen_aexp` -/
def genAexp (base off : Gen) (offType type : Ty) (needLvalue : Bool) : GenM Opd := do
  let resBase ← base needLvalue
  let resOff ← off false
  let elemSize := type.bytes
  let idxScaled ← opdTemp false 8
  let idxScaled ←
    if elemSize = 1 then
      if offType.size = 8 then pure resOff
      else do
        emit (.cast idxScaled resOff)
        pure idxScaled
    else if offType.size ≠ 8 then do
      emit (.cast idxScaled resOff)
      emit (.arith .mul idxScaled idxScaled (opdImm false elemSize 8))
      pure idxScaled
    else do
      emit (.arith .mul idxScaled resOff (opdImm false elemSize 8))
      pure idxScaled
  if resBase.indirect then
    let dst ← opdTemp false 8
    emit (.arith .add dst resBase.setDirect idxScaled)
    return dst.setIndirect type.signd elemSize
  else
    let refDst ← opdTemp false 8
    emit (.ref refDst resBase)
    let arrDst ← opdTemp false 8
    emit (.arith .add arrDst refDst idxScaled)
    return arrDst.setIndirect type.signd elemSize

/-- `gen_texp` -/
def genTexp (cond tval fval : Gen) (type : Ty) : GenM Opd := do
  let condRes ← cond false
  let res ← opdTemp type.signd type.bytes
  let jzIp ← getIp
  emit (.jz false condRes 0)
  let savedTempOff ← getTempOff
  let tvalRes ← tval false
  emit (.mov res tvalRes)
  let jmpIp ← getIp
  emit (.jmp 0)
  patchJmp jzIp
  setTempOff savedTempOff
  let fvalRes ← fval false
  emit (.mov res fvalRes)
  patchJmp jmpIp
  return res

/-- `const_values` -/
def constValues : List Nat := [0, 1, 0]

/-- `gen_name` -/
def genName (cx : Cx) (so : ScopeObj) (type : Ty) : GenM Opd :=
  match so.obj with
  | .gvar _ => do
    let ofs ← orAbort (htabGet cx.globals so.name)
    return opdGlob type.signd ofs.off ofs.size
  | .avar _ | .parm _ => do
    let ofs ← orAbort (htabGet cx.ftag.layout so.name)
    return opdAuto type.signd ofs.off ofs.size
  | .bcon id => do
    let value ← orAbort constValues[id]?
    return opdImm type.signd value type.bytes
  | .bfun id => return opdImm false id 8
  | .func f => return opdImm false (nodeAddr f.name) 0
  | .dupl => throw .abort

/-- `push_string` -/
def pushString (s : List UInt8) : GenM PUnit := fun st =>
  .ok (⟨⟩, { st with strings := st.strings ++ s ++ [0] })

/-- `gen_strl` -/
def genStrl (cx : Cx) (s : List UInt8) : GenM Opd := do
  let strBeg ← (fun st => .ok (wrap64 (cx.dataSize + st.strings.length), st) : GenM Nat)
  pushString s
  let dst ← opdTemp false 8
  emit (.ref dst (opdGlob false strBeg 1))
  return dst

/-- The operators of `gen_bexp_asmu` and of the assignments of `gen_bexp_plus`. -/
def asmuOp : BOp → Option ArithOp
  | .asmu => some .mul
  | .asdi => some .div
  | .asmo => some .mod
  | .asls => some .lsh
  | .asrs => some .rsh
  | .asan => some .and
  | .asxo => some .xor
  | .asor => some .or
  | _ => none

mutual
/-- `gen_expr` -/
def genExpr (cx : Cx) : TExpr → Bool → GenM (Option Opd)
  | .bexp op l r t, _ =>
    let lhs : Gen := fun n => operand (genExpr cx l n)
    let rhs : Gen := fun n => operand (genExpr cx r n)
    match op with
    | .assn => some <$> genBexpAssn lhs rhs
    | .aspl => some <$> genBexpPlus .add true lhs rhs (typeOfExpr l) t
    | .asmi => some <$> genBexpPlus .sub true lhs rhs (typeOfExpr l) t
    | .plus => some <$> genBexpPlus .add false lhs rhs (typeOfExpr l) t
    | .mins => some <$> genBexpPlus .sub false lhs rhs (typeOfExpr l) t
    | .conj => some <$> genBexpConj false lhs rhs t
    | .disj => some <$> genBexpConj true lhs rhs t
    | .coma => genBexpComa (genExpr cx l) (genExpr cx r)
    | op =>
      match asmuOp op, bexpInsn op with
      | some aop, _ => some <$> genBexpAsmu aop lhs rhs
      | none, some mk => some <$> genBexpEqul mk lhs rhs t
      | none, none => throw .abort
  | .scop v t, _ => some <$> genBexpScop v t
  | .atsi l label t, _ => some <$> genBexpAtsi (fun n => operand (genExpr cx l n)) label t
  | .memb l idx _, need =>
    some <$> genBexpMemb (fun n => operand (genExpr cx l n)) (typeOfExpr l) idx need
  | .arow l idx _, _ =>
    match typeOfExpr l with
    | .ptr _ s => some <$> genBexpArow (fun n => operand (genExpr cx l n)) s idx
    | _ => throw .abort
  | .cast l c _, _ => some <$> genBexpCast (fun n => operand (genExpr cx l n)) c
  | .uexp .tild (.fexp l args _) t, _ =>
    some <$> genUexpTildCall (genArgs cx args) (fun n => operand (genExpr cx l n)) t
  | .uexp op r t, need =>
    let rhs : Gen := fun n => operand (genExpr cx r n)
    match op with
    | .plus => genExpr cx r false
    | .mins => some <$> genUexpMins .neg rhs t
    | .excl => some <$> genUexpMins .not rhs t
    | .care => some <$> genUexpMins .bneg rhs t
    | .tild => some <$> genUexpTildValue rhs t
    | .mult => genUexpMult rhs (typeOfExpr r) t need
    | .amps => some <$> genUexpAmps rhs t
    | .incr => some <$> genUexpIncr false rhs (typeOfExpr r) t
    | .decr => some <$> genUexpIncr true rhs (typeOfExpr r) t
  | .szof al spec _, _ => some <$> genUexpSzof al spec
  | .fexp l args t, _ => genFexp (genArgs cx args) (fun n => operand (genExpr cx l n)) t
  | .xexp op l t, _ =>
    some <$> genXexpIncr (op == .decr) (fun n => operand (genExpr cx l n)) (typeOfExpr l) t
  | .aexp b o t, need =>
    some <$> genAexp (fun n => operand (genExpr cx b n)) (fun n => operand (genExpr cx o n))
      (typeOfExpr o) t need
  | .texp c tv fv t, _ =>
    some <$> genTexp (fun n => operand (genExpr cx c n)) (fun n => operand (genExpr cx tv n))
      (fun n => operand (genExpr cx fv n)) t
  | .name so t, _ => some <$> genName cx so t
  | .nmbr v t, _ => return some (opdImm t.signd v t.size)
  | .strl s _, _ => some <$> genStrl cx s
/-- The pushes of the arguments of a call. -/
def genArgs (cx : Cx) : TArgs → GenM PUnit
  | .nil => return ⟨⟩
  | .cons a rest => do
    let res ← operand (genExpr cx a false)
    emit (.push res)
    genArgs cx rest
end

lemma genArgs_cons {cx : Cx} {a : TExpr} {rest : TArgs} :
    genArgs cx (.cons a rest) = (do
      let res ← operand (genExpr cx a false)
      emit (.push res)
      genArgs cx rest) := by
  rw [genArgs]

/-! ### Statements -/

/-- `gen_decl_auto` -/
def genDeclAuto (cx : Cx) (names : List Sym) (t : Ty) (init : Option TExpr) : GenM PUnit :=
  match init with
  | none => return ⟨⟩
  | some e => do
    let initRes ← operand (genExpr cx e false)
    names.forM fun n => do
      let ofs ← orAbort (htabGet cx.ftag.layout n)
      emit (.mov (opdAuto t.signd ofs.off ofs.size) initRes)

/-- `gen_retn` -/
def genRetn (cx : Cx) (e : Option TExpr) : GenM PUnit := do
  let size := opdImm false (wrap64 (cx.ftag.frameSize + 16)) 8
  match e with
  | some e =>
    let val ← operand (genExpr cx e false)
    emit (.retv val size)
  | none => emit (.ret size)

/-- `gen_wait` -/
def genWait (cx : Cx) (q : TExpr) (f : Option TExpr) (label : WlabRef) (noblock units : Bool) :
    GenM PUnit := do
  let resQuaint ← operand (genExpr cx q false)
  let resTimeout ← match f with
    | some e => operand (genExpr cx e false)
    | none => pure (opdImm false 0 1)
  let lab ← orAbort (wlabOperand label)
  emit (.wait resQuaint resTimeout lab.1 lab.2 noblock units f.isSome)

mutual
/-- `gen_stmt` -/
def genStmt (cx : Cx) : TStmt → GenM PUnit
  | .decl names t init => do
    genDeclAuto cx names t init
    setTempOff 0
  | .cond e b rest => do
    let ifCondRes ← operand (genExpr cx e false)
    let prevJmpIp ← getIp
    emit (.jz false ifCondRes 0)
    setTempOff 0
    genStmts cx b
    let endJmpIp ← getIp
    emit (.jmp 0)
    let ends ← genElifs cx prevJmpIp rest
    (endJmpIp :: ends).forM patchJmp
    setTempOff 0
  | .blok b => do
    genStmts cx b
    setTempOff 0
  | .noin b => do
    emit .noint
    genStmts cx b
    emit .int
    setTempOff 0
  | .whil e b => do
    let jmpIp ← getIp
    let condRes ← operand (genExpr cx e false)
    let jzIp ← getIp
    emit (.jz false condRes 0)
    setTempOff 0
    genStmts cx b
    emit (.jmp jmpIp)
    patchJmp jzIp
    setTempOff 0
  | .dowh b e => do
    let jnzIp ← getIp
    genStmts cx b
    let condRes ← operand (genExpr cx e false)
    emit (.jz true condRes jnzIp)
    setTempOff 0
  | .retn e => do
    genRetn cx e
    setTempOff 0
  | .wait q f label noblock units => do
    genWait cx q f label noblock units
    setTempOff 0
  | .wlab func id => do
    emit (.wlab func id)
    setTempOff 0
  | .expr e => do
    let _ ← genExpr cx e false
    emit .nop
    setTempOff 0
def genStmts (cx : Cx) : TStmts → GenM PUnit
  | .nil => return ⟨⟩
  | .cons s rest => do
    genStmt cx s
    genStmts cx rest
/-- The `elif` loop and the `else` of `gen_cond`, returning `end_jmp_ips`. -/
def genElifs (cx : Cx) (prevJmpIp : Nat) : TElifs → GenM (List Nat)
  | .none => do
    patchJmp prevJmpIp
    return []
  | .els b => do
    patchJmp prevJmpIp
    genStmts cx b
    return []
  | .elif e b rest => do
    patchJmp prevJmpIp
    let elifCondRes ← operand (genExpr cx e false)
    let jzIp ← getIp
    emit (.jz false elifCondRes 0)
    setTempOff 0
    genStmts cx b
    let endJmpIp ← getIp
    emit (.jmp 0)
    let ends ← genElifs cx jzIp rest
    return endJmpIp :: ends
end

lemma genStmts_cons {cx : Cx} {s : TStmt} {rest : TStmts} :
    genStmts cx (.cons s rest) = (do
      genStmt cx s
      genStmts cx rest) := by
  rw [genStmts]

lemma genStmt_blok {cx : Cx} {b : TStmts} :
    genStmt cx (.blok b) = (do
      genStmts cx b
      setTempOff 0) := by
  rw [genStmt]

lemma genElifs_els {cx : Cx} {prev : Nat} {b : TStmts} :
    genElifs cx prev (.els b) = (do
      patchJmp prev
      genStmts cx b
      return []) := by
  rw [genElifs]

/-- `gen_func`, returning `ftag->loc` -/
def genFunc (cx : Cx) (f : TFunc) : GenM Nat := do
  let loc ← getIp
  emit (.incsp (opdImm false (wrap64 (2 ^ 64 + cx.ftag.frameSize - cx.ftag.argsSize)) 8)
    (opdImm false 0 8))
  (fun st => .ok (⟨⟩, { st with tempOffPeak := 0, tempReach := 0 }) : GenM PUnit)
  genStmts cx f.stmts
  let peak ← (fun st => .ok (st.tempOffPeak, st) : GenM Nat)
  patch loc (Insn.setTsize peak)
  emit (.ret (opdImm false (wrap64 (cx.ftag.frameSize + 16)) 8))
  return loc

/-- The functions of the unit, returning for each node its `loc`. -/
def genTops (dataSize : Nat) (globals : Layout) : List TTop → GenM (List (Nat × Nat))
  | [] => return []
  | .func f :: rest => do
    let loc ← genFunc ⟨dataSize, globals, funcTag f⟩ f
    let locs ← genTops dataSize globals rest
    return (nodeAddr f.name, loc) :: locs
  | _ :: rest => genTops dataSize globals rest

/-- `print_opd`, which also resolves the address of a function -/
def printOpd (locs : List (Nat × Nat)) (o : Opd) : Opd :=
  if o.opd = .imm ∧ o.size = 0 then
    match locs.lookup o.off with
    | some loc => { o with off := loc, size := 8 }
    | none => o
  else o

/-- The operands for which `htab_get` in `print_opd` finds the function. -/
def opdResolved (locs : List (Nat × Nat)) (o : Opd) : Bool :=
  !(o.opd = .imm ∧ o.size = 0) || (locs.lookup o.off).isSome

/-- `codegen_obj_create` -/
def codegenObjCreate (tops : List TTop) : Except GenErr Obj :=
  let globals := globalFrame tops ⟨0, []⟩
  match genTops globals.size globals.layout tops
      ⟨List.replicate scopeBfunIdCount .bfun, [], 0, 0, 0⟩ with
  | .error e => .error e
  | .ok (locs, st) =>
    if st.insns.all fun i => i.opds.all (opdResolved locs) then
      .ok ⟨globals.size, st.strings, st.insns.map (Insn.mapOpds (printOpd locs))⟩
    else .error .abort

end Quaint.Codegen
