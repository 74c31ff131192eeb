import Quaint.Invoke

/-!
Statements with calls.

The code of a part of a function leads where the part does, and changes nothing below the frame of the
function, provided that the code of its expressions computes their numbers.
-/

namespace Quaint.Perform

open Types Ast Scope TypeCheck Bytes Code Codegen Exec Step Typing Layout Emit Listing Operand Linking Bounds
  Parts Storage Casting Arith Window Partial Memory Nesting Evaluate Invoke
open Solitary (localOpd localInsn)
open Source (Numbers Part isInt isLocal isConst evalName updateOp wrap binary)
open Compute (Holds Yields scalar_of_int width_of_int isWidth_le emit_peak at_insn at_split at_next vars)
open Meaning (Ending numExpr numStmt numStmts numElifs isFunc isWriter assigned stepped stepOp)

/-! ### Parts -/

/-- The part of a function is checked, and its declarations are among those of the function. -/
def PartOk (solo : Bool) (tops : List TTop) (f : TFunc) : Part → Prop
  | .stmt s => CheckedStmt (KnownIn tops f) f.rettype s ∧ stmtLocals s ⊆ stmtsLocals f.stmts ∧
    numStmt solo s = true
  | .stmts b => CheckedStmts (KnownIn tops f) f.rettype b ∧ stmtsLocals b ⊆ stmtsLocals f.stmts ∧
    numStmts solo b = true
  | .elifs r => CheckedElifs (KnownIn tops f) f.rettype r ∧ elifsLocals r ⊆ stmtsLocals f.stmts ∧
    numElifs solo r = true

/-- The operand of the instruction that leaves the function. -/
def leaveSize (f : TFunc) : Opd := opdImm false ((funcTag f).frameSize + 16) 8

/-- The instruction at hand leaves the function with the bytes of the number. -/
structure Leaves (f : TFunc) (o : Obj) (S : Spot) (v : Option Int) (w : View) (i : Insn) (bs : List UInt8) :
    Prop where
  insn : o.insns[w.ip]? = some i
  yields : Yielded S w (leaveSize f) bs i
  bears : Bears f.rettype v bs
  signd : retSigned i = (RetTy.ty f.rettype).signd
  width : v = none ∨ isWidth bs.length = true

/-- The code has led where the part does: to its end, or to an instruction that leaves the function with
the number. -/
def Lands (f : TFunc) (o : Obj) (S : Spot) (fin : Nat) : Ending → View → Prop
  | .goes env, w => w.ip = fin ∧ Holds f S.bp env w.stack
  | .returned v, w => ∃ i bs, Leaves f o S v w i bs

/-- The code has led there and written what is written on the way, with the stack below the frame as it
was. -/
structure Ends (f : TFunc) (o : Obj) (S : Spot) (fin : Nat) (r : Ending) (w : View) (out' : List Out)
    (w' : View) (out : List Out) : Prop where
  out : out = out'
  lands : Lands f o S fin r w'
  low : ∀ i < S.bp, w'.stack i = w.stack i

/-- The code of the part leads where the part does. -/
def Follows (solo : Bool) (f : TFunc) (cx : Cx) (fns : List Fn) (o : Obj) (S : Spot) (env : Numbers) (x : Part)
    (out : List Out) (r : Ending) (out' : List Out) : Prop :=
  ∀ p code p', Emit cx (Correct.partItem p'.ip x) p code none p' → At o.insns p.ip (code.map (link fns)) →
    p'.ip < o.insnCount → p'.peak ≤ room S.frame.size → ∀ w, w.ip = p.ip → Holds f S.bp env w.stack →
      S.Leads solo o S (Ends f o S p'.ip r w out') w out

/-- Where a part has led, another goes on, unless the function is left. -/
def Continues (solo : Bool) (f : TFunc) (cx : Cx) (fns : List Fn) (o : Obj) (S : Spot) (x : Part) (r1 : Ending)
    (out1 : List Out) (r : Ending) (out' : List Out) : Prop :=
  match r1 with
  | .goes env => Follows solo f cx fns o S env x out1 r out'
  | .returned v => r = .returned v ∧ out' = out1

/-! ### Storing in a variable -/

section Variables

variable {solo : Bool} {tops : List TTop} {f : TFunc} {cx : Cx} {fns : List Fn} {o : Obj} {S U : Spot}
  {env : Numbers}
  {t : Ty} {x : Int} {w w1 w' : View} {bs : List UInt8} {i : Insn} {v u : Var} {ofs : Ofs} {n : Nat} {a d : Opd}
  {out : List Out} {P : View → List Out → Prop}

lemma localOpd_auto (signd : Bool) (off n : Nat) : localOpd (opdAuto signd off n) = true := rfl

lemma low_of_kept (G : Ground tops f cx S) (h : S.Kept n w w') : ∀ i < S.bp, w'.stack i = w.stack i :=
  fun i hi => h.stack i (hi.trans_le ((Nat.le_add_right _ _).trans G.frame))

/-- A number is stored in a variable. -/
lemma store_var (G : Ground tops f cx S) (hv : v ∈ vars f) (ht : isInt v.2 = true)
    (hofs : htabGet (funcTag f).layout v.1 = some ofs) (hbs : Represents v.2 bs x)
    (hw : Holds f S.bp env w.stack) : ∃ w', S.store w (opdAuto v.2.signd ofs.off ofs.size) bs = some w' ∧
      w'.ip = w.ip ∧ w'.temps = w.temps ∧ Holds f S.bp (env.set [v.1] (some x)) w'.stack ∧
      (∀ {t n a}, Yields f t n a → S.load w a = some bs → S.load w' a = some bs) ∧
      ∀ i < S.bp, w'.stack i = w.stack i := by
  obtain ⟨T, hT⟩ := exists_site S
  have GT : Compute.Ground tops f cx [] ⟨0, [], []⟩ T := G.site hT
  obtain ⟨w', hst, hip, hw', hkeep⟩ := Correct.store_var GT hv ht hofs hbs (by rwa [hT.bp])
  rw [hT.store] at hst
  rw [hT.bp] at hw'
  have hw1 : { w with stack := writeMem w.stack (S.bp + ofs.off) bs } = w' := by
    by_cases hle : S.bp + ofs.off + bs.length ≤ stackSize
    · exact Option.some.inj ((if_pos hle).symm.trans hst)
    · cases (if_neg hle).symm.trans hst
  refine ⟨w', hst, hip, ?_, hw', fun hy hl => ?_, fun i hi => ?_⟩
  · rw [← hw1]
  · rw [← hT.load] at hl ⊢
    exact hkeep hy hl
  · rw [← hw1]
    exact writeMem_of_lt _ _ (Nat.lt_add_right _ hi)

/-- An instruction that stores a number in a variable is executed, and the code goes on behind it. -/
lemma leads_var (G : Ground tops f cx S) (hv : v ∈ vars f) (ht : isInt v.2 = true)
    (hofs : htabGet (funcTag f).layout v.1 = some ofs) (hi : o.insns[w.ip]? = some i)
    (hown : Allowed solo S.sp i) (hx : ∀ inp s, Seen S w out s →
      execInsn inp o s i = nextIp <$> storeOpd s (opdAuto v.2.signd ofs.off ofs.size) bs)
    (hbs : Represents v.2 bs x) (hw : Holds f S.bp env w.stack) (hip : w.ip + 1 < o.insnCount)
    (h : ∀ w', w'.ip = w.ip + 1 → Holds f S.bp (env.set [v.1] (some x)) w'.stack →
      (∀ {t n a}, Yields f t n a → S.load w a = some bs → S.load w' a = some bs) →
      (∀ i < S.bp, w'.stack i = w.stack i) → S.Leads solo o U P w' out) : S.Leads solo o U P w out := by
  obtain ⟨w1, hst, hip1, -, hw1, hkeep, hlow⟩ := store_var G hv ht hofs hbs hw
  exact leads_store hi hown hx rfl hst (by rwa [hip1]) (h w1.next (congrArg (· + 1) hip1) hw1 hkeep hlow)

/-- The number at an operand is copied to the variables of a declaration. -/
lemma leads_inits (G : Ground tops f cx S) {u : Ty} (ht : isInt t = true) (hy : Yields f u n a)
    (hu : u.bytes = t.bytes) (hbs : Represents t bs x) :
    ∀ {names : List Sym} {code : List Insn}, Inits cx t a names code → ∀ {m : Nat} {env w},
      (∀ s ∈ names, (s, t) ∈ vars f) → At o.insns m (code.map (link fns)) →
      m + code.length < o.insnCount → w.ip = m → Holds f S.bp env w.stack → S.load w a = some bs →
      (∀ w', w'.ip = m + code.length → Holds f S.bp (env.set names (some x)) w'.stack →
        (∀ i < S.bp, w'.stack i = w.stack i) → S.Leads solo o U P w' out) → S.Leads solo o U P w out := by
  intro names code hinits
  induction hinits with
  | nil =>
    intro m env w _ _ _ hip hw _ h
    refine h w hip (fun v hv y hy => hw v hv y ?_) fun _ _ => rfl
    simpa [Numbers.set] using hy
  | cons s ns ofs code hn _ ih =>
    intro m env w hvars hat hend hip hw hload h
    have hv : (s, t) ∈ vars f := hvars s List.mem_cons_self
    rw [G.unit.ftag] at hn
    obtain ⟨T, hT⟩ := exists_site S
    have GT : Compute.Ground tops f cx [] ⟨0, [], []⟩ T := G.site hT
    obtain ⟨ofs', hofs', hsize, -⟩ := Compute.slot_of_var GT hv ht
    obtain rfl := Option.some.inj (hn.symm.trans hofs')
    have hlen : m + 1 + code.length = m + (code.length + 1) := by omega
    rw [List.length_cons, ← hlen] at hend h
    obtain ⟨hi, hat⟩ := at_insn hat (List.forall_mem_cons.mpr ⟨Correct.auto_sized, List.forall_mem_cons.mpr
      ⟨.inr (by rw [hy.size, hu]; exact isWidth_pos (width_of_int ht)), List.forall_mem_nil _⟩⟩)
    refine leads_var (v := (s, t)) G hv ht hn (by rwa [hip])
      (allowed_of (by simp [localInsn, Insn.opds, localOpd_of_load hy.under.direct hload, localOpd_auto])
        fun _ => rfl) (fun inp q hq => ?_) hbs hw (by omega)
      fun w1 hip1 hw1 hkeep hlow => ?_
    · rw [execInsn, insnMov_eq (hsize.trans (hu.symm.trans hy.size.symm)) (loadOpd_spot hq hy.under.direct hload)]
    · refine ih (fun s hs => hvars s (List.mem_cons_of_mem _ hs)) hat hend (by rw [hip1, hip]) hw1
        (hkeep hy hload) fun w2 hip2 hw2 hlow2 => h w2 hip2 ?_ fun i hi => (hlow2 i hi).trans (hlow i hi)
      rwa [Correct.set_cons] at hw2

end Variables

/-! ### Declarations and assignments -/

section Statements

variable {solo : Bool} {tops : List TTop} {f : TFunc} {cx : Cx} {fns : List Fn} {o : Obj} {S U : Spot}
  {env : Numbers}
  {e r : TExpr} {t tl : Ty} {x y : Int} {w w1 w' : View} {bs : List UInt8} {i : Insn} {v : Var} {ofs : Ofs}
  {n m fin fin' : Nat} {a d : Opd} {out out' out1 : List Out} {P : View → List Out → Prop} {so : ScopeObj}
  {res : Ending} {b : TStmts} {rest : TElifs} {p p' p1 p2 p3 : Pt} {ce cb cr : List Insn}

lemma follows_declared {names : List Sym} :
    Follows solo f cx fns o S env (.stmt (.decl names t none)) out (.goes (env.set names none)) out := by
  intro p code p' hemit _ _ _ w hip hw
  cases hemit with | decl => ?_
  exact leads_here ⟨rfl, ⟨hip, Correct.holds_forget hw names⟩, fun _ _ => rfl⟩

lemma follows_decl (G : Ground tops f cx S) {names : List Sym}
    (hok : PartOk solo tops f (.stmt (.decl names t (some e))))
    (he : Computes solo f cx fns o S (env.set names none) e x out out') :
    Follows solo f cx fns o S env (.stmt (.decl names t (some e))) out (.goes (env.set names (some x))) out' := by
  intro p code p' hemit hat hend hpeak w hip hw
  obtain ⟨⟨-, -, hc⟩, hlocals, hint⟩ := hok
  simp only [numStmt, Bool.and_eq_true] at hint
  obtain ⟨-, heq⟩ := hc e rfl
  cases hemit with | @declInit _ _ _ _ p1 ce ci a h hinits => ?_
  obtain ⟨hate, hati⟩ := at_split h hat
  have hend' : p1.ip + ci.length < o.insnCount := hend
  obtain ⟨_, ⟨⟩, hy, hrun⟩ := he _ _ _ _ _ h hate (by omega) hpeak
  refine (hrun w hip (Correct.holds_forget hw names)).bind fun w1 o1 h1 => ?_
  obtain ⟨rfl, h1⟩ := h1
  obtain ⟨bs, hload, hbs⟩ := h1.value
  have hvars : ∀ s ∈ names, (s, t) ∈ vars f := fun s hs =>
    List.mem_append_right _ (mem_vars (hlocals (List.mem_singleton.mpr rfl)) hs)
  refine leads_inits G hint.1 hy (bytes_of_equals heq).symm
    (Compute.represents_alike (bytes_of_equals heq).symm (signd_of_equals heq).symm hbs) hinits hvars hati
    hend' h1.ip (holds_kept G (Correct.holds_forget hw names) h1.kept) hload fun w2 hip2 hw2 hlow =>
      leads_here ⟨rfl, ⟨hip2, ?_⟩, fun i hi => (hlow i hi).trans (low_of_kept G h1.kept i hi)⟩
  rwa [Correct.set_set] at hw2

/-- An instruction that stores the number of a variable, and the `nop` behind it. -/
lemma leads_assign (G : Ground tops f cx S) (hv : v ∈ vars f) (ht : isInt v.2 = true)
    (hofs : htabGet (funcTag f).layout v.1 = some ofs) (hat : At o.insns m ([i, .nop].map (link fns)))
    (hi : ∀ a ∈ i.opds, a.opd ≠ .imm ∨ a.size ≠ 0) (hown : Allowed solo S.sp i) (hip : w1.ip = m) (hend : m + 2 < o.insnCount)
    (hx : ∀ inp s, Seen S w1 out s →
      execInsn inp o s i = nextIp <$> storeOpd s (opdAuto v.2.signd ofs.off ofs.size) bs)
    (hbs : Represents v.2 bs x) (hw : Holds f S.bp env w1.stack)
    (hlow : ∀ i < S.bp, w1.stack i = w.stack i) :
    S.Leads solo o S (Ends f o S (m + 2) (.goes (env.set [v.1] (some x))) w out) w1 out := by
  obtain ⟨hi', hat⟩ := at_insn hat hi
  obtain ⟨hnop, -⟩ := at_insn hat nofun
  refine leads_var G hv ht hofs (by rwa [hip]) hown hx hbs hw (by omega) fun w2 hip2 hw2 _ hlow2 => ?_
  rw [hip] at hip2
  refine leads_exec w2.next (by rwa [hip2]) (allowed_of rfl fun _ => rfl) ?_ (fun inp s hs => ⟨nextIp s, rfl, seen_next hs⟩)
    (leads_here ⟨rfl, ⟨?_, hw2⟩, fun i hi => (hlow2 i hi).trans (hlow i hi)⟩)
  · rw [View.next, hip2]
    exact hend
  · rw [View.next, hip2]

lemma follows_assign (G : Ground tops f cx S) {op : BOp}
    (hok : PartOk solo tops f (.stmt (.expr (.bexp op (.name so tl) r t))))
    (hr : Computes solo f cx fns o S env r y out out') (hx : assigned env op so tl y = some x) :
    Follows solo f cx fns o S env (.stmt (.expr (.bexp op (.name so tl) r t))) out
      (.goes (env.set [so.name] (some x))) out' := by
  intro p code p' hemit hat hend hpeak w hip hw
  obtain ⟨⟨hct, hcl, hcr⟩, -, hint⟩ := hok
  simp only [numStmt, Meaning.numEffect, Bool.and_eq_true, Bool.or_eq_true, beq_iff_eq] at hint
  obtain ⟨⟨⟨hop, hil⟩, hloc⟩, hir⟩ := hint
  obtain ⟨p2, cr, d, a, i, ha, hr', rfl, hip', hpeak', hi⟩ := Correct.emit_assign hop hil hemit
  obtain ⟨T, hT⟩ := exists_site S
  have GT : Compute.Ground tops f cx fns o T := G.site hT
  obtain ⟨ofs, hofs, rfl, hle, hyd⟩ := Compute.nameOpd_local (n := 0) GT hcl hloc hil ha
  obtain ⟨hatr, hat⟩ := at_split hr' hat
  rw [hip'] at hend ⊢
  obtain ⟨_, ⟨⟩, hy, hrun⟩ := hr _ _ _ _ _ hr' hatr (by omega) (hpeak'.trans hpeak)
  refine (hrun w hip hw).bind fun w1 o1 h1 => ?_
  obtain ⟨rfl, h1⟩ := h1
  obtain ⟨bs, hload, hbs⟩ := h1.value
  have hv := Compute.var_of_known hcl hloc
  have hw1 : Holds f S.bp env w1.stack := holds_kept G hw h1.kept
  have hlow := low_of_kept G h1.kept
  have hsa := hy.sized (int_of_num hir hcr)
  have ha' : localOpd a = true := localOpd_of_load hy.under.direct hload
  rcases hi with ⟨rfl, rfl⟩ | ⟨op', aop, hop', haop, harith, rfl⟩
  · obtain rfl : y = x := Option.some.inj hx
    obtain ⟨-, heq, -⟩ := assn_checked hct
    have hown : Allowed solo S.sp (.mov (opdAuto tl.signd ofs.off ofs.size) a) :=
      allowed_of (by simp [localInsn, Insn.opds, ha', localOpd_auto]) fun _ => rfl
    have hbs' := Compute.represents_alike (bytes_of_equals heq).symm (signd_of_equals heq).symm hbs
    refine leads_assign (v := (so.name, tl)) G hv hil hofs hat ?_ hown h1.ip hend (fun inp s hs => ?_) hbs' hw1 hlow
    · exact List.forall_mem_cons.mpr ⟨Correct.auto_sized, List.forall_mem_cons.mpr ⟨hsa, List.forall_mem_nil _⟩⟩
    · rw [execInsn, insnMov_eq (hyd.size.trans ((bytes_of_equals heq).trans hy.size.symm))
        (loadOpd_spot hs hy.under.direct hload)]
  · obtain ⟨z, hz, hv'⟩ : ∃ z, evalName env so = some z ∧ binary op' tl z y = some x := by
      have hne : op ≠ .assn := by
        rintro rfl
        cases hop'
      have hx' : (do binary (← updateOp op) tl (← evalName env so) y) = some x := by
        unfold assigned at hx
        cases op <;> first | exact absurd rfl hne | exact hx
      simpa only [hop', Option.bind_eq_bind, Option.bind_some, Option.bind_eq_some_iff] using hx'
    obtain ⟨hlike, hbits⟩ := Correct.assign_checked hop' haop hct
    rw [← hT.bp] at hw1
    obtain ⟨cs, hloadz, hcs⟩ := Compute.load_local (S := T) hcl hloc hofs hle hz hw1
    rw [hT.load] at hloadz
    rw [hT.bp] at hw1
    have hbs' := Compute.represents_alike hlike.bytes.symm hlike.signd.symm hbs
    obtain ⟨n, hn, hrep⟩ := arithOp_represents harith (width_of_int hil) hbits hcs hbs' hv'
    have hsize : (opdAuto tl.signd ofs.off ofs.size).size = tl.bytes := hyd.size
    have hown : Allowed solo S.sp (.arith aop (opdAuto tl.signd ofs.off ofs.size)
        (opdAuto tl.signd ofs.off ofs.size) a) :=
      allowed_of (by simp [localInsn, Insn.opds, ha', localOpd_auto]) fun _ => rfl
    refine leads_assign (v := (so.name, tl)) G hv hil hofs hat ?_ hown h1.ip hend (fun inp s hs => ?_) hrep hw1 hlow
    · simp only [Insn.opds, List.forall_mem_cons]
      exact ⟨Correct.auto_sized, Correct.auto_sized, hsa, List.forall_mem_nil _⟩
    · rw [execInsn, insnBinArith_eq (hsize ▸ width_of_int hil) rfl rfl
        (hy.size.trans (hlike.bytes.symm.trans hsize.symm)) (hy.signd.trans hlike.signd.symm)
        (loadOpd_spot hs rfl hloadz) (loadOpd_spot hs hy.under.direct hload) (by rw [hsize]; exact hn), hsize]

/-! ### Calls and steps -/

/-- The `nop` behind an expression. -/
lemma leads_nop (hat : At o.insns m ([Insn.nop].map (link fns))) (hip : w1.ip = m) (hend : m + 1 < o.insnCount)
    (hw : Holds f S.bp env w1.stack) (hlow : ∀ i < S.bp, w1.stack i = w.stack i) :
    S.Leads solo o S (Ends f o S (m + 1) (.goes env) w out) w1 out := by
  obtain ⟨hnop, -⟩ := at_insn hat nofun
  refine leads_exec w1.next (by rwa [hip]) (allowed_of rfl fun _ => rfl) ?_ (fun inp s hs => ⟨nextIp s, rfl, seen_next hs⟩)
    (leads_here ⟨rfl, ⟨congrArg (· + 1) hip, hw⟩, hlow⟩)
  rw [View.next, hip]
  exact hend

lemma follows_call (I : Image solo tops fns o) (G : Ground tops f cx S) {ft : Ty} {as : TArgs} {xs : List Int}
    {v : Option Int} (hc : Checked (KnownIn tops f) (.fexp (.name so ft) as t))
    (hargs : ∀ ps ret, ft = .fptr 1 ps ret → Ground tops f cx (S.top (S.sp + 16)) →
      Pushes solo f cx fns o (S.top (S.sp + 16)) env ps as xs out out1)
    (hcall : Calls solo cx fns o so ft xs out1 v out') :
    Follows solo f cx fns o S env (.stmt (.expr (.fexp (.name so ft) as t))) out (.goes env) out' := by
  intro p code p' hemit hat hend hpeak w hip hw
  cases hemit with | exprStmt h => ?_
  obtain ⟨hate, hatn⟩ := at_split h hat
  refine (leads_fexp I G hc h hate (Nat.lt_of_succ_lt hend) hpeak hargs hcall hip hw).bind fun w1 o1 h1 => ?_
  obtain ⟨rfl, hip1, hkept, -⟩ := h1
  exact leads_nop hatn hip1 hend (holds_kept G hw hkept) (low_of_kept G hkept)

lemma stepOf_int (ht : isInt t = true) : stepOf t = 1 := by
  cases t <;> first | rfl | cases ht

/-- The code of `++` or `--` before a name. -/
lemma emit_uexp {op : UOp} {dec : Bool} {code : List Insn} (hop : incrOp op = some dec) (ht : isInt tl = true)
    (h : Emit cx (.stmt (.expr (.uexp op (.name so tl) t))) p code none p') :
    ∃ d, nameOpd cx so tl = some d ∧ code = [.inc dec d, .nop] ∧ p'.ip = p.ip + 2 := by
  cases h with | exprStmt h => ?_
  cases h with
  | incr hop' hl =>
    obtain rfl := Option.some.inj (hop.symm.trans hop')
    cases hl with | name ha => ?_
    exact ⟨_, ha, rfl, rfl⟩
  | incrBy _ _ hs => exact absurd (stepOf_int ht) hs
  | unary hop' => cases op <;> simp [unaryInsn, incrOp] at hop hop'
  | _ => cases hop

/-- The code of `++` or `--` behind a name, whose number before it is left in a temporary. -/
lemma emit_xexp {op : XOp} {code : List Insn} (ht : isInt tl = true)
    (h : Emit cx (.stmt (.expr (.xexp op (.name so tl) t))) p code none p') :
    ∃ d q, nameOpd cx so tl = some d ∧ code = [.incp (op == .decr) (Pt.temp q t.signd t.bytes) d, .nop] ∧
      p'.ip = p.ip + 2 ∧ (q.alloc t.bytes).peak ≤ p'.peak := by
  cases h with | exprStmt h => ?_
  cases h with
  | xexp hl =>
    cases hl with | name ha => ?_
    exact ⟨_, _, ha, rfl, rfl, le_rfl⟩
  | xexpBy _ hs => exact absurd (stepOf_int ht) hs

lemma incremented_eq {dec : Bool} (hs : d.size = t.bytes) (hg : d.signd = t.signd) (hbs : Represents t bs x) :
    incremented dec d (leNat bs) = ofInt t.bytes (x + if dec then -1 else 1) := by
  rw [incremented, hs, hg, hbs.2]

lemma insnIncDec_eq {s : State} {dec : Bool} (hw : isWidth d.size = true) (ha : loadOpd s d = .ok bs) :
    insnIncDec s dec d = storeOpd s d (leBytes d.size (incremented dec d (leNat bs))) := by
  simp only [insnIncDec, legalIf, hw, if_true, loadOpdNat_eq ha, ok_bind, storeOpdNat]

lemma insnIncpDecp_eq {s : State} {dec : Bool} (hw : isWidth d.size = true) (hs : d.size = a.size)
    (hg : d.signd = a.signd) (ha : loadOpd s a = .ok bs) : insnIncpDecp s dec d a =
      storeOpd s a (leBytes a.size (incremented dec a (leNat bs))) >>= fun s' =>
        storeOpd s' d (leBytes d.size (leNat bs)) := by
  simp only [insnIncpDecp, legalIf, hg, hs, hs ▸ hw, BEq.rfl, decide_true, if_true, loadOpdNat_eq ha, ok_bind,
    storeOpdNat]

/-- The number of a variable is replaced by the next one. -/
lemma leads_inc (G : Ground tops f cx S) {dec : Bool} (hK : KnownIn tops f so t) (hloc : isLocal so = true)
    (ht : isInt t = true) (ha : nameOpd cx so t = some d) (hx : stepped env dec so t = some x)
    (hat : At o.insns m ([i, .nop].map (link fns))) (hend : m + 2 < o.insnCount) (hip : w.ip = m)
    (hw : Holds f S.bp env w.stack)
    (hi : i = .inc dec d ∨ ∃ q, i = .incp dec (Pt.temp q t.signd t.bytes) d ∧
      q.slot t.bytes + t.bytes ≤ S.frame.size) :
    S.Leads solo o S (Ends f o S (m + 2) (.goes (env.set [so.name] (some x))) w out) w out := by
  obtain ⟨T, hT⟩ := exists_site S
  have GT : Compute.Ground tops f cx fns o T := G.site hT
  obtain ⟨ofs, hofs, rfl, hle, hyd⟩ := Compute.nameOpd_local (n := 0) GT hK hloc ht ha
  obtain ⟨z, hz, rfl⟩ := Option.map_eq_some_iff.mp hx
  rw [← hT.bp] at hw
  obtain ⟨bs, hload, hbs⟩ := Compute.load_local (S := T) hK hloc hofs hle hz hw
  rw [hT.load] at hload
  rw [hT.bp] at hw
  have hv := Compute.var_of_known hK hloc
  have hsize : (opdAuto t.signd ofs.off ofs.size).size = t.bytes := hyd.size
  have hwidth := width_of_int ht
  have hrep := represents_wrap (isWidth_pos hwidth) (z + if dec then -1 else 1)
  rw [← incremented_eq (d := opdAuto t.signd ofs.off ofs.size) hsize rfl hbs, ← hsize] at hrep
  rcases hi with rfl | ⟨q, rfl, hroom⟩
  · refine leads_assign (v := (so.name, t)) G hv ht hofs hat ?_ (allowed_of rfl fun _ => rfl) hip hend
      (fun inp s hs => ?_) hrep hw fun _ _ => rfl
    · exact List.forall_mem_cons.mpr ⟨Correct.auto_sized, nofun⟩
    · rw [execInsn, insnIncDec_eq (hsize ▸ hwidth) (loadOpd_spot hs rfl hload)]
  · obtain ⟨hi', hat⟩ := at_insn hat (List.forall_mem_cons.mpr ⟨Compute.temp_sized,
      List.forall_mem_cons.mpr ⟨Correct.auto_sized, nofun⟩⟩)
    obtain ⟨w1, hst, hip1, -, hw1, -, hlow⟩ := store_var (v := (so.name, t)) G hv ht hofs hrep hw
    let w2 : View := { w1 with temps := writeMem w1.temps (q.slot t.bytes) (leBytes t.bytes (leNat bs)) }
    have hst2 : S.store w1 (q.temp t.signd t.bytes) (leBytes t.bytes (leNat bs)) = some w2 := by
      refine if_pos ?_
      rw [leBytes_length]
      exact hroom
    have hnop : S.Leads solo o S (Ends f o S (m + 2)
        (.goes (env.set [so.name] (some (wrap t (z + if dec then -1 else 1))))) w out) w2.next out :=
      leads_nop hat (congrArg (· + 1) (hip1.trans hip)) hend hw1 hlow
    refine leads_exec w2.next (by rwa [hip]) (allowed_of rfl fun _ => rfl) ?_ (fun inp s hs => ?_) hnop
    · show w1.ip + 1 < o.insnCount
      omega
    · obtain ⟨s1, h1, hs1⟩ := storeOpd_spot hs rfl hst
      obtain ⟨s2, h2, hs2⟩ := storeOpd_spot hs1 rfl hst2
      refine ⟨nextIp s2, ?_, seen_next hs2⟩
      rw [execInsn, insnIncpDecp_eq (d := q.temp t.signd t.bytes) hwidth hsize.symm rfl (loadOpd_spot hs rfl hload),
        h1, ok_bind, show (q.temp t.signd t.bytes).size = t.bytes from rfl, h2]
      rfl

lemma follows_uexp (G : Ground tops f cx S) {op : UOp} {dec : Bool} (hop : incrOp op = some dec)
    (ht : isInt tl = true) (hloc : isLocal so = true)
    (hc : Checked (KnownIn tops f) (.uexp op (.name so tl) t)) (hx : stepped env dec so tl = some x) :
    Follows solo f cx fns o S env (.stmt (.expr (.uexp op (.name so tl) t))) out
      (.goes (env.set [so.name] (some x))) out := by
  intro p code p' hemit hat hend hpeak w hip hw
  obtain ⟨d, ha, rfl, hip'⟩ := emit_uexp hop ht hemit
  rw [hip'] at hend ⊢
  exact leads_inc G hc.2 hloc ht ha hx hat hend hip hw (.inl rfl)

lemma follows_xexp (G : Ground tops f cx S) {op : XOp} (ht : isInt tl = true) (hloc : isLocal so = true)
    (hc : Checked (KnownIn tops f) (.xexp op (.name so tl) t)) (hx : stepped env (op == .decr) so tl = some x) :
    Follows solo f cx fns o S env (.stmt (.expr (.xexp op (.name so tl) t))) out
      (.goes (env.set [so.name] (some x))) out := by
  intro p code p' hemit hat hend hpeak w hip hw
  obtain ⟨d, q, ha, rfl, hip', hpeak'⟩ := emit_xexp ht hemit
  obtain ⟨-, -, rfl⟩ := xexp_checked hc.1
  rw [hip'] at hend ⊢
  exact leads_inc G hc.2 hloc ht ha hx hat hend hip hw (.inr ⟨q, rfl, slot_room (hpeak'.trans hpeak)⟩)

lemma follows_step (G : Ground tops f cx S) {dec : Bool} (hs : stepOp e = some (dec, so, t))
    (hok : PartOk solo tops f (.stmt (.expr e))) (hx : stepped env dec so t = some x) :
    Follows solo f cx fns o S env (.stmt (.expr e)) out (.goes (env.set [so.name] (some x))) out := by
  obtain ⟨hc, -, hint⟩ := hok
  unfold stepOp at hs
  split at hs <;> simp only [Option.some.injEq, Prod.mk.injEq, reduceCtorEq] at hs <;>
    obtain ⟨rfl, rfl, rfl⟩ := hs <;>
    simp only [numStmt, Meaning.numEffect, stepOp, Bool.and_eq_true] at hint
  · exact follows_uexp G rfl hint.1 hint.2 hc hx
  · exact follows_xexp G hint.1 hint.2 hc hx
  · exact follows_uexp G rfl hint.1 hint.2 hc hx
  · exact follows_xexp G hint.1 hint.2 hc hx

/-! ### Control -/

lemma leads_then {r1 : Ending} (h : S.Leads solo o S (Ends f o S fin r1 w out1) w1 out)
    (hgo : ∀ env' w', r1 = .goes env' → w'.ip = fin → Holds f S.bp env' w'.stack →
      (∀ i < S.bp, w'.stack i = w.stack i) → S.Leads solo o S (Ends f o S fin' res w out') w' out1)
    (hret : ∀ v, r1 = .returned v → res = .returned v ∧ out' = out1) :
    S.Leads solo o S (Ends f o S fin' res w out') w1 out := by
  refine h.bind fun w' o1 h1 => ?_
  obtain ⟨rfl, hlands, hlow⟩ := h1
  cases r1 with
  | goes env' => exact hgo env' w' rfl hlands.1 hlands.2 hlow
  | returned v =>
    obtain ⟨rfl, rfl⟩ := hret v rfl
    exact leads_here ⟨rfl, hlands, hlow⟩

/-- Where the code ends is where it goes on. -/
lemma leads_after (h : S.Leads solo o S (Ends f o S fin res w out1) w1 out)
    (hgo : ∀ env' w', res = .goes env' → w'.ip = fin → Holds f S.bp env' w'.stack →
      (∀ i < S.bp, w'.stack i = w.stack i) → S.Leads solo o S (Ends f o S fin' res w out1) w' out1) :
    S.Leads solo o S (Ends f o S fin' res w out1) w1 out := leads_then h hgo fun _ h => ⟨h, rfl⟩

/-- What is left as it was on the way is left as it was before. -/
lemma leads_low (hlow : ∀ i < S.bp, w1.stack i = w.stack i)
    (h : S.Leads solo o S (Ends f o S fin res w1 out') w1 out) : S.Leads solo o S (Ends f o S fin res w out') w1 out :=
  h.mono fun _ _ he => ⟨he.out, he.lands, fun i hi => (he.low i hi).trans (hlow i hi)⟩

lemma leads_continue {r1 : Ending} {x : Part} {code : List Insn}
    (h : S.Leads solo o S (Ends f o S p.ip r1 w out1) w1 out) (hc : Continues solo f cx fns o S x r1 out1 res out')
    (hemit : Emit cx (Correct.partItem p'.ip x) p code none p') (hat : At o.insns p.ip (code.map (link fns)))
    (hend : p'.ip < o.insnCount) (hpeak : p'.peak ≤ room S.frame.size) :
    S.Leads solo o S (Ends f o S p'.ip res w out') w1 out := by
  refine leads_then h (fun env' w' hr hip hw hlow => ?_) fun v hr => ?_
  · subst hr
    exact leads_low hlow (hc _ _ _ hemit hat hend hpeak w' hip hw)
  · subst hr
    exact hc

/-- A condition is tested, and the code jumps or goes on. -/
lemma leads_test (G : Ground tops f cx S) {jnz : Bool} {loc : Nat} {c2 : List Insn}
    (hint : isInt (typeOfExpr e) = true) (he : Computes solo f cx fns o S env e x out out1)
    (hee : Emit cx (.expr e false) p ce (some a) p1)
    (hat : At o.insns p.ip ((ce ++ Insn.jz jnz a loc :: c2).map (link fns))) (hend : p1.ip + 1 < o.insnCount)
    (hpeak : p1.peak ≤ room S.frame.size) (hip : w.ip = p.ip) (hw : Holds f S.bp env w.stack)
    (hjump : (x = 0 ↔ jnz = false) → loc < o.insnCount ∧ ∀ w', w'.ip = loc → Holds f S.bp env w'.stack →
      (∀ i < S.bp, w'.stack i = w.stack i) → S.Leads solo o U P w' out1)
    (hnext : ¬ (x = 0 ↔ jnz = false) → ∀ w', w'.ip = p1.ip + 1 → Holds f S.bp env w'.stack →
      (∀ i < S.bp, w'.stack i = w.stack i) → S.Leads solo o U P w' out1) : S.Leads solo o U P w out := by
  obtain ⟨hate, hat⟩ := at_split hee hat
  obtain ⟨_, ⟨⟩, hy, hrun⟩ := he _ _ _ _ _ hee hate (by omega) hpeak
  obtain ⟨hi, -⟩ := at_insn hat (List.forall_mem_cons.mpr ⟨hy.sized hint, nofun⟩)
  refine (hrun w hip hw).bind fun w1 o1 h1 => ?_
  obtain ⟨rfl, h1⟩ := h1
  obtain ⟨bs, hload, hbs⟩ := h1.value
  have hw1 : Holds f S.bp env w1.stack := holds_kept G hw h1.kept
  have hlow := low_of_kept G h1.kept
  refine leads_cond (by rwa [h1.ip]) hy hint hload hbs (fun h => ?_) fun h => ⟨?_, ?_⟩
  · exact ⟨(hjump h).1, (hjump h).2 _ rfl hw1 hlow⟩
  · rwa [h1.ip]
  · exact hnext h _ (congrArg (· + 1) h1.ip) hw1 hlow

/-- The code of a conditional: a test, the body, and what comes behind it. -/
lemma leads_branch (G : Ground tops f cx S) (hint : isInt (typeOfExpr e) = true)
    (he : Computes solo f cx fns o S env e x out out1) (hee : Emit cx (.expr e false) p ce (some a) p1)
    (heb : Emit cx (.stmts b) ((p1.skip 1).reset 0) cb none p2)
    (her : Emit cx (.elifs rest p3.ip) (p2.skip 1) cr none p3)
    (hat : At o.insns p.ip
      ((ce ++ [Insn.jz false a (p2.ip + 1)] ++ cb ++ [Insn.jmp p3.ip] ++ cr).map (link fns)))
    (hend : p3.ip < o.insnCount) (hpeak : p3.peak ≤ room S.frame.size) (hip : w.ip = p.ip)
    (hw : Holds f S.bp env w.stack) (hbody : x ≠ 0 → Follows solo f cx fns o S env (.stmts b) out1 res out')
    (hrest : x = 0 → Follows solo f cx fns o S env (.elifs rest) out1 res out') :
    S.Leads solo o S (Ends f o S p3.ip res w out') w out := by
  have hle : p1.ip + 1 ≤ p2.ip := emit_le heb
  have hle' : p2.ip + 1 ≤ p3.ip := emit_le her
  have hpeak2 : p2.peak ≤ room S.frame.size := (emit_peak her).trans hpeak
  have hpeak1 : p1.peak ≤ room S.frame.size := (emit_peak heb).trans hpeak2
  simp only [List.append_assoc, List.singleton_append] at hat
  have hatb := at_next (at_split hee hat).2
  obtain ⟨hatb, hatj⟩ := at_split heb hatb
  refine leads_test G hint he hee hat (by omega) hpeak1 hip hw
    (fun h => ⟨by omega, fun w' hip' hw' hlow => ?_⟩) fun h w' hip' hw' hlow => ?_
  · exact leads_low hlow (hrest (h.mpr rfl) _ _ _ her (at_next hatj) hend hpeak w' hip' hw')
  · have hx0 : x ≠ 0 := fun h0 => h ⟨fun _ => rfl, fun _ => h0⟩
    obtain ⟨hjmp, -⟩ := at_insn hatj nofun
    refine leads_after (leads_low hlow (hbody hx0 _ _ _ heb hatb (by omega) hpeak2 w' hip' hw'))
      fun env' w2 hr hip2 hw2 hlow2 => ?_
    subst hr
    exact leads_jmp (by rwa [hip2]) hend (leads_here ⟨rfl, ⟨rfl, hw2⟩, hlow2⟩)

lemma follows_whil (G : Ground tops f cx S) (hint : isInt (typeOfExpr e) = true)
    (he : Computes solo f cx fns o S env e x out out1) (hdone : x = 0 → res = .goes env ∧ out' = out1)
    (hbody : x ≠ 0 → ∃ r1 out2, Follows solo f cx fns o S env (.stmts b) out1 r1 out2 ∧
      Continues solo f cx fns o S (.stmt (.whil e b)) r1 out2 res out') :
    Follows solo f cx fns o S env (.stmt (.whil e b)) out res out' := by
  intro p code p' hemit hat hend hpeak w hip hw
  have hemit' := hemit
  have hat' := hat
  cases hemit with | @whil _ _ _ p1 p2 ce cb a hee heb => ?_
  have hend1 : p2.ip + 1 < o.insnCount := hend
  have hle : p1.ip + 1 ≤ p2.ip := emit_le heb
  have hle' : p.ip ≤ p1.ip := emit_le hee
  simp only [List.append_assoc, List.singleton_append] at hat
  obtain ⟨hatb, hatj⟩ := at_split heb (at_next (at_split hee hat).2)
  obtain ⟨hjmp, -⟩ := at_insn hatj nofun
  have hstart : p.ip < o.insnCount := by omega
  refine leads_test G hint he hee hat (by omega) ((emit_peak heb).trans hpeak) hip hw
    (fun h => ⟨hend, fun w' hip' hw' hlow => ?_⟩) fun h w' hip' hw' hlow => ?_
  · obtain ⟨rfl, rfl⟩ := hdone (h.mpr rfl)
    exact leads_here ⟨rfl, ⟨hip', hw'⟩, hlow⟩
  · obtain ⟨r1, out2, hb, hc⟩ := hbody fun h0 => h ⟨fun _ => rfl, fun _ => h0⟩
    refine leads_continue (p := p) ?_ hc hemit' hat' hend hpeak
    refine leads_after (leads_low hlow (hb _ _ _ heb hatb (by omega) hpeak w' hip' hw'))
      fun env' w2 hr hip2 hw2 hlow2 => ?_
    subst hr
    exact leads_jmp (by rwa [hip2]) hstart (leads_here ⟨rfl, ⟨rfl, hw2⟩, hlow2⟩)

lemma follows_dowh (G : Ground tops f cx S) (hint : isInt (typeOfExpr e) = true) {r1 : Ending}
    (hb : Follows solo f cx fns o S env (.stmts b) out r1 out1)
    (he : ∀ env', r1 = .goes env' → ∃ x out2, Computes solo f cx fns o S env' e x out1 out2 ∧
      (x = 0 → res = .goes env' ∧ out' = out2) ∧
      (x ≠ 0 → Follows solo f cx fns o S env' (.stmt (.dowh b e)) out2 res out'))
    (hret : ∀ v, r1 = .returned v → res = .returned v ∧ out' = out1) :
    Follows solo f cx fns o S env (.stmt (.dowh b e)) out res out' := by
  intro p code p' hemit hat hend hpeak w hip hw
  have hemit' := hemit
  have hat' := hat
  cases hemit with | @dowh _ _ _ p1 p2 ce cb a heb hee => ?_
  have hend1 : p2.ip + 1 < o.insnCount := hend
  have hle : p1.ip ≤ p2.ip := emit_le hee
  have hle' : p.ip ≤ p1.ip := emit_le heb
  rw [List.append_assoc] at hat
  obtain ⟨hatb, hatt⟩ := at_split heb hat
  refine leads_then (hb _ _ _ heb hatb (by omega) ((emit_peak hee).trans hpeak) w hip hw)
    (fun env' w1 hr hip1 hw1 hlow1 => ?_) hret
  obtain ⟨x, out2, hex, hdone, hagain⟩ := he env' hr
  refine leads_test G hint hex hee hatt hend1 hpeak hip1 hw1
    (fun h => ⟨by omega, fun w' hip' hw' hlow => ?_⟩) fun h w' hip' hw' hlow => ?_
  all_goals have hlow' : ∀ i < S.bp, w'.stack i = w.stack i := fun i hi => (hlow i hi).trans (hlow1 i hi)
  · have hx0 : x ≠ 0 := fun h0 => by cases h.mp h0
    exact leads_low hlow' (hagain hx0 _ _ _ hemit' hat' hend hpeak w' hip' hw')
  · have hx0 : x = 0 := by
      by_contra h0
      exact h ⟨fun h1 => absurd h1 h0, nofun⟩
    obtain ⟨rfl, rfl⟩ := hdone hx0
    exact leads_here ⟨rfl, ⟨hip', hw'⟩, hlow'⟩

/-! ### Leaving a function -/

lemma retSize_eq (G : Ground tops f cx S) : retSize cx = leaveSize f := by
  rw [retSize, G.unit.ftag, wrap64_of_lt G.sized, leaveSize]

lemma follows_retn (G : Ground tops f cx S)
    (hok : PartOk solo tops f (.stmt (.retn (some e)))) (he : Computes solo f cx fns o S env e x out out') :
    Follows solo f cx fns o S env (.stmt (.retn (some e))) out (.returned (some x)) out' := by
  intro p code p' hemit hat hend hpeak w hip hw
  obtain ⟨hc, -, hint⟩ := hok
  obtain ⟨rt, hrt, hc, heq⟩ : ∃ rt, f.rettype = .some rt ∧ Checked (KnownIn tops f) e ∧
      typeEquals rt (typeOfExpr e) = true := by
    unfold CheckedStmt at hc
    cases hrt : f.rettype with
    | none => simp [hrt] at hc
    | some rt => exact ⟨rt, rfl, by simpa only [hrt] using hc⟩
  cases hemit with | retnValue h => ?_
  obtain ⟨hate, hati⟩ := at_split h hat
  obtain ⟨_, ⟨⟩, hy, hrun⟩ := he _ _ _ _ _ h hate (Nat.lt_of_succ_lt hend) hpeak
  obtain ⟨hi, -⟩ := at_insn hati (List.forall_mem_cons.mpr ⟨hy.sized (int_of_num hint hc),
    List.forall_mem_cons.mpr ⟨.inr (show 8 ≠ 0 by decide), List.forall_mem_nil _⟩⟩)
  refine (hrun w hip hw).mono fun w1 o1 h1 => ?_
  obtain ⟨rfl, h1⟩ := h1
  obtain ⟨bs, hload, hbs⟩ := h1.value
  rw [retSize_eq G] at hi
  have hwidth : isWidth bs.length = true := hbs.1 ▸ width_of_int (int_of_num hint hc)
  refine ⟨rfl, ⟨_, bs, by rwa [h1.ip], .value _ _ hy.under.direct hload, ?_, ?_, .inr hwidth⟩,
    low_of_kept G h1.kept⟩
  · rw [hrt]
    exact Compute.represents_alike (bytes_of_equals heq).symm (signd_of_equals heq).symm hbs
  · rw [hrt]
    exact hy.signd.trans (signd_of_equals heq).symm

lemma follows_ret (G : Ground tops f cx S)
    (hok : PartOk solo tops f (.stmt (.retn none))) :
    Follows solo f cx fns o S env (.stmt (.retn none)) out (.returned none) out := by
  intro p code p' hemit hat hend hpeak w hip hw
  have hrt : f.rettype = .none := by
    have hc := hok.1
    unfold CheckedStmt at hc
    cases hrt : f.rettype with
    | none => rfl
    | some rt => simp [hrt] at hc
  cases hemit with | retn => ?_
  obtain ⟨hi, -⟩ := at_insn hat (List.forall_mem_cons.mpr ⟨.inr (show 8 ≠ 0 by decide), List.forall_mem_nil _⟩)
  rw [retSize_eq G] at hi
  refine leads_here ⟨rfl, ⟨_, [], by rwa [hip], .none, ?_, ?_, .inl rfl⟩, fun _ _ => rfl⟩
  all_goals
    rw [hrt]
    rfl

/-! ### Blocks -/

lemma follows_wlab {func id : Nat} : Follows solo f cx fns o S env (.stmt (.wlab func id)) out (.goes env) out := by
  intro p code p' hemit hat hend hpeak w hip hw
  cases hemit with | wlab => ?_
  obtain ⟨hi, -⟩ := at_insn hat nofun
  refine leads_exec w.next (by rwa [hip]) (allowed_of rfl fun _ => rfl) ?_ (fun inp s hs => ⟨_, rfl, seen_next
    (seen_regs (v := { s.vm with lastFunc := func, lastId := id }) hs hs.root hs.bp hs.sp hs.ip hs.stack hs.temps rfl)⟩)
    (leads_here ⟨rfl, ⟨congrArg (· + 1) hip, hw⟩, fun _ _ => rfl⟩)
  rw [View.next, hip]
  exact hend

lemma follows_blok (h : Follows solo f cx fns o S env (.stmts b) out res out') :
    Follows solo f cx fns o S env (.stmt (.blok b)) out res out' := by
  intro p code p' hemit hat hend hpeak w hip hw
  cases hemit with | blok hb => ?_
  exact h _ _ _ hb hat hend hpeak w hip hw

/-- The instructions around a block that is not interrupted change nothing the code sees. -/
lemma follows_noin (h : Follows solo f cx fns o S env (.stmts b) out res out') :
    Follows solo f cx fns o S env (.stmt (.noin b)) out res out' := by
  intro p code p' hemit hat hend hpeak w hip hw
  cases hemit with | @noin _ _ p1 cb hb => ?_
  have hend1 : p1.ip + 1 < o.insnCount := hend
  have hle : p.ip + 1 ≤ p1.ip := emit_le hb
  simp only [List.singleton_append] at hat
  obtain ⟨hnoint, hatb⟩ := at_insn hat nofun
  obtain ⟨hatb, hati⟩ := at_split (q := p.skip 1) hb hatb
  obtain ⟨hint, -⟩ := at_insn hati nofun
  refine leads_exec w.next (by rwa [hip]) (allowed_of rfl fun _ => rfl) ?_ (fun inp s hs => ⟨_, rfl, seen_next
    (seen_regs (v := { s.vm with noint := true }) hs hs.root hs.bp hs.sp hs.ip hs.stack hs.temps rfl)⟩) ?_
  · rw [View.next, hip]
    show p.ip + 1 < o.insnCount
    omega
  refine leads_after (leads_low (w := w) (fun _ _ => rfl)
    (h _ _ _ hb hatb (by omega) hpeak w.next (congrArg (· + 1) hip) hw)) fun env' w1 hr hip1 hw1 hlow => ?_
  subst hr
  refine leads_exec w1.next (by rwa [hip1]) (allowed_of rfl fun _ => rfl) ?_ (fun inp s hs => ⟨_, rfl, seen_next
    (seen_regs (v := { s.vm with noint := false }) hs hs.root hs.bp hs.sp hs.ip hs.stack hs.temps rfl)⟩)
    (leads_here ⟨rfl, ⟨congrArg (· + 1) hip1, hw1⟩, hlow⟩)
  rw [View.next, hip1]
  exact hend1

lemma follows_nil : Follows solo f cx fns o S env (.stmts .nil) out (.goes env) out := by
  intro p code p' hemit _ _ _ w hip hw
  cases hemit with | stmtsNil => ?_
  exact leads_here ⟨rfl, ⟨hip, hw⟩, fun _ _ => rfl⟩

lemma follows_cons {s : TStmt} {r1 : Ending} (hs : Follows solo f cx fns o S env (.stmt s) out r1 out1)
    (hr : Continues solo f cx fns o S (.stmts b) r1 out1 res out') :
    Follows solo f cx fns o S env (.stmts (.cons s b)) out res out' := by
  intro p code p' hemit hat hend hpeak w hip hw
  cases hemit with | stmtsCons hes her => ?_
  obtain ⟨hats, hatr⟩ := at_split hes hat
  have hle : _ ≤ p'.ip := emit_le her
  exact leads_continue (hs _ _ _ hes hats (by omega) ((emit_peak her).trans hpeak) w hip hw) hr her hatr hend
    hpeak

lemma follows_none : Follows solo f cx fns o S env (.elifs .none) out (.goes env) out := by
  intro p code p' hemit _ _ _ w hip hw
  cases hemit with | elifsNone => ?_
  exact leads_here ⟨rfl, ⟨hip, hw⟩, fun _ _ => rfl⟩

lemma follows_els (h : Follows solo f cx fns o S env (.stmts b) out res out') :
    Follows solo f cx fns o S env (.elifs (.els b)) out res out' := by
  intro p code p' hemit
  cases hemit with | els hb => ?_
  exact h _ _ _ hb

lemma follows_cond (G : Ground tops f cx S) (hint : isInt (typeOfExpr e) = true)
    (he : Computes solo f cx fns o S env e x out out1)
    (hbody : x ≠ 0 → Follows solo f cx fns o S env (.stmts b) out1 res out')
    (hrest : x = 0 → Follows solo f cx fns o S env (.elifs rest) out1 res out') :
    Follows solo f cx fns o S env (.stmt (.cond e b rest)) out res out' ∧
      Follows solo f cx fns o S env (.elifs (.elif e b rest)) out res out' := by
  constructor
  · intro p code p' hemit hat hend hpeak w hip hw
    cases hemit with | cond hee heb her => ?_
    have hrun := leads_branch G hint he hee heb her hat hend hpeak hip hw hbody hrest
    exact hrun
  · intro p code p' hemit hat hend hpeak w hip hw
    cases hemit with | elif hee heb her => ?_
    exact leads_branch G hint he hee heb her hat hend hpeak hip hw hbody hrest

end Statements

end Quaint.Perform
