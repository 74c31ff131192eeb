import Quaint.Arguments
import Quaint.Compute

/-!
Functions on integers.

The code of such a function does what the function means: where the function returns a number, every
run of its code, with the arguments in place, comes to a `retv` whose operand has it.
-/

namespace Quaint.Correct

open Program (accept Compiles letter)
open Arguments (param_found_at frame_of_listed)
open Activation (still)
open Types Ast TypeCheck Bytes Code Codegen Exec Step Typing Layout Emit Listing Operand Linking Bounds
  Parts Storage Casting Arith Source Window Compute Certain Partial Memory

/-! ### Storing in a variable -/

section Variables

variable {tops : List TTop} {f : TFunc} {cx : Cx} {fns : List Fn} {o : Obj} {S : Site} {env : Numbers}
  {t : Ty} {x : Int} {w : View} {bs : List UInt8} {i : Insn} {v u : Var} {ofs : Ofs}

/-- Variables of one name are one variable. -/
lemma var_unique (G : Ground tops f cx fns o S) (hu : u ∈ vars f) (hv : v ∈ vars f)
    (h : u.1.beg = v.1.beg) : u = v :=
  List.inj_on_of_nodup_map (vars_nodup G.unit.accepted G.unit.func) hu hv h

lemma slots_apart (G : Ground tops f cx fns o S) (hu : u ∈ vars f) (hv : v ∈ vars f) (hne : u ≠ v)
    {a b : Ofs} (ha : htabGet (funcTag f).layout u.1 = some a)
    (hb : htabGet (funcTag f).layout v.1 = some b) : Apart a b := by
  have : Std.Symm fun u v : Var => ∀ a b, htabGet (funcTag f).layout u.1 = some a →
      htabGet (funcTag f).layout v.1 = some b → Apart a b :=
    ⟨fun _ _ h a b ha hb => Or.symm (h b a hb ha)⟩
  exact G.laid.apart.forall hu hv hne a b ha hb

/-- A number is stored in a variable. -/
lemma store_var (G : Ground tops f cx fns o S) (hv : v ∈ vars f) (ht : isInt v.2 = true)
    (hofs : htabGet (funcTag f).layout v.1 = some ofs) (hbs : Represents v.2 bs x)
    (hw : Holds f S.bp env w.stack) : ∃ w', S.store w (opdAuto v.2.signd ofs.off ofs.size) bs = some w' ∧
      w'.ip = w.ip ∧ Holds f S.bp (env.set [v.1] (some x)) w'.stack ∧
      ∀ {t n a}, Yields f t n a → S.load w a = some bs → S.load w' a = some bs := by
  obtain ⟨ofs', hofs', hsize, hle⟩ := slot_of_var G hv ht
  obtain rfl := Option.some.inj (hofs.symm.trans hofs')
  have hlen : bs.length = ofs.size := hbs.1.trans hsize.symm
  refine ⟨{ w with stack := writeMem w.stack (S.bp + ofs.off) bs }, ?_, rfl, ?_, ?_⟩
  · rw [Site.store]
    exact if_pos (by rw [hlen]; exact hle)
  · intro u hu y hy
    by_cases huv : u = v
    · subst huv
      have hxy : x = y := by
        rw [Numbers.set, if_pos (by simp)] at hy
        exact Option.some.inj hy
      refine ⟨ofs, hofs, ?_⟩
      rw [← hlen, readMem_writeMem_same, ← hxy]
      exact hbs
    · have hbeg : u.1.beg ∉ [v.1].map Sym.beg := by
        intro hmem
        exact huv (var_unique G hu hv (List.mem_singleton.mp hmem))
      rw [Numbers.set, if_neg hbeg] at hy
      obtain ⟨ofu, hofu, hrep⟩ := hw u hu y hy
      have hap := slots_apart G hu hv huv hofu hofs
      refine ⟨ofu, hofu, ?_⟩
      rw [readMem_writeMem_disjoint]
      · exact hrep
      · unfold Apart at hap
        omega
  · intro t n a hy hload
    unfold Site.load at hload ⊢
    cases hk : a.opd with
    | auto =>
      simp only [hk, Option.ite_none_right_eq_some, Option.some.injEq] at hload ⊢
      obtain ⟨hin, hread⟩ := hload
      refine ⟨hin, ?_⟩
      obtain ⟨u, hu, hofu⟩ := hy.slot hk
      by_cases huv : u = v
      · subst huv
        obtain rfl := Option.some.inj (hofs.symm.trans hofu)
        rw [← show bs.length = a.size from hlen]
        exact readMem_writeMem_same _ _ _
      · have hap := slots_apart G hu hv huv hofu hofs
        rw [readMem_writeMem_disjoint]
        · exact hread
        · unfold Apart at hap
          dsimp only at hap
          omega
    | _ => simpa only [hk] using hload

/-- An instruction that stores a number in a variable is executed, and the code goes on behind it. -/
lemma reaches_var {P : View → Prop} (G : Ground tops f cx fns o S) (hv : v ∈ vars f)
    (ht : isInt v.2 = true) (hofs : htabGet (funcTag f).layout v.1 = some ofs)
    (hi : o.insns[w.ip]? = some i) (hx : ∀ inp c k, execInsn inp o (S.seen w c k) i =
      nextIp <$> storeOpd (S.seen w c k) (opdAuto v.2.signd ofs.off ofs.size) bs)
    (hbs : Represents v.2 bs x) (hw : Holds f S.bp env w.stack) (hip : w.ip + 1 < o.insnCount)
    (h : ∀ w', w'.ip = w.ip + 1 → Holds f S.bp (env.set [v.1] (some x)) w'.stack →
      (∀ {t n a}, Yields f t n a → S.load w a = some bs → S.load w' a = some bs) → S.Reaches o P w') :
    S.Reaches o P w := by
  obtain ⟨w1, hst, hip1, hw1, hkeep⟩ := store_var G hv ht hofs hbs hw
  exact reaches_store hi hx rfl hst (by rwa [hip1]) (h w1.next (congrArg (· + 1) hip1) hw1 hkeep)

lemma auto_sized {s : Bool} {off size : Nat} :
    (opdAuto s off size).opd ≠ .imm ∨ (opdAuto s off size).size ≠ 0 := .inl nofun

lemma set_cons (env : Numbers) (n : Sym) (ns : List Sym) (y : Option Int) :
    (env.set [n] y).set ns y = env.set (n :: ns) y := by
  funext b
  by_cases hb : b ∈ ns.map Sym.beg <;> by_cases hn : b = n.beg <;> simp [Numbers.set, hb, hn]

lemma set_set (env : Numbers) (ns : List Sym) (y z : Option Int) :
    (env.set ns y).set ns z = env.set ns z := by
  funext b
  by_cases hb : b ∈ ns.map Sym.beg <;> simp [Numbers.set, hb]

lemma holds_forget {bp : Nat} {st : Mem} (h : Holds f bp env st) (ns : List Sym) :
    Holds f bp (env.set ns none) st := by
  intro v hv y hy
  by_cases hb : v.1.beg ∈ ns.map Sym.beg
  · rw [Numbers.set, if_pos hb] at hy
    cases hy
  · rw [Numbers.set, if_neg hb] at hy
    exact h v hv y hy

/-- The number at an operand is copied to the variables of a declaration. -/
lemma inits_reach (G : Ground tops f cx fns o S) {P : View → Prop} {a : Opd} {u : Ty} {n : Nat}
    (ht : isInt t = true) (hy : Yields f u n a) (hu : u.bytes = t.bytes) (hbs : Represents t bs x) :
    ∀ {names : List Sym} {code : List Insn}, Inits cx t a names code → ∀ {m : Nat} {env w},
      (∀ s ∈ names, (s, t) ∈ vars f) → At o.insns m (code.map (link fns)) →
      m + code.length < o.insnCount → w.ip = m → Holds f S.bp env w.stack → S.load w a = some bs →
      (∀ w', w'.ip = m + code.length → Holds f S.bp (env.set names (some x)) w'.stack → S.Reaches o P w') →
      S.Reaches o P w := by
  intro names code hinits
  induction hinits with
  | nil =>
    intro m env w _ _ _ hip hw _ h
    refine h w hip fun v hv y hy => hw v hv y ?_
    simpa [Numbers.set] using hy
  | cons n ns ofs code hn _ ih =>
    intro m env w hvars hat hend hip hw hload h
    have hv : (n, t) ∈ vars f := hvars n List.mem_cons_self
    rw [G.unit.ftag] at hn
    obtain ⟨ofs', hofs', hsize, -⟩ := slot_of_var G hv ht
    obtain rfl := Option.some.inj (hn.symm.trans hofs')
    have hlen : m + 1 + code.length = m + (code.length + 1) := by omega
    rw [List.length_cons, ← hlen] at hend h
    obtain ⟨hi, hat⟩ := at_insn hat (List.forall_mem_cons.mpr ⟨auto_sized, List.forall_mem_cons.mpr
      ⟨.inr (by rw [hy.size, hu]; exact isWidth_pos (width_of_int ht)), nofun⟩⟩)
    refine reaches_var (v := (n, t)) G hv ht hn (by rwa [hip]) (fun inp c k => ?_) hbs hw (by omega)
      fun w1 hip1 hw1 hkeep => ?_
    · rw [execInsn, insnMov_eq (hsize.trans (hu.symm.trans hy.size.symm))
        (loadOpd_seen hy.under.direct hload)]
    · refine ih (fun s hs => hvars s (List.mem_cons_of_mem _ hs)) hat hend (by rw [hip1, hip]) hw1
        (hkeep hy hload) fun w2 hip2 hw2 => h w2 hip2 ?_
      rwa [set_cons] at hw2

end Variables

/-! ### Statements -/

/-- The part of a function on integers is checked, and its declarations are among those of the
function. -/
def PartOk (tops : List TTop) (f : TFunc) : Part → Prop
  | .stmt s => CheckedStmt (KnownIn tops f) f.rettype s ∧ stmtLocals s ⊆ stmtsLocals f.stmts ∧
    intStmt s = true
  | .stmts b => CheckedStmts (KnownIn tops f) f.rettype b ∧ stmtsLocals b ⊆ stmtsLocals f.stmts ∧
    intStmts b = true
  | .elifs r => CheckedElifs (KnownIn tops f) f.rettype r ∧ elifsLocals r ⊆ stmtsLocals f.stmts ∧
    intElifs r = true

def partItem (fin : Nat) : Part → Item
  | .stmt s => .stmt s
  | .stmts b => .stmts b
  | .elifs r => .elifs r fin

/-- The code has led where the part does: to its end, or to a `retv` of the number. -/
def Arrives (f : TFunc) (o : Obj) (S : Site) (fin : Nat) : Outcome → View → Prop
  | .goes env, w => w.ip = fin ∧ Holds f S.bp env w.stack
  | .returned v, w => ∃ a size bs, o.insns[w.ip]? = some (.retv a size) ∧ a.indirect = false ∧
    S.load w a = some bs ∧ Represents (RetTy.ty f.rettype) bs v

/-- The code of the part leads where the part does. -/
def Follows (f : TFunc) (cx : Cx) (fns : List Fn) (o : Obj) (S : Site) (env : Numbers) (x : Part)
    (out : Outcome) : Prop :=
  ∀ p code p', Emit cx (partItem p'.ip x) p code none p' → At o.insns p.ip (code.map (link fns)) →
    p'.ip < o.insnCount → p'.peak ≤ room S.frame.size → ∀ w, w.ip = p.ip → Holds f S.bp env w.stack →
      S.Reaches o (Arrives f o S p'.ip out) w

section Statements

variable {tops : List TTop} {f : TFunc} {cx : Cx} {fns : List Fn} {o : Obj} {S : Site} {env : Numbers}
  {e : TExpr} {x : Int} {out : Outcome}

lemma follows_decl (G : Ground tops f cx fns o S) {names : List Sym} {t : Ty}
    (hok : PartOk tops f (.stmt (.decl names t (some e)))) (he : eval (env.set names none) e = some x) :
    Follows f cx fns o S env (.stmt (.decl names t (some e))) (.goes (env.set names (some x))) := by
  intro p code p' hemit hat hend hpeak w hip hw
  obtain ⟨⟨-, -, hc⟩, hlocals, hint⟩ := hok
  simp only [intStmt, Bool.and_eq_true] at hint
  obtain ⟨hce, heq⟩ := hc e rfl
  cases hemit with | @declInit _ _ _ _ p1 ce ci a h hinits => ?_
  obtain ⟨hate, hati⟩ := at_split h hat
  have hend' : p1.ip + ci.length < o.insnCount := hend
  obtain ⟨_, ⟨⟩, hy, hrun⟩ := expr_computes G hint.2 hce he _ _ _ _ _ h hate (by omega) hpeak
  refine (hrun w hip (holds_forget hw names)).bind fun w1 h1 => ?_
  obtain ⟨bs, hload, hbs⟩ := h1.value
  have hvars : ∀ s ∈ names, (s, t) ∈ vars f := fun s hs =>
    List.mem_append_right _ (mem_vars (hlocals (List.mem_singleton.mpr rfl)) hs)
  refine inits_reach G hint.1 hy (bytes_of_equals heq).symm
    (represents_alike (bytes_of_equals heq).symm (signd_of_equals heq).symm hbs) hinits hvars hati
    hend' h1.ip ((holds_forget hw names).calm h1.calm) hload fun w2 hip2 hw2 => reaches_here ⟨hip2, ?_⟩
  rwa [set_set] at hw2

/-- An instruction that stores the number of an assignment, and the `nop` behind it. -/
lemma reaches_assign (G : Ground tops f cx fns o S) {v : Var} {ofs : Ofs} {i : Insn} {m : Nat}
    {bs : List UInt8} {w : View} (hv : v ∈ vars f) (ht : isInt v.2 = true)
    (hofs : htabGet (funcTag f).layout v.1 = some ofs) (hat : At o.insns m ([i, .nop].map (link fns)))
    (hi : ∀ a ∈ i.opds, a.opd ≠ .imm ∨ a.size ≠ 0) (hip : w.ip = m) (hend : m + 2 < o.insnCount)
    (hx : ∀ inp c k, execInsn inp o (S.seen w c k) i =
      nextIp <$> storeOpd (S.seen w c k) (opdAuto v.2.signd ofs.off ofs.size) bs)
    (hbs : Represents v.2 bs x) (hw : Holds f S.bp env w.stack) :
    S.Reaches o (Arrives f o S (m + 2) (.goes (env.set [v.1] (some x)))) w := by
  obtain ⟨hi', hat⟩ := at_insn hat hi
  obtain ⟨hnop, -⟩ := at_insn hat nofun
  refine reaches_var G hv ht hofs (by rwa [hip]) hx hbs hw (by omega) fun w1 hip1 hw1 _ => ?_
  rw [hip] at hip1
  have hx1 (inp : Inp) (c k : Nat) : execInsn inp o (S.seen w1 c k) .nop = .ok (S.seen w1.next c k) := by
    rw [execInsn, seen_nextIp]
    rfl
  refine reaches_exec (by rwa [hip1]) hx1 ?_ (reaches_here ⟨?_, hw1⟩)
  · rw [View.next, hip1]
    exact hend
  · rw [View.next, hip1]

/-- The code of an assignment: that of the number, an instruction and a `nop`. -/
lemma emit_assign {cx : Cx} {op : BOp} {so : ScopeObj} {tl t : Ty} {r : TExpr} {p p' : Pt}
    {code : List Insn} (hop : op = .assn ∨ (updateOp op).isSome = true) (ht : isInt tl = true)
    (h : Emit cx (.stmt (.expr (.bexp op (.name so tl) r t))) p code none p') :
    ∃ p2 cr d a i, nameOpd cx so tl = some d ∧ Emit cx (.expr r false) p cr (some a) p2 ∧
      code = cr ++ [i, .nop] ∧ p'.ip = p2.ip + 2 ∧ p2.peak ≤ p'.peak ∧
      (op = .assn ∧ i = .mov d a ∨ ∃ op' aop, updateOp op = some op' ∧
        (asmuOp op = some aop ∨ plusOp op = some (aop, true)) ∧ arithOf op' = some aop ∧
        i = .arith aop d d a) := by
  cases h with | exprStmt h => ?_
  cases h with
  | assn hl hr =>
    cases hl with | name ha => ?_
    exact ⟨_, _, _, _, _, ha, hr, by simp, rfl, Nat.le_refl _, .inl ⟨rfl, rfl⟩⟩
  | @asmu _ aop _ _ _ _ _ _ p2 _ cr d a hasmu hl hr =>
    cases hl with | name ha => ?_
    refine ⟨p2, cr, d, a, .arith aop d d a, ha, hr, by simp, rfl, Nat.le_refl _, .inr ?_⟩
    cases op <;> simp only [asmuOp, reduceCtorEq, Option.some.injEq] at hasmu <;> subst hasmu <;>
      exact ⟨_, _, rfl, .inl rfl, rfl, rfl⟩
  | @aspl _ aop _ _ _ _ _ _ p2 _ _ cr _ d a _ hplus hl hr hs hb =>
    cases hl with | name ha => ?_
    cases hs with
    | one =>
      refine ⟨p2, cr, d, a, .arith aop d d a, ha, hr, by simp, rfl, le_max_left _ _, .inr ?_⟩
      cases op <;> simp only [plusOp, reduceCtorEq, Option.some.injEq, Prod.mk.injEq, Bool.false_eq_true,
        and_false, and_true] at hplus <;> subst hplus <;> exact ⟨_, _, rfl, .inr rfl, rfl, rfl⟩
    | many hm =>
      refine absurd ?_ hm
      cases tl <;> simp [isInt] at ht
      rfl
  | coma => simp [updateOp] at hop
  | plus hop' | conj hop' | equl hop' => cases op <;> simp [updateOp, plusOp, conjOp, bexpInsn] at hop hop'

/-- What the type checker knows of an assignment. -/
lemma assign_checked {op op' : BOp} {aop : ArithOp} {l r : TExpr} {t : Ty} (hop : updateOp op = some op')
    (haop : asmuOp op = some aop ∨ plusOp op = some (aop, true))
    (hc : typeFromBexp op l r = .ok (.bexp op l r t)) :
    Alike (typeOfExpr l) (typeOfExpr r) ∧ (onBits op' = true → (typeOfExpr l).signd = false) := by
  constructor
  · rcases haop with h | h
    · exact (asmu_checked h hc).2.1
    · exact (plus_checked h hc).2.1
  · intro hb
    cases op <;> simp only [updateOp, reduceCtorEq, Option.some.injEq] at hop <;> subst hop <;>
      simp only [onBits, Bool.false_eq_true] at hb
    all_goals
      simp only [typeFromBexp, requireScalars, requireLvalue_ok, requireBits, require_ok] at hc
      exact signd_of_unsigned hc.2.2.2.2.1

lemma follows_assign (G : Ground tops f cx fns o S) {op : BOp} {so : ScopeObj} {tl t : Ty} {r : TExpr}
    {y : Int} (hok : PartOk tops f (.stmt (.expr (.bexp op (.name so tl) r t)))) (hr : eval env r = some y)
    (hx : op = .assn ∧ y = x ∨ ∃ op' z, updateOp op = some op' ∧ evalName env so = some z ∧
      binary op' tl z y = some x) :
    Follows f cx fns o S env (.stmt (.expr (.bexp op (.name so tl) r t)))
      (.goes (env.set [so.name] (some x))) := by
  intro p code p' hemit hat hend hpeak w hip hw
  obtain ⟨⟨hct, hcl, hcr⟩, -, hint⟩ := hok
  simp only [intStmt, intAssign, Bool.and_eq_true, Bool.or_eq_true, beq_iff_eq] at hint
  obtain ⟨⟨⟨hop, hil⟩, hloc⟩, hir⟩ := hint
  obtain ⟨p2, cr, d, a, i, ha, hr', rfl, hip', hpeak', hi⟩ := emit_assign hop hil hemit
  obtain ⟨ofs, hofs, rfl, hle, hyd⟩ := nameOpd_local (n := 0) G hcl hloc hil ha
  obtain ⟨hatr, hat⟩ := at_split hr' hat
  rw [hip'] at hend ⊢
  obtain ⟨_, ⟨⟩, hy, hrun⟩ := expr_computes G hir hcr hr _ _ _ _ _ hr' hatr (by omega)
    (hpeak'.trans hpeak)
  refine (hrun w hip hw).bind fun w1 h1 => ?_
  obtain ⟨bs, hload, hbs⟩ := h1.value
  have hv := var_of_known hcl hloc
  have hw1 : Holds f S.bp env w1.stack := hw.calm h1.calm
  have hsa := hy.sized (int_of_expr hir hcr)
  rcases hi with ⟨rfl, rfl⟩ | ⟨op', aop, hop', haop, harith, rfl⟩
  · obtain rfl : y = x := by
      rcases hx with ⟨-, rfl⟩ | ⟨op', z, hop', -⟩
      · rfl
      · cases hop'
    obtain ⟨-, heq, -⟩ := assn_checked hct
    have hbs' := represents_alike (bytes_of_equals heq).symm (signd_of_equals heq).symm hbs
    refine reaches_assign (v := (so.name, tl)) G hv hil hofs hat ?_ h1.ip hend (fun inp c k => ?_) hbs' hw1
    · exact List.forall_mem_cons.mpr ⟨auto_sized, List.forall_mem_cons.mpr ⟨hsa, List.forall_mem_nil _⟩⟩
    · rw [execInsn, insnMov_eq (hyd.size.trans ((bytes_of_equals heq).trans hy.size.symm))
        (loadOpd_seen hy.under.direct hload)]
  · obtain ⟨op'', z, hop'', hz, hv'⟩ : ∃ op' z, updateOp op = some op' ∧ evalName env so = some z ∧
        binary op' tl z y = some x := by
      rcases hx with ⟨rfl, -⟩ | hx
      · cases hop'
      · exact hx
    obtain rfl := Option.some.inj (hop'.symm.trans hop'')
    obtain ⟨hlike, hbits⟩ := assign_checked hop' haop hct
    obtain ⟨cs, hloadz, hcs⟩ := load_local hcl hloc hofs hle hz hw1
    have hbs' := represents_alike hlike.bytes.symm hlike.signd.symm hbs
    obtain ⟨n, hn, hrep⟩ := arithOp_represents harith (width_of_int hil) hbits hcs hbs' hv'
    have hsize : (opdAuto tl.signd ofs.off ofs.size).size = tl.bytes := hyd.size
    refine reaches_assign (v := (so.name, tl)) G hv hil hofs hat ?_ h1.ip hend (fun inp c k => ?_) hrep hw1
    · simp only [Insn.opds, List.forall_mem_cons]
      exact ⟨auto_sized, auto_sized, hsa, List.forall_mem_nil _⟩
    · rw [execInsn, insnBinArith_eq (hsize ▸ width_of_int hil) rfl rfl
        (hy.size.trans (hlike.bytes.symm.trans hsize.symm)) (hy.signd.trans hlike.signd.symm)
        (loadOpd_seen rfl hloadz) (loadOpd_seen hy.under.direct hload) (by rw [hsize]; exact hn), hsize]

/-- What the code has come to is where it goes on, unless it has returned. -/
lemma reaches_after {w : View} {fin fin' : Nat} (h : S.Reaches o (Arrives f o S fin out) w)
    (hgo : ∀ env', out = .goes env' → ∀ w', w'.ip = fin → Holds f S.bp env' w'.stack →
      S.Reaches o (Arrives f o S fin' out) w') : S.Reaches o (Arrives f o S fin' out) w := by
  refine h.bind fun w' hw' => ?_
  cases out with
  | goes env' => exact hgo env' rfl w' hw'.1 hw'.2
  | returned v => exact reaches_here hw'

/-- A condition is tested, and the code jumps or goes on. -/
lemma reaches_test (G : Ground tops f cx fns o S) {P : View → Prop} {p p1 : Pt} {ce c2 : List Insn}
    {a : Opd} {jnz : Bool} {loc : Nat} {w : View} (hint : intExpr e = true)
    (hc : Checked (KnownIn tops f) e) (hx : eval env e = some x)
    (he : Emit cx (.expr e false) p ce (some a) p1)
    (hat : At o.insns p.ip ((ce ++ Insn.jz jnz a loc :: c2).map (link fns))) (hend : p1.ip + 1 < o.insnCount)
    (hpeak : p1.peak ≤ room S.frame.size) (hip : w.ip = p.ip) (hw : Holds f S.bp env w.stack)
    (hjump : (x = 0 ↔ jnz = false) → loc < o.insnCount ∧
      ∀ w', w'.ip = loc → Holds f S.bp env w'.stack → S.Reaches o P w')
    (hnext : ¬ (x = 0 ↔ jnz = false) →
      ∀ w', w'.ip = p1.ip + 1 → Holds f S.bp env w'.stack → S.Reaches o P w') : S.Reaches o P w := by
  obtain ⟨hate, hat⟩ := at_split he hat
  obtain ⟨_, ⟨⟩, hy, hrun⟩ := expr_computes G hint hc hx _ _ _ _ _ he hate (by omega) hpeak
  have hty := int_of_expr hint hc
  obtain ⟨hi, -⟩ := at_insn hat (List.forall_mem_cons.mpr ⟨hy.sized hty, nofun⟩)
  refine (hrun w hip hw).bind fun w1 h1 => ?_
  obtain ⟨bs, hload, hbs⟩ := h1.value
  have hw1 : Holds f S.bp env w1.stack := hw.calm h1.calm
  refine reaches_cond (by rwa [h1.ip]) hy hty hload hbs (fun h => ?_) fun h => ⟨?_, ?_⟩
  · exact ⟨(hjump h).1, (hjump h).2 _ rfl hw1⟩
  · rwa [h1.ip]
  · exact hnext h _ (congrArg (· + 1) h1.ip) hw1

/-- The code of a conditional: a test, the body, and what comes behind it. -/
lemma reaches_branch (G : Ground tops f cx fns o S) {p p1 p2 p3 : Pt} {ce cb cr : List Insn} {a : Opd}
    {w : View} {b : TStmts} {rest : TElifs} (hint : intExpr e = true)
    (hc : Checked (KnownIn tops f) e) (hx : eval env e = some x)
    (he : Emit cx (.expr e false) p ce (some a) p1)
    (hb : Emit cx (.stmts b) ((p1.skip 1).reset 0) cb none p2)
    (hr : Emit cx (.elifs rest p3.ip) (p2.skip 1) cr none p3)
    (hat : At o.insns p.ip
      ((ce ++ [Insn.jz false a (p2.ip + 1)] ++ cb ++ [Insn.jmp p3.ip] ++ cr).map (link fns)))
    (hend : p3.ip < o.insnCount) (hpeak : p3.peak ≤ room S.frame.size) (hip : w.ip = p.ip)
    (hw : Holds f S.bp env w.stack) (hbody : x ≠ 0 → Follows f cx fns o S env (.stmts b) out)
    (hrest : x = 0 → Follows f cx fns o S env (.elifs rest) out) :
    S.Reaches o (Arrives f o S p3.ip out) w := by
  have hle : p1.ip + 1 ≤ p2.ip := emit_le hb
  have hle' : p2.ip + 1 ≤ p3.ip := emit_le hr
  have hpeak2 : p2.peak ≤ room S.frame.size := (emit_peak hr).trans hpeak
  have hpeak1 : p1.peak ≤ room S.frame.size := (emit_peak hb).trans hpeak2
  simp only [List.append_assoc, List.singleton_append] at hat
  have hatb := at_next (at_split he hat).2
  obtain ⟨hatb, hatj⟩ := at_split hb hatb
  refine reaches_test G hint hc hx he hat (by omega) hpeak1 hip hw
    (fun h => ⟨by omega, fun w' hip' hw' => ?_⟩) fun h w' hip' hw' => ?_
  · exact hrest (h.mpr rfl) _ _ _ hr (at_next hatj) hend hpeak w' hip' hw'
  · have hx0 : x ≠ 0 := fun h0 => h ⟨fun _ => rfl, fun _ => h0⟩
    obtain ⟨hjmp, -⟩ := at_insn hatj nofun
    refine reaches_after (hbody hx0 _ _ _ hb hatb (by omega) hpeak2 w' hip' hw')
      fun env' hout w2 hip2 hw2 => ?_
    subst hout
    exact reaches_jmp (by rwa [hip2]) hend (reaches_here ⟨rfl, hw2⟩)

/-- A loop whose condition holds comes to the end of its body. -/
lemma reaches_body (G : Ground tops f cx fns o S) {p p1 p2 : Pt} {ce cb : List Insn} {a : Opd} {w : View}
    {b : TStmts} (hint : intExpr e = true) (hc : Checked (KnownIn tops f) e) (hx : eval env e = some x)
    (hx0 : x ≠ 0) (he : Emit cx (.expr e false) p ce (some a) p1)
    (hb : Emit cx (.stmts b) ((p1.skip 1).reset 0) cb none p2)
    (hat : At o.insns p.ip ((ce ++ [Insn.jz false a (p2.ip + 1)] ++ cb ++ [Insn.jmp p.ip]).map (link fns)))
    (hend : p2.ip < o.insnCount) (hpeak : p2.peak ≤ room S.frame.size) (hip : w.ip = p.ip)
    (hw : Holds f S.bp env w.stack) (hbody : Follows f cx fns o S env (.stmts b) out) :
    o.insns[p2.ip]? = some (.jmp p.ip) ∧ S.Reaches o (Arrives f o S p2.ip out) w := by
  have hle : p1.ip + 1 ≤ p2.ip := emit_le hb
  simp only [List.append_assoc, List.singleton_append] at hat
  obtain ⟨hatb, hatj⟩ := at_split hb (at_next (at_split he hat).2)
  refine ⟨(at_insn hatj nofun).1, reaches_test G hint hc hx he hat (by omega) ((emit_peak hb).trans hpeak)
    hip hw (fun h => absurd (h.mpr rfl) hx0) fun _ w' hip' hw' => ?_⟩
  exact hbody _ _ _ hb hatb hend hpeak w' hip' hw'

lemma follows_retn (G : Ground tops f cx fns o S) (hok : PartOk tops f (.stmt (.retn (some e))))
    (hx : eval env e = some x) : Follows f cx fns o S env (.stmt (.retn (some e))) (.returned x) := by
  intro p code p' hemit hat hend hpeak w hip hw
  obtain ⟨hc, -, hint⟩ := hok
  obtain ⟨rt, hrt, hc, heq⟩ : ∃ rt, f.rettype = .some rt ∧ Checked (KnownIn tops f) e ∧
      typeEquals rt (typeOfExpr e) = true := by
    unfold CheckedStmt at hc
    cases hrt : f.rettype with
    | none => simp [hrt] at hc
    | some rt => exact ⟨rt, rfl, by simpa only [hrt] using hc⟩
  cases hemit with | retnValue h => ?_
  obtain ⟨hate, hati⟩ := at_split h hat
  obtain ⟨_, ⟨⟩, hy, hrun⟩ := expr_computes G hint hc hx _ _ _ _ _ h hate (Nat.lt_of_succ_lt hend) hpeak
  obtain ⟨hi, -⟩ := at_insn hati (List.forall_mem_cons.mpr ⟨hy.sized (int_of_expr hint hc),
    List.forall_mem_cons.mpr ⟨.inr (show 8 ≠ 0 by decide), nofun⟩⟩)
  refine (hrun w hip hw).mono fun w1 h1 => ?_
  obtain ⟨bs, hload, hbs⟩ := h1.value
  refine ⟨_, _, bs, by rwa [h1.ip], hy.under.direct, hload, ?_⟩
  rw [hrt]
  exact represents_alike (bytes_of_equals heq).symm (signd_of_equals heq).symm hbs

/-- **The code of a part of a function leads where the part does.** -/
theorem runs_follow (G : Ground tops f cx fns o S) {x : Part} (h : Runs env x out) :
    PartOk tops f x → Follows f cx fns o S env x out := by
  induction h with
  | decl he => exact fun hok => follows_decl G hok he
  | assign hr => exact fun hok => follows_assign G hok hr (.inl ⟨rfl, rfl⟩)
  | update hop hx hr hv => exact fun hok => follows_assign G hok hr (.inr ⟨_, _, hop, hx, hv⟩)
  | condTrue he hv _ ih =>
    intro hok p code p' hemit hat hend hpeak w hip hw
    obtain ⟨⟨hc, hcb, hcr⟩, hlocals, hint⟩ := hok
    simp only [intStmt, Bool.and_eq_true] at hint
    cases hemit with | cond hee heb her => ?_
    have hrun := reaches_branch G hint.1.1 hc he hee heb her hat hend hpeak hip hw
      (fun _ => ih ⟨hcb, fun d hd => hlocals (List.mem_append_left _ hd), hint.1.2⟩)
      fun h0 => absurd h0 hv
    exact hrun
  | condFalse he _ ih =>
    intro hok p code p' hemit hat hend hpeak w hip hw
    obtain ⟨⟨hc, hcb, hcr⟩, hlocals, hint⟩ := hok
    simp only [intStmt, Bool.and_eq_true] at hint
    cases hemit with | cond hee heb her => ?_
    have hrun := reaches_branch G hint.1.1 hc he hee heb her hat hend hpeak hip hw (fun h0 => absurd rfl h0)
      fun _ => ih ⟨hcr, fun d hd => hlocals (List.mem_append_right _ hd), hint.2⟩
    exact hrun
  | elifTrue he hv _ ih =>
    intro hok p code p' hemit hat hend hpeak w hip hw
    obtain ⟨⟨hc, hcb, hcr⟩, hlocals, hint⟩ := hok
    simp only [intElifs, Bool.and_eq_true] at hint
    cases hemit with | elif hee heb her => ?_
    exact reaches_branch G hint.1.1 hc he hee heb her hat hend hpeak hip hw
      (fun _ => ih ⟨hcb, fun d hd => hlocals (List.mem_append_left _ hd), hint.1.2⟩)
      fun h0 => absurd h0 hv
  | elifFalse he _ ih =>
    intro hok p code p' hemit hat hend hpeak w hip hw
    obtain ⟨⟨hc, hcb, hcr⟩, hlocals, hint⟩ := hok
    simp only [intElifs, Bool.and_eq_true] at hint
    cases hemit with | elif hee heb her => ?_
    exact reaches_branch G hint.1.1 hc he hee heb her hat hend hpeak hip hw (fun h0 => absurd rfl h0)
      fun _ => ih ⟨hcr, fun d hd => hlocals (List.mem_append_right _ hd), hint.2⟩
  | blok _ ih =>
    intro hok p code p' hemit
    cases hemit with | blok h => ?_
    have hrun := ih hok _ _ _ h
    exact hrun
  | els _ ih =>
    intro hok p code p' hemit
    cases hemit with | els h => ?_
    exact ih hok _ _ _ h
  | none =>
    intro _ p code p' hemit _ _ _ w hip hw
    cases hemit with | elifsNone => ?_
    exact reaches_here ⟨hip, hw⟩
  | nil =>
    intro _ p code p' hemit _ _ _ w hip hw
    cases hemit with | stmtsNil => ?_
    exact reaches_here ⟨hip, hw⟩
  | cons _ _ ihs ihr =>
    intro hok p code p' hemit hat hend hpeak w hip hw
    obtain ⟨⟨hcs, hcr⟩, hlocals, hint⟩ := hok
    simp only [intStmts, Bool.and_eq_true] at hint
    cases hemit with | stmtsCons hs hr => ?_
    obtain ⟨hats, hatr⟩ := at_split hs hat
    have hle : _ ≤ p'.ip := emit_le hr
    refine (ihs ⟨hcs, fun d hd => hlocals (List.mem_append_left _ hd), hint.1⟩ _ _ _ hs hats (by omega)
      ((emit_peak hr).trans hpeak) w hip hw).bind fun w1 h1 => ?_
    exact ihr ⟨hcr, fun d hd => hlocals (List.mem_append_right _ hd), hint.2⟩ _ _ _ hr hatr hend hpeak w1
      h1.1 h1.2
  | consReturned _ ih =>
    intro hok p code p' hemit hat hend hpeak w hip hw
    obtain ⟨⟨hcs, -⟩, hlocals, hint⟩ := hok
    simp only [intStmts, Bool.and_eq_true] at hint
    cases hemit with | stmtsCons hs hr => ?_
    have hle : _ ≤ p'.ip := emit_le hr
    exact (ih ⟨hcs, fun d hd => hlocals (List.mem_append_left _ hd), hint.1⟩ _ _ _ hs
      (at_split hs hat).1 (by omega) ((emit_peak hr).trans hpeak) w hip hw).mono fun _ h => h
  | retn he => exact fun hok => follows_retn G hok he
  | whilDone he =>
    intro hok p code p' hemit hat hend hpeak w hip hw
    obtain ⟨⟨hc, -⟩, -, hint⟩ := hok
    simp only [intStmt, Bool.and_eq_true] at hint
    cases hemit with | whil hee heb => ?_
    have hend1 : _ + 1 < o.insnCount := hend
    have hle : _ + 1 ≤ _ := emit_le heb
    simp only [List.append_assoc, List.singleton_append] at hat
    refine reaches_test G hint.1 hc he hee hat (by omega) ((emit_peak heb).trans hpeak) hip hw
      (fun _ => ⟨hend, fun w' hip' hw' => reaches_here ⟨hip', hw'⟩⟩)
      fun h => absurd ⟨fun _ => rfl, fun _ => rfl⟩ h
  | whilAgain he hv _ _ ihb ihw =>
    intro hok p code p' hemit hat hend hpeak w hip hw
    have hall := ihw hok _ _ _ hemit hat hend hpeak
    obtain ⟨⟨hc, hcb⟩, hlocals, hint⟩ := hok
    simp only [intStmt, Bool.and_eq_true] at hint
    cases hemit with | whil hee heb => ?_
    have hend1 : _ + 1 < o.insnCount := hend
    obtain ⟨hjmp, hrun⟩ := reaches_body G hint.1 hc he hv hee heb hat (Nat.lt_of_succ_lt hend1) hpeak hip hw
      (ihb ⟨hcb, hlocals, hint.2⟩)
    have hle := emit_le hee
    have hle' : _ + 1 ≤ _ := emit_le heb
    refine hrun.bind fun w1 h1 => reaches_jmp (by rwa [h1.1])
      (show p.ip < o.insnCount by omega) (hall _ rfl h1.2)
  | whilReturned he hv _ ihb =>
    intro hok p code p' hemit hat hend hpeak w hip hw
    obtain ⟨⟨hc, hcb⟩, hlocals, hint⟩ := hok
    simp only [intStmt, Bool.and_eq_true] at hint
    cases hemit with | whil hee heb => ?_
    have hend1 : _ + 1 < o.insnCount := hend
    exact (reaches_body G hint.1 hc he hv hee heb hat (Nat.lt_of_succ_lt hend1) hpeak hip hw
      (ihb ⟨hcb, hlocals, hint.2⟩)).2.mono fun _ h => h
  | dowhDone _ he ihb =>
    intro hok p code p' hemit hat hend hpeak w hip hw
    obtain ⟨⟨hc, hcb⟩, hlocals, hint⟩ := hok
    simp only [intStmt, Bool.and_eq_true] at hint
    cases hemit with | dowh heb hee => ?_
    have hend1 : _ + 1 < o.insnCount := hend
    have hle := emit_le hee
    rw [List.append_assoc] at hat
    obtain ⟨hatb, hatt⟩ := at_split heb hat
    refine (ihb ⟨hcb, hlocals, hint.2⟩ _ _ _ heb hatb (by omega) ((emit_peak hee).trans hpeak) w hip
      hw).bind fun w1 h1 => ?_
    refine reaches_test G hint.1 hc he hee hatt hend hpeak h1.1 h1.2 (fun h => by simp at h)
      fun _ w' hip' hw' => reaches_here ⟨hip', hw'⟩
  | dowhAgain _ he hv _ ihb ihw =>
    intro hok p code p' hemit hat hend hpeak w hip hw
    have hall := ihw hok _ _ _ hemit hat hend hpeak
    obtain ⟨⟨hc, hcb⟩, hlocals, hint⟩ := hok
    simp only [intStmt, Bool.and_eq_true] at hint
    cases hemit with | dowh heb hee => ?_
    have hend1 : _ + 1 < o.insnCount := hend
    have hle := emit_le hee
    have hle' := emit_le heb
    rw [List.append_assoc] at hat
    obtain ⟨hatb, hatt⟩ := at_split heb hat
    refine (ihb ⟨hcb, hlocals, hint.2⟩ _ _ _ heb hatb (by omega) ((emit_peak hee).trans hpeak) w hip
      hw).bind fun w1 h1 => ?_
    refine reaches_test G hint.1 hc he hee hatt hend hpeak h1.1 h1.2
      (fun _ => ⟨by omega, fun w' hip' hw' => hall w' hip' hw'⟩)
      fun h => absurd ⟨fun h0 => absurd h0 hv, nofun⟩ h
  | dowhReturned _ ihb =>
    intro hok p code p' hemit hat hend hpeak w hip hw
    obtain ⟨⟨-, hcb⟩, hlocals, hint⟩ := hok
    simp only [intStmt, Bool.and_eq_true] at hint
    cases hemit with | dowh heb hee => ?_
    have hend1 : _ + 1 < o.insnCount := hend
    have hle := emit_le hee
    rw [List.append_assoc] at hat
    exact (ihb ⟨hcb, hlocals, hint.2⟩ _ _ _ heb (at_split heb hat).1 (by omega)
      ((emit_peak hee).trans hpeak) w hip hw).mono fun _ h => h

end Statements

/-! ### Entering a function -/

section Frames

variable {f : TFunc} {vs : List Var} {v : Var} {n : Nat}

lemma fits_of_int {t : Ty} (h : isInt t = true) : fits t = true := by
  cases t with
  | int k c =>
    obtain rfl := beq_iff_eq.mp h
    cases k <;> decide
  | _ => cases h

lemma parEnd_int (ht : isInt v.2 = true) (hn : n % 8 = 0) : parEnd n v = n + 8 := by
  have hle := isWidth_le (width_of_int ht)
  have hpos := Nat.pos_of_ne_zero (isWidth_pos (width_of_int ht))
  unfold parEnd alignUp
  split <;> omega

/-- Every parameter takes a word of the stack. -/
lemma foldl_parEnd (h : ∀ v ∈ vs, isInt v.2 = true) (hn : n % 8 = 0) :
    vs.foldl parEnd n = n + 8 * vs.length := by
  induction vs generalizing n with
  | nil => rfl
  | cons v vs ih =>
    rw [List.foldl_cons, parEnd_int (h v List.mem_cons_self) hn,
      ih (fun w hw => h w (List.mem_cons_of_mem _ hw)) (by omega), List.length_cons]
    omega

lemma argBytes_int (h : ∀ v ∈ vs, isInt v.2 = true) : argBytes vs = 8 * vs.length :=
  (foldl_parEnd h rfl).trans (Nat.zero_add _)

/-- A frame that never shrinks fits if its end does. -/
lemma frameFits_of_end {step : Nat → Var → Nat} (hstep : ∀ n v, n ≤ step n v)
    (hfit : ∀ v ∈ vs, fits v.2 = true) (h : vs.foldl step n < 2 ^ 64) : frameFits step vs n = true := by
  have hle (vs : List Var) (n : Nat) : n ≤ vs.foldl step n := by
    induction vs generalizing n with
    | nil => exact Nat.le_refl _
    | cons v vs ih => exact (hstep n v).trans (ih _)
  induction vs generalizing n with
  | nil => exact decide_eq_true h
  | cons v vs ih =>
    simp only [frameFits, Bool.and_eq_true, decide_eq_true_eq]
    exact ⟨⟨hfit v List.mem_cons_self, (hle vs _).trans_lt h⟩,
      ih (fun w hw => hfit w (List.mem_cons_of_mem _ hw)) h⟩

mutual
lemma stmt_ints : ∀ {s : TStmt}, intStmt s = true → ∀ d ∈ stmtLocals s, isInt d.2 = true
  | .decl _ _ init, h, d, hd => by
    obtain rfl := List.mem_singleton.mp hd
    cases init with
    | none => cases h
    | some e => exact (Bool.and_eq_true _ _ ▸ h).1
  | .cond _ _ _, h, d, hd => by
    simp only [intStmt, Bool.and_eq_true] at h
    rcases List.mem_append.mp hd with hd | hd
    · exact stmts_ints h.1.2 d hd
    · exact elifs_ints h.2 d hd
  | .blok _, h, d, hd => stmts_ints h d hd
  | .whil _ _, h, d, hd | .dowh _ _, h, d, hd => by
    simp only [intStmt, Bool.and_eq_true] at h
    exact stmts_ints h.2 d hd
  | .retn _, _, _, hd | .expr _, _, _, hd => by cases hd
lemma stmts_ints : ∀ {b : TStmts}, intStmts b = true → ∀ d ∈ stmtsLocals b, isInt d.2 = true
  | .nil, _, _, hd => by cases hd
  | .cons _ _, h, d, hd => by
    simp only [intStmts, Bool.and_eq_true] at h
    rcases List.mem_append.mp hd with hd | hd
    · exact stmt_ints h.1 d hd
    · exact stmts_ints h.2 d hd
lemma elifs_ints : ∀ {r : TElifs}, intElifs r = true → ∀ d ∈ elifsLocals r, isInt d.2 = true
  | .none, _, _, hd => by cases hd
  | .els _, h, d, hd => stmts_ints h d hd
  | .elif _ _ _, h, d, hd => by
    simp only [intElifs, Bool.and_eq_true] at h
    rcases List.mem_append.mp hd with hd | hd
    · exact stmts_ints h.1.2 d hd
    · exact elifs_ints h.2 d hd
end

/-- The bytes of the stack that the parameters and the variables of a function take. -/
def frameBytes (f : TFunc) : Nat := alignUp ((localVars f).foldl varEnd (argBytes f.params.toList)) 8

lemma params_ints (h : intFunc f = true) : ∀ v ∈ f.params.toList, isInt v.2 = true := by
  simp only [intFunc, Bool.and_eq_true, List.all_eq_true] at h
  exact h.1

lemma locals_ints (h : intFunc f = true) : ∀ v ∈ localVars f, isInt v.2 = true := by
  simp only [intFunc, Bool.and_eq_true] at h
  intro v hv
  obtain ⟨d, hd, hv⟩ := List.mem_flatMap.mp hv
  obtain ⟨n, -, rfl⟩ := List.mem_map.mp hv
  exact stmts_ints h.2 d hd

/-- A function on integers that has room on the stack fits. -/
lemma fits_of_room (h : intFunc f = true) (hroom : frameBytes f ≤ stackSize) : funcFits f = true := by
  have hsize : stackSize < 2 ^ 64 - 16 := by decide
  have hup := le_alignUp ((localVars f).foldl varEnd (argBytes f.params.toList)) 8
  have hvars := varEnd_le (localVars f) (argBytes f.params.toList)
  unfold frameBytes at hroom
  simp only [funcFits, Bool.and_eq_true, decide_eq_true_eq]
  refine ⟨⟨frameFits_of_end (fun n v => ?_) (fun v hv => fits_of_int (params_ints h v hv)) ?_,
    frameFits_of_end (fun n v => varEnd_le [v] n) (fun v hv => fits_of_int (locals_ints h v hv)) ?_⟩, ?_⟩
  · exact (Nat.le_add_right _ _).trans (le_alignUp _ _)
  · show argBytes f.params.toList < 2 ^ 64
    omega
  · show (localVars f).foldl varEnd (argBytes f.params.toList) < 2 ^ 64
    omega
  · show alignUp ((localVars f).foldl varEnd (argBytes f.params.toList)) 8 + 16 < 2 ^ 64
    omega

end Frames

/-- The function is about to be entered: each argument is in a word of its own, the stack has room for
the variables, and no ancestor of the quaint takes over. -/
structure Called (fn : Fn) (args : List Int) (s : State) : Prop where
  live : s.cur ∈ s.live
  ip : s.vm.ip = fn.entry
  aligned : s.vm.bp % 8 = 0
  sp : s.vm.sp = s.vm.bp + 8 * args.length
  room : s.vm.bp + frameBytes fn.func ≤ stackSize
  count : args.length = fn.func.params.toList.length
  args : ∀ (i : Nat) (p : Var) (x : Int), fn.func.params.toList[i]? = some p → args[i]? = some x →
    Represents p.2 (readMem s.vm.stack (s.vm.bp + 8 * i) p.2.bytes) x
  quiet : Quiet s

/-- The machine is at a `retv` of the number, in the frame the function was entered in. -/
def Retv (f : TFunc) (o : Obj) (s : State) (v : Int) (s' : State) : Prop :=
  s'.cur = s.cur ∧ s'.vm.bp = s.vm.bp ∧ ∃ a size bs, o.insns[s'.vm.ip]? = some (.retv a size) ∧
    loadOpd s' a = .ok bs ∧ Represents (RetTy.ty f.rettype) bs v

section Entering

variable {tops : List TTop} {f : TFunc} {fns : List Fn} {fn : Fn} {o : Obj} {s : State} {inp : Inp}
  {args : List Int} {v : Int} {base : Nat} {u : Ast.Unit}

/-- The number of a name is that of a parameter. -/
lemma argNumbers_some : ∀ {ps : List Var} {xs : List Int} {b : Nat} {x : Int},
    argNumbers ps xs b = some x → ∃ (i : Nat) (p : Var), ps[i]? = some p ∧ xs[i]? = some x ∧ p.1.beg = b
  | [], _, _, _, h => by cases h
  | _ :: _, [], _, _, h => by cases h
  | p :: ps, y :: xs, b, x, h => by
    unfold argNumbers Numbers.set at h
    split at h
    · rename_i hb
      obtain rfl := Option.some.inj h
      exact ⟨0, p, rfl, rfl, (List.mem_singleton.mp hb).symm⟩
    · obtain ⟨i, q, hq, hx, hbeg⟩ := argNumbers_some h
      exact ⟨i + 1, q, hq, hx, hbeg⟩

/-- The arguments are the numbers of the parameters. -/
lemma holds_args (hA : Typing.Accepted tops) (hf : TTop.func fn.func ∈ tops) (hint : intFunc fn.func = true)
    (hcall : Called fn args s) :
    Holds fn.func s.vm.bp (argNumbers fn.func.params.toList args) s.vm.stack := by
  intro w hw x hx
  have hfit := fits_of_room hint ((Nat.le_add_left _ _).trans hcall.room)
  obtain ⟨i, p, hp, hxi, hbeg⟩ := argNumbers_some hx
  have hpv : p ∈ vars fn.func := List.mem_append_left _ (List.mem_of_getElem? hp)
  obtain rfl : p = w := List.inj_on_of_nodup_map (vars_nodup hA hf) hpv hw hbeg
  refine ⟨_, param_found_at hA hf hfit hp, ?_⟩
  have htake : argBytes (fn.func.params.toList.take i) = 8 * i := by
    rw [argBytes_int fun q hq => params_ints hint q (List.mem_of_mem_take hq), List.length_take,
      Nat.min_eq_left (List.getElem?_eq_some_iff.mp hp).1.le]
  rw [htake]
  exact hcall.args i p x hp hxi

/-- A new block lies in the address space. -/
lemma alloc_lt {n : Nat} (h : alloc s inp.addr n = some base) : n < 2 ^ 64 := by
  rw [alloc, Option.filter_eq_some_iff] at h
  have hf := h.2
  simp only [fresh, Bool.and_eq_true, decide_eq_true_eq] at hf
  omega

/-- `incsp` moves the stack pointer and puts a frame of temporaries before the others. -/
lemma insnIncsp_eq {addend size sp : Nat} (hadd : addend % 8 = 0)
    (hsp : (s.vm.sp + addend) % 2 ^ 64 = sp) (hle : sp ≤ stackSize) (hmod : sp % 8 = 0)
    (hbase : alloc s inp.addr (tmpFrameSize + size) = some base) :
    insnIncsp inp s (opdImm false addend 8) (opdImm false size 8) =
      .ok (s.setVm (Qvm.enter s.vm sp ⟨base + tmpFrameSize, size, inp.junk⟩)) := by
  have hword (n : Nat) (name : String) :
      (legalWord .imm name "_is_imm" (opdImm false n 8) : M PUnit.{1}) = .ok ⟨⟩ := rfl
  subst hsp
  have hoff (n : Nat) : (opdImm false n 8).off = n := rfl
  have hfit := alloc_lt hbase
  simp only [insnIncsp, hword, ok_bind, legalIf, hoff, hadd, hle, hmod, decide_true, if_true,
    Nat.mod_eq_of_lt hfit, hbase, ubUnless, hfit]
  rfl

/-- The frame of temporaries is allocated, and the code goes on behind `incsp`. -/
lemma enter_step (hl : Listed tops fns o) (hc : Closed fns o) (hfn : fn ∈ fns)
    (hint : intFunc fn.func = true) (hcall : Called fn args s)
    (hbase : alloc s inp.addr (tmpFrameSize + fn.stop.tempOffPeak) = some base)
    (hend : fn.entry + 1 < o.insnCount) :
    ∃ (S : Site) (c n : Nat), S.state.cur = s.cur ∧ S.bp = s.vm.bp ∧ S.frame.size = fn.stop.tempOffPeak ∧
      step inp o s = .ok (S.seen ⟨fn.entry + 1, s.vm.stack, inp.junk⟩ c n) := by
  have hfit := fits_of_room hint ((Nat.le_add_left _ _).trans hcall.room)
  have hg := goodFrame_of_fits hfit
  have hframe : (funcTag fn.func).frameSize = frameBytes fn.func := frameSize_of_fits hfit
  have hargs : (funcTag fn.func).argsSize = 8 * args.length := by
    rw [hg.args, argBytes_int (params_ints hint), hcall.count]
  obtain ⟨addend, tsize, hi, hadd, -⟩ := frame_of_listed hfit hl hfn rfl (hc.placed fn hfn)
  obtain ⟨addend', hi'⟩ := hc.entries fn hfn
  obtain ⟨-, rfl⟩ : opdImm false addend 8 = addend' ∧ tsize = opdImm false fn.stop.tempOffPeak 8 := by
    simpa using hi.symm.trans hi'
  have hsize : stackSize = 16304 := rfl
  have hroom := hcall.room
  have hmod := hg.frame_mod
  have haligned := hcall.aligned
  have hsp : (s.vm.sp + addend) % 2 ^ 64 = s.vm.bp + frameBytes fn.func := by
    rw [hcall.sp]
    omega
  let frame : TmpFrame := ⟨base + tmpFrameSize, fn.stop.tempOffPeak, inp.junk⟩
  let S : Site := ⟨s.setVm (Qvm.enter s.vm (s.vm.bp + frameBytes fn.func) frame), frame, s.vm.temps,
    hcall.live, quiet_enter hcall.quiet _ _⟩
  have hseen : S.seen ⟨fn.entry + 1, s.vm.stack, inp.junk⟩ s.cycles s.now =
      nextIp (s.setVm (Qvm.enter s.vm (s.vm.bp + frameBytes fn.func) frame)) := by
    have hq : S.qvm ⟨fn.entry + 1, s.vm.stack, inp.junk⟩ = Qvm.advance S.state.vm := by
      simp [Site.qvm, S, setVm_vm, Qvm.enter, Qvm.advance, hcall.ip, frame]
    rw [Site.seen, hq]
    rfl
  have hexec : execInsn inp o s (.incsp (opdImm false addend 8) (opdImm false fn.stop.tempOffPeak 8)) =
      .ok (S.seen ⟨fn.entry + 1, s.vm.stack, inp.junk⟩ s.cycles s.now) := by
    rw [hseen, execInsn, insnIncsp_eq (by omega) hsp hroom (by omega) hbase]
    rfl
  obtain ⟨c, n, hstep⟩ := step_seen hcall.live (hcall.ip ▸ hi) hexec hend
  exact ⟨S, c, n, rfl, by simp [S, Site.bp, Qvm.enter], rfl, hstep⟩

/-- **A function on integers returns what it means**: from its `incsp`, with the arguments in place and
room for its variables and temporaries, every run comes to a `retv` of the number. -/
theorem compiled_returns (h : Compiles u o) : ∃ tops fns, accept u = some tops ∧ Listed tops fns o ∧
    (∀ f, TTop.func f ∈ tops → ∃ fn ∈ fns, fn.func = f) ∧ ∀ fn ∈ fns, intFunc fn.func = true →
      ∀ args v, Returns fn.func args v → ∀ s, Called fn args s → ∀ inp base,
        alloc s inp.addr (tmpFrameSize + fn.stop.peak) = some base →
          ∃ s', step inp o s = .ok s' ∧
            ComesTo (fun inp s => step inp o s) (Retv fn.func o s v) s' := by
  obtain ⟨tops, fns, ha, hl⟩ := listed_of_compiles h
  refine ⟨tops, fns, ha, hl, listed_func hl, fun fn hfn hint args v hret s hcall inp base hbase => ?_⟩
  have hA := accepted_of_accept ha
  have hc := closed_of_listed hA hl
  obtain ⟨p, hp, -⟩ := hl.placed
  have hf := placed_func hp hfn
  have hemit := emitted_of_listed hl hfn
  have hfit := fits_of_room hint ((Nat.le_add_left _ _).trans hcall.room)
  have hat := hc.placed fn hfn
  have hbody : At o.insns (fn.entry + 1) ((fn.body ++ [fn.ret]).map (link fns)) := at_next hat
  obtain ⟨hbody, hret'⟩ := at_split (q := fn.enter) hemit hbody
  have hend : fn.stop.ip < o.insnCount := (List.getElem?_eq_some_iff.mp (At.head hret')).1
  have hle : fn.entry + 1 ≤ fn.stop.ip := emit_le hemit
  have htemps : TempsFit fn := (Nat.le_add_left _ _).trans_lt (alloc_lt hbase)
  have htop := tempOffPeak_of_listed hl hfn htemps
  rw [← htop] at hbase
  obtain ⟨S, c, n, hcur, hbp, hsize, hstep⟩ := enter_step hl hc hfn hint hcall hbase (by omega)
  refine ⟨_, hstep, ?_⟩
  have hu : InUnit tops fn.func (fn.cx (globalsOf tops).size (globalsOf tops).layout) :=
    ⟨hA, hf, rfl, rfl, rfl⟩
  have G : Ground tops fn.func (fn.cx (globalsOf tops).size (globalsOf tops).layout) fns o S :=
    ⟨hu, laid_of_fits hA hfit hf, by rw [hbp, frameSize_of_fits hfit]; exact hcall.room⟩
  have hok : PartOk tops fn.func (.stmts fn.func.stmts) :=
    ⟨hA.checked _ hf, List.Subset.refl _, by
      simp only [intFunc, Bool.and_eq_true] at hint
      exact hint.2⟩
  have hroom : fn.stop.peak ≤ room S.frame.size :=
    le_min (hsize.trans htop).ge (Nat.le_sub_one_of_lt htemps)
  have hrun := runs_follow G hret hok _ _ _ hemit hbody hend hroom
    ⟨fn.entry + 1, s.vm.stack, inp.junk⟩ rfl (hbp ▸ holds_args hA hf hint hcall) c n
  refine hrun.bind fun s' hs' => .here ?_
  obtain ⟨w, c', n', rfl, a, size, bs, hi, hdirect, hload, hbs⟩ := hs'
  refine ⟨hcur, ?_, a, size, bs, ?_, loadOpd_seen hdirect hload, hbs⟩
  · rw [seen_vm]
    exact hbp
  · rwa [seen_vm]

/-- `f(a: u8): u8 { s: u8 = 0; while a { s += a; a -= 1; } return s; }` -/
def sum : Ast.Unit :=
  ⟨[], [.func ⟨false, letter 102 0, .cons (letter 97 2) (.int .u8 1) .nil, .some (.int .u8 1),
    .cons (.decl ⟨false, false, false, [letter 115 16], .int .u8 1, .nmbr 0⟩)
    (.cons (.whil (.name (letter 97 33))
      (.cons (.expr (.bexp (letter 115 37) .aspl (.name (letter 115 37)) (.name (letter 97 42))))
      (.cons (.expr (.bexp (letter 97 45) .asmi (.name (letter 97 45)) (.nmbr 1))) .nil)))
    (.cons (.retn (some (.name (letter 115 62)))) .nil))⟩]⟩

def sumObj : Obj :=
  ⟨0, [], List.replicate 17 Insn.bfun ++
    [Insn.incsp (opdImm false 8 8) (opdImm false 1 8), .mov (opdAuto false 8 1) (opdImm false 0 1),
     .jz false (opdAuto false 0 1) 25,
     .arith .add (opdAuto false 8 1) (opdAuto false 8 1) (opdAuto false 0 1), .nop,
     .arith .sub (opdAuto false 0 1) (opdAuto false 0 1) (opdImm false 1 1), .nop, .jmp 19,
     .retv (opdAuto false 8 1) (opdImm false 32 8), .ret (opdImm false 32 8)]⟩

def sumFunc : TFunc :=
  let a : TExpr := .name ⟨letter 97 2, .parm (.int .u8 1)⟩ (.int .u8 1)
  let s : TExpr := .name ⟨letter 115 16,
    .avar ⟨false, false, false, [letter 115 16], .int .u8 1, .nmbr 0⟩⟩ (.int .u8 1)
  ⟨letter 102 0, .cons (letter 97 2) (.int .u8 1) .nil, .some (.int .u8 1),
    .cons (.decl [letter 115 16] (.int .u8 1) (some (.nmbr 0 (.int .u8 1))))
    (.cons (.whil a
      (.cons (.expr (.bexp .aspl s a (.int .u8 1)))
      (.cons (.expr (.bexp .asmi a (.nmbr 1 (.int .u8 1)) (.int .u8 1))) .nil)))
    (.cons (.retn (some s)) .nil))⟩

def sumState : State :=
  let s := initState sumObj 65536 131072
  s.setVm { s.vm with sp := 24, stack := writeMem s.vm.stack 16 [2] }

lemma sum_returns_three : Returns sumFunc [2] 3 := by
  refine .cons (.decl (v := 0) rfl) (.cons (.whilAgain (v := 2) rfl (by decide)
    (.cons (.update (v := 2) rfl rfl rfl rfl) (.cons (.update (v := 1) rfl rfl rfl rfl) .nil))
    (.whilAgain (v := 1) rfl (by decide)
      (.cons (.update (v := 3) rfl rfl rfl rfl) (.cons (.update (v := 0) rfl rfl rfl rfl) .nil))
      (.whilDone ?_))) (.consReturned (.retn ?_)))
  · rfl
  · rfl

/-- The only function of a unit. -/
lemma placed_one {dataSize : Nat} {globals : Layout} {f : TFunc} {p p' : Pt} {fns : List Fn}
    (h : Placed dataSize globals [.func f] p fns p') : ∃ fn, fns = [fn] ∧ fn.func = f ∧ fn.start = p := by
  generalize ht : [TTop.func f] = tops at h
  cases h with
  | nil => cases ht
  | other t _ _ _ _ hne => exact absurd (List.cons.inj ht).1.symm (hne f)
  | func fn rest _ gs _ hr =>
    obtain ⟨hf, rfl⟩ := List.cons.inj ht
    cases hr
    exact ⟨fn, rfl, (TTop.func.inj hf).symm, rfl⟩

lemma sum_fn {fns : List Fn} {fn : Fn} (hl : Listed [.func sumFunc] fns sumObj) (hfn : fn ∈ fns) :
    fn.func = sumFunc ∧ fn.entry = 17 ∧ fn.stop.peak = 1 := by
  obtain ⟨p, hp, -⟩ := hl.placed
  obtain ⟨g, rfl, hf, hstart⟩ := placed_one hp
  obtain rfl := List.mem_singleton.mp hfn
  refine ⟨hf, by rw [Fn.entry, hstart]; rfl, ?_⟩
  have hi : sumObj.insns[17]? = some (link [fn] fn.incsp) := by
    rw [hl.insns]
    rfl
  have hpeak : printOpd (locsOf [fn]) (opdImm false fn.stop.tempOffPeak 8) = opdImm false 1 8 :=
    (Insn.incsp.inj (Option.some.inj hi)).2.symm
  rw [printOpd_of_ne (.inr (show 8 ≠ 0 by decide))] at hpeak
  have htemps : TempsFit fn := tempsFit_of_small hl hfn (by rw [hf]; decide) (by decide)
  exact (tempOffPeak_of_listed hl hfn htemps).symm.trans (congrArg Opd.off hpeak)

theorem sum_returned : ∃ fn : Fn, fn.func = sumFunc ∧ Returns sumFunc [2] 3 ∧ Called fn [2] sumState ∧
    ∃ s', step (still 262144) sumObj sumState = .ok s' ∧
      Certain.ComesTo (fun inp s => step inp sumObj s) (Retv sumFunc sumObj sumState 3) s' := by
  obtain ⟨tops, fns, ha, hl, hfuncs, h⟩ := compiled_returns (u := sum) (o := sumObj) (by decide +kernel)
  obtain rfl : tops = [.func sumFunc] := Option.some.inj (ha.symm.trans rfl)
  obtain ⟨fn, hfn, hf⟩ := hfuncs sumFunc List.mem_cons_self
  obtain ⟨-, hentry, hpeak⟩ := sum_fn hl hfn
  have hcall : Called fn [2] sumState := by
    constructor
    · decide
    · rw [hentry]; decide
    · decide
    · decide
    · rw [hf]; decide
    · rw [hf]; rfl
    · rw [hf]
      rintro (_ | i) p x hp hx
      · obtain rfl : (letter 97 2, Ty.int .u8 1) = p := Option.some.inj hp
        obtain rfl : 2 = x := Option.some.inj hx
        decide
      · simp at hx
    · exact Window.quiet_of_root rfl
  have hrun := h fn hfn (by rw [hf]; decide) [2] 3 (by rw [hf]; exact sum_returns_three) sumState hcall
    (still 262144) 262144 (by rw [hpeak]; decide)
  rw [hf] at hrun
  exact ⟨fn, hf, sum_returns_three, hcall, hrun⟩

end Entering

end Quaint.Correct
