import Quaint.Program
import Quaint.Searching

/-!
What the type checker has found out about the tree it returns.

A checked tree is one whose every node is what the check of its operator returns for the
operands below it; what the names of the tree stand for is a parameter.
-/

namespace Quaint.Typing

open Types Ast Scope TypeCheck Program Searching

/-! ### Results of checks -/

section Results

variable {α β γ : Type}

@[simp] lemma res_bind_ok {r : TRes α} {f : α → TRes β} {b : β} :
    r.bind f = .ok b ↔ ∃ a, r = .ok a ∧ f a = .ok b := by
  cases r <;> simp [TRes.bind]

@[simp] lemma res_both_ok {r : TRes α} {s : TRes β} {f : α → β → TRes γ} {c : γ} :
    r.both s f = .ok c ↔ ∃ a b, r = .ok a ∧ s = .ok b ∧ f a b = .ok c := by
  cases r <;> cases s <;> simp [TRes.both]

@[simp] lemma require_ok {c : Bool} {m : String} {r : TRes α} {a : α} :
    TRes.require c m r = .ok a ↔ c = true ∧ r = .ok a := by
  cases c <;> simp [TRes.require]

lemma requireLvalue_ok {e : TExpr} {r : TRes α} {a : α} :
    requireLvalue e r = .ok a ↔ exprIsLvalue e = none ∧ r = .ok a := by
  unfold requireLvalue
  cases exprIsLvalue e <;> simp

end Results

/-! ### Checked trees -/

section Checked

-- what the names stand for, with their types
variable (K : ScopeObj → Ty → Prop)

mutual
/-- Every node is what its check returns. -/
def Checked : TExpr → Prop
  | .bexp op l r t => typeFromBexp op l r = .ok (.bexp op l r t) ∧ Checked l ∧ Checked r
  | .scop v t => ∃ values tv, t = .enum 1 values tv ∧ values.any (fun w => lexSymbolsEqual w.1 v)
  | .atsi l label t =>
    (∃ unit rhs, typeFromAtsi unit l rhs = .ok (.atsi l label t)) ∧ Checked l
  | .memb l i t => (∃ rhs, typeFromMemb false l rhs = .ok (.memb l i t)) ∧ Checked l
  | .arow l i t => (∃ rhs, typeFromMemb true l rhs = .ok (.arow l i t)) ∧ Checked l
  | .cast l c t => t = c ∧ c.valid = true ∧ (typeOfExpr l).t ≠ .void ∧ Checked l
  | .uexp op r t => typeFromUexp op r = .ok (.uexp op r t) ∧ Checked r
  | .szof _ spec t => t = .int .usize 1 ∧ spec.valid = true
  | .fexp l as t =>
    ∃ params ret, typeOfExpr l = .fptr 1 params ret ∧ t = RetTy.ty ret ∧ Checked l ∧
      CheckedArgs params as
  | .xexp op l t => typeFromXexp op l = .ok (.xexp op l t) ∧ Checked l
  | .aexp b o t => typeFromAexp b o = .ok (.aexp b o t) ∧ Checked b ∧ Checked o
  | .texp c tv fv t => typeFromTexp c tv fv = .ok (.texp c tv fv t) ∧ Checked c ∧ Checked tv ∧ Checked fv
  | .name so t => K so t
  | .nmbr v t => v < 2 ^ 64 ∧ .nmbr v t = typeFromNmbr v
  | .strl _ t => t = .ptr 1 (.int .u8 1)
/-- The arguments are checked against the parameters. -/
def CheckedArgs : Fields → TArgs → Prop
  | .nil, .nil => True
  | .cons _ pt ps, .cons a rest =>
    Checked a ∧ typeEquals (typeOfExpr a) pt = true ∧ CheckedArgs ps rest
  | _, _ => False
end

mutual
def CheckedStmt (ret : RetTy) : TStmt → Prop
  | .decl names t init =>
    names ≠ [] ∧ t.valid = true ∧ ∀ e, init = some e → Checked K e ∧ typeEquals t (typeOfExpr e) = true
  | .cond e b rest => Checked K e ∧ CheckedStmts ret b ∧ CheckedElifs ret rest
  | .blok b | .noin b => CheckedStmts ret b
  | .whil e b | .dowh b e => Checked K e ∧ CheckedStmts ret b
  | .retn e =>
    match e, ret with
    | some e, .some rt => Checked K e ∧ typeEquals rt (typeOfExpr e) = true
    | none, .none => True
    | _, _ => False
  | .wait q f label _ _ =>
    Checked K q ∧ (typeOfExpr q).t = .quaint ∧ (Codegen.wlabOperand label).isSome ∧
      ∀ e, f = some e → Checked K e ∧ (typeOfExpr e).count = 1 ∧ typeIsIntegral (typeOfExpr e).t ∧
        typeIsSigned (typeOfExpr e).t = false
  | .wlab _ _ => True
  | .expr e => Checked K e
def CheckedStmts (ret : RetTy) : TStmts → Prop
  | .nil => True
  | .cons s rest => CheckedStmt ret s ∧ CheckedStmts ret rest
def CheckedElifs (ret : RetTy) : TElifs → Prop
  | .none => True
  | .els b => CheckedStmts ret b
  | .elif e b rest => Checked K e ∧ CheckedStmts ret b ∧ CheckedElifs ret rest
end

end Checked

/-! ### The checker checks -/

/-- A name found in the scopes is known with the type the checker gives it. -/
def ScopesKnown (K : ScopeObj → Ty → Prop) (scopes : Scopes) : Prop :=
  ∀ n so t, typeFromName scopes n = .ok (.name so t) → K so t

section Sound

variable {K : ScopeObj → Ty → Prop} {env : Env}

lemma typeFromName_shape {scopes : Scopes} {n : Sym} {e : TExpr}
    (h : typeFromName scopes n = .ok e) : ∃ so t, e = .name so t := by
  unfold typeFromName at h
  split at h
  · cases h
  · rename_i so _
    cases hobj : so.obj <;> simp only [hobj] at h
    case bcon | bfun => split at h <;> cases h; exact ⟨_, _, rfl⟩
    all_goals cases h <;> exact ⟨_, _, rfl⟩

lemma typeFromBexp_shape {op : BOp} {l r e : TExpr} (h : typeFromBexp op l r = .ok e) :
    ∃ t, e = .bexp op l r t := by
  cases op <;>
    simp only [typeFromBexp, requireScalars, requireLvalue_ok, requireArith, requireBits, require_ok,
      TRes.ok.injEq, reduceCtorEq, if_true, if_false, or_true, true_or, or_self,
      Bool.false_eq_true] at h <;>
    grind

lemma typeFromUexp_shape {op : UOp} {r e : TExpr} (h : typeFromUexp op r = .ok e) :
    ∃ t, e = .uexp op r t := by
  cases op <;>
    simp only [typeFromUexp, requireLvalue_ok, require_ok, TRes.ok.injEq] at h
  case mins => cases hr : typeOfExpr r <;> simp only [hr] at h <;> grind
  case mult =>
    cases hr : typeOfExpr r <;> simp only [hr] at h <;> split at h <;>
      simp only [requireLvalue_ok, require_ok, TRes.ok.injEq, reduceCtorEq, and_false] at h <;> grind
  all_goals grind

lemma typeFromXexp_shape {op : XOp} {l e : TExpr} (h : typeFromXexp op l = .ok e) :
    ∃ t, e = .xexp op l t := by
  simp only [typeFromXexp, requireLvalue_ok, require_ok, TRes.ok.injEq] at h
  grind

lemma typeFromAexp_shape {b o e : TExpr} (h : typeFromAexp b o = .ok e) :
    ∃ t, e = .aexp b o t := by
  simp only [typeFromAexp, require_ok, TRes.ok.injEq] at h
  grind

lemma typeFromTexp_shape {c t f e : TExpr} (h : typeFromTexp c t f = .ok e) :
    ∃ ty, e = .texp c t f ty := by
  simp only [typeFromTexp, require_ok, TRes.ok.injEq] at h
  grind

lemma typeFromAtsi_shape {unit : List ScopeObj} {l e : TExpr} {rhs : Expr}
    (h : typeFromAtsi unit l rhs = .ok e) : ∃ label t, e = .atsi l label t := by
  simp only [typeFromAtsi, require_ok, res_bind_ok, TRes.ok.injEq] at h
  grind

lemma typeFromMemb_shape {arrow : Bool} {l e : TExpr} {rhs : Expr}
    (h : typeFromMemb arrow l rhs = .ok e) :
    ∃ i t, e = if arrow then .arow l i t else .memb l i t := by
  simp only [typeFromMemb, require_ok] at h
  obtain ⟨-, h⟩ := h
  cases rhs <;> simp only [reduceCtorEq] at h
  cases arrow
  · simp only [Bool.false_eq_true, if_false, require_ok] at h
    split at h <;> simp at h
    exact ⟨_, _, h.2.symm⟩
  · simp only [if_true] at h
    split at h <;> simp only [require_ok, reduceCtorEq] at h
    obtain ⟨-, -, h⟩ := h
    split at h <;> simp at h
    exact ⟨_, _, h.symm⟩

lemma typeFromScopedName_checked {symtab : List (Sym × Ty)} {ltok : Sym} {l r : Expr} {e : TExpr}
    (h : typeFromScopedName symtab ltok l r = .ok e) : Checked K e := by
  simp only [typeFromScopedName, res_bind_ok, require_ok] at h
  obtain ⟨n, -, -, h⟩ := h
  split at h
  · split at h
    · cases h
    · split at h
      · simp only [res_bind_ok, require_ok] at h
        obtain ⟨second, -, hv, h⟩ := h
        cases h
        exact ⟨_, _, rfl, hv⟩
      · cases h
  · cases h

mutual
/-- What `type_from_expr` returns is checked. -/
theorem checked_expr (hK : ScopesKnown K env.scopes) : ∀ (e : Expr) (e' : TExpr),
    exprBuilt e = true → typeFromExpr env e = .ok e' → Checked K e'
  | .absent, _, _, h => by cases h
  | .void, _, _, h => by cases h
  | .bexp _ op l r, e', hb, h => by
    simp only [exprBuilt, Bool.and_eq_true] at hb
    cases op
    case scop => exact typeFromScopedName_checked h
    case atsi =>
      simp only [typeFromExpr, res_bind_ok] at h
      obtain ⟨l', hl, h⟩ := h
      obtain ⟨label, t, rfl⟩ := typeFromAtsi_shape h
      exact ⟨⟨_, _, h⟩, checked_expr hK l l' hb.1.2 hl⟩
    case memb =>
      simp only [typeFromExpr, res_bind_ok] at h
      obtain ⟨l', hl, h⟩ := h
      obtain ⟨i, t, rfl⟩ := typeFromMemb_shape h
      exact ⟨⟨_, h⟩, checked_expr hK l l' hb.1.2 hl⟩
    case arow =>
      simp only [typeFromExpr, res_bind_ok] at h
      obtain ⟨l', hl, h⟩ := h
      obtain ⟨i, t, rfl⟩ := typeFromMemb_shape h
      exact ⟨⟨_, h⟩, checked_expr hK l l' hb.1.2 hl⟩
    all_goals
      simp only [typeFromExpr, res_both_ok] at h
      obtain ⟨l', r', hl, hr, h⟩ := h
      obtain ⟨t, rfl⟩ := typeFromBexp_shape h
      exact ⟨h, checked_expr hK l l' hb.1.2 hl, checked_expr hK r r' hb.2 hr⟩
  | .cast l c, e', hb, h => by
    cases c with
    | none => cases hb
    | some c =>
      simp only [exprBuilt, Bool.and_eq_true] at hb
      simp only [typeFromExpr, res_bind_ok, typeFromCast, require_ok, TRes.ok.injEq] at h
      obtain ⟨l', hl, hv, rfl⟩ := h
      exact ⟨rfl, hb.2, by simpa using hv, checked_expr hK l l' hb.1 hl⟩
  | .uexp op r, e', hb, h => by
    simp only [typeFromExpr, res_bind_ok] at h
    obtain ⟨r', hr, h⟩ := h
    obtain ⟨t, rfl⟩ := typeFromUexp_shape h
    exact ⟨h, checked_expr hK r r' hb hr⟩
  | .szof al spec, e', hb, h => by
    cases spec with
    | none => cases hb
    | some s =>
      cases h
      exact ⟨rfl, hb⟩
  | .fexp l as, e', hb, h => by
    simp only [exprBuilt, Bool.and_eq_true] at hb
    simp only [typeFromExpr, res_bind_ok] at h
    obtain ⟨l', hl, h⟩ := h
    split at h
    · rename_i count params ret hty
      simp only [require_ok, beq_iff_eq, res_bind_ok, TRes.ok.injEq] at h
      obtain ⟨rfl, as', ha, rfl⟩ := h
      exact ⟨params, ret, hty, rfl, checked_expr hK l l' hb.1 hl, checked_args hK as params as' hb.2 ha⟩
    · cases h
  | .xexp op l, e', hb, h => by
    simp only [typeFromExpr, res_bind_ok] at h
    obtain ⟨l', hl, h⟩ := h
    obtain ⟨t, rfl⟩ := typeFromXexp_shape h
    exact ⟨h, checked_expr hK l l' hb hl⟩
  | .aexp b o, e', hb, h => by
    simp only [exprBuilt, Bool.and_eq_true] at hb
    simp only [typeFromExpr, res_both_ok] at h
    obtain ⟨b', o', h1, h2, h⟩ := h
    obtain ⟨t, rfl⟩ := typeFromAexp_shape h
    exact ⟨h, checked_expr hK b b' hb.1 h1, checked_expr hK o o' hb.2 h2⟩
  | .texp c t f, e', hb, h => by
    simp only [exprBuilt, Bool.and_eq_true] at hb
    simp only [typeFromExpr, res_both_ok, TRes.ok.injEq] at h
    obtain ⟨c', tf, hc, ⟨t', f', ht, hf, rfl⟩, h⟩ := h
    obtain ⟨ty, rfl⟩ := typeFromTexp_shape h
    exact ⟨h, checked_expr hK c c' hb.1.1 hc, checked_expr hK t t' hb.1.2 ht,
      checked_expr hK f f' hb.2 hf⟩
  | .name n, e', _, h => by
    obtain ⟨so, t, rfl⟩ := typeFromName_shape h
    exact hK n so t h
  | .nmbr v, e', hb, h => by
    cases h
    exact ⟨by simpa [exprBuilt] using hb, rfl⟩
  | .strl s, e', _, h => by
    cases h
    rfl
theorem checked_args (hK : ScopesKnown K env.scopes) : ∀ (as : Args) (ps : Fields) (as' : TArgs),
    argsBuilt as = true → typeFromArgs env ps as = .ok as' → CheckedArgs K ps as'
  | .nil, .nil, _, _, h => by
    cases h
    trivial
  | .nil, .cons _ _ _, _, _, h => by cases h
  | .cons _ _, .nil, _, _, h => by cases h
  | .cons a rest, .cons n pt ps, as', hb, h => by
    simp only [argsBuilt, Bool.and_eq_true] at hb
    simp only [typeFromArgs, res_bind_ok, require_ok, TRes.ok.injEq] at h
    obtain ⟨a', ha, hty, rest', hr, rfl⟩ := h
    exact ⟨checked_expr hK a a' hb.1 ha, hty, checked_args hK rest ps rest' hb.2 hr⟩
end

end Sound

/-! ### Labels -/

lemma bsearchLoop_get {α : Type} {name : α → Sym} {key : Sym} {xs : List α} {fuel lo hi i : Nat}
    (h : bsearchLoop name key xs fuel lo hi = some i) : xs[i]?.isSome := by
  induction fuel generalizing lo hi with
  | zero => cases h
  | succ fuel ih =>
    rw [bsearchLoop] at h
    split at h
    · split at h
      · cases h
      · rename_i x hx
        split at h
        · exact ih h
        · exact ih h
        · cases h
          simp [hx]
    · cases h

lemma resolveWlab_some {unit : List ScopeObj} {a b : String} {f l : Sym} {label : WlabRef}
    (h : resolveWlab unit a b f l = .ok label) : (Codegen.wlabOperand label).isSome := by
  unfold resolveWlab at h
  split at h
  · split at h
    · rename_i sig _ idx hidx
      cases h
      have := bsearchLoop_get hidx
      simp only [Codegen.wlabOperand, Option.isSome_map]
      exact this
    · cases h
  · cases h

lemma typeFromAtsi_label {unit : List ScopeObj} {l : TExpr} {rhs : Expr} {label : WlabRef} {t : Ty}
    (h : typeFromAtsi unit l rhs = .ok (.atsi l label t)) :
    (Codegen.wlabOperand label).isSome := by
  simp only [typeFromAtsi, require_ok, res_bind_ok, TRes.ok.injEq, TExpr.atsi.injEq] at h
  obtain ⟨-, -, label', hl, -, rfl, -⟩ := h
  cases rhs <;> simp only [typeAtLabel, reduceCtorEq] at hl
  case name n =>
    split at hl
    · cases hl
      rfl
    · split at hl
      · cases hl
        rfl
      · cases hl
  case bexp op a b =>
    cases op <;> simp only [reduceCtorEq] at hl
    split at hl
    · exact resolveWlab_some hl
    all_goals cases hl

lemma checkWunt_some {unit : List ScopeObj} {e : Expr} {label : WlabRef}
    (h : checkWunt unit e = .ok label) : (Codegen.wlabOperand label).isSome := by
  cases e <;> simp only [checkWunt, reduceCtorEq] at h
  case bexp op a b =>
    cases op <;> simp only [reduceCtorEq] at h
    split at h
    · exact resolveWlab_some h
    all_goals cases h

/-! ### Names -/

/-- The type a name has by what it stands for. -/
def objType : ScopeKind → Option Ty
  | .dupl => none
  | .gvar d | .avar d => some d.type
  | .parm t => some t
  | .bcon id => scopeBuiltinConsts[id]?.map Prod.snd
  | .bfun id => scopeBuiltinFuncs[id]?.map fun f => .fptr 1 f.params f.rettype
  | .func f => some (.fptr 1 f.params f.rettype)

/-- What a name of a function stands for: a variable of the unit, a local variable, a parameter,
or something built in. -/
def Known (tops : List TTop) (params : Fields) (locals : List (List Sym × Ty)) (so : ScopeObj)
    (t : Ty) : Prop :=
  objType so.obj = some t ∧
    match so.obj with
    | .gvar d => so.name ∈ d.names ∧ TTop.decl d.names d.type ∈ tops
    | .avar d => so.name ∈ d.names ∧ (d.names, d.type) ∈ locals
    | .parm t => (so.name, t) ∈ params.toList
    | .func sig =>
      ∃ g, TTop.func g ∈ tops ∧ g.name = sig.name ∧ g.params = sig.params ∧ g.rettype = sig.rettype
    | _ => True

section Names

variable {K : ScopeObj → Ty → Prop}

/-- Every object of a scope is known with its type. -/
def ScopeKnown (K : ScopeObj → Ty → Prop) (objs : List ScopeObj) : Prop :=
  ∀ so ∈ objs, ∀ t, objType so.obj = some t → K so t

lemma scopeFindObject_mem {n : Sym} {scopes : Scopes} {so : ScopeObj}
    (h : scopeFindObject n scopes = some so) : ∃ objs ∈ scopes, so ∈ objs := by
  induction scopes with
  | nil => cases h
  | cons objs outer ih =>
    have outer_mem : scopeFindObject n outer = some so → ∃ o ∈ objs :: outer, so ∈ o := by
      intro h
      obtain ⟨o, ho, hso⟩ := ih h
      exact ⟨o, List.mem_cons_of_mem _ ho, hso⟩
    rw [scopeFindObject] at h
    split at h
    · exact outer_mem h
    · rename_i found hfound
      have hmem : found ∈ objs := by
        rw [Option.bind_eq_some_iff] at hfound
        obtain ⟨i, -, hi⟩ := hfound
        exact List.mem_of_getElem? hi
      split at h
      · exact outer_mem h
      · split at h
        · split at h
          · cases h
            exact ⟨objs, List.mem_cons_self, hmem⟩
          · cases h
        · cases h
      · cases h
        exact ⟨objs, List.mem_cons_self, hmem⟩

lemma scopesKnown_of_forall {scopes : Scopes} (h : ∀ objs ∈ scopes, ScopeKnown K objs) :
    ScopesKnown K scopes := by
  intro n so t hn
  unfold typeFromName at hn
  split at hn
  · cases hn
  · rename_i found hfound
    obtain ⟨objs, hobjs, hmem⟩ := scopeFindObject_mem hfound
    have key : ∀ t', objType found.obj = some t' → K found t' := h objs hobjs found hmem
    cases hobj : found.obj <;> simp only [hobj, objType] at hn key
    case dupl => cases hn
    case bcon | bfun =>
      split at hn
      · rename_i c hc
        cases hn
        exact key _ (by rw [hc]; rfl)
      · cases hn
    all_goals
      cases hn
      exact key _ rfl

lemma mem_findDuplicatesLoop {n : Nat} {xs : List ScopeObj} {y : ScopeObj}
    (h : y ∈ (findDuplicatesLoop n xs).2) : y.obj = .dupl ∨ y ∈ xs := by
  induction n generalizing xs with
  | zero => exact .inr h
  | succ n ih =>
    cases xs with
    | nil => exact .inr h
    | cons x xs =>
      rw [findDuplicatesLoop] at h
      split at h
      · rcases List.mem_cons.mp h with rfl | h
        · exact .inr List.mem_cons_self
        · exact (ih h).imp id (List.mem_cons_of_mem _)
      · split at h
        · rcases List.mem_cons.mp h with rfl | h
          · exact .inl rfl
          · rcases ih h with h | h
            · exact .inl h
            · rw [List.mem_map] at h
              obtain ⟨z, hz, rfl⟩ := h
              split
              · exact .inl rfl
              · exact .inr (List.mem_cons_of_mem _ hz)
        · rcases List.mem_cons.mp h with rfl | h
          · exact .inr List.mem_cons_self
          · exact (ih h).imp id (List.mem_cons_of_mem _)

/-- Sorting a scope and marking its duplicates adds no object. -/
lemma scopeKnown_array {objs : List ScopeObj} (h : ScopeKnown K objs) :
    ScopeKnown K (scopeArray objs) := by
  intro so hso t ht
  rcases mem_findDuplicatesLoop ((qsort_perm _).mem_iff.mp hso) with hd | hm
  · rw [hd] at ht
    cases ht
  · exact h so hm t ht

end Names

/-! ### Statements -/

mutual
/-- The declarations below a statement. -/
def stmtDecls : Stmt → List Decl
  | .decl d => [d]
  | .cond _ b rest => stmtsDecls b ++ elifsDecls rest
  | .blok b | .noin b | .whil _ b | .dowh b _ => stmtsDecls b
  | _ => []
def stmtsDecls : Stmts → List Decl
  | .nil => []
  | .cons s rest => stmtDecls s ++ stmtsDecls rest
def elifsDecls : Elifs → List Decl
  | .none => []
  | .els b => stmtsDecls b
  | .elif _ b rest => stmtsDecls b ++ elifsDecls rest
end

mutual
/-- The names declared below a checked statement, with their types. -/
def stmtLocals : TStmt → List (List Sym × Ty)
  | .decl names t _ => [(names, t)]
  | .cond _ b rest => stmtsLocals b ++ elifsLocals rest
  | .blok b | .noin b | .whil _ b | .dowh b _ => stmtsLocals b
  | _ => []
def stmtsLocals : TStmts → List (List Sym × Ty)
  | .nil => []
  | .cons s rest => stmtLocals s ++ stmtsLocals rest
def elifsLocals : TElifs → List (List Sym × Ty)
  | .none => []
  | .els b => stmtsLocals b
  | .elif _ b rest => stmtsLocals b ++ elifsLocals rest
end

section Stmts

variable {K : ScopeObj → Ty → Prop} {env : Env} {outer : FuncSig}

def declLocals (d : Decl) : List Sym × Ty := (d.names, d.type)

/-- The variables of these declarations are known. -/
def DeclsKnown (K : ScopeObj → Ty → Prop) (ds : List Decl) : Prop :=
  ∀ d ∈ ds, ∀ n ∈ d.names, K ⟨n, .avar d⟩ d.type

lemma mem_blockObjs {b : Stmts} {so : ScopeObj} (h : so ∈ blockObjs b) :
    ∃ d ∈ stmtsDecls b, ∃ n ∈ d.names, so = ⟨n, .avar d⟩ := by
  match b with
  | .nil => cases h
  | .cons s rest =>
    have tail : so ∈ blockObjs rest →
        ∃ d ∈ stmtsDecls (.cons s rest), ∃ n ∈ d.names, so = ⟨n, .avar d⟩ := by
      intro h
      obtain ⟨d, hd, hn⟩ := mem_blockObjs h
      exact ⟨d, List.mem_append_right _ hd, hn⟩
    cases s
    case decl d =>
      rcases List.mem_append.mp h with h | h
      · rw [avars, List.mem_map] at h
        obtain ⟨n, hn, rfl⟩ := h
        exact ⟨d, List.mem_append_left _ (List.mem_singleton.mpr rfl), n, hn, rfl⟩
      · exact tail h
    all_goals exact tail h

lemma scopeKnown_block {b : Stmts} (hd : DeclsKnown K (stmtsDecls b)) :
    ScopeKnown K (blockScope b) := by
  apply scopeKnown_array
  intro so hso t ht
  obtain ⟨d, hdm, n, hn, rfl⟩ := mem_blockObjs hso
  cases ht
  exact hd d hdm n hn

/-- The scopes of an environment are known. -/
def EnvKnown (K : ScopeObj → Ty → Prop) (env : Env) : Prop := ∀ objs ∈ env.scopes, ScopeKnown K objs

lemma envKnown_enter {b : Stmts} (hK : EnvKnown K env) (hd : DeclsKnown K (stmtsDecls b)) :
    EnvKnown K (env.enter b) := by
  intro objs h
  rcases List.mem_cons.mp h with rfl | h
  · exact scopeKnown_block hd
  · exact hK objs h

lemma declsKnown_append {ds es : List Decl} :
    DeclsKnown K (ds ++ es) ↔ DeclsKnown K ds ∧ DeclsKnown K es := by
  simp only [DeclsKnown, List.mem_append, or_imp, forall_and]

lemma checked_expr_env (hK : EnvKnown K env) {e : Expr} {e' : TExpr} (hb : exprBuilt e = true)
    (h : typeFromExpr env e = .ok e') : Checked K e' :=
  checked_expr (scopesKnown_of_forall hK) e e' hb h

lemma checkDecl_checked (hK : EnvKnown K env) {d : Decl} {init : Option TExpr}
    (hb : declBuilt d = true) (h : checkDecl env d = .ok init) :
    CheckedStmt K outer.rettype (.decl d.names d.type init) := by
  simp only [declBuilt, Bool.and_eq_true, Bool.not_eq_true', List.isEmpty_eq_false_iff] at hb
  refine ⟨hb.1.1.1, hb.1.2, fun e he => ?_⟩
  subst he
  simp only [checkDecl, res_bind_ok] at h
  obtain ⟨i, hi, h⟩ := h
  cases i with
  | none => cases h
  | some e' =>
    simp only [require_ok, TRes.ok.injEq, Option.some.injEq] at h
    obtain ⟨ht, rfl⟩ := h
    have hinit := hb.2
    cases hexpr : d.initExpr <;> rw [hexpr] at hi hinit
    case absent => cases hi
    all_goals
      simp only [optExpr, res_bind_ok, TRes.ok.injEq, Option.some.injEq] at hi
      obtain ⟨e'', he, rfl⟩ := hi
      exact ⟨checked_expr_env hK hinit he, ht⟩

lemma checkRetn_checked (hK : EnvKnown K env) {e : Option Expr} {s : TStmt}
    (hb : stmtBuilt (.retn e) = true) (h : checkRetn env outer e = .ok s) :
    CheckedStmt K outer.rettype s := by
  unfold checkRetn at h
  split at h
  · rename_i e rt hrt
    simp only [res_bind_ok, require_ok, TRes.ok.injEq] at h
    obtain ⟨e', he, ht, rfl⟩ := h
    rw [hrt]
    exact ⟨checked_expr_env hK hb he, ht⟩
  · cases h
  · cases h
  · rename_i hrt
    cases h
    rw [hrt]
    trivial

lemma checkWait_checked (hK : EnvKnown K env) {q f u : Expr} {nb un : Bool} {s : TStmt}
    (hb : stmtBuilt (.wait q f u nb un) = true) (h : checkWait env q f u nb un = .ok s) :
    CheckedStmt K outer.rettype s := by
  simp only [stmtBuilt, Bool.and_eq_true] at hb
  simp only [checkWait, res_both_ok, res_bind_ok, require_ok, TRes.ok.injEq] at h
  obtain ⟨q', r, ⟨q'', hq, hty, rfl⟩, hr, rfl⟩ := h
  have hty' : (typeOfExpr q'').t = .quaint := by simpa using hty
  have hfor : ∀ f', optBuilt f = true → exprBuilt f = true → checkWfor env f = .ok f' →
      Checked K f' ∧ (typeOfExpr f').count = 1 ∧ typeIsIntegral (typeOfExpr f').t = true ∧
        typeIsSigned (typeOfExpr f').t = false := by
    intro f' _ hfb hf
    simp only [checkWfor, res_bind_ok, require_ok, TRes.ok.injEq, Bool.and_eq_true,
      Bool.not_eq_true', beq_iff_eq] at hf
    obtain ⟨f'', hf, hc, ⟨hi, hs⟩, rfl⟩ := hf
    exact ⟨checked_expr_env hK hfb hf, hc, hi, hs⟩
  refine ⟨checked_expr_env hK hb.1.1 hq, hty', ?_, ?_⟩
  · split at hr
    · cases hr
      rfl
    · simp only [res_bind_ok, TRes.ok.injEq] at hr
      obtain ⟨l, hl, rfl⟩ := hr
      exact checkWunt_some hl
    · simp only [res_bind_ok, TRes.ok.injEq] at hr
      obtain ⟨e, -, rfl⟩ := hr
      rfl
  · intro e he
    split at hr
    · cases hr
      cases he
    · simp only [res_bind_ok, TRes.ok.injEq] at hr
      obtain ⟨l, -, rfl⟩ := hr
      cases he
    · rename_i hne _
      simp only [res_bind_ok, TRes.ok.injEq] at hr
      obtain ⟨e', he', rfl⟩ := hr
      cases he
      have hfb := hb.1.2
      cases f
      case absent => simp [checkWfor, typeFromExpr, TRes.bind] at he'
      all_goals exact hfor _ hfb hfb he'

mutual
/-- What the loop of `check_block` returns is checked. -/
theorem checked_stmt {env : Env} (hK : EnvKnown K env) : ∀ (s : Stmt) (s' : Option TStmt),
    stmtBuilt s = true → DeclsKnown K (stmtDecls s) → checkStmt env outer s = .ok s' →
    ∃ t, s' = some t ∧ CheckedStmt K outer.rettype t ∧ stmtLocals t = (stmtDecls s).map declLocals
  | .absent, _, hb, _, _ => by cases hb
  | .void, _, hb, _, _ => by cases hb
  | .decl d, s', hb, hd, h => by
    simp only [checkStmt, res_bind_ok, TRes.ok.injEq] at h
    obtain ⟨init, hi, rfl⟩ := h
    exact ⟨_, rfl, checkDecl_checked hK hb hi, rfl⟩
  | .cond e b rest, s', hb, hd, h => by
    simp only [stmtBuilt, Bool.and_eq_true] at hb
    rw [stmtDecls, declsKnown_append] at hd
    simp only [checkStmt, res_both_ok, TRes.ok.injEq] at h
    obtain ⟨_, rest', ⟨e', b', he, hbl, rfl⟩, hr, rfl⟩ := h
    obtain ⟨hcb, hlb⟩ := checked_stmts (envKnown_enter hK hd.1) b b' hb.1.2 hd.1 hbl
    obtain ⟨hcr, hlr⟩ := checked_elifs hK rest rest' hb.2 hd.2 hr
    exact ⟨_, rfl, ⟨checked_expr_env hK hb.1.1 he, hcb, hcr⟩, by
      rw [stmtLocals, stmtDecls, List.map_append, hlb, hlr]⟩
  | .blok b, s', hb, hd, h => by
    simp only [checkStmt, res_bind_ok, TRes.ok.injEq] at h
    obtain ⟨b', hbl, rfl⟩ := h
    obtain ⟨hcb, hlb⟩ := checked_stmts (envKnown_enter hK hd) b b' hb hd hbl
    exact ⟨_, rfl, hcb, hlb⟩
  | .noin b, s', hb, hd, h => by
    simp only [checkStmt, res_bind_ok, TRes.ok.injEq] at h
    obtain ⟨b', hbl, rfl⟩ := h
    obtain ⟨hcb, hlb⟩ := checked_stmts (envKnown_enter hK hd) b b' hb hd hbl
    exact ⟨_, rfl, hcb, hlb⟩
  | .whil e b, s', hb, hd, h => by
    simp only [stmtBuilt, Bool.and_eq_true] at hb
    simp only [checkStmt, res_both_ok, TRes.ok.injEq] at h
    obtain ⟨e', b', he, hbl, rfl⟩ := h
    obtain ⟨hcb, hlb⟩ := checked_stmts (envKnown_enter hK hd) b b' hb.2 hd hbl
    exact ⟨_, rfl, ⟨checked_expr_env hK hb.1 he, hcb⟩, hlb⟩
  | .dowh b e, s', hb, hd, h => by
    simp only [stmtBuilt, Bool.and_eq_true] at hb
    simp only [checkStmt, res_both_ok, TRes.ok.injEq] at h
    obtain ⟨b', e', hbl, he, rfl⟩ := h
    obtain ⟨hcb, hlb⟩ := checked_stmts (envKnown_enter hK hd) b b' hb.2 hd hbl
    exact ⟨_, rfl, ⟨checked_expr_env hK hb.1 he, hcb⟩, hlb⟩
  | .retn e, s', hb, _, h => by
    simp only [checkStmt, res_bind_ok, TRes.ok.injEq] at h
    obtain ⟨t, ht, rfl⟩ := h
    refine ⟨t, rfl, checkRetn_checked hK hb ht, ?_⟩
    unfold checkRetn at ht
    split at ht <;> simp at ht
    · obtain ⟨_, -, -, rfl⟩ := ht
      rfl
    · subst ht
      rfl
  | .wait q f u nb un, s', hb, _, h => by
    simp only [checkStmt, res_bind_ok, TRes.ok.injEq] at h
    obtain ⟨t, ht, rfl⟩ := h
    refine ⟨t, rfl, checkWait_checked hK hb ht, ?_⟩
    simp only [checkWait, res_both_ok, TRes.ok.injEq] at ht
    obtain ⟨_, _, -, -, rfl⟩ := ht
    rfl
  | .wlab n, s', _, _, h => by
    simp only [checkStmt, res_bind_ok, TRes.ok.injEq] at h
    obtain ⟨t, ht, rfl⟩ := h
    unfold identifyWlab at ht
    split at ht
    · cases ht
      exact ⟨_, rfl, trivial, rfl⟩
    · cases ht
  | .expr e, s', hb, _, h => by
    simp only [checkStmt, res_bind_ok, TRes.ok.injEq] at h
    obtain ⟨e', he, rfl⟩ := h
    exact ⟨_, rfl, checked_expr_env hK hb he, rfl⟩
theorem checked_stmts {env : Env} (hK : EnvKnown K env) : ∀ (b : Stmts) (b' : TStmts),
    stmtsBuilt b = true → DeclsKnown K (stmtsDecls b) → checkStmts env outer b = .ok b' →
    CheckedStmts K outer.rettype b' ∧ stmtsLocals b' = (stmtsDecls b).map declLocals
  | .nil, _, _, _, h => by
    cases h
    exact ⟨trivial, rfl⟩
  | .cons s rest, b', hb, hd, h => by
    simp only [stmtsBuilt, Bool.and_eq_true] at hb
    rw [stmtsDecls, declsKnown_append] at hd
    simp only [checkStmts, res_both_ok] at h
    obtain ⟨s', rest', hs, hr, h⟩ := h
    obtain ⟨t, rfl, hct, hlt⟩ := checked_stmt hK s s' hb.1 hd.1 hs
    obtain ⟨hcr, hlr⟩ := checked_stmts hK rest rest' hb.2 hd.2 hr
    cases h
    exact ⟨⟨hct, hcr⟩, by rw [stmtsLocals, stmtsDecls, List.map_append, hlt, hlr]⟩
theorem checked_elifs {env : Env} (hK : EnvKnown K env) : ∀ (r : Elifs) (r' : TElifs),
    elifsBuilt r = true → DeclsKnown K (elifsDecls r) → checkElifs env outer r = .ok r' →
    CheckedElifs K outer.rettype r' ∧ elifsLocals r' = (elifsDecls r).map declLocals
  | .none, _, _, _, h => by
    cases h
    exact ⟨trivial, rfl⟩
  | .els b, r', hb, hd, h => by
    simp only [checkElifs, res_bind_ok, TRes.ok.injEq] at h
    obtain ⟨b', hbl, rfl⟩ := h
    exact checked_stmts (envKnown_enter hK hd) b b' hb hd hbl
  | .elif e b rest, r', hb, hd, h => by
    simp only [elifsBuilt, Bool.and_eq_true] at hb
    rw [elifsDecls, declsKnown_append] at hd
    simp only [checkElifs, res_both_ok, TRes.ok.injEq] at h
    obtain ⟨_, rest', ⟨e', b', he, hbl, rfl⟩, hr, rfl⟩ := h
    obtain ⟨hcb, hlb⟩ := checked_stmts (envKnown_enter hK hd.1) b b' hb.1.2 hd.1 hbl
    obtain ⟨hcr, hlr⟩ := checked_elifs hK rest rest' hb.2 hd.2 hr
    exact ⟨⟨checked_expr_env hK hb.1.1 he, hcb, hcr⟩, by
      rw [elifsLocals, elifsDecls, List.map_append, hlb, hlr]⟩
end

end Stmts

/-! ### Units -/

/-- The names declared in a checked unit. -/
def declaredNames : List TTop → List Sym
  | [] => []
  | .decl names _ :: rest => names ++ declaredNames rest
  | .func f :: rest =>
    f.name :: f.params.names ++ (stmtsLocals f.stmts).flatMap Prod.fst ++ declaredNames rest
  | .skip :: rest => declaredNames rest

section Units

variable {env : Env} {tops : List TTop}

mutual
lemma stmtDeclared_eq : ∀ s : Stmt, stmtDeclared s = (stmtDecls s).flatMap Decl.names
  | .decl d => by simp [stmtDeclared, stmtDecls]
  | .cond _ b rest => by
    rw [stmtDeclared, stmtDecls, List.flatMap_append, stmtsDeclared_eq b, elifsDeclared_eq rest]
  | .blok b | .noin b | .whil _ b | .dowh b _ => stmtsDeclared_eq b
  | .absent | .void | .retn _ | .wait _ _ _ _ _ | .wlab _ | .expr _ => rfl
lemma stmtsDeclared_eq : ∀ b : Stmts, stmtsDeclared b = (stmtsDecls b).flatMap Decl.names
  | .nil => rfl
  | .cons s rest => by
    rw [stmtsDeclared, stmtsDecls, List.flatMap_append, stmtDeclared_eq s, stmtsDeclared_eq rest]
lemma elifsDeclared_eq : ∀ r : Elifs, elifsDeclared r = (elifsDecls r).flatMap Decl.names
  | .none => rfl
  | .els b => stmtsDeclared_eq b
  | .elif _ b rest => by
    rw [elifsDeclared, elifsDecls, List.flatMap_append, stmtsDeclared_eq b, elifsDeclared_eq rest]
end

/-- A function of the unit and the checked one it becomes. -/
lemma checkFunc_shape {f : Func} {f' : TFunc} (h : checkFunc env f = .ok f') :
    f'.name = f.name ∧ f'.params = f.params ∧ f'.rettype = f.rettype ∧
      checkStmts { env with scopes := funcScope f :: env.scopes } (funcSig f) f.stmts =
        .ok f'.stmts := by
  simp only [checkFunc, res_bind_ok, TRes.ok.injEq] at h
  obtain ⟨b, hb, rfl⟩ := h
  exact ⟨rfl, rfl, rfl, hb⟩

lemma checkTops_cons {t : Top} {rest : List Top} (h : checkTops env (t :: rest) = .ok tops) :
    ∃ t' rest', tops = t' :: rest' ∧ checkTop env t = .ok t' ∧ checkTops env rest = .ok rest' := by
  simp only [checkTops, res_both_ok, TRes.ok.injEq] at h
  obtain ⟨t', rest', ht, hr, rfl⟩ := h
  exact ⟨t', rest', rfl, ht, hr⟩

/-- A checked declaration or function comes from one of the unit. -/
lemma checkTop_decl {d : Decl} {t : TTop} (h : checkTop env (.decl d) = .ok t) :
    t = .decl d.names d.type := by
  simp only [checkTop, res_bind_ok, TRes.ok.injEq] at h
  obtain ⟨_, -, rfl⟩ := h
  rfl

lemma checkTop_func {f : Func} {t : TTop} (h : checkTop env (.func f) = .ok t) :
    ∃ f', t = .func f' ∧ checkFunc env f = .ok f' := by
  simp only [checkTop, res_bind_ok, TRes.ok.injEq] at h
  obtain ⟨f', hf, rfl⟩ := h
  exact ⟨f', rfl, hf⟩

/-- The object stands for a variable or a function of the checked unit. -/
def FromTops (tops : List TTop) (so : ScopeObj) : Prop :=
  match so.obj with
  | .gvar d => so.name ∈ d.names ∧ TTop.decl d.names d.type ∈ tops
  | .func sig =>
    ∃ g, TTop.func g ∈ tops ∧ g.name = sig.name ∧ g.params = sig.params ∧ g.rettype = sig.rettype
  | _ => False

lemma fromTops_cons {t : TTop} {so : ScopeObj} (h : FromTops tops so) : FromTops (t :: tops) so := by
  unfold FromTops at h ⊢
  split at h
  · exact ⟨h.1, List.mem_cons_of_mem _ h.2⟩
  · obtain ⟨g, hg, h⟩ := h
    exact ⟨g, List.mem_cons_of_mem _ hg, h⟩
  · cases h

/-- The objects of the unit are those of its checked statements. -/
lemma mem_topObjs {u : List Top} (h : checkTops env u = .ok tops) {so : ScopeObj}
    (hso : so ∈ topObjs u) : FromTops tops so := by
  induction u generalizing tops with
  | nil => cases hso
  | cons t rest ih =>
    obtain ⟨t', rest', rfl, ht, hr⟩ := checkTops_cons h
    have tail : so ∈ topObjs rest → FromTops (t' :: rest') so := fun h => fromTops_cons (ih hr h)
    cases t
    case decl d =>
      obtain rfl := checkTop_decl ht
      rcases List.mem_append.mp hso with hso | hso
      · rw [gvars, List.mem_map] at hso
        obtain ⟨n, hn, rfl⟩ := hso
        exact ⟨hn, List.mem_cons_self⟩
      · exact tail hso
    case func f =>
      obtain ⟨f', rfl, hf⟩ := checkTop_func ht
      obtain ⟨hn, hp, hrt, -⟩ := checkFunc_shape hf
      rcases List.mem_cons.mp hso with rfl | hso
      · exact ⟨f', List.mem_cons_self, hn, hp, hrt⟩
      · exact tail hso
    all_goals exact tail hso

/-- A checked declaration of the unit comes from a declaration of it. -/
lemma decl_of_checkTops {u : List Top} {names : List Sym} {t : Ty} (h : checkTops env u = .ok tops)
    (hd : TTop.decl names t ∈ tops) : ∃ d, Top.decl d ∈ u ∧ names = d.names ∧ t = d.type := by
  induction u generalizing tops with
  | nil =>
    cases h
    cases hd
  | cons top rest ih =>
    obtain ⟨t', rest', rfl, ht, hr⟩ := checkTops_cons h
    rcases List.mem_cons.mp hd with rfl | hd
    · cases top
      case decl d =>
        obtain he := checkTop_decl ht
        cases he
        exact ⟨d, List.mem_cons_self, rfl, rfl⟩
      case func f =>
        obtain ⟨f', he, -⟩ := checkTop_func ht
        cases he
      all_goals cases ht
    · obtain ⟨d, hdu, h⟩ := ih hr hd
      exact ⟨d, List.mem_cons_of_mem _ hdu, h⟩

lemma known_unitScope {u : Ast.Unit} (h : typeCheckAst u = .ok tops) (params : Fields)
    (locals : List (List Sym × Ty)) : ScopeKnown (Known tops params locals) (unitScope u) := by
  apply scopeKnown_array
  intro so hso t ht
  refine ⟨ht, ?_⟩
  rcases List.mem_append.mp hso with hso | hso
  · rcases List.mem_append.mp hso with hso | hso <;>
    · rw [List.mem_mapIdx] at hso
      obtain ⟨i, hi, rfl⟩ := hso
      trivial
  · have := mem_topObjs h hso
    unfold FromTops at this
    split at this
    · rename_i d hobj
      rw [hobj]
      exact this
    · rename_i sig hobj
      rw [hobj]
      exact this
    · cases this

lemma known_funcScope {f : Func} (hd : DeclsKnown (Known tops f.params ((stmtsDecls f.stmts).map
    declLocals)) (stmtsDecls f.stmts)) :
    ScopeKnown (Known tops f.params ((stmtsDecls f.stmts).map declLocals)) (funcScope f) := by
  apply scopeKnown_array
  intro so hso t ht
  rcases List.mem_append.mp hso with hso | hso
  · rw [parms, List.mem_map] at hso
    obtain ⟨p, hp, rfl⟩ := hso
    exact ⟨ht, hp⟩
  · obtain ⟨d, hdm, n, hn, rfl⟩ := mem_blockObjs hso
    cases ht
    exact hd d hdm n hn

lemma declsKnown_self (tops : List TTop) (params : Fields) (ds : List Decl) :
    DeclsKnown (Known tops params (ds.map declLocals)) ds :=
  fun d hd _ hn => ⟨rfl, hn, List.mem_map.mpr ⟨d, hd, rfl⟩⟩

/-- A checked function of the unit comes from a function of it. -/
lemma func_of_checkTops {u : List Top} {f' : TFunc} (h : checkTops env u = .ok tops)
    (hf : TTop.func f' ∈ tops) : ∃ f, Top.func f ∈ u ∧ checkFunc env f = .ok f' := by
  induction u generalizing tops with
  | nil =>
    cases h
    cases hf
  | cons t rest ih =>
    obtain ⟨t', rest', rfl, ht, hr⟩ := checkTops_cons h
    rcases List.mem_cons.mp hf with rfl | hf
    · cases t
      case func f =>
        obtain ⟨f', he, hf⟩ := checkTop_func ht
        cases he
        exact ⟨f, List.mem_cons_self, hf⟩
      case decl d =>
        obtain he := checkTop_decl ht
        cases he
      all_goals cases ht
    · obtain ⟨f, hfu, hf⟩ := ih hr hf
      exact ⟨f, List.mem_cons_of_mem _ hfu, hf⟩

lemma declaredNames_eq {u : List Top} (h : checkTops env u = .ok tops)
    (hlocals : ∀ f f', Top.func f ∈ u → checkFunc env f = .ok f' →
      stmtsLocals f'.stmts = (stmtsDecls f.stmts).map declLocals) :
    declaredNames tops = topsDeclared u := by
  induction u generalizing tops with
  | nil =>
    cases h
    rfl
  | cons t rest ih =>
    obtain ⟨t', rest', rfl, ht, hr⟩ := checkTops_cons h
    have ihr := ih hr fun f f' hf => hlocals f f' (List.mem_cons_of_mem _ hf)
    cases t
    case decl d =>
      obtain rfl := checkTop_decl ht
      rw [declaredNames, topsDeclared, ihr]
    case func f =>
      obtain ⟨f', rfl, hf⟩ := checkTop_func ht
      obtain ⟨hn, hp, -, -⟩ := checkFunc_shape hf
      have hl := hlocals f f' List.mem_cons_self hf
      rw [declaredNames, topsDeclared, ihr, hn, hp, hl, stmtsDeclared_eq, List.flatMap_map]
      rfl
    all_goals
      cases ht
      try exact ihr

/-- What the passes before the generator leave: every function is checked, and every declared
name is a token of its own. -/
structure Accepted (tops : List TTop) : Prop where
  checked : ∀ f, TTop.func f ∈ tops →
    CheckedStmts (Known tops f.params (stmtsLocals f.stmts)) f.rettype f.stmts
  distinct : ((declaredNames tops).map Sym.beg).Nodup
  globals : ∀ names t, TTop.decl names t ∈ tops → names ≠ [] ∧ t.valid = true
  params : ∀ f, TTop.func f ∈ tops → f.params.valid = true ∧ f.rettype.valid = true

/-- **An accepted unit is checked.** -/
theorem accepted_of_accept {u : Ast.Unit} (h : accept u = some tops) : Accepted tops := by
  unfold accept at h
  split at h
  · rename_i hbuilt
    split at h
    · rename_i tops' hcheck
      cases h
      simp only [Bool.and_eq_true, unitBuilt, List.all_eq_true, decide_eq_true_eq] at hbuilt
      obtain ⟨⟨⟨-, hstmts⟩, hnodup⟩, -⟩ := hbuilt
      have hfunc : ∀ f f', Top.func f ∈ u.stmts → checkFunc (unitEnv u) f = .ok f' →
          CheckedStmts (Known tops f'.params (stmtsLocals f'.stmts)) f'.rettype f'.stmts ∧
            stmtsLocals f'.stmts = (stmtsDecls f.stmts).map declLocals := by
        intro f f' hf hcf
        obtain ⟨-, hp, hrt, hcs⟩ := checkFunc_shape hcf
        have hb : funcBuilt f = true := hstmts _ hf
        simp only [funcBuilt, Bool.and_eq_true] at hb
        have hd := declsKnown_self tops f.params (stmtsDecls f.stmts)
        have hK : EnvKnown (Known tops f.params ((stmtsDecls f.stmts).map declLocals))
            { unitEnv u with scopes := funcScope f :: (unitEnv u).scopes } := by
          intro objs ho
          rcases List.mem_cons.mp ho with rfl | ho
          · exact known_funcScope hd
          · obtain rfl : objs = unitScope u := by simpa [unitEnv] using ho
            exact known_unitScope hcheck _ _
        obtain ⟨hc, hl⟩ := checked_stmts hK f.stmts f'.stmts hb.2 hd hcs
        rw [hl, hp, hrt]
        exact ⟨hc, rfl⟩
      constructor
      · intro f' hf'
        obtain ⟨f, hf, hcf⟩ := func_of_checkTops hcheck hf'
        exact (hfunc f f' hf hcf).1
      · rw [declaredNames_eq hcheck fun f f' hf hcf => (hfunc f f' hf hcf).2]
        exact hnodup
      · intro names t hd
        obtain ⟨d, hdu, rfl, rfl⟩ := decl_of_checkTops hcheck hd
        have hb : declBuilt d = true := hstmts _ hdu
        simp only [declBuilt, Bool.and_eq_true, Bool.not_eq_true', List.isEmpty_eq_false_iff] at hb
        exact ⟨hb.1.1.1, hb.1.2⟩
      · intro f' hf'
        obtain ⟨f, hf, hcf⟩ := func_of_checkTops hcheck hf'
        obtain ⟨-, hp, hrt, -⟩ := checkFunc_shape hcf
        have hb : funcBuilt f = true := hstmts _ hf
        simp only [funcBuilt, Bool.and_eq_true] at hb
        rw [hp, hrt]
        exact ⟨hb.1.1.1, hb.1.2⟩
    · cases h
  · cases h

end Units

end Quaint.Typing
