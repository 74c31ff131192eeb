import Quaint.Building
import Quaint.Typing
import Quaint.Searching

/-!
The checker on a tree with missing children.

`ast_build` leaves a node of its final kind behind when a child of it is rejected, and the checker
still runs over the tree. Here is exactly when it then reads a child that is not there.
-/

namespace Quaint.Recovery

open Types Ast Scope TypeCheck TRes Parse Validate Building Typing Searching

/-! ### Results -/

section Results

variable {α β γ : Type}

@[simp] lemma bind_crash {r : TRes α} {f : α → TRes β} :
    r.bind f = .crash ↔ r = .crash ∨ ∃ a, r = .ok a ∧ f a = .crash := by
  cases r <;> simp [TRes.bind]

@[simp] lemma both_crash {r : TRes α} {s : TRes β} {f : α → β → TRes γ} :
    r.both s f = .crash ↔
      r = .crash ∨ s = .crash ∨ ∃ a b, r = .ok a ∧ s = .ok b ∧ f a b = .crash := by
  cases r <;> cases s <;> simp [TRes.both]

@[simp] lemma require_crash {c : Bool} {m : String} {r : TRes α} :
    TRes.require c m r = .crash ↔ c = true ∧ r = .crash := by
  cases c <;> simp [TRes.require]

@[simp] lemma requireLvalue_crash {e : TExpr} {r : TRes α} :
    requireLvalue e r = .crash ↔ exprIsLvalue e = none ∧ r = .crash := by
  unfold requireLvalue
  cases exprIsLvalue e <;> simp

end Results

/-! ### Where the checker stumbles -/

/-- The type of an expression, if it has one. -/
def typed (env : Env) (e : Expr) : Option Ty :=
  match typeFromExpr env e with
  | .ok e' => some (typeOfExpr e')
  | _ => none

/-- Along the right spine of a `::`, a name is missing before anything that is not a name. -/
def spineMissing : Expr → Bool
  | .bexp _ .scop l r =>
    match l with
    | .absent => true
    | .name _ => spineMissing r
    | _ => false
  | _ => false

/-- A `::` on the right of which there is nothing, although its name is that of an enumeration. -/
def valueMissing (symtab : List (Sym × Ty)) (l r : Expr) : Bool :=
  match l, r with
  | .name first, .absent => (typeSymtabFind symtab first).any (·.t == .enum)
  | _, _ => false

/-- A label with a part missing, where the part before it is a name. -/
def labelMissing : Expr → Bool
  | .absent => true
  | .bexp _ .scop l r =>
    match l, r with
    | .absent, _ => true
    | .name _, .absent => true
    | _, _ => false
  | _ => false

def isAbsent : Expr → Bool
  | .absent => true
  | _ => false

/-- The check of the expression itself, not of what it is made of, reads a child that is not
there. -/
def stumbles (env : Env) : Expr → Bool
  | .bexp ltok op l r =>
    match op with
    | .scop => spineMissing (.bexp ltok .scop l r) || valueMissing env.symtab l r
    | .atsi => (typed env l).any (fun t => t.count == 1 && typeIsQuaint t.t) && labelMissing r
    | .memb | .arow => (typed env l).any (·.count == 1) && isAbsent r
    | _ => false
  | _ => false

mutual
/-- The expressions `type_from_expr` comes to when it is called on one. -/
def visited (env : Env) : Expr → List Expr
  | .bexp ltok op l r =>
    .bexp ltok op l r ::
      match op with
      | .scop => []
      | .atsi | .memb | .arow => visited env l
      | _ => visited env l ++ visited env r
  | .cast e _ | .uexp _ e | .xexp _ e => visited env e
  | .fexp l args =>
    visited env l ++
      match typed env l with
      | some (.fptr count params _) => if count == 1 then visitedArgs env params args else []
      | _ => []
  | .aexp b o => visited env b ++ visited env o
  | .texp c t f => visited env c ++ (visited env t ++ visited env f)
  | _ => []
/-- Those of the loop over the arguments, which ends at the first one that does not fit. -/
def visitedArgs (env : Env) : Fields → Args → List Expr
  | .cons _ pt ps, .cons a rest =>
    visited env a ++ if (typed env a).any (typeEquals · pt) then visitedArgs env ps rest else []
  | _, _ => []
end

/-! ### Names -/

section Names

/-- What a name stands for has a type, unless the name is declared twice. -/
def ScopeSound (objs : List ScopeObj) : Prop := ∀ so ∈ objs, so.obj = .dupl ∨ (objType so.obj).isSome

def ScopesSound (scopes : Scopes) : Prop := ∀ objs ∈ scopes, ScopeSound objs

lemma scopeSound_array {objs : List ScopeObj} (h : ScopeSound objs) : ScopeSound (scopeArray objs) := by
  intro so hso
  rcases mem_findDuplicatesLoop ((Searching.qsort_perm _).mem_iff.mp hso) with hd | hm
  · exact .inl hd
  · exact h so hm

lemma scopeSound_block (b : Stmts) : ScopeSound (blockScope b) := by
  refine scopeSound_array fun so hso => .inr ?_
  obtain ⟨d, _, n, _, rfl⟩ := mem_blockObjs hso
  rfl

lemma scopeSound_func (f : Func) : ScopeSound (funcScope f) := by
  refine scopeSound_array fun so hso => .inr ?_
  rcases List.mem_append.mp hso with hso | hso
  · obtain ⟨p, _, rfl⟩ := List.mem_map.mp hso
    rfl
  · obtain ⟨d, _, n, _, rfl⟩ := mem_blockObjs hso
    rfl

lemma topObjs_sound (tops : List Top) : ScopeSound (topObjs tops) := by
  induction tops with
  | nil => nofun
  | cons s rest ih =>
    intro so hso
    cases s
    case decl d =>
      rcases List.mem_append.mp hso with hso | hso
      · obtain ⟨n, _, rfl⟩ := List.mem_map.mp hso
        exact .inr rfl
      · exact ih so hso
    case func f =>
      rcases List.mem_cons.mp hso with rfl | hso
      · exact .inr rfl
      · exact ih so hso
    all_goals exact ih so hso

lemma scopeSound_unit (u : Ast.Unit) : ScopeSound (unitScope u) := by
  refine scopeSound_array fun so hso => ?_
  rcases List.mem_append.mp hso with hso | hso
  · rcases List.mem_append.mp hso with hso | hso
    · obtain ⟨i, hi, rfl⟩ := List.mem_mapIdx.mp hso
      exact .inr (by simp [objType, List.getElem?_eq_getElem hi])
    · obtain ⟨i, hi, rfl⟩ := List.mem_mapIdx.mp hso
      exact .inr (by simp [objType, List.getElem?_eq_getElem hi])
  · exact topObjs_sound u.stmts so hso

/-- A name that is declared twice is not found. -/
lemma scopeFindObject_ne_dupl {n : Sym} {scopes : Scopes} {so : ScopeObj}
    (h : scopeFindObject n scopes = some so) : so.obj ≠ .dupl := by
  induction scopes with
  | nil => cases h
  | cons objs outer ih =>
    rw [scopeFindObject] at h
    split at h
    · exact ih h
    · split at h
      · exact ih h
      · rename_i d hobj
        split at h
        · split at h
          · cases h
            rw [hobj]
            nofun
          · cases h
        · cases h
      · rename_i hne _
        cases h
        exact hne

lemma typeFromName_returns {scopes : Scopes} (h : ScopesSound scopes) (n : Sym) :
    typeFromName scopes n ≠ .crash := by
  unfold typeFromName
  split
  · nofun
  · rename_i so hso
    obtain ⟨objs, hobjs, hmem⟩ := scopeFindObject_mem hso
    have hty := (h objs hobjs so hmem).resolve_left (scopeFindObject_ne_dupl hso)
    cases hobj : so.obj with
    | dupl => exact absurd hobj (scopeFindObject_ne_dupl hso)
    | gvar | avar | parm | func => nofun
    | bcon id | bfun id =>
      simp only [hobj, objType, Option.isSome_map] at hty
      obtain ⟨c, hc⟩ := Option.isSome_iff_exists.mp hty
      simp [hc]

end Names

/-! ### Operators -/

section Operators

variable {symtab : List (Sym × Ty)} {unit : List ScopeObj} {env : Env} {l r : TExpr}

lemma typeFromBexp_returns {op : BOp} (hcast : op ≠ .cast) (hcoln : op ≠ .coln) (hscop : op ≠ .scop)
    (hatsi : op ≠ .atsi) (hmemb : op ≠ .memb) (harow : op ≠ .arow) : typeFromBexp op l r ≠ .crash := by
  cases op <;> first
    | contradiction
    | simp [typeFromBexp, requireScalars, requireArith, requireBits]

lemma typeFromUexp_returns {op : UOp} : typeFromUexp op r ≠ .crash := by
  cases op <;> simp only [typeFromUexp, ne_eq, require_crash, requireLvalue_crash, reduceCtorEq,
    and_false, not_false_eq_true]
  case mins => cases typeOfExpr r <;> simp
  case mult =>
    cases typeOfExpr r <;> split <;> simp

lemma typeFromXexp_returns {op : XOp} : typeFromXexp op l ≠ .crash := by
  simp [typeFromXexp]

lemma typeFromAexp_returns : typeFromAexp l r ≠ .crash := by
  simp [typeFromAexp]

lemma typeFromTexp_returns {f : TExpr} : typeFromTexp l r f ≠ .crash := by
  simp [typeFromTexp]

lemma typeFromCast_returns {c : Option Ty} : typeFromCast l c ≠ .crash := by
  cases c <;> simp [typeFromCast]

lemma resolveWlab_returns {a b : String} {f n : Sym} : resolveWlab unit a b f n ≠ .crash := by
  unfold resolveWlab
  split
  · split <;> nofun
  · nofun

lemma scopNames_crash (e : Expr) : scopNames e = .crash ↔ spineMissing e = true := by
  induction e using spineMissing.induct with
  | case1 => simp [scopNames, spineMissing]
  | case2 ltok r name ih => simp [scopNames, spineMissing, ih]
  | case3 ltok l r h1 h2 =>
    cases l <;> simp_all [scopNames, spineMissing]
  | case4 e h =>
    cases e
    case bexp ltok op l r => cases op <;> simp_all [scopNames, spineMissing]
    all_goals simp [scopNames, spineMissing]

/-- A counted spine begins with a name. -/
lemma name_of_scopNames {ltok : Sym} {l r : Expr} {n : Nat}
    (h : scopNames (.bexp ltok .scop l r) = .ok n) :
    ∃ first m, l = .name first ∧ scopNames r = .ok m ∧ n = m + 1 := by
  cases l <;> simp only [scopNames, reduceCtorEq, res_bind_ok, TRes.ok.injEq] at h
  case name first =>
    obtain ⟨m, hm, rfl⟩ := h
    exact ⟨first, m, rfl, hm, rfl⟩

/-- What stands on the right of a counted spine is nothing, or it has a first token. -/
lemma scopLtok_crash {r : Expr} {m : Nat} (h : scopNames r = .ok m) :
    scopLtok r = .crash ↔ r = .absent := by
  cases r <;> simp [scopNames, scopLtok] at h ⊢

lemma typeFromScopedName_crash (ltok : Sym) (l r : Expr) :
    typeFromScopedName symtab ltok l r = .crash ↔
      spineMissing (.bexp ltok .scop l r) = true ∨ valueMissing symtab l r = true := by
  unfold typeFromScopedName
  rw [bind_crash, scopNames_crash]
  refine or_congr Iff.rfl ⟨?_, ?_⟩
  · rintro ⟨n, hn, h⟩
    obtain ⟨first, m, rfl, hm, rfl⟩ := name_of_scopNames hn
    simp only [require_crash] at h
    obtain ⟨-, h⟩ := h
    split at h
    · cases h
    · rename_i found hfound
      split at h
      · rw [bind_crash] at h
        obtain h | ⟨second, -, h⟩ := h
        · obtain rfl := (scopLtok_crash hm).mp h
          simp [valueMissing, hfound, Ty.t]
        · simp at h
      · cases h
  · intro h
    unfold valueMissing at h
    split at h
    · rename_i first
      refine ⟨1, by simp [scopNames, TRes.bind], ?_⟩
      simp only [require_crash]
      refine ⟨rfl, ?_⟩
      cases hfound : typeSymtabFind symtab first with
      | none => simp [hfound] at h
      | some found =>
        cases found
        case enum => simp [scopLtok]
        case int k _ => cases k <;> simp [hfound, Ty.t, IntT.t] at h
        all_goals simp [hfound, Ty.t] at h
    · cases h

lemma typeAtLabel_crash (rhs : Expr) : typeAtLabel unit rhs = .crash ↔ labelMissing rhs = true := by
  cases rhs
  case absent => simp [typeAtLabel, labelMissing]
  case name n =>
    simp only [typeAtLabel, labelMissing]
    split
    · simp
    · split <;> simp
  case bexp ltok op l r =>
    cases op
    case scop =>
      cases l
      case name f => cases r <;> simp [typeAtLabel, labelMissing, resolveWlab_returns]
      all_goals simp [typeAtLabel, labelMissing]
    all_goals simp [typeAtLabel, labelMissing]
  all_goals simp [typeAtLabel, labelMissing]

lemma typeFromAtsi_crash (rhs : Expr) :
    typeFromAtsi unit l rhs = .crash ↔
      ((typeOfExpr l).count == 1 && typeIsQuaint (typeOfExpr l).t) = true ∧ labelMissing rhs = true := by
  simp [typeFromAtsi, typeAtLabel_crash, and_assoc]

lemma typeFromMemb_crash (arrow : Bool) (rhs : Expr) :
    typeFromMemb arrow l rhs = .crash ↔ ((typeOfExpr l).count == 1) = true ∧ isAbsent rhs = true := by
  unfold typeFromMemb
  rw [require_crash]
  refine and_congr Iff.rfl ?_
  cases rhs
  case name field =>
    simp only [isAbsent, Bool.false_eq_true, iff_false]
    split
    · split
      · simp only [require_crash, not_and]
        intro _ _
        split <;> simp
      · simp
    · simp only [require_crash, not_and]
      intro _
      split <;> simp
  all_goals simp [isAbsent]

end Operators

/-! ### Expressions -/

section Exprs

variable {env : Env}

lemma typed_eq_some {e : Expr} {t : Ty} :
    typed env e = some t ↔ ∃ e', typeFromExpr env e = .ok e' ∧ typeOfExpr e' = t := by
  unfold typed
  split <;> simp_all

lemma typed_any {e : Expr} {p : Ty → Bool} :
    (typed env e).any p = true ↔ ∃ e', typeFromExpr env e = .ok e' ∧ p (typeOfExpr e') = true := by
  unfold typed
  split <;> simp_all

/-- A child that is not there is read below one of these. -/
def Stumbles (env : Env) (es : List Expr) : Prop := ∃ s ∈ es, stumbles env s = true

@[simp] lemma stumbles_nil : ¬ Stumbles env [] := nofun

@[simp] lemma stumbles_cons {e : Expr} {es : List Expr} :
    Stumbles env (e :: es) ↔ stumbles env e = true ∨ Stumbles env es := by
  simp [Stumbles]

@[simp] lemma stumbles_append {es fs : List Expr} :
    Stumbles env (es ++ fs) ↔ Stumbles env es ∨ Stumbles env fs := by
  simp [Stumbles, or_and_right, exists_or]

/-- A binary operation whose operands are both checked. -/
lemma bexp_crash {ltok : Sym} {op : BOp} {l r : Expr} (hcast : op ≠ .cast) (hcoln : op ≠ .coln)
    (hscop : op ≠ .scop) (hatsi : op ≠ .atsi) (hmemb : op ≠ .memb) (harow : op ≠ .arow)
    (hl : typeFromExpr env l = .crash ↔ Stumbles env (visited env l))
    (hr : typeFromExpr env r = .crash ↔ Stumbles env (visited env r)) :
    typeFromExpr env (.bexp ltok op l r) = .crash ↔ Stumbles env (visited env (.bexp ltok op l r)) := by
  have hty : typeFromExpr env (.bexp ltok op l r) =
      (typeFromExpr env l).both (typeFromExpr env r) (typeFromBexp op) := by
    cases op <;> first | contradiction | rfl
  have hvis : visited env (.bexp ltok op l r) =
      .bexp ltok op l r :: (visited env l ++ visited env r) := by
    cases op <;> first | contradiction | rfl
  have hself : stumbles env (.bexp ltok op l r) = false := by
    cases op <;> first | contradiction | rfl
  rw [hty, hvis, both_crash, stumbles_cons, stumbles_append, hself, hl, hr]
  simp [typeFromBexp_returns hcast hcoln hscop hatsi hmemb harow]

/-- An operation of which only the left operand is checked: it stumbles over the right one if the
type of the left one lets it get there. -/
lemma operand_crash {l : Expr} {P : Ty → Bool} {Q : Bool} {f : TExpr → TRes TExpr}
    (hl : typeFromExpr env l = .crash ↔ Stumbles env (visited env l))
    (hf : ∀ l', f l' = .crash ↔ P (typeOfExpr l') = true ∧ Q = true) :
    (typeFromExpr env l).bind f = .crash ↔
      ((typed env l).any P && Q) = true ∨ Stumbles env (visited env l) := by
  rw [bind_crash, hl, or_comm, Bool.and_eq_true, typed_any]
  refine or_congr ⟨?_, ?_⟩ Iff.rfl
  · rintro ⟨l', hl', h⟩
    obtain ⟨hP, hQ⟩ := (hf l').mp h
    exact ⟨⟨l', hl', hP⟩, hQ⟩
  · rintro ⟨⟨l', hl', hP⟩, hQ⟩
    exact ⟨l', hl', (hf l').mpr ⟨hP, hQ⟩⟩

mutual
/-- **When the checker reads a child that is not there**: exactly if one of the expressions it
comes to stumbles. -/
theorem typeFromExpr_crash (hs : ScopesSound env.scopes) : ∀ e : Expr, exprShaped e = true →
    (typeFromExpr env e = .crash ↔ Stumbles env (visited env e))
  | .absent, _ | .void, _ | .nmbr _, _ | .strl _, _ => by
    simp [typeFromExpr, visited]
  | .name n, _ => by
    simp [typeFromExpr, visited, typeFromName_returns hs n]
  | .szof _ spec, _ => by
    cases spec <;> simp [typeFromExpr, visited]
  | .bexp ltok op l r, h => by
    simp only [exprShaped, Bool.and_eq_true, bne_iff_ne, ne_eq] at h
    obtain ⟨⟨⟨hcast, hcoln⟩, hl⟩, hr⟩ := h
    have ihl := typeFromExpr_crash hs l hl
    have ihr := typeFromExpr_crash hs r hr
    by_cases hscop : op = .scop
    · subst hscop
      simp [typeFromExpr, visited, stumbles, typeFromScopedName_crash]
    by_cases hatsi : op = .atsi
    · subst hatsi
      rw [typeFromExpr, visited, stumbles_cons]
      exact operand_crash ihl fun l' => typeFromAtsi_crash r
    by_cases hmemb : op = .memb
    · subst hmemb
      rw [typeFromExpr, visited, stumbles_cons]
      exact operand_crash ihl fun l' => typeFromMemb_crash false r
    by_cases harow : op = .arow
    · subst harow
      rw [typeFromExpr, visited, stumbles_cons]
      exact operand_crash ihl fun l' => typeFromMemb_crash true r
    exact bexp_crash hcast hcoln hscop hatsi hmemb harow ihl ihr
  | .cast l c, h => by
    have ih := typeFromExpr_crash hs l h
    simp [typeFromExpr, visited, ih, typeFromCast_returns]
  | .uexp op r, h => by
    have ih := typeFromExpr_crash hs r h
    simp [typeFromExpr, visited, ih, typeFromUexp_returns]
  | .fexp l args, h => by
    simp only [exprShaped, Bool.and_eq_true] at h
    have ih := typeFromExpr_crash hs l h.1
    have iha := fun ps => typeFromArgs_crash hs ps args h.2
    rw [typeFromExpr, visited, stumbles_append, bind_crash, ih]
    refine or_congr Iff.rfl ⟨?_, ?_⟩
    · rintro ⟨l', hl', h⟩
      rw [typed_eq_some.mpr ⟨l', hl', rfl⟩]
      split at h
      · rename_i count params ret hty
        simp only [require_crash, bind_crash, iha, reduceCtorEq, and_false, exists_false, or_false] at h
        simpa [hty, h.1] using h.2
      · cases h
    · intro h
      split at h
      · rename_i count params ret hty
        obtain ⟨l', hl', hty⟩ := typed_eq_some.mp hty
        split at h
        · rename_i hc
          exact ⟨l', hl', by simp [hty, hc, iha, h]⟩
        · exact absurd h stumbles_nil
      · exact absurd h stumbles_nil
  | .xexp op l, h => by
    have ih := typeFromExpr_crash hs l h
    simp [typeFromExpr, visited, ih, typeFromXexp_returns]
  | .aexp b o, h => by
    simp only [exprShaped, Bool.and_eq_true] at h
    have ihb := typeFromExpr_crash hs b h.1
    have iho := typeFromExpr_crash hs o h.2
    simp [typeFromExpr, visited, ihb, iho, typeFromAexp_returns]
  | .texp c t f, h => by
    simp only [exprShaped, Bool.and_eq_true] at h
    have ihc := typeFromExpr_crash hs c h.1.1
    have iht := typeFromExpr_crash hs t h.1.2
    have ihf := typeFromExpr_crash hs f h.2
    simp [typeFromExpr, visited, ihc, iht, ihf, typeFromTexp_returns]
theorem typeFromArgs_crash (hs : ScopesSound env.scopes) : ∀ (ps : Fields) (as : Args),
    argsShaped as = true → (typeFromArgs env ps as = .crash ↔ Stumbles env (visitedArgs env ps as))
  | .nil, .nil, _ | .cons _ _ _, .nil, _ | .nil, .cons _ _, _ => by
    simp [typeFromArgs, visitedArgs]
  | .cons n pt ps, .cons a rest, h => by
    simp only [argsShaped, Bool.and_eq_true] at h
    have iha := typeFromExpr_crash hs a h.1
    have ihr := typeFromArgs_crash hs ps rest h.2
    rw [typeFromArgs, visitedArgs, stumbles_append, bind_crash, iha]
    refine or_congr Iff.rfl ⟨?_, ?_⟩
    · rintro ⟨a', ha', h⟩
      simp only [require_crash, bind_crash, ihr, reduceCtorEq, and_false, exists_false, or_false] at h
      rw [if_pos (typed_any.mpr ⟨a', ha', h.1⟩)]
      exact h.2
    · intro h
      split at h
      · rename_i hty
        obtain ⟨a', ha', hty⟩ := typed_any.mp hty
        exact ⟨a', ha', by simp [hty, ihr, h]⟩
      · exact absurd h stumbles_nil
end

/-! ### Complete expressions -/

lemma spineMissing_whole (e : Expr) (h : exprWhole e = true) : spineMissing e = false := by
  induction e using spineMissing.induct with
  | case1 => simp [exprWhole] at h
  | case2 ltok r name ih =>
    simp only [exprWhole, Bool.and_eq_true] at h
    simpa [spineMissing] using ih h.2
  | case3 ltok l r h1 h2 =>
    cases l <;> simp_all [spineMissing]
  | case4 e h' =>
    cases e
    case bexp ltok op l r => cases op <;> simp_all [spineMissing]
    all_goals simp [spineMissing]

lemma labelMissing_whole {e : Expr} (h : exprWhole e = true) : labelMissing e = false := by
  cases e
  case absent => cases h
  case bexp ltok op l r =>
    cases op
    case scop => cases l <;> cases r <;> simp_all [labelMissing, exprWhole]
    all_goals rfl
  all_goals rfl

lemma valueMissing_whole {symtab : List (Sym × Ty)} {l r : Expr} (h : exprWhole r = true) :
    valueMissing symtab l r = false := by
  cases l <;> cases r <;> simp_all [valueMissing, exprWhole]

/-- The check of a complete expression does not stumble. -/
lemma stumbles_whole {e : Expr} (h : exprWhole e = true) : stumbles env e = false := by
  cases e
  case bexp ltok op l r =>
    have hspine := spineMissing_whole _ h
    simp only [exprWhole, Bool.and_eq_true] at h
    have hr : isAbsent r = false := by cases r <;> first | rfl | exact absurd h.2 Bool.false_ne_true
    cases op <;> simp only [stumbles, hr, Bool.and_false, labelMissing_whole h.2]
    case scop =>
      rw [Bool.or_eq_false_iff]
      exact ⟨hspine, valueMissing_whole h.2⟩
  all_goals rfl

mutual
/-- What the check of a complete expression comes to is complete. -/
lemma not_stumbles_whole : ∀ e : Expr, exprWhole e = true → ¬ Stumbles env (visited env e)
  | .absent, h | .void, h => by cases h
  | .nmbr _, _ | .strl _, _ | .name _, _ | .szof _ _, _ => by simp [visited]
  | .bexp ltok op l r, h => by
    have hself := @stumbles_whole env _ h
    simp only [exprWhole, Bool.and_eq_true] at h
    have ihl := not_stumbles_whole l h.1
    have ihr := not_stumbles_whole r h.2
    cases op <;> simp [visited, hself, ihl, ihr]
  | .cast l c, h => by
    simp only [exprWhole, Bool.and_eq_true] at h
    exact not_stumbles_whole l h.1
  | .uexp _ e, h | .xexp _ e, h => not_stumbles_whole e h
  | .fexp l args, h => by
    simp only [exprWhole, Bool.and_eq_true] at h
    have ih := not_stumbles_whole l h.1
    have iha := fun ps => not_stumbles_wholeArgs ps args h.2
    rw [visited, stumbles_append]
    refine not_or.mpr ⟨ih, ?_⟩
    split
    · split
      · exact iha _
      · exact stumbles_nil
    · exact stumbles_nil
  | .aexp b o, h => by
    simp only [exprWhole, Bool.and_eq_true] at h
    simp [visited, not_stumbles_whole b h.1, not_stumbles_whole o h.2]
  | .texp c t f, h => by
    simp only [exprWhole, Bool.and_eq_true] at h
    simp [visited, not_stumbles_whole c h.1.1, not_stumbles_whole t h.1.2, not_stumbles_whole f h.2]
lemma not_stumbles_wholeArgs : ∀ (ps : Fields) (as : Args), argsWhole as = true →
    ¬ Stumbles env (visitedArgs env ps as)
  | .nil, .nil, _ | .cons _ _ _, .nil, _ | .nil, .cons _ _, _ => by simp [visitedArgs]
  | .cons n pt ps, .cons a rest, h => by
    simp only [argsWhole, Bool.and_eq_true] at h
    have iha := not_stumbles_whole a h.1
    have ihr := not_stumbles_wholeArgs ps rest h.2
    rw [visitedArgs, stumbles_append]
    refine not_or.mpr ⟨iha, ?_⟩
    split
    · exact ihr
    · exact stumbles_nil
end

end Exprs

/-! ### Statements -/

/-- An expression with the names its check can see. -/
def seen (env : Env) (e : Expr) : List (Env × Expr) := (visited env e).map (env, ·)

mutual
/-- The expressions the check of a statement comes to. -/
def stmtVisited (env : Env) (outer : FuncSig) : Stmt → List (Env × Expr)
  | .decl d => seen env d.initExpr
  | .cond e b rest =>
    seen env e ++ (stmtsVisited (env.enter b) outer b ++ elifsVisited env outer rest)
  | .blok b | .noin b => stmtsVisited (env.enter b) outer b
  | .whil e b | .dowh b e => seen env e ++ stmtsVisited (env.enter b) outer b
  | .retn e =>
    match e, outer.rettype with
    | some e, .some _ => seen env e
    | _, _ => []
  | .wait q f _ _ _ => seen env q ++ seen env f
  | .expr e => seen env e
  | _ => []
def stmtsVisited (env : Env) (outer : FuncSig) : Stmts → List (Env × Expr)
  | .nil => []
  | .cons s rest => stmtVisited env outer s ++ stmtsVisited env outer rest
def elifsVisited (env : Env) (outer : FuncSig) : Elifs → List (Env × Expr)
  | .none => []
  | .els b => stmtsVisited (env.enter b) outer b
  | .elif e b rest =>
    seen env e ++ (stmtsVisited (env.enter b) outer b ++ elifsVisited env outer rest)
end

/-- The names a function's statements are checked with. -/
def funcEnv (env : Env) (f : Func) : Env := { env with scopes := funcScope f :: env.scopes }

def topVisited (env : Env) : Top → List (Env × Expr)
  | .decl d => seen env d.initExpr
  | .func f => stmtsVisited (funcEnv env f) (funcSig f) f.stmts
  | _ => []

/-- The expressions the check of a unit comes to. -/
def unitVisited (u : Ast.Unit) : List (Env × Expr) := u.stmts.flatMap (topVisited (unitEnv u))

/-- The checker stumbles over one of the expressions it comes to. -/
def Falls (es : List (Env × Expr)) : Prop := ∃ s ∈ es, stumbles s.1 s.2 = true

instance (es : List (Env × Expr)) : Decidable (Falls es) :=
  inferInstanceAs (Decidable (∃ s ∈ es, stumbles s.1 s.2 = true))

section Stmts

variable {env : Env} {outer : FuncSig}

@[simp] lemma falls_nil : ¬ Falls [] := nofun

@[simp] lemma falls_append {es fs : List (Env × Expr)} : Falls (es ++ fs) ↔ Falls es ∨ Falls fs := by
  simp [Falls, or_and_right, exists_or]

lemma falls_seen {e : Expr} : Falls (seen env e) ↔ Stumbles env (visited env e) := by
  simp [Falls, Stumbles, seen]

/-- Every label of the block is found among those of the function. -/
def Labelled (outer : FuncSig) (labels : List Sym) : Prop :=
  ∀ n ∈ labels, identifyWlab outer n ≠ .crash

lemma labelled_append {xs ys : List Sym} :
    Labelled outer (xs ++ ys) ↔ Labelled outer xs ∧ Labelled outer ys := by
  simp only [Labelled, List.mem_append, or_imp, forall_and]

lemma scopesSound_enter (hs : ScopesSound env.scopes) (b : Stmts) : ScopesSound (env.enter b).scopes :=
  List.forall_mem_cons.mpr ⟨scopeSound_block b, hs⟩

lemma expr_crash (hs : ScopesSound env.scopes) {e : Expr} (he : exprShaped e = true) :
    typeFromExpr env e = .crash ↔ Falls (seen env e) := by
  rw [typeFromExpr_crash hs e he, falls_seen]

lemma optExpr_crash (hs : ScopesSound env.scopes) {e : Expr} (he : exprShaped e = true) :
    optExpr env e = .crash ↔ Falls (seen env e) := by
  rw [← expr_crash hs he]
  cases e <;> simp [optExpr, typeFromExpr]

lemma checkDecl_crash (hs : ScopesSound env.scopes) {d : Decl} (hd : exprShaped d.initExpr = true) :
    checkDecl env d = .crash ↔ Falls (seen env d.initExpr) := by
  rw [checkDecl, bind_crash, optExpr_crash hs hd]
  refine or_iff_left ?_
  rintro ⟨init, -, h⟩
  cases init <;> simp at h

lemma checkRetn_crash (hs : ScopesSound env.scopes) {e : Option Expr}
    (he : stmtShaped (.retn e) = true) :
    checkRetn env outer e = .crash ↔ Falls (stmtVisited env outer (.retn e)) := by
  cases e with
  | none => cases h : outer.rettype <;> simp [checkRetn, stmtVisited, h]
  | some e =>
    have hcrash := expr_crash hs (e := e) he
    cases h : outer.rettype <;> simp [checkRetn, stmtVisited, h, hcrash]

/-- A complete label is looked up. -/
lemma checkWunt_returns {unit : List ScopeObj} {u : Expr} (hu : exprWhole u = true) :
    checkWunt unit u ≠ .crash := by
  cases u
  case bexp ltok op l r =>
    simp only [exprWhole, Bool.and_eq_true] at hu
    cases op
    case scop =>
      cases l <;> cases r <;>
        simp_all [checkWunt, exprWhole, resolveWlab_returns]
    all_goals simp [checkWunt]
  all_goals simp [checkWunt]

lemma checkWait_crash (hs : ScopesSound env.scopes) {q f u : Expr} {nb un : Bool}
    (h : stmtShaped (.wait q f u nb un) = true) :
    checkWait env q f u nb un = .crash ↔ Falls (seen env q ++ seen env f) := by
  simp only [stmtShaped, Bool.and_eq_true] at h
  obtain ⟨⟨hq, hf⟩, hu⟩ := h
  unfold checkWait
  rw [both_crash, falls_append, ← expr_crash hs hq, ← expr_crash hs hf]
  split
  · simp [typeFromExpr]
  · rename_i hne
    have hw : exprWhole u = true := by cases u <;> first | exact hu | exact absurd rfl hne
    simp [typeFromExpr, checkWunt_returns hw]
  · simp [checkWfor]

mutual
/-- What the check of a statement comes to, by its form. -/
theorem checkStmt_crash {env : Env} (hs : ScopesSound env.scopes) : ∀ s : Stmt, stmtShaped s = true →
    Labelled outer (stmtWlabs s) →
    (checkStmt env outer s = .crash ↔ Falls (stmtVisited env outer s))
  | .absent, _, _ | .void, _, _ => by simp [checkStmt, stmtVisited]
  | .decl d, h, _ => by
    simp [checkStmt, stmtVisited, checkDecl_crash hs (d := d) h]
  | .cond e b rest, h, hl => by
    simp only [stmtShaped, Bool.and_eq_true] at h
    rw [stmtWlabs, labelled_append] at hl
    have ihb := checkStmts_crash (scopesSound_enter hs b) b h.1.2 hl.1
    have ihr := checkElifs_crash hs rest h.2 hl.2
    simp [checkStmt, stmtVisited, expr_crash hs h.1.1, ihb, ihr, or_assoc]
  | .blok b, h, hl => by
    have ihb := checkStmts_crash (scopesSound_enter hs b) b h hl
    simp [checkStmt, stmtVisited, ihb]
  | .noin b, h, hl => by
    have ihb := checkStmts_crash (scopesSound_enter hs b) b h hl
    simp [checkStmt, stmtVisited, ihb]
  | .whil e b, h, hl => by
    simp only [stmtShaped, Bool.and_eq_true] at h
    have ihb := checkStmts_crash (scopesSound_enter hs b) b h.2 hl
    simp [checkStmt, stmtVisited, expr_crash hs h.1, ihb]
  | .dowh b e, h, hl => by
    simp only [stmtShaped, Bool.and_eq_true] at h
    have ihb := checkStmts_crash (scopesSound_enter hs b) b h.2 hl
    simp [checkStmt, stmtVisited, expr_crash hs h.1, ihb, or_comm]
  | .retn e, h, _ => by
    simp [checkStmt, checkRetn_crash hs h]
  | .wait q f u nb un, h, _ => by
    simp [checkStmt, stmtVisited, checkWait_crash hs h]
  | .wlab n, _, hl => by
    simp [checkStmt, stmtVisited, hl n (List.mem_singleton.mpr rfl)]
  | .expr e, h, _ => by
    simp [checkStmt, stmtVisited, expr_crash hs (e := e) h]
theorem checkStmts_crash {env : Env} (hs : ScopesSound env.scopes) : ∀ b : Stmts,
    stmtsShaped b = true → Labelled outer (stmtsWlabs b) →
    (checkStmts env outer b = .crash ↔ Falls (stmtsVisited env outer b))
  | .nil, _, _ => by simp [checkStmts, stmtsVisited]
  | .cons s rest, h, hl => by
    simp only [stmtsShaped, Bool.and_eq_true] at h
    rw [stmtsWlabs, labelled_append] at hl
    have ih := checkStmt_crash hs s h.1 hl.1
    have ihr := checkStmts_crash hs rest h.2 hl.2
    rw [checkStmts, stmtsVisited, both_crash, falls_append, ih, ihr]
    refine or_congr Iff.rfl (or_iff_left ?_)
    rintro ⟨s', rest', -, -, h⟩
    cases s' <;> cases h
theorem checkElifs_crash {env : Env} (hs : ScopesSound env.scopes) : ∀ r : Elifs,
    elifsShaped r = true → Labelled outer (elifsWlabs r) →
    (checkElifs env outer r = .crash ↔ Falls (elifsVisited env outer r))
  | .none, _, _ => by simp [checkElifs, elifsVisited]
  | .els b, h, hl => by
    have ihb := checkStmts_crash (scopesSound_enter hs b) b h hl
    simp [checkElifs, elifsVisited, ihb]
  | .elif e b rest, h, hl => by
    simp only [elifsShaped, Bool.and_eq_true] at h
    rw [elifsWlabs, labelled_append] at hl
    have ihb := checkStmts_crash (scopesSound_enter hs b) b h.1.2 hl.1
    have ihr := checkElifs_crash hs rest h.2 hl.2
    simp [checkElifs, elifsVisited, expr_crash hs h.1.1, ihb, ihr, or_assoc]
end

lemma not_falls_seen {e : Expr} (h : optWhole e = true) : ¬ Falls (seen env e) := by
  rw [falls_seen]
  cases e
  case absent => exact stumbles_nil
  all_goals exact not_stumbles_whole _ h

mutual
/-- The checker does not stumble in a complete statement. -/
lemma not_falls_stmt {env : Env} : ∀ s : Stmt, stmtWhole s = true →
    ¬ Falls (stmtVisited env outer s)
  | .absent, h | .void, h => by cases h
  | .decl d, h => not_falls_seen h
  | .cond e b rest, h => by
    simp only [stmtWhole, Bool.and_eq_true] at h
    simp [stmtVisited, not_falls_seen (optWhole_of_whole h.1.1), not_falls_stmts b h.1.2,
      not_falls_elifs rest h.2]
  | .blok b, h | .noin b, h => not_falls_stmts b h
  | .whil e b, h | .dowh b e, h => by
    simp only [stmtWhole, Bool.and_eq_true] at h
    simp [stmtVisited, not_falls_seen (optWhole_of_whole h.1), not_falls_stmts b h.2]
  | .retn e, h => by
    cases e with
    | none => exact falls_nil
    | some e =>
      have := @not_falls_seen env _ (optWhole_of_whole h)
      cases hrt : outer.rettype <;> simp [stmtVisited, hrt, this]
  | .wait q f u nb un, h => by
    simp only [stmtWhole, Bool.and_eq_true] at h
    simp [stmtVisited, not_falls_seen (optWhole_of_whole h.1.1), not_falls_seen h.1.2]
  | .wlab n, _ => falls_nil
  | .expr e, h => not_falls_seen (optWhole_of_whole h)
lemma not_falls_stmts {env : Env} : ∀ b : Stmts, stmtsWhole b = true →
    ¬ Falls (stmtsVisited env outer b)
  | .nil, _ => falls_nil
  | .cons s rest, h => by
    simp only [stmtsWhole, Bool.and_eq_true] at h
    simp [stmtsVisited, not_falls_stmt s h.1, not_falls_stmts rest h.2]
lemma not_falls_elifs {env : Env} : ∀ r : Elifs, elifsWhole r = true →
    ¬ Falls (elifsVisited env outer r)
  | .none, _ => falls_nil
  | .els b, h => not_falls_stmts b h
  | .elif e b rest, h => by
    simp only [elifsWhole, Bool.and_eq_true] at h
    simp [elifsVisited, not_falls_seen (optWhole_of_whole h.1.1), not_falls_stmts b h.1.2,
      not_falls_elifs rest h.2]
end

end Stmts

/-! ### Labels -/

section Labels

/-- Every label of a function is found among those of its node. -/
lemma labelled_func (f : Func) : Labelled (funcSig f) (stmtsWlabs f.stmts) := by
  intro n hn
  have hmem : n ∈ (funcSig f).wlabs.map Prod.fst := by
    rw [wlabs_names]
    exact (qsort_perm _).mem_iff.mpr hn
  obtain ⟨w, hw, rfl⟩ := List.mem_map.mp hmem
  obtain ⟨i, y, hi, hy, -⟩ := bsearch_complete (wlabs_sorted f) hw rfl
  have hfind : (scopeFindWlab (funcSig f) w.1).bind ((funcSig f).wlabs[·]?) = some y := by
    rw [scopeFindWlab, hi]
    exact hy
  unfold identifyWlab
  rw [hfind]
  nofun

end Labels

/-! ### Units -/

section Units

variable {env : Env} {u : Ast.Unit}

lemma checkTop_crash (hs : ScopesSound env.scopes) {s : Top} (h : topShaped s = true) :
    checkTop env s = .crash ↔ Falls (topVisited env s) := by
  cases s
  case decl d =>
    simp [checkTop, topVisited, checkDecl_crash hs (d := d) h]
  case func f =>
    have hsf : ScopesSound (funcEnv env f).scopes := List.forall_mem_cons.mpr ⟨scopeSound_func f, hs⟩
    have := checkStmts_crash hsf f.stmts h (labelled_func f)
    simp only [checkTop, checkFunc, bind_crash, topVisited, ← this]
    simp [funcEnv]
  all_goals simp [checkTop, topVisited]

lemma checkTops_crash (hs : ScopesSound env.scopes) {tops : List Top}
    (h : ∀ s ∈ tops, topShaped s = true) :
    checkTops env tops = .crash ↔ Falls (tops.flatMap (topVisited env)) := by
  induction tops with
  | nil => simp [checkTops]
  | cons s rest ih =>
    obtain ⟨hsh, hrest⟩ := List.forall_mem_cons.mp h
    simp [checkTops, checkTop_crash hs hsh, ih hrest]

/-- The checker on a unit of the right shape. -/
lemma typeCheckAst_crash (h : UnitShaped u) : typeCheckAst u = .crash ↔ Falls (unitVisited u) := by
  have hs : ScopesSound (unitEnv u).scopes := List.forall_mem_singleton.mpr (scopeSound_unit u)
  exact checkTops_crash hs h

/-! ### The passes after `ast_build` -/

/-- The status codes of `scope_build` and `type_check_ast`, which `main` runs on whatever `ast_build`
leaves; nothing if a child that is not there is read. -/
def laterPasses (u : Ast.Unit) : Option (Bool × Bool) :=
  match typeCheckAst u with
  | .crash => none
  | .ok _ => some (scopeDuplicated u, false)
  | .invalid _ => some (scopeDuplicated u, true)

lemma laterPasses_isSome : (laterPasses u).isSome ↔ typeCheckAst u ≠ .crash := by
  unfold laterPasses
  split <;> simp_all

/-- **Error recovery**: whatever `ast_build` complains of, the passes after it end with their status
codes exactly if the checker comes to no expression over which it stumbles. -/
theorem recovers_iff {src : List UInt8} {root : PNode} {ms : List String}
    (h : astBuild src root = some (u, ms)) :
    (laterPasses u).isSome ↔ ¬ Falls (unitVisited u) := by
  rw [laterPasses_isSome, ne_eq, typeCheckAst_crash (astBuild_gives root u ms h).1]

/-- After `AST_OK` the passes end with their status codes. -/
theorem recovers_of_ok {src : List UInt8} {root : PNode} (h : astBuild src root = some (u, [])) :
    (laterPasses u).isSome := by
  rw [laterPasses_isSome, ne_eq, typeCheckAst_crash (astBuild_gives root u [] h).1]
  rintro ⟨s, hs, hst⟩
  obtain ⟨top, htop, hs⟩ := List.mem_flatMap.mp hs
  have hw : topWhole top = true := (astBuild_gives root u [] h).2 rfl top htop
  have hfalls : Falls (topVisited (unitEnv u) top) := ⟨s, hs, hst⟩
  cases top
  case decl d => exact not_falls_seen hw hfalls
  case func f => exact not_falls_stmts f.stmts hw hfalls
  all_goals exact falls_nil hfalls

end Units

/-! ### Sources -/

section Sources

variable {src : List UInt8}

/-- `ast_error`, and the status codes of the passes after it, for a source the parser accepts. -/
def frontEnd (src : List UInt8) : Option (Bool × Option (Bool × Bool)) :=
  match Lex.lex src with
  | .ok tokens =>
    match parse tokens with
    | .ok root => (astBuild src root).map fun p => (!p.2.isEmpty, laterPasses p.1)
    | _ => none
  | _ => none

lemma astBuild_of_frontEnd {status : Bool × Option (Bool × Bool)} (h : frontEnd src = some status) :
    ∃ tokens root u ms, Lex.lex src = .ok tokens ∧ parse tokens = .ok root ∧
      astBuild src root = some (u, ms) ∧ status = (!ms.isEmpty, laterPasses u) := by
  unfold frontEnd at h
  split at h
  · rename_i tokens htok
    split at h
    · rename_i root hroot
      obtain ⟨⟨u, ms⟩, hbuild, h⟩ := Option.map_eq_some_iff.mp h
      exact ⟨tokens, root, u, ms, htok, hroot, hbuild, h.symm⟩
    · cases h
  · cases h

/-- `f{a+(5 msec);}` -/
def missingOperand : List UInt8 :=
  chars ['f', '{', 'a', '+', '(', '5', ' ', 'm', 's', 'e', 'c', ')', ';', '}']

/-- The right operand of a sum is rejected, and the checker does not stumble over it. -/
theorem missingOperand_recovers : ∃ root u ms, astBuild missingOperand root = some (u, ms) ∧ ms ≠ [] ∧
    ¬ Falls (unitVisited u) := by
  have hrun : frontEnd missingOperand = some (true, some (false, true)) := by decide +kernel
  obtain ⟨_, root, u, ms, -, -, hbuild, hstatus⟩ := astBuild_of_frontEnd hrun
  simp only [Prod.mk.injEq, Bool.true_eq, Bool.not_eq_true', List.isEmpty_eq_false_iff] at hstatus
  exact ⟨root, u, ms, hbuild, hstatus.1, (recovers_iff hbuild).mp (hstatus.2 ▸ rfl)⟩

/-- `f{(5 msec)::b;}` -/
def missingName : List UInt8 :=
  chars ['f', '{', '(', '5', ' ', 'm', 's', 'e', 'c', ')', ':', ':', 'b', ';', '}']

/-- The name on the left of `::` is rejected, and the checker reads it. -/
theorem missingName_falls : ∃ tokens root u ms, Lex.lex missingName = .ok tokens ∧
    parse tokens = .ok root ∧ astBuild missingName root = some (u, ms) ∧ ms ≠ [] ∧
    laterPasses u = none := by
  have hrun : frontEnd missingName = some (true, none) := by decide +kernel
  obtain ⟨tokens, root, u, ms, htok, hroot, hbuild, hstatus⟩ := astBuild_of_frontEnd hrun
  simp only [Prod.mk.injEq, Bool.true_eq, Bool.not_eq_true', List.isEmpty_eq_false_iff] at hstatus
  exact ⟨tokens, root, u, ms, htok, hroot, hbuild, hstatus.1, hstatus.2.symm⟩

end Sources

end Quaint.Recovery
