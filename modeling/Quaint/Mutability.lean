import Quaint.Typing

/-!
What an accepted program may modify.

Assignments, increments, `&` and the reaping of a quaint need an operand that
`expr_is_lvalue` lets through. Stripped of its members and subscripts, such an operand is a
variable that is not constant, a parameter, or what a pointer points to.
-/

namespace Quaint.Mutability

open Types Ast Scope TypeCheck Program Typing

/-! ### The expressions of a program -/

mutual
/-- The expression and every expression below it. -/
def subs : TExpr → List TExpr
  | .bexp op l r t => .bexp op l r t :: (subs l ++ subs r)
  | .scop v t => [.scop v t]
  | .atsi l label t => .atsi l label t :: subs l
  | .memb l i t => .memb l i t :: subs l
  | .arow l i t => .arow l i t :: subs l
  | .cast l c t => .cast l c t :: subs l
  | .uexp op r t => .uexp op r t :: subs r
  | .szof a spec t => [.szof a spec t]
  | .fexp l as t => .fexp l as t :: (subs l ++ subsArgs as)
  | .xexp op l t => .xexp op l t :: subs l
  | .aexp b o t => .aexp b o t :: (subs b ++ subs o)
  | .texp c tv fv t => .texp c tv fv t :: (subs c ++ subs tv ++ subs fv)
  | .name so t => [.name so t]
  | .nmbr v t => [.nmbr v t]
  | .strl s t => [.strl s t]
def subsArgs : TArgs → List TExpr
  | .nil => []
  | .cons a rest => subs a ++ subsArgs rest
end

mutual
/-- The expressions that stand in a statement. -/
def stmtExprs : TStmt → List TExpr
  | .decl _ _ init => init.toList
  | .cond e b rest => e :: (stmtsExprs b ++ elifsExprs rest)
  | .blok b | .noin b => stmtsExprs b
  | .whil e b | .dowh b e => e :: stmtsExprs b
  | .retn e => e.toList
  | .wait q f _ _ _ => q :: f.toList
  | .wlab _ _ => []
  | .expr e => [e]
def stmtsExprs : TStmts → List TExpr
  | .nil => []
  | .cons s rest => stmtExprs s ++ stmtsExprs rest
def elifsExprs : TElifs → List TExpr
  | .none => []
  | .els b => stmtsExprs b
  | .elif e b rest => e :: (stmtsExprs b ++ elifsExprs rest)
end

/-- The expression stands in a function of the unit, or is what a global variable starts with. -/
def ExprOf (u : Ast.Unit) (tops : List TTop) (e : TExpr) : Prop :=
  (∃ f, TTop.func f ∈ tops ∧ e ∈ stmtsExprs f.stmts) ∨
    ∃ d, Top.decl d ∈ u.stmts ∧ checkDecl (unitEnv u) d = .ok (some e)

/-! ### Operands -/

/-- `=` and the compound assignments. -/
def BOp.assigns : BOp → Bool
  | .assn | .aspl | .asmi | .asmu | .asdi | .asmo | .asls | .asrs | .asan | .asxo | .asor => true
  | _ => false

/-- The operand that an operator modifies, frees, or takes the address of. -/
def modified : TExpr → Option TExpr
  | .bexp op l _ _ => if BOp.assigns op then some l else none
  | .uexp op r _ =>
    match op with
    | .incr | .decr | .amps => some r
    | .mult => if typeIsQuaint (typeOfExpr r).t then some r else none
    | _ => none
  | .xexp _ l _ => some l
  | _ => none

/-- The operand without its members and subscripts. -/
def root : TExpr → TExpr
  | .memb l _ _ => root l
  | .aexp b _ _ => root b
  | e => e

/-- A variable that is not constant, a parameter, or what a pointer points to. -/
def Modifiable : TExpr → Prop
  | .name so _ =>
    match so.obj with
    | .gvar d | .avar d => d.cons = false
    | .parm _ => True
    | _ => False
  | .uexp .mult p _ => ∃ count sub, typeOfExpr p = .ptr count sub
  | .arow p _ _ => ∃ count sub, typeOfExpr p = .ptr count sub
  | _ => False

section Checked

variable {K : ScopeObj → Ty → Prop}

/-- The operand that is modified is checked, and is an lvalue. -/
lemma modified_lvalue {x m : TExpr} (hx : Checked K x) (h : modified x = some m) :
    Checked K m ∧ exprIsLvalue m = none := by
  cases x
  case bexp op l r t =>
    simp only [modified, Option.ite_none_right_eq_some, Option.some.injEq] at h
    obtain ⟨hop, rfl⟩ := h
    obtain ⟨hx, hl, -⟩ := hx
    refine ⟨hl, ?_⟩
    -- the other operators are no assignments
    cases op <;> simp only [BOp.assigns, Bool.false_eq_true] at hop
    all_goals
      simp only [typeFromBexp, requireScalars, require_ok, requireLvalue_ok] at hx
    case assn => exact hx.1
    all_goals exact hx.2.1
  case uexp op r t =>
    obtain ⟨hx, hr⟩ := hx
    cases op <;> simp only [modified, reduceCtorEq, Option.ite_none_right_eq_some,
      Option.some.injEq] at h
    case mult =>
      obtain ⟨hq, rfl⟩ := h
      simp only [typeFromUexp, hq, if_true, requireLvalue_ok] at hx
      exact ⟨hr, hx.1⟩
    all_goals
      subst h
      simp only [typeFromUexp, requireLvalue_ok] at hx
      exact ⟨hr, hx.1⟩
  case xexp op l t =>
    simp only [modified, Option.some.injEq] at h
    subst h
    obtain ⟨hx, hl⟩ := hx
    simp only [typeFromXexp, requireLvalue_ok] at hx
    exact ⟨hl, hx.1⟩
  all_goals cases h

/-- What `*` gives a pointer's target, or the value of a quaint. -/
lemma mult_operand {p : TExpr} {t : Ty} (hp : Checked K (.uexp .mult p t))
    (hq : (typeOfExpr p).t ≠ .quaint) : ∃ count sub, typeOfExpr p = .ptr count sub := by
  have h := hp.1
  simp only [typeFromUexp] at h
  split at h
  · rename_i hquaint
    exact absurd (by simpa [typeIsQuaint] using hquaint) hq
  · rw [require_ok] at h
    cases ht : typeOfExpr p <;> rw [ht] at h hq <;> simp only [reduceCtorEq, and_false] at h
    case ptr count sub => exact ⟨count, sub, rfl⟩
    case quaint => exact absurd rfl hq

lemma arow_operand {p : TExpr} {i : Nat} {t : Ty} (hp : Checked K (.arow p i t)) :
    ∃ count sub, typeOfExpr p = .ptr count sub := by
  obtain ⟨⟨rhs, h⟩, -⟩ := hp
  simp only [typeFromMemb, require_ok, if_true] at h
  obtain ⟨-, h⟩ := h
  cases rhs <;> simp only [reduceCtorEq] at h
  cases ht : typeOfExpr p <;> rw [ht] at h <;> simp only [reduceCtorEq] at h
  exact ⟨_, _, rfl⟩

theorem lvalue_root : ∀ m : TExpr, Checked K m → exprIsLvalue m = none → Modifiable (root m)
  | .memb l _ _, hm, h => lvalue_root l hm.2 h
  | .aexp b _ _, hm, h => lvalue_root b hm.2.1 h
  | .arow _ _ _, hm, _ => arow_operand hm
  | .name so t, _, h => by
    unfold exprIsLvalue at h
    simp only [root, Modifiable]
    cases hobj : so.obj <;> rw [hobj] at h <;>
      simp only [reduceCtorEq, ite_eq_right_iff, imp_false, Bool.not_eq_true] at h ⊢
    all_goals exact h
  | .uexp op p t, hm, h => by
    cases op <;> simp only [exprIsLvalue, reduceCtorEq, ite_eq_left_iff, imp_false, not_not] at h
    exact mult_operand hm h
  | .bexp _ _ _ _, _, h | .scop _ _, _, h | .atsi _ _ _, _, h | .cast _ _ _, _, h
  | .szof _ _ _, _, h | .fexp _ _ _, _, h | .xexp _ _ _, _, h | .texp _ _ _ _, _, h
  | .nmbr _ _, _, h | .strl _ _, _, h => by simp [exprIsLvalue] at h

/-! ### Everywhere below a checked tree -/

mutual
theorem checked_subs : ∀ e : TExpr, Checked K e → ∀ x ∈ subs e, Checked K x
  | .bexp op l r t, he, x, hx => by
    rcases List.mem_cons.mp hx with rfl | hx
    · exact he
    rcases List.mem_append.mp hx with hx | hx
    · exact checked_subs l he.2.1 x hx
    · exact checked_subs r he.2.2 x hx
  | .atsi l _ _, he, x, hx | .memb l _ _, he, x, hx | .arow l _ _, he, x, hx
  | .uexp _ l _, he, x, hx | .xexp _ l _, he, x, hx => by
    rcases List.mem_cons.mp hx with rfl | hx
    · exact he
    · exact checked_subs l he.2 x hx
  | .cast l _ _, he, x, hx => by
    rcases List.mem_cons.mp hx with rfl | hx
    · exact he
    · exact checked_subs l he.2.2.2 x hx
  | .fexp l as t, he, x, hx => by
    rcases List.mem_cons.mp hx with rfl | hx
    · exact he
    obtain ⟨params, ret, -, -, hl, has⟩ := he
    rcases List.mem_append.mp hx with hx | hx
    · exact checked_subs l hl x hx
    · exact checked_subsArgs params as has x hx
  | .aexp b o t, he, x, hx => by
    rcases List.mem_cons.mp hx with rfl | hx
    · exact he
    rcases List.mem_append.mp hx with hx | hx
    · exact checked_subs b he.2.1 x hx
    · exact checked_subs o he.2.2 x hx
  | .texp c tv fv t, he, x, hx => by
    rcases List.mem_cons.mp hx with rfl | hx
    · exact he
    rcases List.mem_append.mp hx with hx | hx
    · rcases List.mem_append.mp hx with hx | hx
      · exact checked_subs c he.2.1 x hx
      · exact checked_subs tv he.2.2.1 x hx
    · exact checked_subs fv he.2.2.2 x hx
  | .scop _ _, he, x, hx | .szof _ _ _, he, x, hx | .name _ _, he, x, hx | .nmbr _ _, he, x, hx
  | .strl _ _, he, x, hx => by
    obtain rfl := List.mem_singleton.mp hx
    exact he
theorem checked_subsArgs : ∀ (ps : Fields) (as : TArgs), CheckedArgs K ps as →
    ∀ x ∈ subsArgs as, Checked K x
  | _, .nil, _, _, hx => by cases hx
  | .nil, .cons _ _, has, _, _ => has.elim
  | .cons _ _ ps, .cons a rest, has, x, hx => by
    rcases List.mem_append.mp hx with hx | hx
    · exact checked_subs a has.1 x hx
    · exact checked_subsArgs ps rest has.2.2 x hx
end

variable {ret : RetTy}

mutual
theorem checked_stmtExprs : ∀ s : TStmt, CheckedStmt K ret s → ∀ e ∈ stmtExprs s, Checked K e
  | .decl _ _ init, hs, e, he => (hs.2.2 e (Option.mem_toList.mp he)).1
  | .cond c b rest, hs, e, he => by
    rcases List.mem_cons.mp he with rfl | he
    · exact hs.1
    rcases List.mem_append.mp he with he | he
    · exact checked_stmtsExprs b hs.2.1 e he
    · exact checked_elifsExprs rest hs.2.2 e he
  | .blok b, hs, e, he | .noin b, hs, e, he => checked_stmtsExprs b hs e he
  | .whil c b, hs, e, he | .dowh b c, hs, e, he => by
    rcases List.mem_cons.mp he with rfl | he
    · exact hs.1
    · exact checked_stmtsExprs b hs.2 e he
  | .retn none, _, _, he => by cases he
  | .retn (some r), hs, e, he => by
    obtain rfl := List.mem_singleton.mp he
    cases ret with
    | none => exact hs.elim
    | some rt => exact hs.1
  | .wait q f _ _ _, hs, e, he => by
    rcases List.mem_cons.mp he with rfl | he
    · exact hs.1
    · exact (hs.2.2.2 e (Option.mem_toList.mp he)).1
  | .wlab _ _, _, _, he => by cases he
  | .expr _, hs, e, he => by
    obtain rfl := List.mem_singleton.mp he
    exact hs
theorem checked_stmtsExprs : ∀ b : TStmts, CheckedStmts K ret b → ∀ e ∈ stmtsExprs b, Checked K e
  | .nil, _, _, he => by cases he
  | .cons s rest, hb, e, he => by
    rcases List.mem_append.mp he with he | he
    · exact checked_stmtExprs s hb.1 e he
    · exact checked_stmtsExprs rest hb.2 e he
theorem checked_elifsExprs : ∀ r : TElifs, CheckedElifs K ret r → ∀ e ∈ elifsExprs r, Checked K e
  | .none, _, _, he => by cases he
  | .els b, hr, e, he => checked_stmtsExprs b hr e he
  | .elif c b rest, hr, e, he => by
    rcases List.mem_cons.mp he with rfl | he
    · exact hr.1
    rcases List.mem_append.mp he with he | he
    · exact checked_stmtsExprs b hr.2.1 e he
    · exact checked_elifsExprs rest hr.2.2 e he
end

end Checked

/-! ### The unit -/

section Units

variable {u : Ast.Unit} {tops : List TTop} {e : TExpr}

/-- Every expression of an accepted unit is checked, with some meaning of its names. -/
theorem exprOf_checked (h : accept u = some tops) (he : ExprOf u tops e) : ∃ K, Checked K e := by
  rcases he with ⟨f, hf, he⟩ | ⟨d, hd, he⟩
  · exact ⟨_, checked_stmtsExprs _ ((accepted_of_accept h).checked f hf) e he⟩
  · obtain ⟨hbuilt, hcheck⟩ := accept_eq_some h
    simp only [unitBuilt, Bool.and_eq_true, List.all_eq_true] at hbuilt
    have hb : declBuilt d = true := hbuilt.1.2 _ hd
    have hK : EnvKnown (Known tops .nil []) (unitEnv u) := by
      intro objs ho
      obtain rfl : objs = unitScope u := by simpa [unitEnv] using ho
      exact known_unitScope hcheck _ _
    have hc := @checkDecl_checked _ _ ⟨symEnd, .nil, .none, []⟩ hK _ _ hb he
    exact ⟨_, (hc.2.2 e rfl).1⟩

/-- **Whatever an accepted program modifies, reaps or takes the address of is modifiable at its
root.** -/
theorem modified_root (h : accept u = some tops) (he : ExprOf u tops e) {x m : TExpr}
    (hx : x ∈ subs e) (hm : modified x = some m) : Modifiable (root m) := by
  obtain ⟨K, hK⟩ := exprOf_checked h he
  obtain ⟨hc, hl⟩ := modified_lvalue (checked_subs e hK x hx) hm
  exact lvalue_root m hc hl

/-- `p: ptr(u8); m(a: u8[2]) { (*p)++; a[1u] = 1; }` -/
def modifying : Ast.Unit :=
  ⟨[],
    [.decl ⟨false, false, false, [letter 112 0], .ptr 1 (.int .u8 1), .absent⟩,
     .func ⟨false, letter 109 12, .cons (letter 97 14) (.int .u8 2) .nil, .none,
       .cons (.expr (.xexp .incr (.uexp .mult (.name (letter 112 28)))))
         (.cons (.expr (.bexp (letter 97 36) .assn (.aexp (.name (letter 97 36)) (.nmbr 1)) (.nmbr 1)))
           .nil)⟩]⟩

/-- The operands that an expression of the unit modifies. -/
def modifiedIn (tops : List TTop) : List TExpr :=
  tops.flatMap fun
    | .func f => ((stmtsExprs f.stmts).flatMap subs).filterMap modified
    | _ => []

theorem modifying_root : ∃ tops, accept modifying = some tops ∧ (modifiedIn tops).length = 2 ∧
    ∀ m ∈ modifiedIn tops, Modifiable (root m) := by
  have hacc : ((accept modifying).map fun tops => (modifiedIn tops).length) = some 2 := by
    decide +kernel
  obtain ⟨tops, ha, hlen⟩ := Option.map_eq_some_iff.mp hacc
  refine ⟨tops, ha, hlen, fun m hm => ?_⟩
  obtain ⟨t, ht, hm⟩ := List.mem_flatMap.mp hm
  cases t
  case func f =>
    obtain ⟨x, hx, hm⟩ := List.mem_filterMap.mp hm
    obtain ⟨e, he, hx⟩ := List.mem_flatMap.mp hx
    exact modified_root ha (.inl ⟨f, ht, he⟩) hx hm
  all_goals cases hm

end Units

end Quaint.Mutability
