import Quaint.TypeCheck
import Quaint.Codegen

/-!
Accepted programs: what `ast_build` can return without a complaint, and the passes after it.

The tree keeps every shape `ast_build` can leave behind; here are the ones it leaves when it
returns `AST_OK`: no child is missing, every type is one `validate_typespec` accepts, and
every declared name is a token of its own.
-/

namespace Quaint.Program

open Types Ast Scope TypeCheck Code Codegen

/-! ### Trees without a complaint -/

mutual
def exprBuilt : Expr → Bool
  | .absent | .void => false
  | .bexp _ op l r => op != .cast && op != .coln && exprBuilt l && exprBuilt r
  | .cast l c =>
    match c with
    | some t => exprBuilt l && t.valid
    | none => false
  | .uexp _ r => exprBuilt r
  | .szof _ spec =>
    match spec with
    | some t => t.valid
    | none => false
  | .fexp l args => exprBuilt l && argsBuilt args
  | .xexp _ l => exprBuilt l
  | .aexp b o => exprBuilt b && exprBuilt o
  | .texp c t f => exprBuilt c && exprBuilt t && exprBuilt f
  | .name _ => true
  | .nmbr v => decide (v < 2 ^ 64)
  | .strl _ => true
def argsBuilt : Args → Bool
  | .nil => true
  | .cons a rest => exprBuilt a && argsBuilt rest
end

/-- An expression that may be left out. -/
def optBuilt : Expr → Bool
  | .absent => true
  | e => exprBuilt e

def declBuilt (d : Decl) : Bool :=
  !d.names.isEmpty && namesDistinct d.names && d.type.valid && optBuilt d.initExpr

mutual
def stmtBuilt : Stmt → Bool
  | .absent | .void => false
  | .decl d => declBuilt d
  | .cond e b rest => exprBuilt e && stmtsBuilt b && elifsBuilt rest
  | .blok b | .noin b => stmtsBuilt b
  | .whil e b | .dowh b e => exprBuilt e && stmtsBuilt b
  | .retn e =>
    match e with
    | some e => exprBuilt e
    | none => true
  | .wait q f u _ _ => exprBuilt q && optBuilt f && optBuilt u
  | .wlab _ => true
  | .expr e => exprBuilt e
def stmtsBuilt : Stmts → Bool
  | .nil => true
  | .cons s rest => stmtBuilt s && stmtsBuilt rest
def elifsBuilt : Elifs → Bool
  | .none => true
  | .els b => stmtsBuilt b
  | .elif e b rest => exprBuilt e && stmtsBuilt b && elifsBuilt rest
end

def funcBuilt (f : Func) : Bool :=
  f.params.valid && namesDistinct f.params.names && f.rettype.valid && stmtsBuilt f.stmts

def topBuilt : Top → Bool
  | .absent | .void => false
  | .useu | .type => true
  | .decl d => declBuilt d
  | .func f => funcBuilt f
  | .expr e => exprBuilt e

/-! ### Declared names -/

mutual
/-- The names declared below a statement. -/
def stmtDeclared : Stmt → List Sym
  | .decl d => d.names
  | .cond _ b rest => stmtsDeclared b ++ elifsDeclared rest
  | .blok b | .noin b | .whil _ b | .dowh b _ => stmtsDeclared b
  | _ => []
def stmtsDeclared : Stmts → List Sym
  | .nil => []
  | .cons s rest => stmtDeclared s ++ stmtsDeclared rest
def elifsDeclared : Elifs → List Sym
  | .none => []
  | .els b => stmtsDeclared b
  | .elif _ b rest => stmtsDeclared b ++ elifsDeclared rest
end

def topsDeclared : List Top → List Sym
  | [] => []
  | .decl d :: rest => d.names ++ topsDeclared rest
  | .func f :: rest => f.name :: f.params.names ++ stmtsDeclared f.stmts ++ topsDeclared rest
  | _ :: rest => topsDeclared rest

/-- The unit is one `ast_build` returns with `AST_OK`. -/
def unitBuilt (u : Ast.Unit) : Bool :=
  u.symtab.all (fun e => e.2.valid) && u.stmts.all topBuilt &&
    decide ((topsDeclared u.stmts).map Sym.beg).Nodup

/-! ### The passes -/

/-- The annotated unit, if `ast_build`, `scope_build` and `type_check_ast` succeed. -/
def accept (u : Ast.Unit) : Option (List TTop) :=
  if unitBuilt u && !scopeDuplicated u then
    match typeCheckAst u with
    | .ok tops => some tops
    | _ => none
  else none

/-- An accepted unit is built, and what its check returns. -/
lemma accept_eq_some {u : Ast.Unit} {tops : List TTop} (h : accept u = some tops) :
    unitBuilt u = true ∧ typeCheckAst u = .ok tops := by
  unfold accept at h
  split at h
  · rename_i hbuilt
    split at h
    · rename_i tops' hcheck
      cases h
      exact ⟨(Bool.and_eq_true_iff.mp hbuilt).1, hcheck⟩
    · cases h
  · cases h

/-- What `codegen_obj_create` makes of an accepted unit. -/
def compile (u : Ast.Unit) : Option (Except GenErr Obj) := (accept u).map codegenObjCreate

/-- The unit is accepted, and the object is made. -/
def Compiles (u : Ast.Unit) (o : Obj) : Prop := compile u = some (.ok o)

instance decidableEqExcept {ε α : Type*} [DecidableEq ε] [DecidableEq α] : DecidableEq (Except ε α)
  | .ok a, .ok b => decidable_of_iff (a = b) (Iff.of_eq (Except.ok.injEq a b).symm)
  | .error a, .error b => decidable_of_iff (a = b) (Iff.of_eq (Except.error.injEq a b).symm)
  | .ok _, .error _ => isFalse nofun
  | .error _, .ok _ => isFalse nofun

instance (u : Ast.Unit) (o : Obj) : Decidable (Compiles u o) :=
  inferInstanceAs (Decidable (compile u = some (.ok o)))

/-- A name of one letter. -/
def letter (c : UInt8) (beg : Nat) : Sym := ⟨[c], beg⟩

end Quaint.Program
