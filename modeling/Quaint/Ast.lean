import Quaint.Types

/-!
The tree `ast_build` hands to the later passes, and the annotated tree the type checker
turns it into.

In the source the checker writes its results into the nodes; here the annotated tree is a
type of its own. `absent` is a null child. A node of kind `VOID` is one whose construction
failed half way.
-/

namespace Quaint.Ast

open Types

/-- The binary operators, in the order of their tokens. -/
inductive BOp
  | assn | aspl | asmi | asmu | asdi | asmo | asls | asrs | asan | asxo | asor
  | coln | scop | atsi | memb | arow
  | equl | neql | lthn | gthn | lteq | gteq | conj | disj
  | plus | mins | mult | divi | modu | lshf | rshf | amps | care | pipe | coma | cast
  deriving DecidableEq

inductive UOp
  | plus | mins | excl | tild | mult | amps | care | incr | decr
  deriving DecidableEq

/-- `++` and `--` after their operand. -/
inductive XOp
  | incr | decr
  deriving DecidableEq

mutual
/-- Expressions. The right side of a cast and the operand of `sizeof` are types, absent
when they were rejected. The argument list of a call, a tree of commas in the source, is
the list that every later pass reads off its right spine. A binary operation keeps its first
token, which the checker reads as a name when it stands on the right of `::`. -/
inductive Expr
  | absent
  | void
  | bexp (ltok : Sym) (op : BOp) (lhs rhs : Expr)
  | cast (lhs : Expr) (cast : Option Ty)
  | uexp (op : UOp) (rhs : Expr)
  | szof (alignof : Bool) (typespec : Option Ty)
  | fexp (lhs : Expr) (args : Args)
  | xexp (op : XOp) (lhs : Expr)
  | aexp (base off : Expr)
  | texp (cond tval fval : Expr)
  | name (tok : Sym)
  | nmbr (value : Nat)
  | strl (str : List UInt8)
inductive Args
  | nil
  | cons (arg : Expr) (rest : Args)
end

structure Decl where
  cons : Bool
  expo : Bool
  stat : Bool
  names : List Sym
  type : Ty
  initExpr : Expr

mutual
inductive Stmt
  | absent
  | void
  | decl (d : Decl)
  | cond (ifExpr : Expr) (ifBlock : Stmts) (rest : Elifs)
  | blok (stmts : Stmts)
  | noin (stmts : Stmts)
  | whil (expr : Expr) (stmts : Stmts)
  | dowh (stmts : Stmts) (expr : Expr)
  | retn (expr : Option Expr)
  | wait (wquaint wfor wunt : Expr) (noblock units : Bool)
  | wlab (name : Sym)
  | expr (e : Expr)
inductive Stmts
  | nil
  | cons (s : Stmt) (rest : Stmts)
/-- The `elif` parts of a conditional, and its `else` if there is one. -/
inductive Elifs
  | none
  | els (block : Stmts)
  | elif (expr : Expr) (block : Stmts) (rest : Elifs)
end

structure Func where
  expo : Bool
  name : Sym
  params : Fields
  rettype : RetTy
  stmts : Stmts

/-- The statements of a unit. -/
inductive Top
  | absent
  | void
  | useu
  | type
  | decl (d : Decl)
  | func (f : Func)
  | expr (e : Expr)

/-- A unit, with the type names `ast_build` entered into the symbol table. -/
structure Unit where
  symtab : List (Sym × Ty)
  stmts : List Top

/-! ### Annotated trees -/

/-- `struct ast_func` as far as a scope object and a wait label need it. The place of the
name stands for the address of the node. -/
structure FuncSig where
  name : Sym
  params : Fields
  rettype : RetTy
  wlabs : List (Sym × Nat)

/-- What a name of a scope stands for. -/
inductive ScopeKind
  | dupl
  | bcon (id : Nat)
  | bfun (id : Nat)
  | gvar (d : Decl)
  | avar (d : Decl)
  | func (f : FuncSig)
  | parm (type : Ty)

structure ScopeObj where
  name : Sym
  obj : ScopeKind

/-- The `func` and `wlab_idx` fields of `@` and of `wait`. -/
inductive WlabRef
  | none
  | atEnd
  | wlab (func : FuncSig) (idx : Nat)

mutual
/-- Expressions with the types and references the checker found. -/
inductive TExpr
  | bexp (op : BOp) (lhs rhs : TExpr) (type : Ty)
  | scop (value : Sym) (type : Ty)
  | atsi (lhs : TExpr) (label : WlabRef) (type : Ty)
  | memb (lhs : TExpr) (memberIdx : Nat) (type : Ty)
  | arow (lhs : TExpr) (memberIdx : Nat) (type : Ty)
  | cast (lhs : TExpr) (cast : Ty) (type : Ty)
  | uexp (op : UOp) (rhs : TExpr) (type : Ty)
  | szof (alignof : Bool) (typespec : Ty) (type : Ty)
  | fexp (lhs : TExpr) (args : TArgs) (type : Ty)
  | xexp (op : XOp) (lhs : TExpr) (type : Ty)
  | aexp (base off : TExpr) (type : Ty)
  | texp (cond tval fval : TExpr) (type : Ty)
  | name (obj : ScopeObj) (type : Ty)
  | nmbr (value : Nat) (type : Ty)
  | strl (str : List UInt8) (type : Ty)
/-- The arguments of a call, in order. -/
inductive TArgs
  | nil
  | cons (arg : TExpr) (rest : TArgs)
end

/-- `type_of_expr` -/
def typeOfExpr : TExpr → Ty
  | .bexp _ _ _ t | .scop _ t | .atsi _ _ t | .memb _ _ t | .arow _ _ t | .cast _ _ t
  | .uexp _ _ t | .szof _ _ t | .fexp _ _ t | .xexp _ _ t | .aexp _ _ t | .texp _ _ _ t
  | .name _ t | .nmbr _ t | .strl _ t => t

mutual
inductive TStmt
  | decl (names : List Sym) (type : Ty) (initExpr : Option TExpr)
  | cond (ifExpr : TExpr) (ifBlock : TStmts) (rest : TElifs)
  | blok (stmts : TStmts)
  | noin (stmts : TStmts)
  | whil (expr : TExpr) (stmts : TStmts)
  | dowh (stmts : TStmts) (expr : TExpr)
  | retn (expr : Option TExpr)
  | wait (wquaint : TExpr) (wfor : Option TExpr) (label : WlabRef) (noblock units : Bool)
  | wlab (func id : Nat)
  | expr (e : TExpr)
inductive TStmts
  | nil
  | cons (s : TStmt) (rest : TStmts)
inductive TElifs
  | none
  | els (block : TStmts)
  | elif (expr : TExpr) (block : TStmts) (rest : TElifs)
end

structure TFunc where
  name : Sym
  params : Fields
  rettype : RetTy
  stmts : TStmts

inductive TTop
  | skip
  | decl (names : List Sym) (type : Ty)
  | func (f : TFunc)

/-- The address of the node of a function, which is neither null nor `1`. -/
def nodeAddr (name : Sym) : Nat := name.beg + 2

end Quaint.Ast
