import Quaint.Scope

/-!
The type checker.

A check returns the annotated tree, or the complaints it printed. Where the source goes on
after a complaint, so does the model; `crash` is the dereference of a null child.
-/

namespace Quaint.TypeCheck

open Types Ast Scope

/-- What a check returns. -/
inductive TRes (α : Type)
  | ok (a : α)
  | invalid (complaints : List String)
  | crash

namespace TRes

variable {α β γ : Type}

def bind (r : TRes α) (f : α → TRes β) : TRes β :=
  match r with
  | ok a => f a
  | invalid ms => invalid ms
  | crash => crash

/-- Both parts are checked before either is looked at. -/
def both (r : TRes α) (s : TRes β) (f : α → β → TRes γ) : TRes γ :=
  match r, s with
  | crash, _ => crash
  | _, crash => crash
  | ok a, ok b => f a b
  | invalid ms, ok _ => invalid ms
  | ok _, invalid ms => invalid ms
  | invalid ms, invalid ns => invalid (ms ++ ns)

/-- Go on if the test holds, else complain. -/
def require (c : Bool) (complaint : String) (r : TRes α) : TRes α :=
  if c then r else invalid [complaint]

end TRes

open TRes

/-- `expr_is_lvalue`: nothing, or the complaint. -/
def exprIsLvalue : TExpr → Option String
  | .memb lhs _ _ => exprIsLvalue lhs
  | .arow _ _ _ => none
  | .uexp .mult rhs _ =>
    if (typeOfExpr rhs).t ≠ .quaint then none else some "lvalue is required"
  | .aexp base _ _ => exprIsLvalue base
  | .name so _ =>
    match so.obj with
    | .bcon _ => some "builtin constant is not modifiable"
    | .bfun _ => some "builtin func is not modifiable"
    | .gvar d | .avar d => if d.cons then some "constant is not modifiable" else none
    | .func _ => some "function is not modifiable"
    | .parm _ => none
    | .dupl => some "lvalue is required"
  | _ => some "lvalue is required"

def requireLvalue {α : Type} (e : TExpr) (r : TRes α) : TRes α :=
  match exprIsLvalue e with
  | none => r
  | some complaint => .invalid [complaint]

/-- Both operands are scalar. -/
def requireScalars {α : Type} (l r : Ty) (res : TRes α) : TRes α :=
  require (l.count == 1 && r.count == 1) "operator requires scalar operands" res

/-- The tests shared by `+`, `-`, `*`, `/`, `%` and their assignments. -/
def requireArith {α : Type} (pointers : Bool) (l r : Ty) (res : TRes α) : TRes α :=
  (if pointers then
    fun res => require (typeIsIntegral l.t || typeIsPtr l.t) "non-integral left operand" <|
      require (l.t != .vptr) "arithmetic on void pointer" <|
      require (l.t != .fptr) "arithmetic on function pointer" res
  else require (typeIsIntegral l.t) "non-integral left operand") <|
  require (typeIsIntegral r.t) "non-integral right operand" <|
  require (l.size == r.size) "differing type sizes" <|
  require (l.signd == r.signd) "operands differ in signedness" res

/-- The tests shared by the shifts, the bitwise operators and their assignments. -/
def requireBits {α : Type} (l r : Ty) (res : TRes α) : TRes α :=
  require (typeIsIntegral l.t) "non-integral left operand" <|
  require (typeIsIntegral r.t) "non-integral right operand" <|
  require (typeIsUnsigned l.t) "signed left operand" <|
  require (typeIsUnsigned r.t) "signed right operand" <|
  require (l.size == r.size) "differing type sizes" res

/-- `type_from_bexp`, where both operands are expressions -/
def typeFromBexp (op : BOp) (l r : TExpr) : TRes TExpr :=
  let lt := typeOfExpr l
  let rt := typeOfExpr r
  match op with
  | .assn =>
    requireLvalue l <|
    require (typeEquals lt rt) "incompatible types in assignment" <|
    .ok (.bexp op l r rt)
  | .aspl | .asmi =>
    requireScalars lt rt <| requireLvalue l <| requireArith true lt rt <| .ok (.bexp op l r lt)
  | .asmu | .asdi | .asmo =>
    requireScalars lt rt <| requireLvalue l <| requireArith false lt rt <| .ok (.bexp op l r lt)
  | .asls | .asrs | .asan | .asxo | .asor =>
    requireScalars lt rt <| requireLvalue l <| requireBits lt rt <| .ok (.bexp op l r lt)
  | .equl | .neql | .lthn | .gthn | .lteq | .gteq | .conj | .disj =>
    (if op = .equl ∨ op = .neql then require (lt.count == rt.count) "differing array sizes"
      else requireScalars lt rt) <|
    require (typeIsIntegral lt.t || typeIsPtr lt.t) "non-integral left operand" <|
    require (typeIsIntegral rt.t || typeIsPtr rt.t) "non-integral right operand" <|
    require (lt.size == rt.size) "differing type sizes" <|
    require (lt.signd == rt.signd) "operands differ in signedness" <|
    .ok (.bexp op l r (.int .u8 1))
  | .plus | .mins => requireScalars lt rt <| requireArith true lt rt <| .ok (.bexp op l r lt)
  | .mult | .divi | .modu =>
    requireScalars lt rt <| requireArith false lt rt <| .ok (.bexp op l r lt)
  | .lshf | .rshf | .amps | .care | .pipe =>
    requireScalars lt rt <| requireBits lt rt <| .ok (.bexp op l r lt)
  | .coma => .ok (.bexp op l r rt)
  | .coln | .cast | .scop | .atsi | .memb | .arow => .crash

/-- `type_symtab_find` -/
def typeSymtabFind (symtab : List (Sym × Ty)) (s : Sym) : Option Ty :=
  (symtab.find? (fun e => lexSymbolsEqual e.1 s)).map Prod.snd

/-- The number of names along the right spine of a `::`. The loop ends where there is nothing on
the right. -/
def scopNames : Expr → TRes Nat
  | .bexp _ .scop l r =>
    match l with
    | .name _ => (scopNames r).bind fun n => .ok (n + 1)
    | .absent => .crash
    | _ => .invalid ["only a name can be scoped"]
  | .name _ => .ok 1
  | .absent => .ok 0
  | _ => .invalid ["only a name can be scoped"]

/-- The first token of a name or of a `::`. -/
def scopLtok : Expr → TRes Sym
  | .name second => .ok second
  | .bexp ltok _ _ _ => .ok ltok
  | _ => .crash

/-- `type_from_scoped_name` -/
def typeFromScopedName (symtab : List (Sym × Ty)) (ltok : Sym) (lhs rhs : Expr) : TRes TExpr :=
  (scopNames (.bexp ltok .scop lhs rhs)).bind fun n =>
  require (n ≤ 2) "no more than 2 names can be scoped" <|
  match lhs with
  | .name first =>
    match typeSymtabFind symtab first with
    | none => .invalid ["type not found"]
    | some found =>
      match found with
      | .enum _ values tv =>
        (scopLtok rhs).bind fun second =>
        require (values.any (fun v => lexSymbolsEqual v.1 second)) "enum value not found" <|
        .ok (.scop second (.enum 1 values tv))
      | _ => .invalid ["type is not an enum"]
  | _ => .crash

def symStart : Sym := ⟨[115, 116, 97, 114, 116], 0⟩
def symEnd : Sym := ⟨[101, 110, 100], 0⟩

/-- The label a name of the form `function::label` refers to. -/
def resolveWlab (unit : List ScopeObj) (noFunc noLabel : String) (f l : Sym) : TRes WlabRef :=
  match scopeFindObject f [unit] with
  | some ⟨_, .func sig⟩ =>
    match scopeFindWlab sig l with
    | some idx => .ok (.wlab sig idx)
    | none => .invalid [noLabel]
  | _ => .invalid [noFunc]

/-- The right operand of `@`. -/
def typeAtLabel (unit : List ScopeObj) : Expr → TRes WlabRef
  | .absent => .crash
  | .name n =>
    if lexSymbolsEqual symStart n then .ok .none
    else if lexSymbolsEqual symEnd n then .ok .atEnd
    else .invalid ["@ rhs can only be \"start\" or \"end\""]
  | .bexp _ .scop l r =>
    match l, r with
    | .name f, .name n =>
      resolveWlab unit "no such function" "no such label in function" f n
    | .absent, _ => .crash
    | .name _, .absent => .crash
    | _, _ => .invalid ["invalid label"]
  | .bexp _ _ _ _ | .cast _ _ => .invalid ["invalid label"]
  | _ => .invalid ["@ rhs must be a bexp or \"start\""]

/-- `type_from_bexp` for `@` -/
def typeFromAtsi (unit : List ScopeObj) (l : TExpr) (rhs : Expr) : TRes TExpr :=
  require ((typeOfExpr l).count == 1) "@ requires scalar value" <|
  require (typeIsQuaint (typeOfExpr l).t) "@ requires an lhs quaint" <|
  (typeAtLabel unit rhs).bind fun label => .ok (.atsi l label (.int .u8 1))

/-- The member of that name, with its position. -/
def findMember (field : Sym) : Fields → Nat → Option (Nat × Ty)
  | .nil, _ => none
  | .cons n t rest, i =>
    if lexSymbolsEqual field n then some (i, t) else findMember field rest (i + 1)

def isAggregate (t : TypeT) : Bool := t == .struct || t == .union

/-- `type_from_bexp` for `.` and `->` -/
def typeFromMemb (arrow : Bool) (l : TExpr) (rhs : Expr) : TRes TExpr :=
  let lt := typeOfExpr l
  require (lt.count == 1) "operator requires scalar value" <|
  match rhs with
  | .absent => .crash
  | .name field =>
    if arrow then
      match lt with
      | .ptr _ sub =>
        require (isAggregate sub.t) "expecting a pointer to union or struct" <|
        require (sub.count == 1) "arrow requires scalar value" <|
        match findMember field sub.members 0 with
        | none => .invalid ["member not found"]
        | some (i, t) => .ok (.arow l i t)
      | _ => .invalid ["expecting a pointer to union or struct"]
    else
      require (isAggregate lt.t) "expecting a union or a struct" <|
      match findMember field lt.members 0 with
      | none => .invalid ["member not found"]
      | some (i, t) => .ok (.memb l i t)
  | _ => .invalid ["expecting a field name"]

/-- `type_from_bexp` for the casts -/
def typeFromCast (l : TExpr) (cast : Option Ty) : TRes TExpr :=
  match cast with
  | none => .invalid ["invalid type in cast"]
  | some c =>
    require ((typeOfExpr l).t != .void) "type not convertible" <| .ok (.cast l c c)

/-- The type code after an unsigned one. -/
def IntT.next : IntT → IntT
  | .u8 => .i8 | .u16 => .i16 | .u32 => .i32 | .u64 => .i64 | .usize => .ssize | .uptr => .iptr
  | k => k

/-- `type_from_uexp` -/
def typeFromUexp (op : UOp) (r : TExpr) : TRes TExpr :=
  let rt := typeOfExpr r
  match op with
  | .plus =>
    require (rt.count == 1) "unary plus requires a scalar value" <|
    require (typeIsIntegral rt.t) "unary plus to non-integral expr" <| .ok (.uexp op r rt)
  | .mins =>
    require (rt.count == 1) "unary minus requires a scalar value" <|
    require (typeIsIntegral rt.t) "unary minus to non-integral expr" <|
    match rt with
    | .int k c => .ok (.uexp op r (.int (IntT.next k) c))
    | _ => .invalid ["unary minus to enum"]
  | .excl =>
    require (rt.count == 1) "unary not requires a scalar value" <|
    require (typeIsIntegral rt.t || typeIsPtr rt.t || typeIsQuaint rt.t)
      "unary not to non-integral expr" <|
    .ok (.uexp op r rt)
  | .tild => .ok (.uexp op r (.quaint 1 rt))
  | .mult =>
    (if typeIsQuaint rt.t then requireLvalue r else fun res => res) <|
    require (rt.count == 1) "unary star requires a scalar pointer/quaint" <|
    match rt with
    | .ptr _ s | .quaint _ s => .ok (.uexp op r s)
    | .vptr _ => .invalid ["unary star to void pointer"]
    | .fptr _ _ _ => .invalid ["unary star to function pointer"]
    | _ => .invalid ["unary star to non-pointer, non-quaint"]
  | .amps => requireLvalue r <| .ok (.uexp op r (.ptr 1 rt))
  | .care =>
    require (rt.count == 1) "bitwise negation requires a scalar value" <|
    require (typeIsIntegral rt.t) "bitwise negation to non-integral expr" <|
    require (!typeIsSigned rt.t) "bitwise negation to signed expr" <| .ok (.uexp op r rt)
  | .incr | .decr =>
    requireLvalue r <|
    require (rt.count == 1) "prefix inc/dec requires a scalar value" <|
    require (typeIsIntegral rt.t || typeIsPtr rt.t) "prefix inc/dec to non-integral expr" <|
    require (rt.t != .vptr) "arithmetic on void pointer" <|
    require (rt.t != .fptr) "arithmetic on function pointer" <| .ok (.uexp op r rt)

/-- `type_from_xexp` -/
def typeFromXexp (op : XOp) (l : TExpr) : TRes TExpr :=
  let lt := typeOfExpr l
  requireLvalue l <|
  require (lt.count == 1) "postfix inc/dec requires a scalar value" <|
  require (typeIsIntegral lt.t || typeIsPtr lt.t) "postfix inc/dec to non-integral expr" <|
  require (lt.t != .vptr) "arithmetic on void pointer" <|
  require (lt.t != .fptr) "arithmetic on function pointer" <| .ok (.xexp op l lt)

/-- `type_from_aexp` -/
def typeFromAexp (b o : TExpr) : TRes TExpr :=
  let bt := typeOfExpr b
  let ot := typeOfExpr o
  require (bt.count != 1) "subscripted object is not an array" <|
  require (typeIsIntegral ot.t) "non-integral array offset" <|
  require (!typeIsSigned ot.t) "signed array offset" <| .ok (.aexp b o (bt.setCount 1))

/-- `type_from_texp` -/
def typeFromTexp (c t f : TExpr) : TRes TExpr :=
  let ct := (typeOfExpr c).t
  require (typeIsIntegral ct || typeIsPtr ct || typeIsQuaint ct) "non-integral texp cond" <|
  require (typeEquals (typeOfExpr t) (typeOfExpr f)) "differing types in texp" <|
  .ok (.texp c t f (typeOfExpr t))

/-- `type_from_name` -/
def typeFromName (scopes : Scopes) (n : Sym) : TRes TExpr :=
  match scopeFindObject n scopes with
  | none => .invalid ["undefined symbol"]
  | some so =>
    match so.obj with
    | .gvar d | .avar d => .ok (.name so d.type)
    | .parm t => .ok (.name so t)
    | .bcon id =>
      match scopeBuiltinConsts[id]? with
      | some c => .ok (.name so c.2)
      | none => .crash
    | .bfun id =>
      match scopeBuiltinFuncs[id]? with
      | some f => .ok (.name so (.fptr 1 f.params f.rettype))
      | none => .crash
    | .func f => .ok (.name so (.fptr 1 f.params f.rettype))
    | .dupl => .crash

/-- `type_from_nmbr` -/
def typeFromNmbr (v : Nat) : TExpr :=
  .nmbr v (.int (if v ≤ 0xFF then .u8 else if v ≤ 0xFFFF then .u16
    else if v ≤ 0xFFFFFFFF then .u32 else .u64) 1)

/-- The names a check can see: those of the unit, and the scopes around it. -/
structure Env where
  symtab : List (Sym × Ty)
  unit : List ScopeObj
  scopes : Scopes

def RetTy.ty : RetTy → Ty
  | .none => .zero
  | .some t => t

mutual
/-- `type_from_expr` -/
def typeFromExpr (env : Env) : Expr → TRes TExpr
  | .absent => .invalid []
  | .void => .invalid []
  | .bexp ltok op l r =>
    match op with
    | .scop => typeFromScopedName env.symtab ltok l r
    | .atsi => (typeFromExpr env l).bind fun l' => typeFromAtsi env.unit l' r
    | .memb => (typeFromExpr env l).bind fun l' => typeFromMemb false l' r
    | .arow => (typeFromExpr env l).bind fun l' => typeFromMemb true l' r
    | op => (typeFromExpr env l).both (typeFromExpr env r) (typeFromBexp op)
  | .cast l c => (typeFromExpr env l).bind fun l' => typeFromCast l' c
  | .uexp op r => (typeFromExpr env r).bind (typeFromUexp op)
  | .szof al spec =>
    -- the type of the whole is known even if the operand was rejected
    match spec with
    | some s => .ok (.szof al s (.int .usize 1))
    | none => .ok (.szof al .zero (.int .usize 1))
  | .fexp l args =>
    (typeFromExpr env l).bind fun l' =>
    match typeOfExpr l' with
    | .fptr count params ret =>
      require (count == 1) "fexp lhs must be scalar" <|
      (typeFromArgs env params args).bind fun args' => .ok (.fexp l' args' (RetTy.ty ret))
    | _ => .invalid ["fexp lhs must be of type fptr"]
  | .xexp op l => (typeFromExpr env l).bind (typeFromXexp op)
  | .aexp b o => (typeFromExpr env b).both (typeFromExpr env o) typeFromAexp
  | .texp c t f =>
    (typeFromExpr env c).both ((typeFromExpr env t).both (typeFromExpr env f) fun t' f' => .ok (t', f'))
      fun c' tf => typeFromTexp c' tf.1 tf.2
  | .name n => typeFromName env.scopes n
  | .nmbr v => .ok (typeFromNmbr v)
  | .strl s => .ok (.strl s (.ptr 1 (.int .u8 1)))
/-- The loop of `type_from_fexp` over the argument list. -/
def typeFromArgs (env : Env) : Fields → Args → TRes TArgs
  | .nil, .nil => .ok .nil
  | .cons _ _ _, .nil => .invalid ["wrong argument count"]
  | .nil, .cons _ _ => .invalid ["excessive argument count"]
  | .cons _ pt ps, .cons a rest =>
    (typeFromExpr env a).bind fun a' =>
    require (typeEquals (typeOfExpr a') pt) "arg does not match param type" <|
    (typeFromArgs env ps rest).bind fun rest' => .ok (.cons a' rest')
end

/-! ### Statements -/

def optExpr (env : Env) : Expr → TRes (Option TExpr)
  | .absent => .ok none
  | e => (typeFromExpr env e).bind fun e' => .ok (some e')

/-- `check_decl` -/
def checkDecl (env : Env) (d : Decl) : TRes (Option TExpr) :=
  (optExpr env d.initExpr).bind fun init =>
  match init with
  | none => .ok none
  | some e =>
    require (typeEquals d.type (typeOfExpr e)) "init type does not match decl type" <| .ok (some e)

/-- `check_retn` -/
def checkRetn (env : Env) (outer : FuncSig) (e : Option Expr) : TRes TStmt :=
  match e, outer.rettype with
  | some e, .some rt =>
    (typeFromExpr env e).bind fun e' =>
    require (typeEquals rt (typeOfExpr e')) "return type does not match func type" <|
    .ok (.retn (some e'))
  | some _, .none => .invalid ["returning a value in void func"]
  | none, .some _ => .invalid ["return requires a value in a non-void func"]
  | none, .none => .ok (.retn none)

/-- The label of `wait ... until`. -/
def checkWunt (unit : List ScopeObj) : Expr → TRes WlabRef
  | .bexp _ .scop l r =>
    match l, r with
    | .name f, .name n =>
      resolveWlab unit "no such function" "no such label in function" f n
    | .absent, _ => .crash
    | .name _, .absent => .crash
    | _, _ => .invalid ["invalid wait-until label"]
  | .bexp _ _ _ _ | .cast _ _ => .invalid ["invalid wait-until label"]
  | _ => .invalid ["wait-until requires a label"]

/-- The duration of `wait ... for`. -/
def checkWfor (env : Env) (e : Expr) : TRes TExpr :=
  (typeFromExpr env e).bind fun e' =>
  require ((typeOfExpr e').count == 1) "wait-for requires a scalar value" <|
  require (typeIsIntegral (typeOfExpr e').t && !typeIsSigned (typeOfExpr e').t)
    "wait-for requires an unsigned value" <|
  .ok e'

/-- `check_wait` -/
def checkWait (env : Env) (wquaint wfor wunt : Expr) (noblock units : Bool) : TRes TStmt :=
  ((typeFromExpr env wquaint).bind fun q =>
    require ((typeOfExpr q).t == .quaint) "wait needs quaint type" <| .ok q).both
  (match wfor, wunt with
    | .absent, .absent => .ok (none, WlabRef.none)
    | .absent, u => (checkWunt env.unit u).bind fun l => .ok (none, l)
    | f, _ => (checkWfor env f).bind fun e => .ok (some e, WlabRef.none))
  fun q r => .ok (.wait q r.1 r.2 noblock units)

/-- `identify_wlab` -/
def identifyWlab (outer : FuncSig) (name : Sym) : TRes TStmt :=
  match (scopeFindWlab outer name).bind (outer.wlabs[·]?) with
  | some (_, id) => .ok (.wlab (nodeAddr outer.name) id)
  | none => .crash

/-- The scopes inside a block. -/
def Env.enter (env : Env) (b : Stmts) : Env := { env with scopes := blockScope b :: env.scopes }

mutual
/-- The body of the loop of `check_block`. Nodes that failed in `ast_build` are skipped. -/
def checkStmt (env : Env) (outer : FuncSig) : Stmt → TRes (Option TStmt)
  | .absent | .void => .ok none
  | .decl d => (checkDecl env d).bind fun init => .ok (some (.decl d.names d.type init))
  | .cond e b rest =>
    ((typeFromExpr env e).both (checkStmts (env.enter b) outer b) fun e' b' => .ok (e', b')).both
      (checkElifs env outer rest) fun p rest' => .ok (some (.cond p.1 p.2 rest'))
  | .blok b => (checkStmts (env.enter b) outer b).bind fun b' => .ok (some (.blok b'))
  | .noin b => (checkStmts (env.enter b) outer b).bind fun b' => .ok (some (.noin b'))
  | .whil e b =>
    (typeFromExpr env e).both (checkStmts (env.enter b) outer b) fun e' b' => .ok (some (.whil e' b'))
  | .dowh b e =>
    (checkStmts (env.enter b) outer b).both (typeFromExpr env e) fun b' e' => .ok (some (.dowh b' e'))
  | .retn e => (checkRetn env outer e).bind fun s => .ok (some s)
  | .wait q f u nb un => (checkWait env q f u nb un).bind fun s => .ok (some s)
  | .wlab n => (identifyWlab outer n).bind fun s => .ok (some s)
  | .expr e => (typeFromExpr env e).bind fun e' => .ok (some (.expr e'))
/-- `check_block` -/
def checkStmts (env : Env) (outer : FuncSig) : Stmts → TRes TStmts
  | .nil => .ok .nil
  | .cons s rest =>
    (checkStmt env outer s).both (checkStmts env outer rest) fun s' rest' =>
    match s' with
    | some s' => .ok (.cons s' rest')
    | none => .ok rest'
/-- The `elif` and `else` parts of `check_cond`. -/
def checkElifs (env : Env) (outer : FuncSig) : Elifs → TRes TElifs
  | .none => .ok .none
  | .els b => (checkStmts (env.enter b) outer b).bind fun b' => .ok (.els b')
  | .elif e b rest =>
    ((typeFromExpr env e).both (checkStmts (env.enter b) outer b) fun e' b' => .ok (e', b')).both
      (checkElifs env outer rest) fun p rest' => .ok (.elif p.1 p.2 rest')
end

/-- `check_block` on a function -/
def checkFunc (env : Env) (f : Func) : TRes TFunc :=
  (checkStmts { env with scopes := funcScope f :: env.scopes } (funcSig f) f.stmts).bind fun b =>
  .ok ⟨f.name, f.params, f.rettype, b⟩

def checkTop (env : Env) : Top → TRes TTop
  | .decl d => (checkDecl env d).bind fun _ => .ok (.decl d.names d.type)
  | .func f => (checkFunc env f).bind fun f' => .ok (.func f')
  | .expr _ => .invalid ["invalid statement in unit context"]
  | .absent | .void | .useu | .type => .ok .skip

def checkTops (env : Env) : List Top → TRes (List TTop)
  | [] => .ok []
  | s :: rest => (checkTop env s).both (checkTops env rest) fun s' rest' => .ok (s' :: rest')

def unitEnv (u : Ast.Unit) : Env := ⟨u.symtab, unitScope u, [unitScope u]⟩

/-- `type_check_ast` -/
def typeCheckAst (u : Ast.Unit) : TRes (List TTop) := checkTops (unitEnv u) u.stmts

end Quaint.TypeCheck
