import Quaint.Ast

/-!
Scopes: the built-in names, the objects of every block, wait labels, and how a name is
found.

`qsort` is an insertion sort and `bsearch` the usual halving search; both compare by the
bytes of the names, as `cmp_scope_obj` does.
-/

namespace Quaint.Scope

open Types Ast

/-! ### Built-in names -/

def builtinSym (s : List UInt8) : Sym := ⟨s, 0⟩

/-- `scope_builtin_consts` -/
def scopeBuiltinConsts : List (Sym × Ty) :=
  [(builtinSym [110, 117, 108, 108], .vptr 1),
   (builtinSym [116, 114, 117, 101], .int .u8 1),
   (builtinSym [102, 97, 108, 115, 101], .int .u8 1)]

/-- A row of `scope_builtin_funcs`. -/
structure BuiltinFunc where
  name : Sym
  rettype : RetTy
  params : Fields

def oneParam (n : List UInt8) (t : Ty) : Fields := .cons (builtinSym n) t .nil

/-- `scope_builtin_funcs`: the null function, `monotime`, `malloc`, `calloc`, `realloc`,
`free`, `ps`, `pu8` to `pi64`, `pnl` and `exit`. -/
def scopeBuiltinFuncs : List BuiltinFunc :=
  [⟨builtinSym [124], .none, .nil⟩,
   ⟨builtinSym [109, 111, 110, 111, 116, 105, 109, 101], .some (.int .u64 1), .nil⟩,
   ⟨builtinSym [109, 97, 108, 108, 111, 99], .some (.vptr 1),
     oneParam [115, 105, 122, 101] (.int .usize 1)⟩,
   ⟨builtinSym [99, 97, 108, 108, 111, 99], .some (.vptr 1),
     oneParam [115, 105, 122, 101] (.int .usize 1)⟩,
   ⟨builtinSym [114, 101, 97, 108, 108, 111, 99], .some (.vptr 1),
     .cons (builtinSym [111, 108, 100, 112, 116, 114]) (.vptr 1)
       (oneParam [110, 101, 119, 115, 105, 122, 101] (.int .usize 1))⟩,
   ⟨builtinSym [102, 114, 101, 101], .none, oneParam [112, 116, 114] (.vptr 1)⟩,
   ⟨builtinSym [112, 115], .none, oneParam [115, 116, 114] (.ptr 1 (.int .u8 1))⟩,
   ⟨builtinSym [112, 117, 56], .none, oneParam [110, 117, 109] (.int .u8 1)⟩,
   ⟨builtinSym [112, 105, 56], .none, oneParam [110, 117, 109] (.int .i8 1)⟩,
   ⟨builtinSym [112, 117, 49, 54], .none, oneParam [110, 117, 109] (.int .u16 1)⟩,
   ⟨builtinSym [112, 105, 49, 54], .none, oneParam [110, 117, 109] (.int .i16 1)⟩,
   ⟨builtinSym [112, 117, 51, 50], .none, oneParam [110, 117, 109] (.int .u32 1)⟩,
   ⟨builtinSym [112, 105, 51, 50], .none, oneParam [110, 117, 109] (.int .i32 1)⟩,
   ⟨builtinSym [112, 117, 54, 52], .none, oneParam [110, 117, 109] (.int .u64 1)⟩,
   ⟨builtinSym [112, 105, 54, 52], .none, oneParam [110, 117, 109] (.int .i64 1)⟩,
   ⟨builtinSym [112, 110, 108], .none, .nil⟩,
   ⟨builtinSym [101, 120, 105, 116], .none,
     oneParam [115, 116, 97, 116, 117, 115] (.int .i32 1)⟩]

/-- `SCOPE_BFUN_ID_COUNT` -/
def scopeBfunIdCount : Nat := 17

/-! ### Searching by name -/

/-- `strcmp` on the bytes of two names. -/
def strcmp : List UInt8 → List UInt8 → Ordering
  | [], [] => .eq
  | [], _ :: _ => .lt
  | _ :: _, [] => .gt
  | a :: as, b :: bs => if a < b then .lt else if b < a then .gt else strcmp as bs

section Search

variable {α : Type} (name : α → Sym)

def insertSorted (x : α) : List α → List α
  | [] => [x]
  | y :: ys =>
    if strcmp (name x).text (name y).text = .gt then y :: insertSorted x ys else x :: y :: ys

/-- `qsort` with `cmp_scope_obj` -/
def qsort : List α → List α
  | [] => []
  | x :: xs => insertSorted name x (qsort xs)

/-- The loop of `bsearch` on the positions from `lo` to `hi`. -/
def bsearchLoop (key : Sym) (xs : List α) : Nat → Nat → Nat → Option Nat
  | 0, _, _ => none
  | fuel + 1, lo, hi =>
    if lo < hi then
      match xs[(lo + hi) / 2]? with
      | none => none
      | some x =>
        match strcmp key.text (name x).text with
        | .lt => bsearchLoop key xs fuel lo ((lo + hi) / 2)
        | .gt => bsearchLoop key xs fuel ((lo + hi) / 2 + 1) hi
        | .eq => some ((lo + hi) / 2)
    else none

/-- `bsearch` with `cmp_scope_obj`, returning a position -/
def bsearch (key : Sym) (xs : List α) : Option Nat :=
  bsearchLoop name key xs (xs.length + 1) 0 xs.length

end Search

/-! ### Objects -/

def ScopeObj.isDupl (so : ScopeObj) : Bool :=
  match so.obj with
  | .dupl => true
  | _ => false

/-- `find_duplicates`: whether a name is there twice, and the objects with those marked. -/
def findDuplicatesLoop : Nat → List ScopeObj → Bool × List ScopeObj
  | 0, xs => (false, xs)
  | _ + 1, [] => (false, [])
  | n + 1, x :: xs =>
    if ScopeObj.isDupl x then
      ((findDuplicatesLoop n xs).1, x :: (findDuplicatesLoop n xs).2)
    else if xs.any (fun y => lexSymbolsEqual x.name y.name) then
      let ys := xs.map (fun y => if lexSymbolsEqual x.name y.name then { y with obj := .dupl } else y)
      (true, { x with obj := .dupl } :: (findDuplicatesLoop n ys).2)
    else
      ((findDuplicatesLoop n xs).1, x :: (findDuplicatesLoop n xs).2)

def findDuplicates (xs : List ScopeObj) : Bool × List ScopeObj :=
  findDuplicatesLoop xs.length xs

def avars (d : Decl) : List ScopeObj := d.names.map (fun n => ⟨n, .avar d⟩)
def gvars (d : Decl) : List ScopeObj := d.names.map (fun n => ⟨n, .gvar d⟩)
def parms (ps : Fields) : List ScopeObj := ps.toList.map (fun p => ⟨p.1, .parm p.2⟩)

/-- The variables declared directly in a block. -/
def blockObjs : Stmts → List ScopeObj
  | .nil => []
  | .cons (.decl d) rest => avars d ++ blockObjs rest
  | .cons _ rest => blockObjs rest

mutual
/-- The wait labels below a statement, in the order `add_func_wlab` meets them. -/
def stmtWlabs : Stmt → List Sym
  | .wlab n => [n]
  | .blok b | .noin b | .whil _ b | .dowh b _ => stmtsWlabs b
  | .cond _ b rest => stmtsWlabs b ++ elifsWlabs rest
  | _ => []
def stmtsWlabs : Stmts → List Sym
  | .nil => []
  | .cons s rest => stmtWlabs s ++ stmtsWlabs rest
def elifsWlabs : Elifs → List Sym
  | .none => []
  | .els b => stmtsWlabs b
  | .elif _ b rest => stmtsWlabs b ++ elifsWlabs rest
end

/-- `identify_wlabs`, from the label before and its number -/
def identifyWlabs : Option Sym → Nat → List Sym → List (Sym × Nat)
  | _, _, [] => []
  | some p, id, n :: ns =>
    if lexSymbolsEqual p n then (n, id) :: identifyWlabs (some p) id ns
    else (n, id + 1) :: identifyWlabs (some n) (id + 1) ns
  | none, id, n :: ns => (n, id + 1) :: identifyWlabs (some n) (id + 1) ns

def funcSig (f : Func) : FuncSig :=
  ⟨f.name, f.params, f.rettype, identifyWlabs none 0 (qsort id (stmtsWlabs f.stmts))⟩

def builtins : List ScopeObj :=
  scopeBuiltinConsts.mapIdx (fun i c => ⟨c.1, .bcon i⟩) ++
    scopeBuiltinFuncs.mapIdx (fun i f => ⟨f.name, .bfun i⟩)

def topObjs : List Top → List ScopeObj
  | [] => []
  | .decl d :: rest => gvars d ++ topObjs rest
  | .func f :: rest => ⟨f.name, .func (funcSig f)⟩ :: topObjs rest
  | _ :: rest => topObjs rest

/-- The scopes a name is looked up in, innermost first. -/
abbrev Scopes := List (List ScopeObj)

/-- `count_objects_unit` -/
def countObjectsUnit : List Top → Nat
  | [] => scopeBuiltinConsts.length + scopeBfunIdCount
  | .decl d :: rest => d.names.length + countObjectsUnit rest
  | .func _ :: rest => 1 + countObjectsUnit rest
  | _ :: rest => countObjectsUnit rest

/-- `count_objects_block`, from the number of parameters, which only a function has -/
def countObjectsBlock (paramCount : Nat) : Stmts → Nat
  | .nil => paramCount
  | .cons (.decl d) rest => d.names.length + countObjectsBlock paramCount rest
  | .cons _ rest => countObjectsBlock paramCount rest

/-- The array of a scope, its duplicates marked and sorted by name. -/
def scopeArray (objs : List ScopeObj) : List ScopeObj :=
  qsort ScopeObj.name (findDuplicates objs).2

def unitScope (u : Ast.Unit) : List ScopeObj := scopeArray (builtins ++ topObjs u.stmts)
def funcScope (f : Func) : List ScopeObj := scopeArray (parms f.params ++ blockObjs f.stmts)
def blockScope (b : Stmts) : List ScopeObj := scopeArray (blockObjs b)

mutual
/-- Whether `scope_build_inner` reports a duplicate below a statement. -/
def stmtDuplicated : Stmt → Bool
  | .blok b | .noin b | .whil _ b | .dowh b _ => blockDuplicated b
  | .cond _ b rest => blockDuplicated b || elifsDuplicated rest
  | _ => false
def stmtsDuplicated : Stmts → Bool
  | .nil => false
  | .cons s rest => stmtDuplicated s || stmtsDuplicated rest
def blockDuplicated : Stmts → Bool
  | .nil => false
  | .cons s rest =>
    stmtDuplicated s || stmtsDuplicated rest ||
      (findDuplicates (blockObjs (.cons s rest))).1
def elifsDuplicated : Elifs → Bool
  | .none => false
  | .els b => blockDuplicated b
  | .elif _ b rest => blockDuplicated b || elifsDuplicated rest
end

def topsDuplicated : List Top → Bool
  | [] => false
  | .func f :: rest =>
    stmtsDuplicated f.stmts || (findDuplicates (parms f.params ++ blockObjs f.stmts)).1 ||
      topsDuplicated rest
  | _ :: rest => topsDuplicated rest

/-- `scope_build` returns `SCOPE_DUPLICATED`. -/
def scopeDuplicated (u : Ast.Unit) : Bool :=
  topsDuplicated u.stmts || (findDuplicates (builtins ++ topObjs u.stmts)).1

/-- `scope_find_object` -/
def scopeFindObject (name : Sym) : Scopes → Option ScopeObj
  | [] => none
  | objs :: outer =>
    match (bsearch ScopeObj.name name objs).bind (objs[·]?) with
    | none => scopeFindObject name outer
    | some found =>
      match found.obj with
      | .dupl => scopeFindObject name outer
      | .avar d =>
        match d.names with
        | first :: _ => if name.beg > first.beg then some found else none
        | [] => none
      | _ => some found

/-- `scope_find_wlab` -/
def scopeFindWlab (f : FuncSig) (name : Sym) : Option Nat :=
  bsearch Prod.fst name f.wlabs

end Quaint.Scope
