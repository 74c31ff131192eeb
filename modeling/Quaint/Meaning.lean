import Quaint.Source
import Quaint.Scope
import Quaint.Exec

/-!
The meaning of integer functions that call one another.

An expression has a number, a statement leads on or out of the function, and a call gives back a number
or nothing; on the way numbers and line ends may be written. Calls may be nested without bound, so the
meaning is what is found in a number of steps, and what is never found has no meaning. Names and
operators mean what they mean in functions without calls.
-/

namespace Quaint.Meaning

open Types Ast Source Exec

/-! ### Meaning -/

/-- Where a part of a function leads: to the numbers of the variables after it, or out of the function,
with a number or without. -/
inductive Ending
  | goes (env : Numbers)
  | returned (v : Option Int)

/-- What a built-in function writes, given its number in the table. -/
def write (id : Nat) (xs : List Int) : Option (List Out) :=
  if id = 15 then some [.bytes [10]]
  else if 7 ≤ id ∧ id ≤ 14 then xs.head?.map fun x => [.num x]
  else none

/-- What a function gives back to its caller. A function with a return type has no meaning if its end is
reached. -/
def leave (f : TFunc) : Ending × List Out → Option (Option Int × List Out)
  | (.returned v, out) => some (v, out)
  | (.goes _, out) =>
    match f.rettype with
    | .none => some (none, out)
    | .some _ => none

/-- The number of an assignment, given that of its right side. -/
def assigned (env : Numbers) (op : BOp) (so : ScopeObj) (t : Ty) (y : Int) : Option Int :=
  match op with
  | .assn => some y
  | op => do binary (← updateOp op) t (← evalName env so) y

/-- The number `++` or `--` leaves. -/
def stepped (env : Numbers) (dec : Bool) (so : ScopeObj) (t : Ty) : Option Int :=
  (evalName env so).map fun x => wrap t (x + if dec then -1 else 1)

/-- `++` or `--`, before or after a name. -/
def stepOp : TExpr → Option (Bool × ScopeObj × Ty)
  | .uexp .incr (.name so t) _ | .xexp .incr (.name so t) _ => some (false, so, t)
  | .uexp .decr (.name so t) _ | .xexp .decr (.name so t) _ => some (true, so, t)
  | _ => none

mutual
def eval (fs : List TFunc) : Nat → Numbers → TExpr → List Out → Option (Int × List Out)
  | 0, _, _, _ => none
  | n + 1, env, e, out =>
    match e with
    | .nmbr v _ => some (v, out)
    | .name so _ => (evalName env so).map (·, out)
    | .bexp op l r _ => do
      let (x, out) ← eval fs n env l out
      match op with
      | .conj => if x = 0 then some (0, out) else (eval fs n env r out).map fun y => (truth y.1, y.2)
      | .disj => if x = 0 then (eval fs n env r out).map fun y => (truth y.1, y.2) else some (1, out)
      | .coma => eval fs n env r out
      | op => do
        let (y, out) ← eval fs n env r out
        (binary op (typeOfExpr l) x y).map (·, out)
    | .uexp op r t => do
      let (x, out) ← eval fs n env r out
      (unary op t x).map (·, out)
    | .cast l c _ => (eval fs n env l out).map fun x => (wrap c x.1, x.2)
    | .texp c tv fv _ => do
      let (x, out) ← eval fs n env c out
      if x = 0 then eval fs n env fv out else eval fs n env tv out
    | .fexp (.name so _) as _ => do
      let (xs, out) ← evalArgs fs n env as out
      let (v, out) ← call fs n so xs out
      v.map (·, out)
    | _ => none
/-- The numbers of the arguments, in order. -/
def evalArgs (fs : List TFunc) : Nat → Numbers → TArgs → List Out → Option (List Int × List Out)
  | 0, _, _, _ => none
  | n + 1, env, as, out =>
    match as with
    | .nil => some ([], out)
    | .cons a rest => do
      let (x, out) ← eval fs n env a out
      let (xs, out) ← evalArgs fs n env rest out
      some (x :: xs, out)
def run (fs : List TFunc) : Nat → Numbers → Part → List Out → Option (Ending × List Out)
  | 0, _, _, _ => none
  | n + 1, env, x, out =>
    match x with
    | .stmt (.decl names _ none) => some (.goes (env.set names none), out)
    | .stmt (.decl names _ (some e)) => do
      let (v, out) ← eval fs n (env.set names none) e out
      some (.goes (env.set names (some v)), out)
    | .stmt (.expr (.bexp op (.name so t) r _)) => do
      let (y, out) ← eval fs n env r out
      let v ← assigned env op so t y
      some (.goes (env.set [so.name] (some v)), out)
    | .stmt (.expr (.fexp (.name so _) as _)) => do
      let (xs, out) ← evalArgs fs n env as out
      let (_, out) ← call fs n so xs out
      some (.goes env, out)
    | .stmt (.expr e) => do
      let (dec, so, t) ← stepOp e
      let v ← stepped env dec so t
      some (.goes (env.set [so.name] (some v)), out)
    | .stmt (.cond e b rest) | .elifs (.elif e b rest) => do
      let (v, out) ← eval fs n env e out
      if v = 0 then run fs n env (.elifs rest) out else run fs n env (.stmts b) out
    | .stmt (.blok b) | .stmt (.noin b) | .elifs (.els b) => run fs n env (.stmts b) out
    | .stmt (.whil e b) => do
      let (v, out) ← eval fs n env e out
      if v = 0 then some (.goes env, out)
      else match ← run fs n env (.stmts b) out with
        | (.goes env, out) => run fs n env (.stmt (.whil e b)) out
        | r => some r
    | .stmt (.dowh b e) => do
      match ← run fs n env (.stmts b) out with
      | (.goes env, out) => do
        let (v, out) ← eval fs n env e out
        if v = 0 then some (.goes env, out) else run fs n env (.stmt (.dowh b e)) out
      | r => some r
    | .stmt (.retn none) => some (.returned none, out)
    | .stmt (.retn (some e)) => (eval fs n env e out).map fun v => (.returned (some v.1), v.2)
    | .stmt (.wlab _ _) | .stmts .nil | .elifs .none => some (.goes env, out)
    | .stmts (.cons s rest) => do
      match ← run fs n env (.stmt s) out with
      | (.goes env, out) => run fs n env (.stmts rest) out
      | r => some r
    | _ => none
/-- What a call gives back. -/
def call (fs : List TFunc) : Nat → ScopeObj → List Int → List Out → Option (Option Int × List Out)
  | 0, _, _, _ => none
  | n + 1, so, xs, out =>
    match so.obj with
    | .func sig => do
      let f ← fs.find? fun f => f.name.beg == sig.name.beg
      let r ← run fs n (argNumbers f.params.toList xs) (.stmts f.stmts) out
      leave f r
    | .bfun id => (write id xs).map fun w => (none, out ++ w)
    | _ => none
end

/-- Among the functions `fs`, the function called with the arguments gives back `v` and writes `out`. -/
def Gives (fs : List TFunc) (f : TFunc) (args : List Int) (v : Option Int) (out : List Out) : Prop :=
  ∃ n r, run fs n (argNumbers f.params.toList args) (.stmts f.stmts) [] = some r ∧
    leave f r = some (v, out)

/-- The first function of a unit, in which a program begins. -/
def firstFunc : List TTop → Option TFunc
  | [] => none
  | .func f :: _ => some f
  | _ :: rest => firstFunc rest

/-- The status of a program whose first function gives the number back. -/
def exitNumber : Option Int → Int
  | some v => wrap (.int .i32 1) v
  | none => 0

/-! ### Functions on integers -/

def isFunc (so : ScopeObj) : Bool :=
  match so.obj with
  | .func _ => true
  | _ => false

/-- The object is a built-in function that writes a number or a line end. -/
def isWriter (so : ScopeObj) : Bool :=
  match so.obj with
  | .bfun id => decide (7 ≤ id ∧ id ≤ 15)
  | _ => false

mutual
/-- An integer expression without side effects but those of the functions it calls, in which no cast
widens a signed type. -/
def numExpr : TExpr → Bool
  | .nmbr _ _ => true
  | .name so t => isInt t && (isLocal so || isConst so)
  | .bexp op l r _ => isPure op && numExpr l && numExpr r
  | .uexp op r _ => isPureUnary op && numExpr r
  | .cast l c _ =>
    isInt c && (!(typeOfExpr l).signd || decide (c.bytes ≤ (typeOfExpr l).bytes)) && numExpr l
  | .texp c tv fv _ => numExpr c && numExpr tv && numExpr fv
  | .fexp l as t =>
    match l with
    | .name so _ => isFunc so && isInt t && numArgs as
    | _ => false
  | _ => false
def numArgs : TArgs → Bool
  | .nil => true
  | .cons a rest => numExpr a && numArgs rest
end

/-- An assignment to a variable, a step of one, or a call; of no built-in function if `solo` is set. -/
def numEffect (solo : Bool) : TExpr → Bool
  | .bexp op (.name so t) r _ =>
    (op == .assn || (updateOp op).isSome) && isInt t && isLocal so && numExpr r
  | .fexp (.name so _) as t =>
    ((isFunc so && (isInt t || t.t == .void)) || (!solo && isWriter so)) && numArgs as
  | e => match stepOp e with
    | some (_, so, t) => isInt t && isLocal so
    | none => false

mutual
def numStmt (solo : Bool) : TStmt → Bool
  | .decl _ t init => isInt t && match init with
    | some e => numExpr e
    | none => true
  | .cond e b rest => numExpr e && numStmts solo b && numElifs solo rest
  | .blok b | .noin b => numStmts solo b
  | .whil e b | .dowh b e => numExpr e && numStmts solo b
  | .retn e => match e with
    | some e => numExpr e
    | none => true
  | .wlab _ _ => true
  | .expr e => numEffect solo e
  | _ => false
def numStmts (solo : Bool) : TStmts → Bool
  | .nil => true
  | .cons s rest => numStmt solo s && numStmts solo rest
def numElifs (solo : Bool) : TElifs → Bool
  | .none => true
  | .els b => numStmts solo b
  | .elif e b rest => numExpr e && numStmts solo b && numElifs solo rest
end

/-- A function on integers, which may call others. -/
def numFunc (solo : Bool) (f : TFunc) : Bool := f.params.toList.all (fun p => isInt p.2) && numStmts solo f.stmts

/-- The functions on integers of a unit. -/
def numFuncs (solo : Bool) : List TTop → List TFunc
  | [] => []
  | .func f :: rest => if numFunc solo f then f :: numFuncs solo rest else numFuncs solo rest
  | _ :: rest => numFuncs solo rest

end Quaint.Meaning
