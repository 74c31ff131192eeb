import Mathlib
import Quaint.Ast

/-!
The meaning of functions on integers.

An expression has a number or none, and a statement leads from the numbers of the variables to those
after it or to the number returned. Numbers wrap around at the width of their type. What divides by
zero, overflows in a division or shifts by the width of its type or more has no meaning, and neither
has a variable before it is given a value. A variable is known by the place of its declaration.
-/

namespace Quaint.Source

open Types Ast

/-! ### Numbers -/

/-- The width of a type. -/
def bits (t : Ty) : Nat := 8 * t.bytes

/-- The number of the type a number wraps around to. -/
def wrap (t : Ty) (v : Int) : Int := if t.signd then v.bmod (2 ^ bits t) else v % 2 ^ bits t

/-- The quotient of two numbers of a type has no meaning. -/
def Undivided (t : Ty) (x y : Int) : Prop := y = 0 ∨ t.signd = true ∧ x = -2 ^ (bits t - 1) ∧ y = -1

instance (t : Ty) (x y : Int) : Decidable (Undivided t x y) := inferInstanceAs (Decidable (_ ∨ _))

/-- The number of an operator on numbers of a type, which are not negative where it works on bits. -/
def binary (op : BOp) (t : Ty) (x y : Int) : Option Int :=
  match op with
  | .plus => some (wrap t (x + y))
  | .mins => some (wrap t (x - y))
  | .mult => some (wrap t (x * y))
  | .divi => if Undivided t x y then none else some (x.tdiv y)
  | .modu => if Undivided t x y then none else some (x.tmod y)
  | .lshf => if (bits t : Int) ≤ y then none else some (wrap t (x * 2 ^ y.toNat))
  | .rshf => if (bits t : Int) ≤ y then none else some (x / 2 ^ y.toNat)
  | .amps => some ((x.toNat &&& y.toNat : Nat) : Int)
  | .care => some ((x.toNat ^^^ y.toNat : Nat) : Int)
  | .pipe => some ((x.toNat ||| y.toNat : Nat) : Int)
  | .equl => some (if x = y then 1 else 0)
  | .neql => some (if x = y then 0 else 1)
  | .lthn => some (if x < y then 1 else 0)
  | .gthn => some (if x > y then 1 else 0)
  | .lteq => some (if x ≤ y then 1 else 0)
  | .gteq => some (if x ≥ y then 1 else 0)
  | _ => none

/-- The number of a unary operator, given the type of the result. -/
def unary (op : UOp) (t : Ty) (v : Int) : Option Int :=
  match op with
  | .plus => some v
  | .mins => some (wrap t (-v))
  | .excl => some (if v = 0 then 1 else 0)
  | .care => some (2 ^ bits t - 1 - v)
  | _ => none

/-! ### Expressions -/

/-- The numbers of the variables that have one. -/
abbrev Numbers := Nat → Option Int

/-- All the names are given the number, or lose theirs. -/
def Numbers.set (env : Numbers) (names : List Sym) (v : Option Int) : Numbers :=
  fun b => if b ∈ names.map Sym.beg then v else env b

/-- What a condition makes of a number. -/
def truth (v : Int) : Int := if v = 0 then 0 else 1

/-- The numbers of the built-in constants, `true` and `false` after the null pointer. -/
def constNumber : Nat → Option Int
  | 1 => some 1
  | 2 => some 0
  | _ => none

def evalName (env : Numbers) (so : ScopeObj) : Option Int :=
  match so.obj with
  | .avar _ | .parm _ => env so.name.beg
  | .bcon id => constNumber id
  | _ => none

def eval (env : Numbers) : TExpr → Option Int
  | .nmbr v _ => some v
  | .name so _ => evalName env so
  | .bexp op l r _ =>
    match op with
    | .conj => do if (← eval env l) = 0 then some 0 else (eval env r).map truth
    | .disj => do if (← eval env l) = 0 then (eval env r).map truth else some 1
    | .coma => do
      let _ ← eval env l
      eval env r
    | op => do binary op (typeOfExpr l) (← eval env l) (← eval env r)
  | .uexp op r t => do unary op t (← eval env r)
  | .cast l c _ => (eval env l).map (wrap c)
  | .texp c tv fv _ => do if (← eval env c) = 0 then eval env fv else eval env tv
  | _ => none

/-! ### Statements -/

/-- Where a statement leads: to the numbers of the variables after it, or out of the function. -/
inductive Outcome
  | goes (env : Numbers)
  | returned (v : Int)

/-- A part of a function. -/
inductive Part
  | stmt (s : TStmt)
  | stmts (b : TStmts)
  | elifs (r : TElifs)

/-- The operator of an assignment that computes. -/
def updateOp : BOp → Option BOp
  | .aspl => some .plus
  | .asmi => some .mins
  | .asmu => some .mult
  | .asdi => some .divi
  | .asmo => some .modu
  | .asls => some .lshf
  | .asrs => some .rshf
  | .asan => some .amps
  | .asxo => some .care
  | .asor => some .pipe
  | _ => none

open Part Outcome

/-- A part of a function leads from the numbers of the variables to an outcome. -/
inductive Runs : Numbers → Part → Outcome → Prop
  | decl {env names t e v} (he : eval (env.set names none) e = some v) :
    Runs env (stmt (.decl names t (some e))) (goes (env.set names (some v)))
  | assign {env so tl r t v} (hr : eval env r = some v) :
    Runs env (stmt (.expr (.bexp .assn (.name so tl) r t))) (goes (env.set [so.name] (some v)))
  | update {env op op' so tl r t x y v} (hop : updateOp op = some op')
    (hx : evalName env so = some x) (hr : eval env r = some y) (hv : binary op' tl x y = some v) :
    Runs env (stmt (.expr (.bexp op (.name so tl) r t))) (goes (env.set [so.name] (some v)))
  | condTrue {env e b rest v out} (he : eval env e = some v) (hv : v ≠ 0)
    (hb : Runs env (stmts b) out) : Runs env (stmt (.cond e b rest)) out
  | condFalse {env e b rest out} (he : eval env e = some 0) (hr : Runs env (elifs rest) out) :
    Runs env (stmt (.cond e b rest)) out
  | blok {env b out} (hb : Runs env (stmts b) out) : Runs env (stmt (.blok b)) out
  | whilDone {env e b} (he : eval env e = some 0) : Runs env (stmt (.whil e b)) (goes env)
  | whilAgain {env env' e b v out} (he : eval env e = some v) (hv : v ≠ 0)
    (hb : Runs env (stmts b) (goes env')) (hw : Runs env' (stmt (.whil e b)) out) :
    Runs env (stmt (.whil e b)) out
  | whilReturned {env e b v r} (he : eval env e = some v) (hv : v ≠ 0)
    (hb : Runs env (stmts b) (returned r)) : Runs env (stmt (.whil e b)) (returned r)
  | dowhDone {env env' b e} (hb : Runs env (stmts b) (goes env')) (he : eval env' e = some 0) :
    Runs env (stmt (.dowh b e)) (goes env')
  | dowhAgain {env env' b e v out} (hb : Runs env (stmts b) (goes env')) (he : eval env' e = some v)
    (hv : v ≠ 0) (hw : Runs env' (stmt (.dowh b e)) out) : Runs env (stmt (.dowh b e)) out
  | dowhReturned {env b e r} (hb : Runs env (stmts b) (returned r)) :
    Runs env (stmt (.dowh b e)) (returned r)
  | retn {env e v} (he : eval env e = some v) : Runs env (stmt (.retn (some e))) (returned v)
  | nil {env} : Runs env (stmts .nil) (goes env)
  | cons {env env' s rest out} (hs : Runs env (stmt s) (goes env')) (hr : Runs env' (stmts rest) out) :
    Runs env (stmts (.cons s rest)) out
  | consReturned {env s rest r} (hs : Runs env (stmt s) (returned r)) :
    Runs env (stmts (.cons s rest)) (returned r)
  | none {env} : Runs env (elifs .none) (goes env)
  | els {env b out} (hb : Runs env (stmts b) out) : Runs env (elifs (.els b)) out
  | elifTrue {env e b rest v out} (he : eval env e = some v) (hv : v ≠ 0)
    (hb : Runs env (stmts b) out) : Runs env (elifs (.elif e b rest)) out
  | elifFalse {env e b rest out} (he : eval env e = some 0) (hr : Runs env (elifs rest) out) :
    Runs env (elifs (.elif e b rest)) out

/-- The numbers of the parameters. -/
def argNumbers : List (Sym × Ty) → List Int → Numbers
  | p :: ps, v :: vs => (argNumbers ps vs).set [p.1] (some v)
  | _, _ => fun _ => Option.none

/-- The function, called with the arguments, returns the number. -/
def Returns (f : TFunc) (args : List Int) (v : Int) : Prop :=
  Runs (argNumbers f.params.toList args) (stmts f.stmts) (returned v)

/-! ### Functions on integers -/

/-- The type is that of one integer. -/
def isInt : Ty → Bool
  | .int _ c => c == 1
  | _ => false

/-- The object is a parameter or a variable of the function. -/
def isLocal (so : ScopeObj) : Bool :=
  match so.obj with
  | .avar _ | .parm _ => true
  | _ => false

def isConst (so : ScopeObj) : Bool :=
  match so.obj with
  | .bcon _ => true
  | _ => false

/-- The operator changes nothing. -/
def isPure : BOp → Bool
  | .plus | .mins | .mult | .divi | .modu | .lshf | .rshf | .amps | .care | .pipe | .equl | .neql
  | .lthn | .gthn | .lteq | .gteq | .conj | .disj | .coma => true
  | _ => false

def isPureUnary : UOp → Bool
  | .plus | .mins | .excl | .care => true
  | _ => false

/-- An integer expression without side effects, in which no cast widens a signed type. -/
def intExpr : TExpr → Bool
  | .nmbr _ _ => true
  | .name so t => isInt t && (isLocal so || isConst so)
  | .bexp op l r _ => isPure op && intExpr l && intExpr r
  | .uexp op r _ => isPureUnary op && intExpr r
  | .cast l c _ =>
    isInt c && (!(typeOfExpr l).signd || decide (c.bytes ≤ (typeOfExpr l).bytes)) && intExpr l
  | .texp c tv fv _ => intExpr c && intExpr tv && intExpr fv
  | _ => false

/-- An assignment to a variable. -/
def intAssign : TExpr → Bool
  | .bexp op (.name so t) r _ =>
    (op == .assn || (updateOp op).isSome) && isInt t && isLocal so && intExpr r
  | _ => false

mutual
/-- A statement on integers, whose variables are given a number where they are declared. -/
def intStmt : TStmt → Bool
  | .decl _ t init =>
    match init with
    | some e => isInt t && intExpr e
    | Option.none => false
  | .cond e b rest => intExpr e && intStmts b && intElifs rest
  | .blok b => intStmts b
  | .whil e b | .dowh b e => intExpr e && intStmts b
  | .retn e =>
    match e with
    | some e => intExpr e
    | Option.none => false
  | .expr e => intAssign e
  | _ => false
def intStmts : TStmts → Bool
  | .nil => true
  | .cons s rest => intStmt s && intStmts rest
def intElifs : TElifs → Bool
  | .none => true
  | .els b => intStmts b
  | .elif e b rest => intExpr e && intStmts b && intElifs rest
end

/-- A function on integers. -/
def intFunc (f : TFunc) : Bool := f.params.toList.all (fun p => isInt p.2) && intStmts f.stmts

end Quaint.Source
