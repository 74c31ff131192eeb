import Quaint.Derivation
import Quaint.Lex

/-!
The parser.

A shift-reduce parser that takes the first rule of the table whose right-hand side ends the
stack, and then looks at the token ahead to decide whether to shift it instead. The stack is a
list, its top first; what is left of the tokens stands for the position among them. Allocation
does not fail here.
-/

namespace Quaint.Parse

open Lex Derivation

/-! ### The grammar -/

/-- `PARSE_NT_*` -/
inductive Nt
  | unit | stmt | ctrl | cond | elif | els | dowh | whil | func | qual
  | atom | expr | fexp | pexp | texp | bexp | uexp | xexp | wexp | aexp
  deriving DecidableEq

abbrev PTerm := Term Tk Nt
abbrev PRule := Rule Tk Nt
abbrev PNode := Node Token Nt

/-- `no` -/
def no : PTerm := .tk .count

/-- `RULE_RHS_LAST` -/
def ruleRhsLast : Nat := 7

/-- The right-hand side as it lies in the table, unused terms first. -/
def slots (r : PRule) : List PTerm := List.replicate (ruleRhsLast + 1 - r.rhs.length) no ++ r.rhs

def expr (n : Nt) : PRule := ⟨.expr, [.nt n]⟩
def bexp (op : Tk) : PRule := ⟨.bexp, [.nt .expr, .tk op, .nt .expr]⟩
def uexp (op : Tk) : PRule := ⟨.uexp, [.tk op, .nt .expr]⟩
def xexp (op : Tk) : PRule := ⟨.xexp, [.nt .expr, .tk op]⟩
def wexp (op : Tk) : PRule := ⟨.wexp, [.nt .expr, .tk op]⟩

/-- `grammar` -/
def grammar : List PRule :=
  [⟨.unit, [.tk .fbeg, .mt .stmt, .tk .fend]⟩,
   ⟨.stmt, [.tk .wait, .nt .expr, .tk .wfor, .nt .expr, .tk .scol]⟩,
   ⟨.stmt, [.tk .wait, .nt .expr, .tk .wfor, .nt .expr, .tk .wnob, .tk .scol]⟩,
   ⟨.stmt, [.tk .wait, .nt .expr, .tk .wunt, .nt .expr, .tk .scol]⟩,
   ⟨.stmt, [.tk .wait, .nt .expr, .tk .wunt, .nt .expr, .tk .wnob, .tk .scol]⟩,
   ⟨.stmt, [.tk .wait, .nt .expr, .tk .scol]⟩,
   ⟨.stmt, [.tk .wait, .nt .expr, .tk .wnob, .tk .scol]⟩,
   ⟨.stmt, [.tk .retn, .nt .expr, .tk .scol]⟩,
   ⟨.stmt, [.tk .retn, .tk .scol]⟩,
   ⟨.stmt, [.tk .useu, .nt .expr, .tk .scol]⟩,
   ⟨.stmt, [.tk .expo, .tk .type, .nt .expr, .tk .scol]⟩,
   ⟨.stmt, [.tk .type, .nt .expr, .tk .scol]⟩,
   ⟨.ctrl, [.nt .cond, .mt .elif]⟩,
   ⟨.ctrl, [.nt .cond, .mt .elif, .nt .els]⟩,
   ⟨.ctrl, [.nt .dowh]⟩,
   ⟨.ctrl, [.nt .whil]⟩,
   ⟨.cond, [.tk .cond, .nt .expr, .tk .lbrc, .mt .stmt, .tk .rbrc]⟩,
   ⟨.elif, [.tk .elif, .nt .expr, .tk .lbrc, .mt .stmt, .tk .rbrc]⟩,
   ⟨.els, [.tk .els, .tk .lbrc, .mt .stmt, .tk .rbrc]⟩,
   ⟨.dowh, [.tk .dowh, .tk .lbrc, .mt .stmt, .tk .rbrc, .tk .whil, .nt .expr, .tk .scol]⟩,
   ⟨.whil, [.tk .whil, .nt .expr, .tk .lbrc, .mt .stmt, .tk .rbrc]⟩,
   ⟨.stmt, [.mt .qual, .nt .expr, .tk .scol]⟩,
   ⟨.stmt, [.nt .ctrl]⟩,
   ⟨.stmt, [.nt .func]⟩,
   ⟨.func, [.mt .qual, .nt .expr, .tk .lbrc, .mt .stmt, .tk .rbrc]⟩,
   ⟨.stmt, [.tk .noin, .tk .lbrc, .mt .stmt, .tk .rbrc]⟩,
   ⟨.stmt, [.tk .lbrc, .mt .stmt, .tk .rbrc]⟩,
   ⟨.qual, [.tk .cons]⟩,
   ⟨.qual, [.tk .expo]⟩,
   ⟨.qual, [.tk .stat]⟩,
   ⟨.atom, [.tk .name]⟩,
   ⟨.atom, [.tk .nmbr]⟩,
   ⟨.atom, [.tk .strl]⟩,
   expr .atom, expr .fexp, expr .pexp, expr .texp, expr .bexp, expr .uexp, expr .xexp,
   expr .wexp, expr .aexp,
   ⟨.fexp, [.nt .expr, .tk .lpar, .nt .expr, .tk .rpar]⟩,
   ⟨.fexp, [.nt .expr, .tk .lpar, .tk .rpar]⟩,
   ⟨.pexp, [.tk .lpar, .nt .expr, .tk .rpar]⟩,
   ⟨.texp, [.nt .expr, .tk .ques, .nt .expr, .tk .coln, .nt .expr]⟩,
   bexp .assn, bexp .aspl, bexp .asmi, bexp .asmu, bexp .asdi, bexp .asmo, bexp .asls,
   bexp .asrs, bexp .asan, bexp .asxo, bexp .asor, bexp .coln, bexp .scop, bexp .atsi,
   bexp .memb, bexp .arow, bexp .equl, bexp .neql, bexp .lthn, bexp .gthn, bexp .lteq,
   bexp .gteq, bexp .conj, bexp .disj, bexp .plus, bexp .mins, bexp .mult, bexp .divi,
   bexp .modu, bexp .lshf, bexp .rshf, bexp .amps, bexp .care, bexp .pipe, bexp .coma,
   bexp .cast, uexp .plus, uexp .mins, uexp .excl, uexp .tild, uexp .mult, uexp .amps,
   uexp .care, uexp .incr, uexp .decr, uexp .szof, uexp .alof, xexp .incr, xexp .decr,
   wexp .wmse, wexp .wsec,
   ⟨.aexp, [.nt .expr, .tk .lbra, .nt .expr, .tk .rbra]⟩,
   ⟨.stmt, [.tk .lbra, .nt .expr, .tk .rbra]⟩]

/-- `precedence`, from `=` to `?:` -/
def precedence : List Nat :=
  [14, 14, 14, 14, 14, 14, 14, 14, 14, 14, 14, 1, 0, 2, 1, 1, 7, 7, 6, 6, 6, 6, 11, 12, 4, 4, 3, 3, 3,
   5, 5, 8, 9, 10, 15, 2, 13]

def precedenceOf (t : Tk) : Nat := precedence.getD (t.ctorIdx - Tk.ctorIdx .assn) 0

/-- `ahead >= LEX_TK_ASSN && ahead <= LEX_TK_QUES` -/
def isOperator (t : Tk) : Bool := Tk.ctorIdx .assn ≤ t.ctorIdx && t.ctorIdx ≤ Tk.ctorIdx .ques

/-- `lex_tk_is_assn` -/
def lexTkIsAssn (t : Tk) : Bool := Tk.ctorIdx .assn ≤ t.ctorIdx && t.ctorIdx ≤ Tk.ctorIdx .asor

def skipToken (t : Token) : Bool := t.tk == .wspc || t.tk == .lcom || t.tk == .bcom

/-! ### Matching -/

/-- `term_eq_node` -/
def termEqNode (t : PTerm) (n : PNode) : Bool := t.symbol = n.symbol Token.tk

/-- One round of the loop of `match_rule`: the term repeated last, the terms still to match and
the nodes below. -/
def matchStep (prev : Option PTerm) : List PTerm → List PNode → Option (Option PTerm × List PTerm × List PNode)
  | t :: ts, n :: ns =>
    if termEqNode t n then some (if t.isMt then some t else none, ts, ns)
    else if prev.any (termEqNode · n) then some (prev, t :: ts, ns)
    else if t.isMt then some (none, ts, n :: ns)
    else none
  | _, _ => none

/-- The loop of `match_rule`, from the last term to the left. -/
def matchLoop : Nat → Option PTerm → List PTerm → List PNode → Option (Option PTerm × List PNode)
  | 0, _, _, _ => none
  | fuel + 1, prev, terms, nodes =>
    match matchStep prev terms nodes with
    | none => none
    | some (prev, terms, nodes) =>
      if terms.head? = some no then some (prev, nodes)
      else if nodes.isEmpty then none
      else matchLoop fuel prev terms nodes

/-- The term repeated last may match some nodes more. -/
def dropPrev (prev : Option PTerm) (nodes : List PNode) : List PNode :=
  match prev with
  | some t => nodes.dropWhile (termEqNode t)
  | none => nodes

/-- `match_rule`: the size of the reduction, zero if there is none. -/
def matchRule (r : PRule) (stack : List PNode) : Nat :=
  match matchLoop (ruleRhsLast + 1 + stack.length) none (slots r).reverse stack with
  | none => 0
  | some (prev, below) => stack.length - (dropPrev prev below).length

/-- The first rule of the table that matches, with the size of the reduction. -/
def firstMatch (stack : List PNode) : Option (PRule × Nat) :=
  grammar.findSome? fun r => if matchRule r stack = 0 then none else some (r, matchRule r stack)

/-! ### Shifting and reducing -/

/-- `rule->rhs[idx].tk` -/
def slotTk (r : PRule) (idx : Nat) : Tk :=
  match (slots r)[idx]? with
  | some (.tk t) => t
  | _ => .count

/-- What `should_shift_pre` says of the token ahead. -/
def shiftsPre (r : PRule) (ahead : Tk) : Bool :=
  if r.lhs = .bexp then
    let op := slotTk r (ruleRhsLast - 1)
    if isOperator ahead then
      if precedenceOf op > precedenceOf ahead then true
      else if precedenceOf op = precedenceOf ahead then
        lexTkIsAssn op || op == .coln || op == .coma || op == .scop
      else false
    else if ahead = .lpar ∨ ahead = .lbra ∨ ahead = .incr ∨ ahead = .decr then
      !(op == .scop || op == .memb || op == .arow)
    else false
  else if r.lhs = .uexp then
    ahead ∈ [Tk.lpar, .lbra, .scop, .coln, .memb, .arow, .atsi, .incr, .decr]
  else if r.lhs = .texp then
    !(lexTkIsAssn ahead || ahead == .coma || ahead == .rpar || ahead == .rbra || ahead == .scol)
  else if r.lhs = .stmt ∧ (slots r)[ruleRhsLast]? = some (.tk .rbrc) then ahead == .whil
  else if r.lhs = .qual then slotTk r ruleRhsLast == .expo && ahead == .type
  else false

/-- What `should_shift_post` says of the token ahead. -/
def shiftsPost (r : PRule) (ahead : Tk) : Bool :=
  (r.lhs = .cond ∨ r.lhs = .elif) && (ahead == .elif || ahead == .els)

/-- `should_shift_pre` and `should_shift_post`: the answer, and the tokens from the one ahead on;
nothing if there is none. -/
def shouldShift (shifts : PRule → Tk → Bool) (r : PRule) (rest : List Token) : Option (Bool × List Token) :=
  if r.lhs = .unit then some (false, rest)
  else
    match rest.dropWhile skipToken with
    | [] => none
    | t :: rest => some (shifts r t.tk, t :: rest)

/-- `reduce` -/
def reduce (r : PRule) (size : Nat) (stack : List PNode) : List PNode :=
  .node r.lhs (stack.take size).reverse :: stack.drop size

/-! ### The loop -/

/-- The stack, the tokens left, and whether the loop stands at `try_reduce_again`. -/
structure Parsing where
  stack : List PNode
  rest : List Token
  retry : Bool

/-- What a round does; `ub` is a read behind the last token. -/
inductive Moved
  | next (x : Parsing)
  | stop (stack : List PNode)
  | ub

/-- `SHIFT_OR_NOMEM` -/
def shift (stack : List PNode) : List Token → Moved
  | [] => .ub
  | t :: rest => .next ⟨.leaf t :: stack, rest, true⟩

/-- One round of the loop of `parse`. -/
def parseStep (x : Parsing) : Moved :=
  if x.retry then
    match firstMatch x.stack with
    | none => .next { x with retry := false }
    | some (r, size) =>
      match shouldShift shiftsPre r x.rest with
      | none => .ub
      | some (true, rest) => shift x.stack rest
      | some (false, rest) =>
        match shouldShift shiftsPost r rest with
        | none => .ub
        | some (true, rest) => shift (reduce r size x.stack) rest
        | some (false, rest) => .next ⟨reduce r size x.stack, rest, true⟩
  else
    match x.rest with
    | [] => .stop x.stack
    | t :: rest => if skipToken t then .next { x with rest := rest } else shift x.stack (t :: rest)

/-- How `parse` returns; `hang` is a loop that goes on for too long. -/
inductive Parsed
  | ok (root : PNode)
  | reject (stack : List PNode)
  | ub
  | hang

def parseEnd : List PNode → Parsed
  | [.node .unit (c :: cs)] => .ok (.node .unit (c :: cs))
  | stack => .reject stack

/-- The loop of `parse` -/
def parseLoop : Nat → Parsing → Parsed
  | 0, _ => .hang
  | fuel + 1, x =>
    match parseStep x with
    | .next x => parseLoop fuel x
    | .stop stack => parseEnd stack
    | .ub => .ub

/-- `parse` -/
def parse (tokens : List Token) : Parsed := parseLoop (10 * tokens.length + 1) ⟨[], tokens, false⟩

end Quaint.Parse
