import Quaint.Parse
import Quaint.TypeCheck

/-!
`ast_build`: from the tree of the parser to the tree of the later passes.

A child that is rejected leaves the node around it as far as it was built. The complaints come
with the tree; `ast_build` returns `AST_INVALID` if there are any. Nothing at all is returned where
the source aborts. Allocation does not fail here.
-/

namespace Quaint.Validate

open Types Ast TypeCheck TRes Lex Parse

/-! ### Tokens -/

/-- A tree as far as it was built, and the complaints; nothing where the source aborts. -/
abbrev Built (α : Type) := Option (α × List String)

namespace Built

variable {α β γ : Type}

/-- Go on after a child that was not rejected. -/
def step (r : Built α) (stop : α → β) (go : α → Built β) : Built β :=
  r.bind fun p => if p.2.isEmpty then go p.1 else some (stop p.1, p.2)

def last (r : Built α) (f : α → β) : Built β := r.map fun p => (f p.1, p.2)

/-- Both children are built, whatever becomes of the first. -/
def both (r : Built α) (s : Built β) (f : α → β → γ) : Built γ :=
  r.bind fun p => s.map fun q => (f p.1 q.1, p.2 ++ q.2)

/-- A type goes into the tree if it is valid. -/
def typed (r : TRes α) (f : Option α → β) : Built β :=
  match r with
  | .ok a => some (f (some a), [])
  | .invalid ms => some (f none, ms)
  | .crash => none

/-- The node is there only if nothing was rejected. -/
def made (r : TRes α) (f : α → β) (failed : β) : Built β :=
  typed r fun a => (a.map f).getD failed

end Built

section Source

variable (src : List UInt8)

def symOf (t : Token) : Sym := ⟨(src.drop t.beg).take (t.stop - t.beg), t.beg⟩

/-- The first token below a node. -/
def ltok : PNode → Token
  | .leaf t => t
  | .node _ (c :: _) => ltok c
  | .node _ [] => fbegToken

/-- `expr_is_atom`, with the token -/
def exprAtom (tk : Tk) : PNode → Option Token
  | .node .expr [.node .atom [.leaf t]] => if t.tk = tk then some t else none
  | _ => none

def exprName (n : PNode) : Option Sym := (exprAtom .name n).map (symOf src)

/-- `nmbr_to_uint` -/
def nmbrToUint (text : List UInt8) : Nat :=
  (text.foldr (fun c (r : Nat × Nat) => (wrap64 (r.1 + r.2 * (c.toNat - '0'.toNat)), wrap64 (r.2 * 10)))
    (0, 1)).1

def chars (s : List Char) : List UInt8 := s.map fun c => UInt8.ofNat c.toNat

/-! ### Types -/

/-- `typedescs`: the name, the alias and the code of each built-in type. -/
def typedescs : List (List Char × List Char × TypeT) :=
  [(['b', 'y', 't', 'e'], ['u', '8'], .u8), (['s', 'b', 'y', 't', 'e'], ['i', '8'], .i8),
   (['u', 's', 'h', 'o', 'r', 't'], ['u', '1', '6'], .u16),
   (['s', 'h', 'o', 'r', 't'], ['i', '1', '6'], .i16),
   (['u', 'i', 'n', 't'], ['u', '3', '2'], .u32), (['i', 'n', 't'], ['i', '3', '2'], .i32),
   (['u', 'l', 'o', 'n', 'g'], ['u', '6', '4'], .u64), (['l', 'o', 'n', 'g'], ['i', '6', '4'], .i64),
   (['u', 's', 'i', 'z', 'e'], [], .usize), (['s', 's', 'i', 'z', 'e'], [], .ssize),
   (['u', 'p', 't', 'r'], [], .uptr), (['i', 'p', 't', 'r'], [], .iptr),
   (['e', 'n', 'u', 'm'], [], .enum), (['p', 't', 'r'], [], .ptr), (['v', 'p', 't', 'r'], [], .vptr),
   (['f', 'p', 't', 'r'], [], .fptr), (['q', 'u', 'a', 'i', 'n', 't'], [], .quaint),
   (['s', 't', 'r', 'u', 'c', 't'], [], .struct), (['u', 'n', 'i', 'o', 'n'], [], .union)]

/-- `type_match` -/
def typeMatch (s : Sym) : TypeT :=
  match typedescs.find? fun d => s.text == chars d.1 || s.text == chars d.2.1 with
  | some d => d.2.2
  | none => .void

/-- The built-in integer type of that code. -/
def intOf : TypeT → Option IntT
  | .u8 => some .u8 | .i8 => some .i8 | .u16 => some .u16 | .i16 => some .i16
  | .u32 => some .u32 | .i32 => some .i32 | .u64 => some .u64 | .i64 => some .i64
  | .usize => some .usize | .ssize => some .ssize | .uptr => some .uptr | .iptr => some .iptr
  | _ => none

variable (symtab : List (Sym × Ty))

/-- `resolve_type`: the count stays the one written here. -/
def resolveType (count : Nat) (name : Sym) : TRes Ty :=
  match typeSymtabFind symtab name with
  | none => .invalid ["reference to undefined type"]
  | some found => .ok (found.setCount count)

/-- A type that is only a name, or an array of one; the complaint is about the names that ask for
more. -/
def nameType (complaint : TypeT → String) (count : Nat) (name : Sym) : TRes Ty :=
  match typeMatch name with
  | .void => resolveType symtab count name
  | .vptr => .ok (.vptr count)
  | t =>
    match intOf t with
    | some k => .ok (.int k count)
    | none => .invalid [complaint t]

def scalarComplaint : TypeT → String
  | .ptr => "pointer must have a subtype"
  | .fptr => "function pointer must list its arguments"
  | .quaint => "quaint must have a subtype"
  | .struct => "struct must have members"
  | .union => "union must have members"
  | _ => "enum must be a top-level type and have values"

def arrayComplaint : TypeT → String
  | .ptr => "array of pointers must have a subtype"
  | .fptr => "array of function pointers must list its arguments"
  | .quaint => "array of quaints must have a subtype"
  | .struct => "array of structs must have members"
  | .union => "array of unions must have members"
  | _ => "enum must be a top-level decl and have values, cannot be an array"

/-- The name before the brackets, and the number in them. -/
def arrayHead (arrayType arraySize : PNode) : TRes (Sym × Nat) :=
  match exprName src arrayType with
  | none => .invalid ["bad array type"]
  | some name =>
    match exprAtom .nmbr arraySize with
    | none => .invalid ["bad array size"]
    | some t => .ok (name, nmbrToUint (symOf src t).text)

/-- The head of a functional type: its name, its count, and whether it is an array. -/
def typeHead (left : PNode) : TRes (Sym × Nat × Bool) :=
  match left with
  | .node .expr [.node .aexp [t, _, n, _]] =>
    (arrayHead src t n).bind fun h => .ok (h.1, h.2, true)
  | left =>
    match exprName src left with
    | some name => .ok (name, 1, false)
    | none => .invalid ["bad type expression"]

def enumComplaint (array : Bool) : String :=
  if array then "enum must be a top-level type, cannot be an array" else "enum must be a top-level type"

/-- The head of a function pointer with a return type: its count. -/
def fptrHead (left : PNode) : TRes Nat :=
  (typeHead src left).bind fun h =>
  match typeMatch h.1 with
  | .fptr => .ok h.2.1
  | .enum => .invalid [enumComplaint h.2.2]
  | _ => .invalid ["expecting an fptr or enum"]

/-- A name and a type with a colon between them. -/
def pairOf (left : PNode) (op : Token) (type : TRes Ty) : TRes (Sym × Ty) :=
  require (op.tk == .coln) "expecting a colon in name-type pair" <|
  match exprName src left with
  | none => .invalid ["expecting a name"]
  | some name => type.bind fun t => .ok (name, t)

def distinctPairs (pairs : TRes Fields) : TRes Fields :=
  pairs.bind fun ps => require (namesDistinct ps.names) "duplicate name in type-name list" <| .ok ps

/-- A functional type, by its head and what stands in its parentheses, as a type and as a list of
pairs. -/
def fexpType (head : Sym × Nat × Bool) (subtype : Option (TRes Ty)) (pairs : Option (TRes Fields)) :
    TRes Ty :=
  match typeMatch head.1 with
  | .ptr =>
    match subtype with
    | some s => s.bind fun s => .ok (.ptr head.2.1 s)
    | none => .invalid ["pointer must have a subtype"]
  | .quaint =>
    match subtype with
    | some s => s.bind fun s => .ok (.quaint head.2.1 s)
    | none => .ok (.quaint head.2.1 .zero)
  | .fptr =>
    match pairs with
    | some ps => (distinctPairs ps).bind fun ps => .ok (.fptr head.2.1 ps .none)
    | none => .ok (.fptr head.2.1 .nil .none)
  | .struct =>
    match pairs with
    | some ps => (distinctPairs ps).bind fun ps => .ok (.struct head.2.1 ps)
    | none => .invalid ["struct must have members"]
  | .union =>
    match pairs with
    | some ps => (distinctPairs ps).bind fun ps => .ok (.union head.2.1 ps)
    | none => .invalid ["union must have members"]
  | .enum => .invalid [enumComplaint head.2.2]
  | .void => .invalid ["bad built-in type"]
  | _ => .invalid ["built-in type must not have a subtype"]

mutual
/-- `validate_typespec` -/
def validateTypespec : PNode → TRes Ty
  | .node .expr [c] => validateTypespec c
  | .node .atom [.leaf t] =>
    if t.tk = .name then nameType symtab scalarComplaint 1 (symOf src t)
    else .invalid ["bad type name"]
  | .node .fexp [left, _, right, _] =>
    (typeHead src left).bind fun head =>
    fexpType head (some (validateTypespec right)) (some (pairsLoop right))
  | .node .fexp [left, _, _] => (typeHead src left).bind fun head => fexpType head none none
  | .node .aexp [t, _, n, _] =>
    (arrayHead src t n).bind fun h => nameType symtab arrayComplaint h.2 h.1
  | .node .bexp [left, .leaf op, right] =>
    require (op.tk == .coln) "bad type expression" <|
    match left with
    | .node .expr [.node .fexp [fleft, _, fright, _]] =>
      (fptrHead src fleft).bind fun count =>
      (distinctPairs (pairsLoop fright)).bind fun ps =>
      (validateTypespec right).bind fun rt => .ok (.fptr count ps (.some rt))
    | .node .expr [.node .fexp [fleft, _, _]] =>
      (fptrHead src fleft).bind fun count =>
      (validateTypespec right).bind fun rt => .ok (.fptr count .nil (.some rt))
    | _ => .invalid ["expecting a functional expression"]
  | .leaf _ => .crash
  | .node _ _ => .invalid ["bad type specifier"]
/-- The loop of `validate_name_type_pairs` along the commas. -/
def pairsLoop : PNode → TRes Fields
  | .node .expr [.node .bexp [left, .leaf op, right]] =>
    if op.tk = .coma then
      (validatePair left).bind fun p => (pairsLoop right).bind fun ps => .ok (.cons p.1 p.2 ps)
    else (pairOf src left op (validateTypespec right)).bind fun p => .ok (.cons p.1 p.2 .nil)
  | _ => .invalid ["bad name-type pair"]
def validatePair : PNode → TRes (Sym × Ty)
  | .node .expr [.node .bexp [left, .leaf op, right]] =>
    pairOf src left op (validateTypespec right)
  | _ => .invalid ["bad name-type pair"]
end

/-- `validate_name_type_pairs` -/
def validateNameTypePairs (list : PNode) : TRes Fields := distinctPairs (pairsLoop src symtab list)

/-! ### Enumerations -/

/-- `typespec_appears_enum` -/
def typespecAppearsEnum : PNode → Bool
  | .node .expr [c] => typespecAppearsEnum c
  | .node .fexp (left :: _) =>
    match exprName src left with
    | some name => name.text == chars ['e', 'n', 'u', 'm']
    | none => false
  | .node .bexp [left, .leaf op, _] => op.tk == .coln && typespecAppearsEnum left
  | _ => false

/-- `enum_type_from_maxval` -/
def enumTypeFromMaxval (maxValue : Nat) : IntT :=
  if maxValue ≤ 0xFF then .u8 else if maxValue ≤ 0xFFFF then .u16
  else if maxValue ≤ 0xFFFFFFFF then .u32 else .u64

/-- `enum_boundary_from_type`, which aborts on any other type -/
def enumBoundaryFromType : IntT → Option Nat
  | .u8 => some 0xFF
  | .u16 => some 0xFFFF
  | .u32 => some 0xFFFFFFFF
  | .u64 | .usize | .uptr => some 0xFFFFFFFFFFFFFFFF
  | _ => none

/-- The loop along the commas between the values. -/
def enumNames : PNode → TRes (List Sym)
  | .node .expr [.node .bexp [left, .leaf op, right]] =>
    if op.tk = .coma then
      match exprName src left with
      | some name => (enumNames right).bind fun names => .ok (name :: names)
      | none => .invalid ["bad enum value"]
    else .invalid ["bad enum value"]
  | value =>
    match exprName src value with
    | some name => .ok [name]
    | none => .invalid ["bad enum value"]

/-- The type that holds the values, by the code of the one that was written, if any. -/
def enumType (tEnum : Option TypeT) (maxValue : Nat) : TRes IntT :=
  match tEnum with
  | none => .ok (enumTypeFromMaxval maxValue)
  | some t =>
    match (intOf t).bind fun k => (enumBoundaryFromType k).map fun b => (k, b) with
    | none => .crash
    | some (k, boundary) =>
      require (maxValue ≤ boundary) "enum values do not fit into the specified type" <| .ok k

/-- What `validate_typespec_enum` does once the type of the values is known. -/
def enumFromFexp (tEnum : Option TypeT) (enumFexp : PNode) : TRes Ty :=
  match enumFexp with
  | .node _ [_, _, valueList, _] =>
    (enumNames src valueList).bind fun names =>
    require (namesDistinct names) "duplicate value in enum" <|
    (enumType tEnum (names.length - 1)).bind fun k => .ok (.enum 1 (names.zip (List.range names.length)) k)
  | _ => .invalid ["an enum must have values"]

/-- `validate_typespec_enum` -/
def validateTypespecEnum : PNode → TRes Ty
  | .node .expr [.node .bexp [.node .expr [enumFexp], _, typespec]] =>
    (validateTypespec src symtab typespec).bind fun explicit =>
    require (typeIsIntegral explicit.t && typeIsUnsigned explicit.t)
      "enum type must be integral and unsigned" <|
    enumFromFexp src (some explicit.t) enumFexp
  | .node .expr [enumFexp] => enumFromFexp src none enumFexp
  | _ => .crash

/-! ### Expressions -/

def bopOf : Tk → Option BOp
  | .assn => some .assn | .aspl => some .aspl | .asmi => some .asmi | .asmu => some .asmu
  | .asdi => some .asdi | .asmo => some .asmo | .asls => some .asls | .asrs => some .asrs
  | .asan => some .asan | .asxo => some .asxo | .asor => some .asor | .coln => some .coln
  | .scop => some .scop | .atsi => some .atsi | .memb => some .memb | .arow => some .arow
  | .equl => some .equl | .neql => some .neql | .lthn => some .lthn | .gthn => some .gthn
  | .lteq => some .lteq | .gteq => some .gteq | .conj => some .conj | .disj => some .disj
  | .plus => some .plus | .mins => some .mins | .mult => some .mult | .divi => some .divi
  | .modu => some .modu | .lshf => some .lshf | .rshf => some .rshf | .amps => some .amps
  | .care => some .care | .pipe => some .pipe | .coma => some .coma | .cast => some .cast
  | _ => none

def uopOf : Tk → Option UOp
  | .plus => some .plus | .mins => some .mins | .excl => some .excl | .tild => some .tild
  | .mult => some .mult | .amps => some .amps | .care => some .care | .incr => some .incr
  | .decr => some .decr
  | _ => none

def xopOf : Tk → Option XOp
  | .incr => some .incr
  | .decr => some .decr
  | _ => none

/-- The arguments that the right spine of a list of commas holds. -/
def argsOf : Expr → Args
  | .absent => .nil
  | .bexp _ .coma l r => .cons l (argsOf r)
  | e => .cons e .nil

/-- A name, a number, or what stands between two quotation marks. -/
def atomExpr (t : Token) : Option Expr :=
  match t.tk with
  | .name => some (.name (symOf src t))
  | .nmbr => some (.nmbr (nmbrToUint (symOf src t).text))
  | .strl => some (.strl ((src.drop (t.beg + 1)).take (t.stop - 1 - (t.beg + 1))))
  | _ => none

/-- `validate_expr` -/
def validateExpr : PNode → Built Expr
  | .node .expr [c] => validateExpr c
  | .node .pexp [_, c, _] => validateExpr c
  | .node .wexp _ => some (.absent, ["unexpected wexp"])
  | .node .bexp [l, .leaf op, r] =>
    (bopOf op.tk).bind fun bop =>
    if bop = .cast ∨ bop = .coln then
      (validateExpr l).step (.cast · none) fun l' =>
      Built.typed (validateTypespec src symtab r) fun c => .cast l' c
    else
      (validateExpr l).step (.bexp (symOf src (ltok l)) bop · .absent) fun l' =>
      (validateExpr r).last fun r' => .bexp (symOf src (ltok l)) bop l' r'
  | .node .uexp [.leaf op, r] =>
    if op.tk = .szof ∨ op.tk = .alof then
      Built.typed (validateTypespec src symtab r) fun s => .szof (op.tk == .alof) s
    else (uopOf op.tk).bind fun uop => (validateExpr r).last fun r' => .uexp uop r'
  | .node .fexp [l, _, r, _] =>
    (validateExpr l).step (.fexp · .nil) fun l' =>
    (validateExpr r).last fun r' => .fexp l' (argsOf r')
  | .node .fexp [l, _, _] => (validateExpr l).last fun l' => .fexp l' .nil
  | .node .xexp [l, .leaf op] =>
    (xopOf op.tk).bind fun xop => (validateExpr l).last fun l' => .xexp xop l'
  | .node .aexp [b, _, o, _] =>
    (validateExpr b).step (.aexp · .absent) fun b' =>
    (validateExpr o).last fun o' => .aexp b' o'
  | .node .texp [c, _, t, _, f] =>
    (validateExpr c).step (.texp · .absent .absent) fun c' =>
    (validateExpr t).step (.texp c' · .absent) fun t' =>
    (validateExpr f).last fun f' => .texp c' t' f'
  | .node .atom [.leaf t] => (atomExpr src t).map fun e => (e, [])
  | _ => none

/-! ### Declarations -/

/-- The qualifiers so far. -/
structure Quals where
  any : Bool
  cons : Bool
  expo : Bool
  stat : Bool

/-- `count_decl_qualifiers`: the qualifiers, and the node after them. -/
def countDeclQualifiers (unit : Bool) (q : Quals) : List PNode → TRes (Quals × PNode)
  | .node .qual [.leaf t] :: rest =>
    match t.tk with
    | .cons =>
      require (!q.cons) "duplicate qualifier" <|
      countDeclQualifiers unit { q with any := true, cons := true } rest
    | .expo =>
      require unit "qualifier not in unit context" <|
      require (!q.expo) "duplicate qualifier" <|
      countDeclQualifiers unit { q with any := true, expo := true } rest
    | .stat =>
      require (!unit) "qualifier in unit context" <|
      require (!q.stat) "duplicate qualifier" <|
      countDeclQualifiers unit { q with any := true, stat := true } rest
    | _ => .crash
  | child :: _ => .ok (q, child)
  | [] => .crash

/-- What the loop of `validate_decl_or_expr` comes to: an expression, with what a qualifier before
it would be told, or a declaration, whose type may be invalid. -/
inductive DeclOrExpr
  | expr (complaint : String)
  | decl (names : List Sym) (type : TRes Ty) (initExpr : Option PNode)

/-- The last name, and the type after the colon. -/
def declEnd (left : PNode) (op : Token) (right : PNode) (initExpr : Option PNode) : DeclOrExpr :=
  match exprName src left with
  | none => .expr "expecting a name"
  | some name =>
    if op.tk = .coln then .decl [name] (validateTypespec src symtab right) initExpr
    else .expr "expecting a colon"

/-- The loop of `validate_decl_or_expr` along the commas. -/
def declLoop : PNode → DeclOrExpr
  | .node .expr [.node .bexp [left, .leaf op, right]] =>
    if op.tk = .assn then
      match left with
      | .node .expr [.node .bexp [left, .leaf op, typespec]] =>
        if op.tk = .coln then declEnd src symtab left op typespec (some right)
        else .expr "expecting a colon"
      | _ => .expr "expecting a bexp"
    else if op.tk = .coma then
      match exprName src left with
      | none => .expr "expecting a name"
      | some name =>
        match declLoop right with
        | .decl names type initExpr => .decl (name :: names) type initExpr
        | .expr complaint => .expr complaint
    else declEnd src symtab left op right none
  | _ => .expr "expecting a bexp"

/-- A statement whose expression may be missing. -/
def exprStmt : Expr → Stmt
  | .absent => .absent
  | e => .expr e

/-- The declaration, once its names and its type are known. -/
def validateDecl (q : Quals) (names : List Sym) (type : TRes Ty) (initExpr : Option PNode) :
    Built Stmt :=
  match type with
  | .crash => none
  | .invalid ms => some (.absent, ms)
  | .ok t =>
    if namesDistinct names then
      match initExpr with
      | none => some (.decl ⟨q.cons, q.expo, q.stat, names, t, .absent⟩, [])
      | some e =>
        (validateExpr src symtab e).step (fun _ => .void) fun e' =>
        some (.decl ⟨q.cons, q.expo, q.stat, names, t, e'⟩, [])
    else some (.absent, ["duplicate name in declaration"])

/-- `validate_decl_or_expr` -/
def validateDeclOrExpr (unit : Bool) (children : List PNode) : Built Stmt :=
  match countDeclQualifiers unit ⟨false, false, false, false⟩ children with
  | .crash => none
  | .invalid ms => some (.absent, ms)
  | .ok (q, child) =>
    match declLoop src symtab child with
    | .decl names type initExpr => validateDecl src symtab q names type initExpr
    | .expr complaint =>
      if q.any then some (.absent, [complaint]) else (validateExpr src symtab child).last exprStmt

/-! ### Statements -/

/-- `validate_retn` -/
def validateRetn : List PNode → Built Stmt
  | [_, e, _] =>
    (validateExpr src symtab e).step (fun _ => .void) fun e' => some (.retn (some e'), [])
  | _ => some (.retn none, [])

/-- The expression of `wait ... for`, and whether its unit is the second. -/
def wforOf : PNode → PNode × Bool
  | .node .expr [.node .wexp [e, .leaf unit]] => (e, unit.tk == .wsec)
  | e => (e, false)

/-- `validate_wait` -/
def validateWait (children : List PNode) : Built Stmt :=
  match children with
  | _ :: q :: rest =>
    (validateExpr src symtab q).step (fun _ => .void) fun q' =>
    match rest with
    | [_] => some (.wait q' .absent .absent false false, [])
    | [_, _] => some (.wait q' .absent .absent true false, [])
    | .leaf kind :: e :: rest =>
      if kind.tk = .wfor then
        (validateExpr src symtab (wforOf e).1).step (fun _ => .void) fun e' =>
        some (.wait q' e' .absent (rest.length == 2) (wforOf e).2, [])
      else
        (validateExpr src symtab e).step (fun _ => .void) fun e' =>
        some (.wait q' .absent e' (rest.length == 2) false, [])
    | _ => none
  | _ => none

/-- `validate_wlab` -/
def validateWlab : List PNode → Built Stmt
  | [_, e, _] =>
    match exprName src e with
    | none => some (.absent, ["expecting a label name"])
    | some name => some (.wlab name, [])
  | _ => none

/-- `validate_stmt` on a statement that begins with a token, given the statements after it, which
are those of a block, and those after the next one, which are those of a `noint`. -/
def tokenStmt (t : Token) (rest : List PNode) (block noint : Built Stmts) : Built Stmt :=
  match t.tk with
  | .useu => some (.absent, ["use statement not in unit context"])
  | .expo | .type => some (.absent, ["type statement not in unit context"])
  | .wait => validateWait src symtab (.leaf t :: rest)
  | .retn => validateRetn src symtab (.leaf t :: rest)
  | .lbra => validateWlab src (.leaf t :: rest)
  | .lbrc => block.last .blok
  | .noin => noint.last .noin
  | _ => none

mutual
/-- `validate_stmt`, below the unit -/
def validateStmt : PNode → Built Stmt
  | .node .stmt (.leaf t :: n :: rest) =>
    tokenStmt src symtab t (n :: rest) (validateStmts (n :: rest)) (validateStmts rest)
  | .node .stmt [.node .ctrl (.node .cond (_ :: e :: _ :: block) :: rest)] =>
    ((validateExpr src symtab e).both (validateStmts block) Prod.mk).both (validateElifs rest)
      fun p rest' => .cond p.1 p.2 rest'
  | .node .stmt [.node .ctrl [.node .whil (_ :: e :: _ :: block)]] =>
    (validateExpr src symtab e).both (validateStmts block) .whil
  | .node .stmt [.node .ctrl [.node .dowh (_ :: _ :: block)]] =>
    match block.reverse with
    | _ :: e :: _ => (validateStmts block).both (validateExpr src symtab e) .dowh
    | _ => none
  | .node .stmt [.node .func _] => some (.absent, ["function not in unit context"])
  | .node .stmt children => validateDeclOrExpr src symtab false children
  | _ => none
/-- The statements up to the closing brace. -/
def validateStmts : List PNode → Built Stmts
  | .leaf _ :: _ => some (.nil, [])
  | s :: rest => (validateStmt s).both (validateStmts rest) .cons
  | [] => none
/-- The `elif` and `else` parts of `validate_cond`. -/
def validateElifs : List PNode → Built Elifs
  | [] => some (.none, [])
  | [.node .els (_ :: _ :: block)] => (validateStmts block).last .els
  | .node .elif (_ :: e :: _ :: block) :: rest =>
    ((validateExpr src symtab e).both (validateStmts block) Prod.mk).both (validateElifs rest)
      fun p rest' => .elif p.1 p.2 rest'
  | _ => none
end

/-! ### The unit -/

/-- The qualifiers of a function, and what stands after them. -/
def funcQualifiers (exposed : Bool) : List PNode → TRes (Bool × List PNode)
  | .node .qual [.leaf t] :: rest =>
    match t.tk with
    | .cons | .stat => .invalid ["invalid qualifier for function"]
    | .expo => require (!exposed) "duplicate qualifier" <| funcQualifiers true rest
    | _ => .crash
  | children => .ok (exposed, children)

/-- The name before the parentheses, and the parameters in them. -/
def funcHead (left : PNode) (params : Option PNode) : TRes (Sym × Fields) :=
  match exprName src left with
  | none => .invalid ["bad function name"]
  | some name =>
    match params with
    | none => .ok (name, .nil)
    | some ps => (validateNameTypePairs src symtab ps).bind fun ps => .ok (name, ps)

/-- The part of a signature before its return type. -/
def funcLeft (left : PNode) : TRes (Sym × Fields) :=
  match exprName src left with
  | some name => .ok (name, .nil)
  | none =>
    match left with
    | .node .expr [.node .fexp [fleft, _, fright, _]] => funcHead src symtab fleft (some fright)
    | .node .expr [.node .fexp [fleft, _, _]] => funcHead src symtab fleft none
    | _ => .invalid ["bad function signature"]

/-- The signature of `validate_func`: the name, the parameters and the return type. -/
def funcSignature (child : PNode) : TRes (Sym × Fields × RetTy) :=
  match child with
  | .node .expr [.node .bexp [left, .leaf op, right]] =>
    require (op.tk == .coln) "expecting a colon" <|
    (funcLeft src symtab left).bind fun head =>
    (validateTypespec src symtab right).bind fun rt => .ok (head.1, head.2, .some rt)
  | child => (funcLeft src symtab child).bind fun head => .ok (head.1, head.2, .none)

/-- `validate_func`: a node whose signature is invalid never gets its kind. -/
def validateFunc (children : List PNode) : Built Top :=
  match funcQualifiers false children with
  | .crash => none
  | .invalid ms => some (.absent, ms)
  | .ok (exposed, child :: _ :: block) =>
    match funcSignature src symtab child with
    | .crash => none
    | .invalid ms => some (.void, ms)
    | .ok (name, params, rettype) =>
      (validateStmts src symtab block).last fun b => .func ⟨exposed, name, params, rettype, b⟩
  | .ok _ => none

/-- `validate_useu` -/
def validateUseu : List PNode → Built Top
  | [_, .node .expr [.node .bexp [left, .leaf op, right]], _] =>
    if (exprAtom .strl left).isNone then
      some (.absent, ["bad use statement, expecting a string literal"])
    else if op.tk ≠ .cast then some (.absent, ["bad use statement, expecting an as operator"])
    else if (exprAtom .name right).isNone then
      some (.absent, ["bad use statement, expecting a name"])
    else some (.useu, [])
  | [_, e, _] =>
    if (exprAtom .strl e).isSome then some (.useu, [])
    else some (.absent, ["bad use statement, expecting a string literal"])
  | _ => none

/-- `type_symtab_insert` -/
def typeSymtabInsert (name : Sym) (type : Ty) : TRes (List (Sym × Ty)) :=
  require (typeSymtabFind symtab name).isNone "redefinition of type" <|
  .ok (symtab ++ [(name, type)])

/-- `validate_type`, with the symbol table it leaves -/
def validateType (bexp : PNode) : Built (Top × List (Sym × Ty)) :=
  match bexp with
  | .node .expr [.node .bexp [typename, .leaf maybeColon, typespec]] =>
    match exprName src typename with
    | none => some ((.absent, symtab), ["bad type name"])
    | some name =>
      if maybeColon.tk ≠ .coln then
        some ((.absent, symtab), ["expecting a colon after the type name"])
      else
        Built.made
          (((if typespecAppearsEnum src typespec then validateTypespecEnum src symtab typespec
            else validateTypespec src symtab typespec)).bind fun type => typeSymtabInsert symtab name type)
          (fun symtab' => (.type, symtab')) (.void, symtab)
  | _ => some ((.absent, symtab), ["bad type statement"])

/-- What is left in the unit of a statement that may stand in it. -/
def topOf : Stmt → Top
  | .decl d => .decl d
  | .expr e => .expr e
  | .absent => .absent
  | _ => .void

/-- `validate_stmt`, in the unit, with the symbol table it leaves -/
def validateTop : PNode → Built (Top × List (Sym × Ty))
  | .node .stmt (.leaf t :: rest) =>
    match t.tk with
    | .useu => (validateUseu (.leaf t :: rest)).last (·, symtab)
    | .expo =>
      match rest with
      | _ :: e :: _ => validateType src symtab e
      | _ => none
    | .type =>
      match rest with
      | e :: _ => validateType src symtab e
      | [] => none
    | .wait => some ((.absent, symtab), ["wait statement in unit context"])
    | .retn => some ((.absent, symtab), ["return statement in unit context"])
    | .lbra => some ((.absent, symtab), ["wait label in unit context"])
    | .lbrc | .noin => some ((.absent, symtab), ["block in unit context"])
    | _ => none
  | .node .stmt [.node .ctrl _] => some ((.absent, symtab), ["control-flow statement in unit context"])
  | .node .stmt [.node .func children] => (validateFunc src symtab children).last (·, symtab)
  | .node .stmt children =>
    (validateDeclOrExpr src symtab true children).last fun s => (topOf s, symtab)
  | _ => none

end Source

/-- The statements of the unit, up to the marker of its end. -/
def validateTops (src : List UInt8) (symtab : List (Sym × Ty)) :
    List PNode → Built (List Top × List (Sym × Ty))
  | .leaf _ :: _ => some (([], symtab), [])
  | s :: rest =>
    (validateTop src symtab s).bind fun p =>
    (validateTops src p.1.2 rest).map fun q => ((p.1.1 :: q.1.1, q.1.2), p.2 ++ q.2)
  | [] => none

/-- `ast_build` -/
def astBuild (src : List UInt8) : PNode → Built Ast.Unit
  | .node .unit (_ :: rest) => (validateTops src [] rest).last fun p => ⟨p.2, p.1⟩
  | _ => none

end Quaint.Validate
