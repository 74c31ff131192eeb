import Quaint.Codegen

/-!
What the generator emits.

`Emit cx x p code r p'` says that from the point `p` the generator emits `code` for the
part `x` of a function and comes to the point `p'`, with `r` as its result. The code is the
final one: every jump has its target and every `pushr` the place of its call. A point also
keeps notes, which the generator does not: the type of the function each call calls, and
the places between statements. Its `peak` is how far the temporaries of the function would reach
if a `size_t` did not wrap around; as long as that is less than `2 ^ 64`, none of them has.
-/

namespace Quaint.Emit

open Types Ast Code Codegen

/-! ### Points -/

inductive Note
  | call (pos : Nat) (type : Ty)
  | bound (pos : Nat)

structure Pt where
  ip : Nat
  strings : List UInt8
  tempOff : Nat
  tempOffPeak : Nat
  peak : Nat
  notes : List Note

namespace Pt

def skip (p : Pt) (n : Nat) : Pt := { p with ip := p.ip + n }

/-- Where a temporary would end without wrap-around. -/
def reach (p : Pt) (size : Nat) : Nat := alignUp p.tempOff (if size ≤ 8 then size else 8) + size

/-- Where `OPD_TEMP` puts a temporary. -/
def slot (p : Pt) (size : Nat) : Nat := wrap64 (alignUp p.tempOff (if size ≤ 8 then size else 8))

def temp (p : Pt) (signd : Bool) (size : Nat) : Opd := ⟨.temp, signd, false, p.slot size, size⟩

/-- The word temporaries of addresses, indices and stack pointers. -/
def word (p : Pt) : Opd := p.temp false 8

def alloc (p : Pt) (size : Nat) : Pt :=
  { p with
    tempOff := wrap64 (p.slot size + size)
    tempOffPeak := max p.tempOffPeak (wrap64 (p.slot size + size))
    peak := max p.peak (p.reach size) }

def reset (p : Pt) (off : Nat) : Pt := { p with tempOff := off }

def note (p : Pt) (n : Note) : Pt := { p with notes := n :: p.notes }

def bound (p : Pt) : Pt := p.note (.bound p.ip)

def string (p : Pt) (s : List UInt8) : Pt := { p with strings := p.strings ++ s ++ [0] }

end Pt

/-! ### Pieces of code -/

/-- The operand of a pointer addition, scaled. -/
inductive Scaled (p : Pt) (m : Nat) (b : Opd) : List Insn → Opd → Pt → Prop
  | one (hm : m = 1) : Scaled p m b [] b p
  | many (hm : m ≠ 1) :
    Scaled p m b [.arith .mul p.word b (opdImm false m 8)] p.word ((p.alloc 8).skip 1)

/-- The index of a subscript, widened and scaled. -/
inductive Indexed (p : Pt) (elem size : Nat) (b : Opd) : List Insn → Opd → Pt → Prop
  | byte (he : elem = 1) (hs : size = 8) : Indexed p elem size b [] b (p.alloc 8)
  | widen (he : elem = 1) (hs : size ≠ 8) :
    Indexed p elem size b [.cast p.word b] p.word ((p.alloc 8).skip 1)
  | scale (he : elem ≠ 1) (hs : size = 8) :
    Indexed p elem size b [.arith .mul p.word b (opdImm false elem 8)] p.word ((p.alloc 8).skip 1)
  | both (he : elem ≠ 1) (hs : size ≠ 8) :
    Indexed p elem size b [.cast p.word b, .arith .mul p.word p.word (opdImm false elem 8)] p.word
      ((p.alloc 8).skip 2)

/-- The pointer on the left of an arrow, fetched if the operand is indirect. -/
inductive Fetched (p : Pt) (a : Opd) : List Insn → Opd → Pt → Prop
  | direct (ha : a.indirect = false) : Fetched p a [] a p
  | indirect (ha : a.indirect = true) :
    Fetched p a [.drf p.word a.setDirect] p.word ((p.alloc 8).skip 1)

/-- The address of an array, from which a subscript counts. -/
inductive Base (p : Pt) (a : Opd) : List Insn → Opd → Pt → Prop
  | indirect (ha : a.indirect = true) : Base p a [] a.setDirect p
  | direct (ha : a.indirect = false) :
    Base p a [.ref p.word a] p.word ((p.alloc 8).skip 1)

/-- `+`, `-` and their assignments. -/
def plusOp : BOp → Option (ArithOp × Bool)
  | .aspl => some (.add, true)
  | .asmi => some (.sub, true)
  | .plus => some (.add, false)
  | .mins => some (.sub, false)
  | _ => none

/-- `&&` and `||`. -/
def conjOp : BOp → Option Bool
  | .conj => some false
  | .disj => some true
  | _ => none

/-- The unary operators of `gen_uexp_mins`. -/
def unaryInsn : UOp → Option (Opd → Opd → Insn)
  | .mins => some .neg
  | .excl => some .not
  | .care => some .bneg
  | _ => none

/-- `++` and `--` before their operand; the flag is that of `dec`. -/
def incrOp : UOp → Option Bool
  | .incr => some false
  | .decr => some true
  | _ => none

def moveOp (dec : Bool) : ArithOp := if dec then .sub else .add

/-- The instructions of `gen_bexp_equl`. -/
lemma bexpInsn_cases {op : BOp} {mk : Opd → Opd → Opd → Insn} (hop : bexpInsn op = some mk) :
    (∃ neq, mk = .equ neq) ∨ (∃ cop, mk = .cmp cop) ∨ ∃ aop, mk = .arith aop := by
  cases op <;> simp only [bexpInsn, reduceCtorEq, Option.some.injEq] at hop <;> subst hop
  case equl | neql => exact .inl ⟨_, rfl⟩
  case lthn | gthn | lteq | gteq => exact .inr (.inl ⟨_, rfl⟩)
  all_goals exact .inr (.inr ⟨_, rfl⟩)

lemma unaryInsn_cases {op : UOp} {mk : Opd → Opd → Insn} (h : unaryInsn op = some mk) :
    mk = .neg ∨ mk = .not ∨ mk = .bneg := by
  cases op <;> simp_all [unaryInsn]

/-- What `gen_name` returns. -/
def nameOpd (cx : Cx) (so : ScopeObj) (type : Ty) : Option Opd :=
  match so.obj with
  | .gvar _ => (htabGet cx.globals so.name).map fun ofs => opdGlob type.signd ofs.off ofs.size
  | .avar _ | .parm _ =>
    (htabGet cx.ftag.layout so.name).map fun ofs => opdAuto type.signd ofs.off ofs.size
  | .bcon id => constValues[id]?.map fun value => opdImm type.signd value type.bytes
  | .bfun id => some (opdImm false id 8)
  | .func f => some (opdImm false (nodeAddr f.name) 0)
  | .dupl => none

/-- The value of a name of an enumeration. -/
def enumValue (values : List (Sym × Nat)) (value : Sym) : Nat :=
  ((values.find? (fun v => lexSymbolsEqual v.1 value)).map Prod.snd).getD 0

/-- The operand of `RET` and `RETV`. -/
def retSize (cx : Cx) : Opd := opdImm false (wrap64 (cx.ftag.frameSize + 16)) 8

/-- The copies of its initial value to the variables of a declaration. -/
inductive Inits (cx : Cx) (t : Ty) (a : Opd) : List Sym → List Insn → Prop
  | nil : Inits cx t a [] []
  | cons (n : Sym) (ns : List Sym) (ofs : Ofs) (code : List Insn)
    (hn : htabGet cx.ftag.layout n = some ofs) (h : Inits cx t a ns code) :
    Inits cx t a (n :: ns) (.mov (opdAuto t.signd ofs.off ofs.size) a :: code)

/-! ### The relation -/

/-- A part of a function; `fin` is the end of the conditional. -/
inductive Item
  | expr (e : TExpr) (need : Bool)
  | args (a : TArgs)
  | stmt (s : TStmt)
  | stmts (b : TStmts)
  | elifs (r : TElifs) (fin : Nat)

open Item

inductive Emit (cx : Cx) : Item → Pt → List Insn → Option Opd → Pt → Prop
  | assn {l r t n p p1 p2 cl cr d a}
    (hl : Emit cx (expr l true) p cl (some d) p1) (hr : Emit cx (expr r false) p1 cr (some a) p2) :
    Emit cx (expr (.bexp .assn l r t) n) p (cl ++ cr ++ [Insn.mov d a]) (some d) (p2.skip 1)
  | asmu {op aop l r t n p p1 p2 cl cr d a} (hop : asmuOp op = some aop)
    (hl : Emit cx (expr l true) p cl (some d) p1) (hr : Emit cx (expr r false) p1 cr (some a) p2) :
    Emit cx (expr (.bexp op l r t) n) p (cl ++ cr ++ [Insn.arith aop d d a]) (some d) (p2.skip 1)
  | plus {op aop l r t n p p1 p2 p3 cl cr cs a b b'} (hop : plusOp op = some (aop, false))
    (hl : Emit cx (expr l false) p cl (some a) p1) (hr : Emit cx (expr r false) p1 cr (some b) p2)
    (hs : Scaled p2 (stepOf (typeOfExpr l)) b cs b' p3) (ht : t.bytes ≠ 0) :
    Emit cx (expr (.bexp op l r t) n) p
      (cl ++ cr ++ cs ++ [Insn.arith aop (p3.temp a.signd t.bytes) a b'])
      (some (p3.temp a.signd t.bytes)) ((p3.alloc t.bytes).skip 1)
  | aspl {op aop l r t n p p1 p2 p3 cl cr cs a b b'} (hop : plusOp op = some (aop, true))
    (hl : Emit cx (expr l true) p cl (some a) p1) (hr : Emit cx (expr r false) p1 cr (some b) p2)
    (hs : Scaled p2 (stepOf (typeOfExpr l)) b cs b' p3) (ht : t.bytes ≠ 0) :
    Emit cx (expr (.bexp op l r t) n) p (cl ++ cr ++ cs ++ [Insn.arith aop a a b']) (some a)
      ((p3.alloc t.bytes).skip 1)
  | conj {op disj l r t n p p1 p2 cl cr a b} (hop : conjOp op = some disj)
    (hl : Emit cx (expr l false) p cl (some a) p1) (ht : t.bytes ≠ 0)
    (hr : Emit cx (expr r false) ((p1.alloc t.bytes).skip 2) cr (some b) p2) :
    Emit cx (expr (.bexp op l r t) n) p
      (cl ++ [Insn.oz (p1.temp t.signd t.bytes) a, .jz disj a (p2.ip + 2)] ++ cr ++
        [Insn.oz (p1.temp t.signd t.bytes) b,
         .arith (if disj then .or else .and) (p1.temp t.signd t.bytes)
          (opdImm t.signd (if disj then 0 else 1) t.bytes) (p1.temp t.signd t.bytes)])
      (some (p1.temp t.signd t.bytes)) (p2.skip 2)
  | coma {l r t n p p1 p2 cl cr a b} (hl : Emit cx (expr l false) p cl a p1)
    (hr : Emit cx (expr r false) (p1.reset p.tempOff) cr b p2) :
    Emit cx (expr (.bexp .coma l r t) n) p (cl ++ cr) b p2
  | equl {op mk l r t n p p1 p2 cl cr a b} (hop : bexpInsn op = some mk)
    (hl : Emit cx (expr l false) p cl (some a) p1) (hr : Emit cx (expr r false) p1 cr (some b) p2)
    (ht : t.bytes ≠ 0) :
    Emit cx (expr (.bexp op l r t) n) p (cl ++ cr ++ [mk (p2.temp t.signd t.bytes) a b])
      (some (p2.temp t.signd t.bytes)) ((p2.alloc t.bytes).skip 1)
  | scop {v c values tv n p} :
    Emit cx (expr (.scop v (.enum c values tv)) n) p []
      (some (opdImm false (enumValue values v) (Ty.enum c values tv).bytes)) p
  | atsi {l label lab t n p p1 cl a} (hl : Emit cx (expr l false) p cl (some a) p1)
    (hlab : wlabOperand label = some lab) (ht : t.bytes ≠ 0) :
    Emit cx (expr (.atsi l label t) n) p (cl ++ [Insn.qat (p1.temp t.signd t.bytes) a lab.1 lab.2])
      (some (p1.temp t.signd t.bytes)) ((p1.alloc t.bytes).skip 1)
  | memb {l idx t n p p1 cl a m off} (hl : Emit cx (expr l n) p cl (some a) p1)
    (hm : memberAt (typeOfExpr l) idx = some (m, off)) (ha : a.indirect = false) :
    Emit cx (expr (.memb l idx t) n) p cl
      (some { a with off := wrap64 (a.off + off), signd := m.signd, size := m.bytes }) p1
  | membIndirect {l idx t n p p1 cl a m off} (hl : Emit cx (expr l n) p cl (some a) p1)
    (hm : memberAt (typeOfExpr l) idx = some (m, off)) (ha : a.indirect = true) :
    Emit cx (expr (.memb l idx t) n) p
      (cl ++ [Insn.drf p1.word a.setDirect,
        .arith .add (p1.alloc 8).word p1.word (opdImm false off 8)])
      (some ((p1.alloc 8).word.setIndirect m.signd m.bytes)) (((p1.alloc 8).alloc 8).skip 2)
  | arow {l idx t n p p1 p2 cl cf a a' c s m off} (htl : typeOfExpr l = .ptr c s)
    (hl : Emit cx (expr l false) p cl (some a) p1) (hf : Fetched p1 a cf a' p2)
    (hm : memberAt s idx = some (m, off)) :
    Emit cx (expr (.arow l idx t) n) p (cl ++ cf ++ [Insn.arith .add p2.word a' (opdImm false off 8)])
      (some (p2.word.setIndirect m.signd m.bytes)) ((p2.alloc 8).skip 1)
  | cast {l c t n p p1 cl a} (hl : Emit cx (expr l false) p cl (some a) p1) (hc : c.bytes ≠ 0) :
    Emit cx (expr (.cast l c t) n) p (cl ++ [Insn.cast (p1.temp c.signd c.bytes) a])
      (some (p1.temp c.signd c.bytes)) ((p1.alloc c.bytes).skip 1)
  | tildCall {l as tc t n p p1 p2 ca cl a} (ht : t.bytes ≠ 0)
    (ha : Emit cx (args as) (((p.alloc t.bytes).alloc 8).skip 1) ca none p1)
    (hl : Emit cx (expr l false) p1 cl (some a) p2) :
    Emit cx (expr (.uexp .tild (.fexp l as tc) t) n) p
      ([Insn.getsp (p.alloc t.bytes).word] ++ ca ++ cl ++
        [Insn.qnt (p.temp false t.bytes) a (p.alloc t.bytes).word])
      (some (p.temp false t.bytes)) ((p2.note (.call p2.ip (typeOfExpr l))).skip 1)
  | tild {r t n p p1 cr a} (hr : ∀ l as tc, r ≠ .fexp l as tc) (ht : t.bytes ≠ 0)
    (h : Emit cx (expr r false) (p.alloc t.bytes) cr (some a) p1) :
    Emit cx (expr (.uexp .tild r t) n) p (cr ++ [Insn.qntv (p.temp false t.bytes) a])
      (some (p.temp false t.bytes)) (p1.skip 1)
  | uplus {r t n p p1 cr a} (h : Emit cx (expr r false) p cr a p1) :
    Emit cx (expr (.uexp .plus r t) n) p cr a p1
  | unary {op mk r t n p p1 cr a} (hop : unaryInsn op = some mk)
    (h : Emit cx (expr r false) p cr (some a) p1) (ht : t.bytes ≠ 0) :
    Emit cx (expr (.uexp op r t) n) p (cr ++ [mk (p1.temp t.signd t.bytes) a])
      (some (p1.temp t.signd t.bytes)) ((p1.alloc t.bytes).skip 1)
  | multLvalue {r t p p1 cr a} (hr : (typeOfExpr r).t = .ptr)
    (h : Emit cx (expr r false) p cr (some a) p1) :
    Emit cx (expr (.uexp .mult r t) true) p cr (some (a.setIndirect t.signd t.bytes)) p1
  | multRvalue {r t p p1 cr a} (hr : (typeOfExpr r).t = .ptr)
    (h : Emit cx (expr r false) p cr (some a) p1) (ht : t.bytes ≠ 0) :
    Emit cx (expr (.uexp .mult r t) false) p (cr ++ [Insn.drf (p1.temp t.signd t.bytes) a])
      (some (p1.temp t.signd t.bytes)) ((p1.alloc t.bytes).skip 1)
  | multValue {r t n p p1 cr a} (hr : (typeOfExpr r).t ≠ .ptr)
    (h : Emit cx (expr r false) p cr (some a) p1) (ht : t.bytes ≠ 0) :
    Emit cx (expr (.uexp .mult r t) n) p (cr ++ [Insn.rtev (p1.temp t.signd t.bytes) a])
      (some (p1.temp t.signd t.bytes)) ((p1.alloc t.bytes).skip 1)
  | multVoid {r t n p p1 cr a} (hr : (typeOfExpr r).t ≠ .ptr)
    (h : Emit cx (expr r false) p cr (some a) p1) (ht : t.bytes = 0) :
    Emit cx (expr (.uexp .mult r t) n) p (cr ++ [Insn.rte a]) none (p1.skip 1)
  | amps {r t n p p1 cr a} (h : Emit cx (expr r false) p cr (some a) p1) (ht : t.bytes ≠ 0) :
    Emit cx (expr (.uexp .amps r t) n) p (cr ++ [Insn.ref (p1.temp false t.bytes) a])
      (some (p1.temp false t.bytes)) ((p1.alloc t.bytes).skip 1)
  | incr {op dec r t n p p1 cr a} (hop : incrOp op = some dec)
    (h : Emit cx (expr r true) p cr (some a) p1) (hs : stepOf (typeOfExpr r) = 1) :
    Emit cx (expr (.uexp op r t) n) p (cr ++ [Insn.inc dec a]) (some a) (p1.skip 1)
  | incrBy {op dec r t n p p1 cr a} (hop : incrOp op = some dec)
    (h : Emit cx (expr r true) p cr (some a) p1) (hs : stepOf (typeOfExpr r) ≠ 1) :
    Emit cx (expr (.uexp op r t) n) p
      (cr ++ [Insn.arith (moveOp dec) a a (opdImm t.signd (stepOf (typeOfExpr r)) t.bytes)]) (some a)
      (p1.skip 1)
  | szof {al spec t n p} :
    Emit cx (expr (.szof al spec t) n) p []
      (some (opdImm false (if al then spec.alignment else spec.bytes) 8)) p
  | callv {l as t n p p1 p2 ca cl a} (ht : t.bytes ≠ 0)
    (ha : Emit cx (args as) ((p.alloc 8).skip 1) ca none p1)
    (hl : Emit cx (expr l false) p1 cl (some a) p2) :
    Emit cx (expr (.fexp l as t) n) p
      ([Insn.pushr (opdImm false p2.ip 8) p.word] ++ ca ++ cl ++
        [Insn.callv (p2.temp t.signd t.bytes) a p.word])
      (some (p2.temp t.signd t.bytes))
      (((p2.note (.call p2.ip (typeOfExpr l))).alloc t.bytes).skip 1)
  | call {l as t n p p1 p2 ca cl a} (ht : t.bytes = 0)
    (ha : Emit cx (args as) ((p.alloc 8).skip 1) ca none p1)
    (hl : Emit cx (expr l false) p1 cl (some a) p2) :
    Emit cx (expr (.fexp l as t) n) p
      ([Insn.pushr (opdImm false p2.ip 8) p.word] ++ ca ++ cl ++ [Insn.call a p.word]) none
      ((p2.note (.call p2.ip (typeOfExpr l))).skip 1)
  | xexp {op l t n p p1 cl a} (h : Emit cx (expr l true) p cl (some a) p1)
    (hs : stepOf (typeOfExpr l) = 1) (ht : t.bytes ≠ 0) :
    Emit cx (expr (.xexp op l t) n) p (cl ++ [Insn.incp (op == .decr) (p1.temp t.signd t.bytes) a])
      (some (p1.temp t.signd t.bytes)) ((p1.alloc t.bytes).skip 1)
  | xexpBy {op l t n p p1 cl a} (h : Emit cx (expr l true) p cl (some a) p1)
    (hs : stepOf (typeOfExpr l) ≠ 1) (ht : t.bytes ≠ 0) :
    Emit cx (expr (.xexp op l t) n) p
      (cl ++ [Insn.mov (p1.temp t.signd t.bytes) a,
        .arith (moveOp (op == .decr)) a a (opdImm t.signd (stepOf (typeOfExpr l)) t.bytes)])
      (some (p1.temp t.signd t.bytes)) ((p1.alloc t.bytes).skip 2)
  | aexp {b o t n p p1 p2 p3 p4 cb co ci cr a i i' a'} (hb : Emit cx (expr b n) p cb (some a) p1)
    (ho : Emit cx (expr o false) p1 co (some i) p2)
    (hi : Indexed p2 t.bytes (typeOfExpr o).size i ci i' p3) (ha : Base p3 a cr a' p4) :
    Emit cx (expr (.aexp b o t) n) p (cb ++ co ++ ci ++ cr ++ [Insn.arith .add p4.word a' i'])
      (some (p4.word.setIndirect t.signd t.bytes)) ((p4.alloc 8).skip 1)
  | texp {c tv fv t n p p1 p2 p3 cc ct cf a b d} (hc : Emit cx (expr c false) p cc (some a) p1)
    (ht : t.bytes ≠ 0)
    (htv : Emit cx (expr tv false) ((p1.alloc t.bytes).skip 1) ct (some b) p2)
    (hfv : Emit cx (expr fv false) ((p2.skip 2).reset (p1.alloc t.bytes).tempOff) cf (some d) p3) :
    Emit cx (expr (.texp c tv fv t) n) p
      (cc ++ [Insn.jz false a (p2.ip + 2)] ++ ct ++
        [Insn.mov (p1.temp t.signd t.bytes) b, .jmp (p3.ip + 1)] ++ cf ++
        [Insn.mov (p1.temp t.signd t.bytes) d])
      (some (p1.temp t.signd t.bytes)) (p3.skip 1)
  | name {so t n p a} (h : nameOpd cx so t = some a) : Emit cx (expr (.name so t) n) p [] (some a) p
  | nmbr {v t n p} : Emit cx (expr (.nmbr v t) n) p [] (some (opdImm t.signd v t.size)) p
  | strl {s t n p} :
    Emit cx (expr (.strl s t) n) p
      [.ref p.word (opdGlob false (wrap64 (cx.dataSize + p.strings.length)) 1)] (some p.word)
      (((p.string s).alloc 8).skip 1)
  | argsNil {p} : Emit cx (args .nil) p [] none p
  | argsCons {e rest p p1 p2 ce cr a} (h : Emit cx (expr e false) p ce (some a) p1)
    (hr : Emit cx (args rest) (p1.skip 1) cr none p2) :
    Emit cx (args (.cons e rest)) p (ce ++ [Insn.push a] ++ cr) none p2
  | decl {names t p} : Emit cx (stmt (.decl names t none)) p [] none (p.reset 0)
  | declInit {names t e p p1 ce ci a} (h : Emit cx (expr e false) p ce (some a) p1)
    (hi : Inits cx t a names ci) :
    Emit cx (stmt (.decl names t (some e))) p (ce ++ ci) none ((p1.skip ci.length).reset 0)
  | cond {e b rest p p1 p2 p3 ce cb cr a} (he : Emit cx (expr e false) p ce (some a) p1)
    (hb : Emit cx (stmts b) ((p1.skip 1).reset 0) cb none p2)
    (hr : Emit cx (elifs rest p3.ip) (p2.skip 1) cr none p3) :
    Emit cx (stmt (.cond e b rest)) p
      (ce ++ [Insn.jz false a (p2.ip + 1)] ++ cb ++ [Insn.jmp p3.ip] ++ cr) none (p3.reset 0)
  | blok {b p p1 cb} (h : Emit cx (stmts b) p cb none p1) :
    Emit cx (stmt (.blok b)) p cb none (p1.reset 0)
  | noin {b p p1 cb} (h : Emit cx (stmts b) (p.skip 1) cb none p1) :
    Emit cx (stmt (.noin b)) p ([Insn.noint] ++ cb ++ [Insn.int]) none ((p1.skip 1).reset 0)
  | whil {e b p p1 p2 ce cb a} (he : Emit cx (expr e false) p ce (some a) p1)
    (hb : Emit cx (stmts b) ((p1.skip 1).reset 0) cb none p2) :
    Emit cx (stmt (.whil e b)) p (ce ++ [Insn.jz false a (p2.ip + 1)] ++ cb ++ [Insn.jmp p.ip]) none
      ((p2.skip 1).reset 0)
  | dowh {e b p p1 p2 ce cb a} (hb : Emit cx (stmts b) p cb none p1)
    (he : Emit cx (expr e false) p1 ce (some a) p2) :
    Emit cx (stmt (.dowh b e)) p (cb ++ ce ++ [Insn.jz true a p.ip]) none ((p2.skip 1).reset 0)
  | retn {p} : Emit cx (stmt (.retn none)) p [.ret (retSize cx)] none ((p.skip 1).reset 0)
  | retnValue {e p p1 ce a} (h : Emit cx (expr e false) p ce (some a) p1) :
    Emit cx (stmt (.retn (some e))) p (ce ++ [Insn.retv a (retSize cx)]) none ((p1.skip 1).reset 0)
  | wait {q label lab nb un p p1 cq a} (hq : Emit cx (expr q false) p cq (some a) p1)
    (hlab : wlabOperand label = some lab) :
    Emit cx (stmt (.wait q none label nb un)) p
      (cq ++ [Insn.wait a (opdImm false 0 1) lab.1 lab.2 nb un false]) none ((p1.skip 1).reset 0)
  | waitFor {q f label lab nb un p p1 p2 cq cf a b} (hq : Emit cx (expr q false) p cq (some a) p1)
    (hf : Emit cx (expr f false) p1 cf (some b) p2) (hlab : wlabOperand label = some lab) :
    Emit cx (stmt (.wait q (some f) label nb un)) p
      (cq ++ cf ++ [Insn.wait a b lab.1 lab.2 nb un true]) none ((p2.skip 1).reset 0)
  | wlab {func id p} :
    Emit cx (stmt (.wlab func id)) p [.wlab func id] none ((p.skip 1).reset 0)
  | exprStmt {e p p1 ce a} (h : Emit cx (expr e false) p ce a p1) :
    Emit cx (stmt (.expr e)) p (ce ++ [Insn.nop]) none ((p1.skip 1).reset 0)
  | stmtsNil {p} : Emit cx (stmts .nil) p [] none p.bound
  | stmtsCons {s rest p p1 p2 cs cr} (hs : Emit cx (stmt s) p.bound cs none p1)
    (hr : Emit cx (stmts rest) p1 cr none p2) :
    Emit cx (stmts (.cons s rest)) p (cs ++ cr) none p2
  | elifsNone {fin p} : Emit cx (elifs .none fin) p [] none p
  | els {b fin p p1 cb} (h : Emit cx (stmts b) p cb none p1) :
    Emit cx (elifs (.els b) fin) p cb none p1
  | elif {e b rest fin p p1 p2 p3 ce cb cr a} (he : Emit cx (expr e false) p ce (some a) p1)
    (hb : Emit cx (stmts b) ((p1.skip 1).reset 0) cb none p2)
    (hr : Emit cx (elifs rest fin) (p2.skip 1) cr none p3) :
    Emit cx (elifs (.elif e b rest) fin) p
      (ce ++ [Insn.jz false a (p2.ip + 1)] ++ cb ++ [Insn.jmp fin] ++ cr) none p3

end Quaint.Emit
