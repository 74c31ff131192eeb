import Quaint.Lockstep

/-!
The lexer.

The automata of the tokens run in lockstep. A token ends before the first byte on which none of
them is live, and its class is the last one that accepts it. A position in the input stands for
a pointer into it. Allocation does not fail here.
-/

namespace Quaint.Lex

open Lockstep

/-! ### Tokens -/

/-- `LEX_TK_*` -/
inductive Tk
  | name | nmbr | strl
  | wspc | lcom | bcom
  | lpar | rpar | lbra | rbra | lbrc | rbrc
  | cond | elif | els | dowh | whil | retn | useu | type
  | assn | aspl | asmi | asmu | asdi | asmo | asls | asrs | asan | asxo | asor | coln | scop
  | atsi | memb | arow | equl | neql | lthn | gthn | lteq | gteq | conj | disj | plus | mins
  | mult | divi | modu | lshf | rshf | amps | care | pipe | coma | cast | ques
  | excl | tild | incr | decr | szof | alof
  | wait | wfor | wunt | wnob | wmse | wsec | noin
  | scol
  | cons | expo | stat
  | count | fbeg | fend
  deriving DecidableEq

/-- `struct lex_token`. The two markers have null pointers, which are zero here. -/
structure Token where
  tk : Tk
  beg : Nat
  stop : Nat
  deriving DecidableEq

def fbegToken : Token := ⟨.fbeg, 0, 0⟩
def fendToken : Token := ⟨.fend, 0, 0⟩

/-! ### Automata -/

def isAlpha (c : UInt8) : Bool :=
  ('a'.toNat ≤ c.toNat && c.toNat ≤ 'z'.toNat) || ('A'.toNat ≤ c.toNat && c.toNat ≤ 'Z'.toNat)

def isDigit (c : UInt8) : Bool := '0'.toNat ≤ c.toNat && c.toNat ≤ '9'.toNat

def isAlnum (c : UInt8) : Bool := isAlpha c || isDigit c

def isWspace (c : UInt8) : Bool := c.toNat == 32 || c.toNat == 9 || c.toNat == 13 || c.toNat == 10

/-- `TR` and `REJECT`, by a condition. -/
def tr (b : Bool) (st : Nat) (sts : Sts) : Sts × Nat := if b then (sts, st) else (.reject, 0)

/-- `TOKEN_DEFINE_1` to `TOKEN_DEFINE_7` -/
def tokenDefine (str : List Char) : Auto UInt8 := fun c s =>
  if h : s < str.length then
    some (tr (c.toNat == str[s].toNat) (s + 1) (if s + 1 = str.length then .accept else .hungry))
  else if s = str.length then some (.reject, 0)
  else none

def tkName : Auto UInt8 := fun c s =>
  match s with
  | 0 => some (tr (isAlpha c || c.toNat == '_'.toNat) 1 .accept)
  | 1 => some (tr (isAlnum c || c.toNat == '_'.toNat) 1 .accept)
  | _ => none

def tkNmbr : Auto UInt8 := fun c s => some (if isDigit c then .accept else .reject, s)

def tkStrl : Auto UInt8 := fun c s =>
  match s with
  | 0 => some (tr (c.toNat == 34) 1 .hungry)
  | 1 => some (if c.toNat != 34 then (.hungry, 1) else (.accept, 2))
  | 2 => some (.reject, 0)
  | _ => none

def tkWspc : Auto UInt8 := fun c s =>
  match s with
  | 0 | 1 => some (tr (isWspace c) 1 .accept)
  | _ => none

def tkLcom : Auto UInt8 := fun c s =>
  match s with
  | 0 => some (tr (c.toNat == '/'.toNat) 1 .hungry)
  | 1 => some (tr (c.toNat == '/'.toNat) 2 .hungry)
  | 2 => some (if c.toNat == 10 || c.toNat == 13 then (.accept, 3) else (.hungry, 2))
  | 3 => some (.reject, 0)
  | _ => none

def tkBcom : Auto UInt8 := fun c s =>
  match s with
  | 0 => some (tr (c.toNat == '/'.toNat) 1 .hungry)
  | 1 => some (tr (c.toNat == '*'.toNat) 2 .hungry)
  | 2 => some (if c.toNat != '*'.toNat then (.hungry, 2) else (.hungry, 3))
  | 3 => some (if c.toNat == '/'.toNat then (.accept, 4) else (.hungry, 2))
  | 4 => some (.reject, 0)
  | _ => none

def tkLpar : Auto UInt8 := tokenDefine ['(']
def tkRpar : Auto UInt8 := tokenDefine [')']
def tkLbra : Auto UInt8 := tokenDefine ['[']
def tkRbra : Auto UInt8 := tokenDefine [']']
def tkLbrc : Auto UInt8 := tokenDefine ['{']
def tkRbrc : Auto UInt8 := tokenDefine ['}']
def tkCond : Auto UInt8 := tokenDefine ['i', 'f']
def tkElif : Auto UInt8 := tokenDefine ['e', 'l', 'i', 'f']
def tkEls : Auto UInt8 := tokenDefine ['e', 'l', 's', 'e']
def tkDowh : Auto UInt8 := tokenDefine ['d', 'o']
def tkWhil : Auto UInt8 := tokenDefine ['w', 'h', 'i', 'l', 'e']
def tkRetn : Auto UInt8 := tokenDefine ['r', 'e', 't', 'u', 'r', 'n']
def tkUseu : Auto UInt8 := tokenDefine ['u', 's', 'e']
def tkType : Auto UInt8 := tokenDefine ['t', 'y', 'p', 'e']
def tkAssn : Auto UInt8 := tokenDefine ['=']
def tkAspl : Auto UInt8 := tokenDefine ['+', '=']
def tkAsmi : Auto UInt8 := tokenDefine ['-', '=']
def tkAsmu : Auto UInt8 := tokenDefine ['*', '=']
def tkAsdi : Auto UInt8 := tokenDefine ['/', '=']
def tkAsmo : Auto UInt8 := tokenDefine ['%', '=']
def tkAsls : Auto UInt8 := tokenDefine ['<', '<', '=']
def tkAsrs : Auto UInt8 := tokenDefine ['>', '>', '=']
def tkAsan : Auto UInt8 := tokenDefine ['&', '=']
def tkAsxo : Auto UInt8 := tokenDefine ['^', '=']
def tkAsor : Auto UInt8 := tokenDefine ['|', '=']
def tkColn : Auto UInt8 := tokenDefine [':']
def tkScop : Auto UInt8 := tokenDefine [':', ':']
def tkAtsi : Auto UInt8 := tokenDefine ['@']
def tkMemb : Auto UInt8 := tokenDefine ['.']
def tkArow : Auto UInt8 := tokenDefine ['-', '>']
def tkEqul : Auto UInt8 := tokenDefine ['=', '=']
def tkNeql : Auto UInt8 := tokenDefine ['!', '=']
def tkLthn : Auto UInt8 := tokenDefine ['<']
def tkGthn : Auto UInt8 := tokenDefine ['>']
def tkLteq : Auto UInt8 := tokenDefine ['<', '=']
def tkGteq : Auto UInt8 := tokenDefine ['>', '=']
def tkConj : Auto UInt8 := tokenDefine ['&', '&']
def tkDisj : Auto UInt8 := tokenDefine ['|', '|']
def tkPlus : Auto UInt8 := tokenDefine ['+']
def tkMins : Auto UInt8 := tokenDefine ['-']
def tkMult : Auto UInt8 := tokenDefine ['*']
def tkDivi : Auto UInt8 := tokenDefine ['/']
def tkModu : Auto UInt8 := tokenDefine ['%']
def tkLshf : Auto UInt8 := tokenDefine ['<', '<']
def tkRshf : Auto UInt8 := tokenDefine ['>', '>']
def tkAmps : Auto UInt8 := tokenDefine ['&']
def tkCare : Auto UInt8 := tokenDefine ['^']
def tkPipe : Auto UInt8 := tokenDefine ['|']
def tkComa : Auto UInt8 := tokenDefine [',']
def tkCast : Auto UInt8 := tokenDefine ['a', 's']
def tkQues : Auto UInt8 := tokenDefine ['?']
def tkExcl : Auto UInt8 := tokenDefine ['!']
def tkTild : Auto UInt8 := tokenDefine ['~']
def tkIncr : Auto UInt8 := tokenDefine ['+', '+']
def tkDecr : Auto UInt8 := tokenDefine ['-', '-']
def tkSzof : Auto UInt8 := tokenDefine ['s', 'i', 'z', 'e', 'o', 'f']
def tkAlof : Auto UInt8 := tokenDefine ['a', 'l', 'i', 'g', 'n', 'o', 'f']
def tkWait : Auto UInt8 := tokenDefine ['w', 'a', 'i', 't']
def tkWfor : Auto UInt8 := tokenDefine ['f', 'o', 'r']
def tkWunt : Auto UInt8 := tokenDefine ['u', 'n', 't', 'i', 'l']
def tkWnob : Auto UInt8 := tokenDefine ['n', 'o', 'b', 'l', 'o', 'c', 'k']
def tkWmse : Auto UInt8 := tokenDefine ['m', 's', 'e', 'c']
def tkWsec : Auto UInt8 := tokenDefine ['s', 'e', 'c']
def tkNoin : Auto UInt8 := tokenDefine ['n', 'o', 'i', 'n', 't']
def tkScol : Auto UInt8 := tokenDefine [';']
def tkCons : Auto UInt8 := tokenDefine ['c', 'o', 'n', 's', 't']
def tkExpo : Auto UInt8 := tokenDefine ['e', 'x', 'p', 'o', 's', 'e', 'd']
def tkStat : Auto UInt8 := tokenDefine ['s', 't', 'a', 't', 'i', 'c']

/-- `tk_funcs`, each with its token -/
def tkFuncs : List (Tk × Auto UInt8) :=
  [(.name, tkName), (.nmbr, tkNmbr), (.strl, tkStrl), (.wspc, tkWspc), (.lcom, tkLcom),
   (.bcom, tkBcom), (.lpar, tkLpar), (.rpar, tkRpar), (.lbra, tkLbra), (.rbra, tkRbra),
   (.lbrc, tkLbrc), (.rbrc, tkRbrc), (.cond, tkCond), (.elif, tkElif), (.els, tkEls),
   (.dowh, tkDowh), (.whil, tkWhil), (.retn, tkRetn), (.useu, tkUseu), (.type, tkType),
   (.assn, tkAssn), (.aspl, tkAspl), (.asmi, tkAsmi), (.asmu, tkAsmu), (.asdi, tkAsdi),
   (.asmo, tkAsmo), (.asls, tkAsls), (.asrs, tkAsrs), (.asan, tkAsan), (.asxo, tkAsxo),
   (.asor, tkAsor), (.coln, tkColn), (.scop, tkScop), (.atsi, tkAtsi), (.memb, tkMemb),
   (.arow, tkArow), (.equl, tkEqul), (.neql, tkNeql), (.lthn, tkLthn), (.gthn, tkGthn),
   (.lteq, tkLteq), (.gteq, tkGteq), (.conj, tkConj), (.disj, tkDisj), (.plus, tkPlus),
   (.mins, tkMins), (.mult, tkMult), (.divi, tkDivi), (.modu, tkModu), (.lshf, tkLshf),
   (.rshf, tkRshf), (.amps, tkAmps), (.care, tkCare), (.pipe, tkPipe), (.coma, tkComa),
   (.cast, tkCast), (.ques, tkQues), (.excl, tkExcl), (.tild, tkTild), (.incr, tkIncr),
   (.decr, tkDecr), (.szof, tkSzof), (.alof, tkAlof), (.wait, tkWait), (.wfor, tkWfor),
   (.wunt, tkWunt), (.wnob, tkWnob), (.wmse, tkWmse), (.wsec, tkWsec), (.noin, tkNoin),
   (.scol, tkScol), (.cons, tkCons), (.expo, tkExpo), (.stat, tkStat)]

/-- The functions stand in the order of their tokens. -/
example : tkFuncs.map (fun e => e.1.ctorIdx) = List.range (Tk.ctorIdx .count) := by decide

/-! ### The loop -/

/-- `prefix_beg`, `prefix_end`, the slots of the automata and the tokens so far. -/
structure Lexing where
  beg : Nat
  stop : Nat
  slots : List Slot
  tokens : List Token

/-- How `lex` returns; `abort` is the default case of an automaton, and `hang` a loop that goes
on for too long. -/
inductive LexRes
  | ok (tokens : List Token)
  | unknownToken (tokens : List Token)
  | abort
  | hang
  deriving DecidableEq

/-- The class of a token, given how the slots are read. -/
def acceptedToken (p : Slot → Bool) (slots : List Slot) : Tk := lastWhere p .count tkFuncs slots

/-- The end of the input. -/
def lexEnd (x : Lexing) : LexRes :=
  let tk := acceptedToken (fun s => s.curr == .accept) x.slots
  let tokens := x.tokens ++ [⟨tk, x.beg, x.stop⟩]
  if tk = .count then .unknownToken tokens else .ok (tokens ++ [fendToken])

/-- The loop of `lex` -/
def lexLoop (input : List UInt8) : Nat → Lexing → LexRes
  | 0, _ => .hang
  | fuel + 1, x =>
    match input[x.stop]? with
    | none => lexEnd x
    | some c =>
      match feedAll c tkFuncs x.slots with
      | none => .abort
      | some slots =>
        if slots.any fun s => s.curr != .reject then
          lexLoop input fuel { x with stop := x.stop + 1, slots := slots.map Slot.keep }
        else
          let tk := acceptedToken (fun s => s.prev == .accept) slots
          if tk = .count then .unknownToken (x.tokens ++ [⟨tk, x.beg, x.stop + 1⟩])
          else lexLoop input fuel
            ⟨x.stop, x.stop, slots.map Slot.reset, x.tokens ++ [⟨tk, x.beg, x.stop⟩]⟩

/-- `lex` -/
def lex (input : List UInt8) : LexRes :=
  lexLoop input (2 * input.length + 1) ⟨0, 0, tkFuncs.map fun _ => Slot.init, [fbegToken]⟩

end Quaint.Lex
