import Mathlib

/-!
The types of the language, their equality, and the sizes, alignments and offsets the
compiler gives them.

`size_t` is 64 bits wide, so every size is computed modulo `2 ^ 64`. Two types are named
by tokens of the source; a token is compared by its bytes, and its place in the source
stands for its address.
-/

namespace Quaint.Types

/-- A lexeme: its bytes and where it begins in the source. -/
structure Sym where
  text : List UInt8
  beg : Nat
  deriving DecidableEq

/-- `lex_symbols_equal` -/
def lexSymbolsEqual (a b : Sym) : Bool := a.text == b.text

/-- The type codes, in the order of the source. -/
inductive TypeT
  | void | u8 | i8 | u16 | i16 | u32 | i32 | u64 | i64 | usize | ssize | uptr | iptr
  | enum | ptr | vptr | fptr | quaint | struct | union
  deriving DecidableEq

def TypeT.code : TypeT → Nat
  | .void => 0 | .u8 => 1 | .i8 => 2 | .u16 => 3 | .i16 => 4 | .u32 => 5 | .i32 => 6
  | .u64 => 7 | .i64 => 8 | .usize => 9 | .ssize => 10 | .uptr => 11 | .iptr => 12
  | .enum => 13 | .ptr => 14 | .vptr => 15 | .fptr => 16 | .quaint => 17 | .struct => 18
  | .union => 19

def typeIsIntegral (t : TypeT) : Bool := TypeT.u8.code ≤ t.code && t.code ≤ TypeT.enum.code
def typeIsSigned (t : TypeT) : Bool := t.code % 2 == 0
def typeIsUnsigned (t : TypeT) : Bool := t.code % 2 != 0
def typeIsPtr (t : TypeT) : Bool := t == .ptr || t == .vptr || t == .fptr
def typeIsQuaint (t : TypeT) : Bool := t == .quaint

/-- The built-in integer types. -/
inductive IntT
  | u8 | i8 | u16 | i16 | u32 | i32 | u64 | i64 | usize | ssize | uptr | iptr
  deriving DecidableEq

def IntT.t : IntT → TypeT
  | .u8 => .u8 | .i8 => .i8 | .u16 => .u16 | .i16 => .i16 | .u32 => .u32 | .i32 => .i32
  | .u64 => .u64 | .i64 => .i64 | .usize => .usize | .ssize => .ssize | .uptr => .uptr
  | .iptr => .iptr

/-- The `size` column of `typedescs`. -/
def IntT.size : IntT → Nat
  | .u8 | .i8 => 1
  | .u16 | .i16 => 2
  | .u32 | .i32 => 4
  | _ => 8

mutual
/-- `struct type`, less the fields `type_quantify` fills in. -/
inductive Ty
  | void (count : Nat)
  | int (k : IntT) (count : Nat)
  | vptr (count : Nat)
  | enum (count : Nat) (values : List (Sym × Nat)) (tValue : IntT)
  | ptr (count : Nat) (subtype : Ty)
  | quaint (count : Nat) (subtype : Ty)
  | struct (count : Nat) (members : Fields)
  | union (count : Nat) (members : Fields)
  | fptr (count : Nat) (params : Fields) (rettype : RetTy)
/-- The name-type pairs of members and parameters. -/
inductive Fields
  | nil
  | cons (name : Sym) (type : Ty) (rest : Fields)
/-- A return type, which may be absent. -/
inductive RetTy
  | none
  | some (type : Ty)
end

/-- What `type_alloc` returns. -/
def Ty.zero : Ty := .void 0

def Ty.t : Ty → TypeT
  | .void _ => .void
  | .int k _ => k.t
  | .vptr _ => .vptr
  | .enum _ _ _ => .enum
  | .ptr _ _ => .ptr
  | .quaint _ _ => .quaint
  | .struct _ _ => .struct
  | .union _ _ => .union
  | .fptr _ _ _ => .fptr

def Ty.count : Ty → Nat
  | .void c | .int _ c | .vptr c | .enum c _ _ | .ptr c _ | .quaint c _ | .struct c _
  | .union c _ | .fptr c _ _ => c

def Ty.setCount (n : Nat) : Ty → Ty
  | .void _ => .void n
  | .int k _ => .int k n
  | .vptr _ => .vptr n
  | .enum _ vs tv => .enum n vs tv
  | .ptr _ s => .ptr n s
  | .quaint _ s => .quaint n s
  | .struct _ ms => .struct n ms
  | .union _ ms => .union n ms
  | .fptr _ ps r => .fptr n ps r

def Fields.length : Fields → Nat
  | .nil => 0
  | .cons _ _ rest => rest.length + 1

def Fields.nonempty : Fields → Bool
  | .nil => false
  | .cons _ _ _ => true

def Fields.names : Fields → List Sym
  | .nil => []
  | .cons n _ rest => n :: rest.names

def Fields.toList : Fields → List (Sym × Ty)
  | .nil => []
  | .cons n t rest => (n, t) :: rest.toList

lemma toList_length (ms : Fields) : ms.toList.length = ms.length := by
  match ms with
  | .nil => rfl
  | .cons _ _ rest => rw [Fields.toList, List.length_cons, toList_length rest, Fields.length]

/-! ### Sizes -/

def wrap64 (n : Nat) : Nat := n % 2 ^ 64

/-- `ALIGN_UP` -/
def alignUp (addr align : Nat) : Nat :=
  addr + (if addr % align ≠ 0 then align - addr % align else 0)

mutual
/-- The `alignment` that `type_quantify` computes. -/
def Ty.alignment : Ty → Nat
  | .void _ => 0
  | .int k _ => k.size
  | .enum _ _ tv => tv.size
  | .vptr _ | .ptr _ _ | .quaint _ _ | .fptr _ _ _ => 8
  | .struct _ ms => ms.greatestAlignment 0
  | .union _ ms => ms.greatestAlignment 0
def Fields.greatestAlignment : Fields → Nat → Nat
  | .nil, g => g
  | .cons _ t rest, g => rest.greatestAlignment (if t.alignment > g then t.alignment else g)
end

mutual
/-- The `size` that `type_quantify` computes. -/
def Ty.size : Ty → Nat
  | .void _ => 0
  | .int k _ => k.size
  | .enum _ _ tv => tv.size
  | .vptr _ | .ptr _ _ | .quaint _ _ | .fptr _ _ _ => 8
  | .struct _ ms => wrap64 (alignUp (ms.endOffset 0) (ms.greatestAlignment 0))
  | .union _ ms => ms.greatestSize 0
/-- The offset after the last member of a struct, from `current_offset`. -/
def Fields.endOffset : Fields → Nat → Nat
  | .nil, off => off
  | .cons _ t rest, off =>
    rest.endOffset (wrap64 (wrap64 (alignUp off t.alignment) + wrap64 (t.size * t.count)))
def Fields.greatestSize : Fields → Nat → Nat
  | .nil, g => g
  | .cons _ t rest, g =>
    rest.greatestSize (if wrap64 (t.size * t.count) > g then wrap64 (t.size * t.count) else g)
end

/-- The `offsets` of the members of a struct, from `current_offset`. -/
def Fields.offsets : Fields → Nat → List Nat
  | .nil, _ => []
  | .cons _ t rest, off =>
    wrap64 (alignUp off t.alignment) ::
      rest.offsets (wrap64 (wrap64 (alignUp off t.alignment) + wrap64 (t.size * t.count)))

/-- `count * size`, the bytes a value of the type occupies. -/
def Ty.bytes (t : Ty) : Nat := wrap64 (t.count * t.size)

/-- `type_is_integral(t) && type_is_signed(t)` -/
def Ty.signd (t : Ty) : Bool := typeIsIntegral t.t && typeIsSigned t.t

/-- `members` -/
def Ty.members : Ty → Fields
  | .struct _ ms | .union _ ms => ms
  | _ => .nil

/-- `offsets`; those of a union stay as `calloc` left them. -/
def Ty.offsets : Ty → List Nat
  | .struct _ ms => ms.offsets 0
  | .union _ ms => List.replicate ms.length 0
  | _ => []

/-! ### Copies and equality -/

mutual
/-- `type_copy`, onto what `type_alloc` returns -/
def typeCopy : Ty → Ty
  | .ptr c s => .ptr c (typeCopy s)
  | .quaint c s => .quaint c (typeCopy s)
  | .struct c ms => .struct c (copyFields ms)
  | .union c ms => .union c (copyFields ms)
  | .fptr c ps r => .fptr c (copyFields ps) (copyRettype r)
  | .enum c vs tv => .enum c (vs.map fun v => (v.1, v.2)) tv
  | .void c => .void c
  | .int k c => .int k c
  | .vptr c => .vptr c
def copyFields : Fields → Fields
  | .nil => .nil
  | .cons n t rest => .cons n (typeCopy t) (copyFields rest)
def copyRettype : RetTy → RetTy
  | .none => .none
  | .some t => .some (typeCopy t)
end

def valuesEqual : List (Sym × Nat) → List (Sym × Nat) → Bool
  | [], [] => true
  | (n, v) :: r, (n', v') :: r' => lexSymbolsEqual n n' && v == v' && valuesEqual r r'
  | _, _ => false

mutual
/-- `type_equals` -/
def typeEquals : Ty → Ty → Bool
  | .void c, .void c' => c == c'
  | .int k c, .int k' c' => k == k' && c == c'
  | .vptr c, .vptr c' => c == c'
  | .enum c vs tv, .enum c' vs' tv' => c == c' && tv == tv' && valuesEqual vs vs'
  | .ptr c s, .ptr c' s' => c == c' && typeEquals s s'
  | .quaint c s, .quaint c' s' => c == c' && typeEquals s s'
  | .struct c ms, .struct c' ms' => c == c' && fieldsEqual ms ms'
  | .union c ms, .union c' ms' => c == c' && fieldsEqual ms ms'
  | .fptr c ps r, .fptr c' ps' r' => c == c' && fieldsEqual ps ps' && rettypeEquals r r'
  | _, _ => false
def fieldsEqual : Fields → Fields → Bool
  | .nil, .nil => true
  | .cons _ t r, .cons _ t' r' => typeEquals t t' && fieldsEqual r r'
  | _, _ => false
def rettypeEquals : RetTy → RetTy → Bool
  | .none, .none => true
  | .some t, .some t' => typeEquals t t'
  | _, _ => false
end

/-- No two names of the list are equal. -/
def namesDistinct : List Sym → Bool
  | [] => true
  | n :: ns => !ns.any (lexSymbolsEqual n) && namesDistinct ns

/-- The names and values of an enumeration, as `validate_typespec_enum` leaves them. -/
def valuesValid (values : List (Sym × Nat)) (tValue : IntT) : Bool :=
  !values.isEmpty && values.map Prod.snd == List.range values.length &&
    namesDistinct (values.map Prod.fst) && typeIsUnsigned tValue.t &&
    decide (values.length ≤ 256 ^ tValue.size)

/-- The missing subtype of a quaint. -/
def Ty.isZero : Ty → Bool
  | .void c => c == 0
  | _ => false

mutual
/-- The types `validate_typespec` and `validate_typespec_enum` can return. -/
def Ty.valid : Ty → Bool
  | .void _ => false
  | .int _ c => decide (c < 2 ^ 64)
  | .vptr c => decide (c < 2 ^ 64)
  | .enum c vs tv => decide (c < 2 ^ 64) && valuesValid vs tv
  | .ptr c s => decide (c < 2 ^ 64) && s.valid
  | .quaint c s => decide (c < 2 ^ 64) && (s.valid || s.isZero)
  | .struct c ms => decide (c < 2 ^ 64) && ms.nonempty && ms.valid && namesDistinct ms.names
  | .union c ms => decide (c < 2 ^ 64) && ms.nonempty && ms.valid && namesDistinct ms.names
  | .fptr c ps r => decide (c < 2 ^ 64) && ps.valid && namesDistinct ps.names && r.valid
def Fields.valid : Fields → Bool
  | .nil => true
  | .cons _ t rest => t.valid && rest.valid
def RetTy.valid : RetTy → Bool
  | .none => true
  | .some t => t.valid
end

end Quaint.Types
