import Quaint.Building
import Quaint.Equality

/-!
What the name of a type stands for after a type statement.

A statement only adds to the symbol table, so that a later use finds the type that was written. The
use then takes the count that is written there, not the one of the type: an alias of an array stands
for one element of it, and a built-in type is not hidden by an alias of its name.
-/

namespace Quaint.Aliases

open Types Ast TypeCheck Parse Validate Operand Equality

/-- The symbol table. -/
abbrev Table := List (Sym × Ty)

variable {src : List UInt8} {tab tab' tab'' : Table} {s node : PNode} {ss rest : List PNode}
  {top : Top} {ms : List String} {T name : Sym} {S t u : Ty} {n : Nat}

/-! ### The table -/

/-- The table behind these statements of the unit. -/
inductive After (src : List UInt8) (tab : Table) : List PNode → Table → Prop
  | nil : After src tab [] tab
  | snoc {ss : List PNode} {s : PNode} {tab' tab'' : Table} {top : Top} {ms : List String}
      (h : After src tab ss tab') (hs : validateTop src tab' s = some ((top, tab''), ms)) :
      After src tab (ss ++ [s]) tab''

/-- What a statement that declares no type leaves. -/
lemma last_table {α : Type} {r : Built α} {f : α → Top}
    (h : r.last (fun a => (f a, tab)) = some ((top, tab'), ms)) : tab' = tab := by
  obtain ⟨p, -, hp⟩ := Option.map_eq_some_iff.mp h
  cases hp
  rfl

lemma typeSymtabInsert_ok (h : typeSymtabInsert tab T S = .ok tab') :
    typeSymtabFind tab T = none ∧ tab' = tab ++ [(T, S)] := by
  simp only [typeSymtabInsert, Typing.require_ok, TRes.ok.injEq] at h
  exact ⟨by simpa using h.1, h.2.symm⟩

lemma validateType_table (h : validateType src tab s = some ((top, tab'), ms)) :
    ∃ ext, tab' = tab ++ ext := by
  have same : ∃ ext, tab = tab ++ ext := ⟨[], (List.append_nil tab).symm⟩
  unfold validateType at h
  split at h
  · split at h
    · cases h
      exact same
    · split at h
      · cases h
        exact same
      · unfold Built.made Built.typed at h
        split at h
        · rename_i tab1 hres
          cases h
          obtain ⟨S, -, hins⟩ := Typing.res_bind_ok.mp hres
          exact ⟨_, (typeSymtabInsert_ok hins).2⟩
        · cases h
          exact same
        · cases h
  · cases h
    exact same

/-- **A statement only adds to the table.** -/
theorem validateTop_table (h : validateTop src tab s = some ((top, tab'), ms)) :
    ∃ ext, tab' = tab ++ ext := by
  have same {tab' : Table} (h : tab' = tab) : ∃ ext, tab' = tab ++ ext :=
    ⟨[], by rw [h, List.append_nil]⟩
  unfold validateTop at h
  split at h
  · split at h
    · exact same (last_table h)
    · split at h
      · exact validateType_table h
      · cases h
    · split at h
      · exact validateType_table h
      · cases h
    · cases h; exact same rfl
    · cases h; exact same rfl
    · cases h; exact same rfl
    · cases h; exact same rfl
    · cases h; exact same rfl
    · cases h
  · cases h; exact same rfl
  · exact same (last_table h)
  · exact same (last_table h)
  · cases h

lemma After.grows (h : After src tab ss tab') : ∃ ext, tab' = tab ++ ext := by
  induction h with
  | nil => exact ⟨[], (List.append_nil tab).symm⟩
  | snoc _ hs ih =>
    obtain ⟨ext, rfl⟩ := ih
    obtain ⟨ext', rfl⟩ := validateTop_table hs
    exact ⟨ext ++ ext', List.append_assoc _ _ _⟩

lemma find_append {ext : Table} (h : typeSymtabFind tab name = some S) :
    typeSymtabFind (tab ++ ext) name = some S := by
  obtain ⟨e, he, rfl⟩ := Option.map_eq_some_iff.mp h
  rw [typeSymtabFind, List.find?_append, he]
  rfl

/-! ### The statement -/

/-- The expression of a type statement, behind `type` or `export type`. -/
def typeBexp : PNode → Option PNode
  | .node .stmt (.leaf t :: rest) =>
    match t.tk, rest with
    | .type, e :: _ => some e
    | .expo, _ :: e :: _ => some e
    | _, _ => none
  | _ => none

/-- What the specifier of a type statement stands for. -/
def specType (src : List UInt8) (tab : Table) (spec : PNode) : TRes Ty :=
  if typespecAppearsEnum src spec then validateTypespecEnum src tab spec
  else validateTypespec src tab spec

/-- An accepted statement `type T: S`, with the table it leaves. -/
structure Declares (src : List UInt8) (tab : Table) (s : PNode) (T : Sym) (S : Ty) (tab' : Table) :
    Prop where
  spec : ∃ typename colon spec, typeBexp s = some (.node .expr [.node .bexp [typename, .leaf colon, spec]]) ∧
    exprName src typename = some T ∧ specType src tab spec = .ok S
  accepted : validateTop src tab s = some ((.type, tab'), [])

lemma validateTop_type {e : PNode} (h : typeBexp s = some e) :
    validateTop src tab s = validateType src tab e := by
  unfold typeBexp at h
  split at h
  · split at h
    · rename_i htk
      cases h
      simp only [validateTop, htk]
    · rename_i htk
      cases h
      simp only [validateTop, htk]
    · cases h
  · cases h

/-- **A type statement adds its type under its name**, which is new. -/
theorem Declares.inserted (h : Declares src tab s T S tab') :
    typeSymtabFind tab T = none ∧ tab' = tab ++ [(T, S)] := by
  obtain ⟨typename, colon, spec, hs, hT, hS⟩ := h.spec
  have hacc := h.accepted
  rw [validateTop_type hs, validateType] at hacc
  simp only [hT] at hacc
  split at hacc
  · cases hacc
  · unfold specType at hS
    rw [hS, TRes.bind] at hacc
    unfold Built.made Built.typed at hacc
    split at hacc
    · rename_i hins
      cases hacc
      exact typeSymtabInsert_ok hins
    · cases hacc
    · cases hacc

/-- **A later use finds the type that was written.** -/
theorem Declares.found (h : Declares src tab s T S tab') (hl : After src tab' ss tab'')
    (hn : name.text = T.text) : typeSymtabFind tab'' name = some S := by
  obtain ⟨hnew, rfl⟩ := h.inserted
  obtain ⟨ext, rfl⟩ := hl.grows
  refine find_append ?_
  have hnone : tab.find? (fun e => lexSymbolsEqual e.1 name) = none := by
    have : tab.find? (fun e => lexSymbolsEqual e.1 T) = none := by simpa [typeSymtabFind] using hnew
    simpa [lexSymbolsEqual, hn] using this
  rw [typeSymtabFind, List.find?_append, hnone]
  simp [lexSymbolsEqual, hn]

/-! ### Uses -/

/-- A type specifier that is only a name, or an array of one, and the count it asks for. -/
inductive NameUse (src : List UInt8) : PNode → Sym → Nat → Prop
  | plain {t : Lex.Token} (h : t.tk = .name) : NameUse src (.node .atom [.leaf t]) (symOf src t) 1
  | array {t l n r : PNode} {name : Sym} {count : Nat} (h : arrayHead src t n = .ok (name, count)) :
      NameUse src (.node .aexp [t, l, n, r]) name count
  | expr {c : PNode} {name : Sym} {count : Nat} (h : NameUse src c name count) :
      NameUse src (.node .expr [c]) name count

/-- The built-in type of that name. -/
def builtinNamed (name : Sym) (count : Nat) : Option Ty :=
  match typeMatch name with
  | .vptr => some (.vptr count)
  | t => (intOf t).map (.int · count)

/-- The name is no built-in type and the type has the count of the use, or it is the built-in type of
the name. -/
def Transparent (T : Sym) (S : Ty) (count : Nat) : Prop :=
  (typeMatch T = .void ∧ S.count = count) ∨ builtinNamed T count = some S

/-- A name stands for the built-in type, if there is one. -/
lemma use_denotes (h : NameUse src node name n) : ∃ complaint,
    validateTypespec src tab node = nameType tab complaint n name := by
  induction h with
  | plain h => exact ⟨scalarComplaint, by rw [validateTypespec, if_pos h]⟩
  | array h => exact ⟨arrayComplaint, by rw [validateTypespec, h]; rfl⟩
  | expr _ ih =>
    obtain ⟨complaint, ih⟩ := ih
    exact ⟨complaint, by rw [validateTypespec, ih]⟩

lemma typeMatch_congr {a b : Sym} (h : a.text = b.text) : typeMatch a = typeMatch b := by
  rw [typeMatch, typeMatch, h]

lemma setCount_equals : typeEquals (S.setCount n) S = true ↔ S.count = n := by
  constructor
  · intro h
    have := (typeEquals_sizes h).2.1
    rw [← this]
    cases S <;> rfl
  · rintro rfl
    have : S.setCount S.count = S := by cases S <;> rfl
    rw [this]
    exact typeEquals_refl S

lemma int_equals {k : IntT} : typeEquals (.int k n) S = true ↔ Ty.int k n = S := by
  cases S <;> simp [typeEquals]

lemma vptr_equals : typeEquals (.vptr n) S = true ↔ Ty.vptr n = S := by
  cases S <;> simp [typeEquals]

/-- What the name stands for once it is in the table. -/
lemma nameType_equals {complaint : TypeT → String} (hf : typeSymtabFind tab name = some S) :
    (∃ u, nameType tab complaint n name = .ok u ∧ typeEquals u S = true) ↔ Transparent name S n := by
  unfold nameType Transparent builtinNamed resolveType
  rw [hf]
  cases hm : typeMatch name <;> simp [intOf, setCount_equals, int_equals, vptr_equals]

/-- **When an alias is transparent**: a later use of the name stands for a type equal to the one that
was written if and only if the name is no built-in type and the type has the count the use asks for, or
the type is the built-in type of that name. -/
theorem alias_denotes_iff (hs : Declares src tab s T S tab') (hl : After src tab' ss tab'')
    (hu : NameUse src node name n) (hn : name.text = T.text) :
    (∃ u, validateTypespec src tab'' node = .ok u ∧ typeEquals u S = true) ↔ Transparent T S n := by
  obtain ⟨complaint, hv⟩ := use_denotes hu
  rw [hv, nameType_equals (hs.found hl hn), Transparent, Transparent, typeMatch_congr hn, builtinNamed,
    builtinNamed, typeMatch_congr hn]

/-! ### Two aliases -/

/-- `type A: u8; type B: u8[4]; x: A; y: B;` -/
def source : List UInt8 :=
  chars ['t', 'y', 'p', 'e', ' ', 'A', ':', ' ', 'u', '8', ';', ' ', 't', 'y', 'p', 'e', ' ', 'B', ':',
    ' ', 'u', '8', '[', '4', ']', ';', ' ', 'x', ':', ' ', 'A', ';', ' ', 'y', ':', ' ', 'B', ';']

def atom (t : Lex.Token) : PNode := .node .expr [.node .atom [.leaf t]]

def typeStmt (at' : Nat) (name colon : Lex.Token) (spec : PNode) (semi : Lex.Token) : PNode :=
  .node .stmt [.leaf ⟨.type, at', at' + 4⟩, .node .expr [.node .bexp [atom name, .leaf colon, spec]],
    .leaf semi]

def byteStmt : PNode := typeStmt 0 ⟨.name, 5, 6⟩ ⟨.coln, 6, 7⟩ (atom ⟨.name, 8, 10⟩) ⟨.scol, 10, 11⟩

def bytesStmt : PNode :=
  typeStmt 12 ⟨.name, 17, 18⟩ ⟨.coln, 18, 19⟩
    (.node .expr [.node .aexp [atom ⟨.name, 20, 22⟩, .leaf ⟨.lbra, 22, 23⟩, atom ⟨.nmbr, 23, 24⟩,
      .leaf ⟨.rbra, 24, 25⟩]]) ⟨.scol, 25, 26⟩

def byteTable : Table := [(⟨[65], 5⟩, .int .u8 1)]
def bytesTable : Table := byteTable ++ [(⟨[66], 17⟩, .int .u8 4)]

lemma byte_declared : Declares source [] byteStmt ⟨[65], 5⟩ (.int .u8 1) byteTable :=
  ⟨⟨_, _, _, rfl, rfl, rfl⟩, rfl⟩

lemma bytes_declared : Declares source byteTable bytesStmt ⟨[66], 17⟩ (.int .u8 4) bytesTable :=
  ⟨⟨_, _, _, rfl, rfl, rfl⟩, rfl⟩

theorem byte_transparent :
    ∃ u, validateTypespec source bytesTable (atom ⟨.name, 30, 31⟩) = .ok u ∧
      typeEquals u (.int .u8 1) = true :=
  (alias_denotes_iff byte_declared (.snoc .nil bytes_declared.accepted)
    (.expr (.plain rfl)) (by decide)).mpr (.inl (by decide))

theorem bytes_opaque : ¬ ∀ src tab s T S tab' ss tab'' node name, Declares src tab s T S tab' →
    After src tab' ss tab'' → NameUse src node name 1 → name.text = T.text →
    ∃ u, validateTypespec src tab'' node = .ok u ∧ typeEquals u S = true := by
  intro h
  obtain ⟨u, hu, heq⟩ := h source byteTable bytesStmt _ _ _ [] _ (atom ⟨.name, 36, 37⟩) ⟨[66], 36⟩
    bytes_declared .nil (.expr (.plain rfl)) rfl
  have hone : validateTypespec source bytesTable (atom ⟨.name, 36, 37⟩) = .ok (.int .u8 1) := rfl
  rw [hone] at hu
  cases hu
  exact absurd heq (by decide)

end Quaint.Aliases
