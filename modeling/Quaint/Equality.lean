import Quaint.Operand

/-!
What the equality of types stands for.

Two types are equal if they are the same but for the names of members and parameters and the places
of names in the source. A copy is the same type. Equal types are laid out alike, so that a value of
one fits where a value of the other is expected.
-/

namespace Quaint.Equality

open Types Ast Scope TypeCheck Code Codegen Program Typing Emit Listing Operand

/-! ### Shapes -/

/-- A name in no place. -/
def anonymous (text : List UInt8) : Sym := ⟨text, 0⟩

mutual
/-- A type without what the equality leaves out. -/
def shape : Ty → Ty
  | .ptr c s => .ptr c (shape s)
  | .quaint c s => .quaint c (shape s)
  | .struct c ms => .struct c (shapeFields ms)
  | .union c ms => .union c (shapeFields ms)
  | .fptr c ps r => .fptr c (shapeFields ps) (shapeRettype r)
  | .enum c vs tv => .enum c (vs.map fun v => (anonymous v.1.text, v.2)) tv
  | .void c => .void c
  | .int k c => .int k c
  | .vptr c => .vptr c
def shapeFields : Fields → Fields
  | .nil => .nil
  | .cons _ t rest => .cons (anonymous []) (shape t) (shapeFields rest)
def shapeRettype : RetTy → RetTy
  | .none => .none
  | .some t => .some (shape t)
end

section Shapes

variable {t u v : Ty}

lemma valuesEqual_iff (vs ws : List (Sym × Nat)) : valuesEqual vs ws = true ↔
    vs.map (fun v => (anonymous v.1.text, v.2)) = ws.map fun v => (anonymous v.1.text, v.2) := by
  induction vs generalizing ws with
  | nil => cases ws <;> simp [valuesEqual]
  | cons v vs ih =>
    cases ws with
    | nil => simp [valuesEqual]
    | cons w ws => simp [valuesEqual, ih, lexSymbolsEqual, anonymous]

mutual
/-- **Equal types are those of one shape.** -/
theorem typeEquals_iff : ∀ t u : Ty, typeEquals t u = true ↔ shape t = shape u
  | .void _, u | .vptr _, u | .int _ _, u => by cases u <;> simp [typeEquals, shape]
  | .enum _ _ _, u => by
    cases u <;> simp [typeEquals, shape, valuesEqual_iff, and_assoc, and_comm]
  | .ptr _ s, u | .quaint _ s, u => by cases u <;> simp [typeEquals, shape, typeEquals_iff s]
  | .struct _ ms, u | .union _ ms, u => by cases u <;> simp [typeEquals, shape, fieldsEqual_iff ms]
  | .fptr _ ps r, u => by
    cases u <;> simp [typeEquals, shape, fieldsEqual_iff ps, rettypeEquals_iff r, and_assoc]
lemma fieldsEqual_iff : ∀ ms ns : Fields, fieldsEqual ms ns = true ↔ shapeFields ms = shapeFields ns
  | .nil, ns => by cases ns <;> simp [fieldsEqual, shapeFields]
  | .cons _ t rest, ns => by
    cases ns <;> simp [fieldsEqual, shapeFields, typeEquals_iff t, fieldsEqual_iff rest]
lemma rettypeEquals_iff : ∀ r s : RetTy, rettypeEquals r s = true ↔ shapeRettype r = shapeRettype s
  | .none, s => by cases s <;> simp [rettypeEquals, shapeRettype]
  | .some t, s => by cases s <;> simp [rettypeEquals, shapeRettype, typeEquals_iff t]
end

lemma typeEquals_refl (t : Ty) : typeEquals t t = true := (typeEquals_iff t t).mpr rfl

lemma typeEquals_symm (h : typeEquals t u = true) : typeEquals u t = true :=
  (typeEquals_iff u t).mpr ((typeEquals_iff t u).mp h).symm

lemma typeEquals_trans (h1 : typeEquals t u = true) (h2 : typeEquals u v = true) :
    typeEquals t v = true :=
  (typeEquals_iff t v).mpr (((typeEquals_iff t u).mp h1).trans ((typeEquals_iff u v).mp h2))

end Shapes

/-! ### Copies -/

mutual
/-- A copy is the same type. -/
lemma typeCopy_eq : ∀ t : Ty, typeCopy t = t
  | .void _ | .int _ _ | .vptr _ => rfl
  | .enum _ vs _ => by rw [typeCopy, List.map_id'' (fun _ => rfl)]
  | .ptr _ s | .quaint _ s => by rw [typeCopy, typeCopy_eq s]
  | .struct _ ms | .union _ ms => by rw [typeCopy, copyFields_eq ms]
  | .fptr _ ps r => by rw [typeCopy, copyFields_eq ps, copyRettype_eq r]
lemma copyFields_eq : ∀ ms : Fields, copyFields ms = ms
  | .nil => rfl
  | .cons _ t rest => by rw [copyFields, typeCopy_eq t, copyFields_eq rest]
lemma copyRettype_eq : ∀ r : RetTy, copyRettype r = r
  | .none => rfl
  | .some t => by rw [copyRettype, typeCopy_eq t]
end

/-! ### Layouts -/

mutual
/-- Two types are quantified alike, and so are their members. -/
inductive SameLayout : Ty → Ty → Prop
  | mk {t u : Ty} (count : t.count = u.count) (size : t.size = u.size)
      (alignment : t.alignment = u.alignment) (offsets : t.offsets = u.offsets)
      (members : SameFields t.members u.members) : SameLayout t u
inductive SameFields : Fields → Fields → Prop
  | nil : SameFields .nil .nil
  | cons {n n' : Sym} {t u : Ty} {ms ns : Fields} (type : SameLayout t u) (rest : SameFields ms ns) :
      SameFields (.cons n t ms) (.cons n' u ns)
end

section Layouts

variable {t u : Ty}

lemma fieldsEqual_offsets : ∀ {ms ns : Fields}, fieldsEqual ms ns = true → ∀ off,
    ms.offsets off = ns.offsets off ∧ ms.length = ns.length
  | .nil, .nil, _, _ => ⟨rfl, rfl⟩
  | .cons _ t r, .cons _ t' r', h, off => by
    simp only [fieldsEqual, Bool.and_eq_true] at h
    obtain ⟨-, hc, hs, ha⟩ := typeEquals_sizes h.1
    rw [Fields.offsets, Fields.offsets, hc, hs, ha, Fields.length, Fields.length]
    obtain ⟨hoffs, hlen⟩ := fieldsEqual_offsets h.2
      (wrap64 (wrap64 (alignUp off t'.alignment) + wrap64 (t'.size * t'.count)))
    exact ⟨congrArg _ hoffs, congrArg _ hlen⟩

lemma offsets_of_equals (h : typeEquals t u = true) : t.offsets = u.offsets := by
  cases t <;> cases u <;> simp only [typeEquals, Bool.and_eq_true, Bool.false_eq_true] at h <;>
    simp only [Ty.offsets]
  case struct.struct => exact (fieldsEqual_offsets h.2 0).1
  case union.union => rw [(fieldsEqual_offsets h.2 0).2]

mutual
/-- **Equal types are laid out alike.** -/
theorem sameLayout_of_equals : ∀ t u : Ty, typeEquals t u = true → SameLayout t u
  | .void _, u, h | .vptr _, u, h | .int _ _, u, h | .enum _ _ _, u, h | .ptr _ _, u, h
  | .quaint _ _, u, h | .fptr _ _ _, u, h => by
    obtain ⟨-, hc, hs, ha⟩ := typeEquals_sizes h
    refine .mk hc hs ha (offsets_of_equals h) ?_
    cases u <;> first | cases h | exact .nil
  | .struct _ ms, u, h | .union _ ms, u, h => by
    obtain ⟨-, hc, hs, ha⟩ := typeEquals_sizes h
    refine .mk hc hs ha (offsets_of_equals h) ?_
    cases u <;> simp only [typeEquals, Bool.and_eq_true, Bool.false_eq_true] at h
    exact sameFields_of_equal ms _ h.2
lemma sameFields_of_equal : ∀ ms ns : Fields, fieldsEqual ms ns = true → SameFields ms ns
  | .nil, ns, h => by
    cases ns with
    | nil => exact .nil
    | cons => cases h
  | .cons _ t rest, ns, h => by
    cases ns with
    | nil => cases h
    | cons _ u rest' =>
      simp only [fieldsEqual, Bool.and_eq_true] at h
      exact .cons (sameLayout_of_equals t u h.1) (sameFields_of_equal rest rest' h.2)
end

end Layouts

/-! ### Copies of values -/

/-- In the code of a function, an assignment moves between operands of one size, and an argument has
the size of its parameter. -/
structure CopiesFit (locs : List (Nat × Nat)) (K : ScopeObj → Ty → Prop) (cx : Cx) : Prop where
  assignment : ∀ l r t n p code d p', Checked K (.bexp .assn l r t) →
    Emit cx (.expr (.bexp .assn l r t) n) p code (some d) p' →
    ∃ pre a, code = pre ++ [Insn.mov d a] ∧ (printOpd locs d).size = (printOpd locs a).size
  argument : ∀ name pt ps e as p code p', CheckedArgs K (.cons name pt ps) (.cons e as) →
    Emit cx (.args (.cons e as)) p code none p' →
    ∃ pre a post, code = pre ++ [Insn.push a] ++ post ∧ (printOpd locs a).size = pt.bytes

section Copies

variable {tops : List TTop} {fns : List Fn} {o : Obj} {f : TFunc} {cx : Cx} {locs : List (Nat × Nat)}

/-- **Accepted copies are between operands of one size.** -/
theorem copies_fit (hu : InUnit tops f cx) (hr : Resolves locs tops) :
    CopiesFit locs (KnownIn tops f) cx := by
  constructor
  case assignment =>
    intro l r t n p code d p' hc h
    obtain ⟨ht, hcl, hcr⟩ := hc
    obtain ⟨-, heq, -⟩ := assn_checked ht
    cases h with
    | @assn _ _ _ _ _ _ _ cl cr _ a hl hr' =>
      refine ⟨cl ++ cr, a, rfl, ?_⟩
      rw [(emit_item hu hr hl hcl).size, (emit_item hu hr hr' hcr).size, bytes_of_equals heq]
    | asmu hop | plus hop | aspl hop | conj hop | equl hop => cases hop
  case argument =>
    intro name pt ps e as p code p' hc h
    obtain ⟨hce, heq, -⟩ := hc
    cases h with
    | @argsCons _ _ _ _ _ ce cr a h _ =>
      exact ⟨ce, a, cr, rfl, by rw [(emit_item hu hr h hce).size, bytes_of_equals heq]⟩

/-- **The equality of types is sound**: it is an equivalence that copies respect, equal types are laid
out alike, and in a compiled unit accepted copies are between operands of one size. -/
theorem equality_sound :
    (∀ t, typeEquals t t = true) ∧ (∀ t u, typeEquals t u = true → typeEquals u t = true) ∧
      (∀ t u v, typeEquals t u = true → typeEquals u v = true → typeEquals t v = true) ∧
      (∀ t, typeEquals (typeCopy t) t = true) ∧ (∀ t u, typeEquals t u = true → SameLayout t u) ∧
      ∀ u tops fns o, accept u = some tops → Listed tops fns o → ∀ fn ∈ fns,
        CopiesFit (locsOf fns) (KnownIn tops fn.func)
          (fn.cx (globalsOf tops).size (globalsOf tops).layout) := by
  refine ⟨typeEquals_refl, fun _ _ => typeEquals_symm, fun _ _ _ => typeEquals_trans, fun t => ?_,
    sameLayout_of_equals, fun u tops fns o ha hl fn hfn => ?_⟩
  · rw [typeCopy_eq]
    exact typeEquals_refl t
  · exact copies_fit (inUnit_of_listed (accepted_of_accept ha) hl hfn) (resolves_of_listed hl)

/-- `struct(a: u8, b: u16[3])` and `struct(x: u8, y: u16[3])` -/
theorem equality_sound_names :
    SameLayout (.struct 1 (.cons ⟨[97], 1⟩ (.int .u8 1) (.cons ⟨[98], 2⟩ (.int .u16 3) .nil)))
      (.struct 1 (.cons ⟨[120], 3⟩ (.int .u8 1) (.cons ⟨[121], 4⟩ (.int .u16 3) .nil))) :=
  equality_sound.2.2.2.2.1 _ _ (by decide)

end Copies

end Quaint.Equality
