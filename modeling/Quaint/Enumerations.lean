import Quaint.Literals
import Quaint.Recovery
import Quaint.Parsing

/-!
Declarations of enumerations.

The type of the values may be written as a name, and a name may stand for an enumeration: the code
of that type passes for an unsigned integral one, and `enum_boundary_from_type` aborts on it.
-/

namespace Quaint.Enumerations

open Types Ast TypeCheck TRes Lex Derivation Parse Validate Recovery Literals

/-! ### Trees of the parser -/

section Trees

variable {cs : List PNode} {l r a b n : PNode}

/-- An inner node of a derived tree. -/
structure Inner (n : PNode) : Prop where
  derived : Derived Token.tk grammar n
  inner : ∃ nt, n.symbol Token.tk = .inr nt

/-- The right-hand sides of the expressions that types are written with repeat no term. -/
lemma grammar_expr : ∀ r ∈ grammar, r.lhs = .expr → ∃ nt, r.rhs = [.nt nt] := by
  intro r hr hl
  have : ∀ r ∈ grammar, r.lhs = .expr → r ∈ [expr .atom, expr .fexp, expr .pexp, expr .texp, expr .bexp,
      expr .uexp, expr .xexp, expr .wexp, expr .aexp] := by decide
  have hr' := this r hr hl
  simp only [List.mem_cons, List.not_mem_nil, or_false] at hr'
  rcases hr' with rfl | rfl | rfl | rfl | rfl | rfl | rfl | rfl | rfl <;> exact ⟨_, rfl⟩

lemma grammar_fexp : ∀ r ∈ grammar, r.lhs = .fexp →
    r.rhs = [.nt .expr, .tk .lpar, .nt .expr, .tk .rpar] ∨ r.rhs = [.nt .expr, .tk .lpar, .tk .rpar] := by
  decide

lemma grammar_bexp : ∀ r ∈ grammar, r.lhs = .bexp →
    r.rhs.map Term.isMt = [false, false, false] ∧ r.rhs.head? = some (.nt .expr) ∧
      r.rhs.getLast? = some (.nt .expr) := by
  decide +kernel

lemma inner_expr (h : Derived Token.tk grammar (.node .expr cs)) : ∃ c, cs = [c] ∧ Inner c := by
  obtain ⟨r, hr, hl, hs, hcs⟩ := h.rule
  obtain ⟨nt, hrhs⟩ := grammar_expr r hr hl
  rw [hrhs] at hs
  cases hs.forall₂ (by simp [Term.isMt]) with
  | cons hc hnil =>
    cases hnil
    exact ⟨_, rfl, hcs _ List.mem_cons_self, nt, hc.symm⟩

/-- What stands in front of the parentheses, and in them. -/
lemma inner_fexp (h : Derived Token.tk grammar (.node .fexp (l :: cs))) :
    Inner l ∧ ∀ a r b, cs = [a, r, b] → Inner r := by
  obtain ⟨r, hr, hl, hs, hcs⟩ := h.rule
  rcases grammar_fexp r hr hl with hrhs | hrhs <;> rw [hrhs] at hs
  · cases hs.forall₂ (by simp [Term.isMt]) with
    | cons hc h2 =>
      refine ⟨⟨hcs _ List.mem_cons_self, _, hc.symm⟩, ?_⟩
      rintro a r b rfl
      cases h2 with
      | cons _ h3 =>
        cases h3 with
        | cons hr _ => exact ⟨hcs _ (by simp), _, hr.symm⟩
  · cases hs.forall₂ (by simp [Term.isMt]) with
    | cons hc h2 =>
      refine ⟨⟨hcs _ List.mem_cons_self, _, hc.symm⟩, ?_⟩
      rintro a r b rfl
      exact absurd h2.length_eq (by simp)

lemma inner_bexp (h : Derived Token.tk grammar (.node .bexp [l, a, r])) :
    Inner l ∧ Inner r ∧ l.symbol Token.tk = .inr .expr := by
  obtain ⟨ru, hr, hl, hs, hcs⟩ := h.rule
  obtain ⟨hmt, hhead, hlast⟩ := grammar_bexp ru hr hl
  have hall := hs.forall₂ fun t ht => by
    have : t.isMt ∈ ru.rhs.map Term.isMt := List.mem_map_of_mem ht
    rw [hmt] at this
    simpa using this
  obtain ⟨lhs, rhs⟩ := ru
  obtain ⟨t1, t2, t3, rfl⟩ : ∃ t1 t2 t3, rhs = [t1, t2, t3] := by
    simpa [List.length_eq_three] using hall.length_eq
  cases hall with
  | cons h1 h23 =>
    cases h23 with
    | cons _ h3 =>
      cases h3 with
      | cons h3 _ =>
        cases hhead
        cases hlast
        exact ⟨⟨hcs _ (by simp), _, h1.symm⟩, ⟨hcs _ (by simp), _, h3.symm⟩, h1.symm⟩

lemma inner_of_expr (h : Derived Token.tk grammar (.node .expr [n])) : Inner n := by
  obtain ⟨c, hc, hn⟩ := inner_expr h
  cases hc
  exact hn

end Trees

/-! ### No type aborts -/

section Types

variable {src : List UInt8} {symtab : List (Sym × Ty)}

lemma nameType_returns {complaint : TypeT → String} {count : Nat} {name : Sym} :
    nameType symtab complaint count name ≠ .crash := by
  unfold nameType resolveType
  split
  · split <;> simp
  · simp
  · split <;> simp

lemma arrayHead_returns {t n : PNode} : arrayHead src t n ≠ .crash := by
  unfold arrayHead
  split
  · nofun
  · split <;> nofun

lemma typeHead_returns {left : PNode} : typeHead src left ≠ .crash := by
  unfold typeHead
  split
  · simp [arrayHead_returns]
  · split <;> nofun

lemma fptrHead_returns {left : PNode} : fptrHead src left ≠ .crash := by
  unfold fptrHead
  simp only [ne_eq, bind_crash, typeHead_returns, false_or, not_exists, not_and]
  intro head _
  split <;> simp

lemma pairOf_returns {left : PNode} {op : Token} {type : TRes Ty} (ht : type ≠ .crash) :
    pairOf src left op type ≠ .crash := by
  unfold pairOf
  simp only [ne_eq, require_crash, not_and]
  intro _
  split
  · simp
  · simp [ht]

lemma distinctPairs_returns {r : TRes Fields} (hr : r ≠ .crash) : distinctPairs r ≠ .crash := by
  simp [distinctPairs, hr]

lemma fexpType_returns {head : Sym × Nat × Bool} {s : Option (TRes Ty)} {ps : Option (TRes Fields)}
    (hs : ∀ r, s = some r → r ≠ .crash) (hps : ∀ r, ps = some r → r ≠ .crash) :
    fexpType head s ps ≠ .crash := by
  have pairs : ∀ r, ps = some r → distinctPairs r ≠ .crash := fun r hr => distinctPairs_returns (hps r hr)
  unfold fexpType
  cases s <;> cases ps <;> split <;> simp_all

lemma typespec_returns_all :
    (∀ n, Inner n → validateTypespec src symtab n ≠ .crash) ∧
      (∀ n, Derived Token.tk grammar n → pairsLoop src symtab n ≠ .crash) ∧
      ∀ n, Derived Token.tk grammar n → validatePair src symtab n ≠ .crash := by
  apply validateTypespec.mutual_induct
  case case1 =>
    intro c ih h
    rw [validateTypespec]
    exact ih (inner_of_expr h.derived)
  case case2 =>
    intro t ht _
    rw [validateTypespec, if_pos ht]
    exact nameType_returns
  case case3 =>
    intro t ht _
    rw [validateTypespec, if_neg ht]
    simp
  case case4 =>
    intro left a right b hty hps h
    obtain ⟨-, hr⟩ := inner_fexp h.derived
    have hright := hr a right b rfl
    rw [validateTypespec]
    simp only [ne_eq, bind_crash, typeHead_returns, false_or, not_exists, not_and]
    intro head _
    refine fexpType_returns ?_ ?_
    · rintro r ⟨⟩
      exact hty hright
    · rintro r ⟨⟩
      exact hps hright.derived
  case case5 =>
    intro left _ _ _
    rw [validateTypespec]
    simp only [ne_eq, bind_crash, typeHead_returns, false_or, not_exists, not_and]
    exact fun head _ => fexpType_returns (by simp) (by simp)
  case case6 =>
    intro t _ n _ _
    rw [validateTypespec]
    simp only [ne_eq, bind_crash, arrayHead_returns, false_or, not_exists, not_and]
    exact fun head _ => nameType_returns
  case case7 =>
    intro left op right ih h
    obtain ⟨hl, hr, -⟩ := inner_bexp h.derived
    split at ih
    · obtain ⟨-, hf⟩ := inner_fexp (inner_of_expr hl.derived).derived
      have hps := distinctPairs_returns (ih.1 (hf _ _ _ rfl).derived)
      rw [validateTypespec]
      simp [fptrHead_returns, hps, ih.2 hr]
    · rw [validateTypespec]
      simp [fptrHead_returns, ih hr]
    · rename_i h1 h2
      rw [validateTypespec]
      · simp
      · exact h1
      · exact h2
  case case8 =>
    rintro t ⟨-, nt, hnt⟩
    cases hnt
  case case9 =>
    intro nt cs h1 h2 h3 h4 h5 h6 _
    rw [validateTypespec] <;> first | assumption | simp
  case case10 =>
    intro left op right hop hl hr h
    obtain ⟨hl', hr', -⟩ := inner_bexp (inner_of_expr h).derived
    rw [pairsLoop, if_pos hop]
    simp [hl hl'.derived, hr hr'.derived]
  case case11 =>
    intro left op right hop hr h
    rw [pairsLoop, if_neg hop]
    simp [pairOf_returns (hr (inner_bexp (inner_of_expr h).derived).2.1)]
  case case12 =>
    intro n hn _
    rw [pairsLoop]
    · simp
    · exact hn
  case case13 =>
    intro left op right hr h
    rw [validatePair]
    exact pairOf_returns (hr (inner_bexp (inner_of_expr h).derived).2.1)
  case case14 =>
    intro n hn _
    rw [validatePair]
    · simp
    · exact hn

/-- `validate_typespec` returns on every inner node of a tree of the parser. -/
theorem validateTypespec_returns {n : PNode} (h : Inner n) : validateTypespec src symtab n ≠ .crash :=
  typespec_returns_all.1 n h

end Types

/-! ### The names -/

section Names

variable {src : List UInt8} {n : PNode} {names : List Sym}

/-- The names of a list of values, in their order: one, or one with a comma and a list behind
it. -/
inductive Listed (src : List UInt8) : PNode → List Sym → Prop
  | last {value : PNode} {name : Sym} (h : exprName src value = some name) : Listed src value [name]
  | cons {left right : PNode} {op : Token} {name : Sym} {names : List Sym} (hop : op.tk = .coma)
    (h : exprName src left = some name) (hrest : Listed src right names) :
    Listed src (.node .expr [.node .bexp [left, .leaf op, right]]) (name :: names)

lemma enumNames_last {value : PNode} {name : Sym} (h : exprName src value = some name) :
    enumNames src value = .ok [name] := by
  rw [enumNames]
  · rw [h]
  · rintro left op right rfl
    cases h

lemma enumNames_returns (n : PNode) : enumNames src n ≠ .crash := by
  induction n using enumNames.induct src with
  | case1 left op right hop name hname ih =>
    rw [enumNames, if_pos hop, hname]
    simp [ih]
  | case2 left op right hop hname =>
    rw [enumNames, if_pos hop, hname]
    simp
  | case3 left op right hop =>
    rw [enumNames, if_neg hop]
    simp
  | case4 n name hn hname =>
    rw [enumNames_last hname]
    simp
  | case5 n hn hname =>
    rw [enumNames]
    · rw [hname]
      simp
    · exact hn

lemma enumNames_listed : enumNames src n = .ok names ↔ Listed src n names := by
  constructor
  · intro h
    induction n using enumNames.induct src generalizing names with
    | case1 left op right hop name hname ih =>
      rw [enumNames, if_pos hop, hname] at h
      cases hr : enumNames src right with
      | ok ns =>
        simp only [hr, TRes.bind, TRes.ok.injEq] at h
        exact h ▸ .cons hop hname (ih hr)
      | invalid | crash => simp [hr, TRes.bind] at h
    | case2 left op right hop hname =>
      rw [enumNames, if_pos hop, hname] at h
      cases h
    | case3 left op right hop =>
      rw [enumNames, if_neg hop] at h
      cases h
    | case4 n name hn hname =>
      rw [enumNames_last hname] at h
      cases h
      exact .last hname
    | case5 n hn hname =>
      rw [enumNames] at h
      · rw [hname] at h
        cases h
      · exact hn
  · intro h
    induction h with
    | last h => exact enumNames_last h
    | cons hop h _ ih =>
      rw [enumNames, if_pos hop, h]
      simp only [ih, TRes.bind]

lemma namesDistinct_iff (ns : List Sym) : namesDistinct ns = true ↔ (ns.map Sym.text).Nodup := by
  induction ns with
  | nil => simp [namesDistinct]
  | cons n ns ih =>
    rw [namesDistinct, List.map_cons, List.nodup_cons, Bool.and_eq_true, ih]
    simp only [lexSymbolsEqual, Bool.not_eq_true', List.any_eq_false, beq_iff_eq, List.mem_map, not_exists,
      not_and, and_congr_left_iff]
    exact fun _ => ⟨fun h x hx heq => h x hx heq.symm, fun h x hx heq => h x hx heq.symm⟩

lemma Listed.nonempty (h : Listed src n names) : names ≠ [] := by
  cases h <;> exact List.cons_ne_nil _ _

end Names

/-! ### The declaration -/

section Declarations

variable {src : List UInt8} {symtab : List (Sym × Ty)} {n fexp list spec : PNode} {names : List Sym}
  {tEnum : Option TypeT} {t : Ty} {cs : List PNode}

/-- The type that is written for the values, if one is, and the functional expression. -/
def enumParts : PNode → Option (Option PNode × PNode)
  | .node .expr [.node .bexp [.node .expr [enumFexp], _, typespec]] => some (some typespec, enumFexp)
  | .node .expr [enumFexp] => some (none, enumFexp)
  | _ => none

/-- What stands in the parentheses, if anything does. -/
def valueList : PNode → Option PNode
  | .node _ [_, _, list, _] => some list
  | _ => none

/-- The type that holds so many values, counted from zero: unsigned, the written one or the
smallest there is. Of more values than that, 16 bytes each, memory cannot hold the array. -/
structure Chosen (src : List UInt8) (symtab : List (Sym × Ty)) (explicit : Option PNode) (count : Nat)
    (k : IntT) : Prop where
  unsigned : typeIsUnsigned k.t = true
  holds : 16 * count < 2 ^ 64 → count ≤ 256 ^ k.size
  smallest : 16 * count < 2 ^ 64 → explicit = none → Smallest (count - 1) k
  written : ∀ spec, explicit = some spec → ∃ t, validateTypespec src symtab spec = .ok t ∧ k.t = t.t

/-- What becomes of an enumeration: it is rejected, or the names it lists are distinct, numbered
from zero, and of a type that holds them. Nothing else, an abort least of all. -/
def EnumRight (src : List UInt8) (symtab : List (Sym × Ty)) (n : PNode) : Prop :=
  validateTypespecEnum src symtab n ≠ .crash ∧ ∀ t, validateTypespecEnum src symtab n = .ok t →
    ∃ explicit fexp list names k, enumParts n = some (explicit, fexp) ∧ valueList fexp = some list ∧
      Listed src list names ∧ (names.map Sym.text).Nodup ∧
      t = .enum 1 (names.zip (List.range names.length)) k ∧ Chosen src symtab explicit names.length k

/-- A list that is accepted, with a type written behind it that is an enumeration itself. -/
def OverEnum (src : List UInt8) (symtab : List (Sym × Ty)) (n : PNode) : Prop :=
  ∃ spec fexp list names t, enumParts n = some (some spec, fexp) ∧ valueList fexp = some list ∧
    Listed src list names ∧ (names.map Sym.text).Nodup ∧ validateTypespec src symtab spec = .ok t ∧
    t.t = .enum

lemma validateTypespecEnum_plain (h : enumParts n = some (none, fexp)) :
    validateTypespecEnum src symtab n = enumFromFexp src none fexp := by
  unfold enumParts at h
  split at h
  · cases h
  · rename_i hno
    cases h
    rw [validateTypespecEnum]
    exact hno
  · cases h

lemma validateTypespecEnum_typed (h : enumParts n = some (some spec, fexp)) :
    validateTypespecEnum src symtab n = (validateTypespec src symtab spec).bind fun t =>
      require (typeIsIntegral t.t && typeIsUnsigned t.t) "enum type must be integral and unsigned" <|
      enumFromFexp src (some t.t) fexp := by
  unfold enumParts at h
  split at h
  · cases h
    rfl
  · cases h
  · cases h

lemma enumParts_derived (h : Derived Token.tk grammar (.node .expr cs)) :
    ∃ explicit fexp, enumParts (.node .expr cs) = some (explicit, fexp) ∧
      ∀ spec, explicit = some spec → Inner spec := by
  obtain ⟨c, rfl, hc⟩ := inner_expr h
  unfold enumParts
  split
  · rename_i fexp a spec heq
    cases heq
    refine ⟨_, _, rfl, ?_⟩
    rintro spec ⟨⟩
    exact (inner_bexp hc.derived).2.1
  · exact ⟨_, _, rfl, nofun⟩
  · rename_i hno
    exact absurd rfl (hno c)

/-- The abort of `enum_boundary_from_type`. -/
lemma enumType_crash (ht : ∀ t, tEnum = some t → typeIsIntegral t = true ∧ typeIsUnsigned t = true)
    (m : Nat) : enumType tEnum m = .crash ↔ tEnum = some .enum := by
  cases tEnum with
  | none => simp [enumType]
  | some t =>
    obtain ⟨hint, huns⟩ := ht t rfl
    cases t <;> first
      | exact absurd huns (by decide)
      | exact absurd hint (by decide)
      | simp [enumType, intOf, enumBoundaryFromType]

lemma enumType_chosen {k : IntT} {m : Nat} (h : enumType tEnum m = .ok k) :
    typeIsUnsigned k.t = true ∧ (m < 2 ^ 64 → m < 256 ^ k.size) ∧
      (tEnum = none → k = enumTypeFromMaxval m) ∧ ∀ t, tEnum = some t → k.t = t := by
  cases tEnum with
  | none =>
    simp only [enumType, TRes.ok.injEq] at h
    subst h
    refine ⟨?_, fun hm => (smallest_of_lt hm).holds, fun _ => rfl, by simp⟩
    have hlisted : ∀ k ∈ literalTypes, typeIsUnsigned k.t = true := by decide
    unfold enumTypeFromMaxval
    split <;> [skip; split <;> [skip; split]] <;> rfl
  | some t =>
    cases t <;> simp only [enumType, intOf, enumBoundaryFromType, Option.bind_some, Option.bind_none,
      Option.map_some, Option.map_none, TRes.require, reduceCtorEq] at h
    all_goals
      split at h
      · rename_i hle
        cases h
        simp only [decide_eq_true_eq] at hle
        refine ⟨rfl, fun _ => by simp [IntT.size]; omega, by simp, ?_⟩
        rintro t ⟨⟩
        rfl
      · cases h

/-- What the second half does, by the list it finds. -/
lemma enumFromFexp_ok (h : enumFromFexp src tEnum fexp = .ok t) :
    ∃ list names k, valueList fexp = some list ∧ Listed src list names ∧ (names.map Sym.text).Nodup ∧
      enumType tEnum (names.length - 1) = .ok k ∧ t = .enum 1 (names.zip (List.range names.length)) k := by
  unfold enumFromFexp at h
  split at h
  · rename_i list _
    cases hns : enumNames src list with
    | ok names =>
      simp only [hns, TRes.bind, TRes.require] at h
      split at h
      · rename_i hd
        cases hk : enumType tEnum (names.length - 1) with
        | ok k =>
          simp only [hk, TRes.ok.injEq] at h
          exact ⟨list, names, k, rfl, enumNames_listed.mp hns, (namesDistinct_iff names).mp hd, hk, h.symm⟩
        | invalid | crash => simp [hk] at h
      · cases h
    | invalid | crash => simp [hns, TRes.bind] at h
  · cases h

lemma enumFromFexp_crash
    (ht : ∀ t, tEnum = some t → typeIsIntegral t = true ∧ typeIsUnsigned t = true) :
    enumFromFexp src tEnum fexp = .crash ↔ tEnum = some .enum ∧
      ∃ list names, valueList fexp = some list ∧ Listed src list names ∧ (names.map Sym.text).Nodup := by
  unfold enumFromFexp
  split
  · rename_i list _
    simp only [bind_crash, enumNames_returns, require_crash, enumType_crash ht, reduceCtorEq, and_false,
      exists_false, or_false, false_or, enumNames_listed, namesDistinct_iff, valueList, Option.some.injEq]
    constructor
    · rintro ⟨names, hl, hd, ht⟩
      exact ⟨ht, list, names, rfl, hl, hd⟩
    · rintro ⟨ht, list', names, rfl, hl, hd⟩
      exact ⟨names, hl, hd, ht⟩
  · rename_i hno
    simp only [reduceCtorEq, false_iff, not_and, not_exists]
    intro _ list names hl
    unfold valueList at hl
    split at hl
    · exact absurd rfl (hno _ _ _ _ _)
    · cases hl

/-- An enumeration that is accepted is what it should be. -/
lemma enum_built {explicit : Option PNode} (hparts : enumParts n = some (explicit, fexp))
    (ht : validateTypespecEnum src symtab n = .ok t) :
    ∃ list names k, valueList fexp = some list ∧ Listed src list names ∧ (names.map Sym.text).Nodup ∧
      t = .enum 1 (names.zip (List.range names.length)) k ∧
      Chosen src symtab explicit names.length k := by
  obtain ⟨tEnum, hfexp, hplain, htyped⟩ : ∃ tEnum, enumFromFexp src tEnum fexp = .ok t ∧
      (explicit = none → tEnum = none) ∧
      ∀ spec, explicit = some spec → ∃ u, validateTypespec src symtab spec = .ok u ∧ tEnum = some u.t := by
    cases explicit with
    | none => exact ⟨none, validateTypespecEnum_plain hparts ▸ ht, fun _ => rfl, by simp⟩
    | some spec =>
      rw [validateTypespecEnum_typed hparts] at ht
      cases hu : validateTypespec src symtab spec with
      | ok u =>
        simp only [hu, TRes.bind, TRes.require] at ht
        split at ht
        · refine ⟨some u.t, ht, by simp, ?_⟩
          rintro spec' ⟨⟩
          exact ⟨u, hu, rfl⟩
        · cases ht
      | invalid | crash => simp [hu, TRes.bind] at ht
  obtain ⟨list, names, k, hl, hlisted, hd, hk, rfl⟩ := enumFromFexp_ok hfexp
  obtain ⟨huns, hholds, hsmall, hwritten⟩ := enumType_chosen hk
  have hpos : 0 < names.length := List.length_pos_iff.mpr hlisted.nonempty
  refine ⟨list, names, k, hl, hlisted, hd, rfl, huns, fun hm => ?_, fun hm hno => ?_, fun spec hspec => ?_⟩
  · have := hholds (by omega)
    omega
  · rw [hsmall (hplain hno)]
    exact smallest_of_lt (by omega)
  · obtain ⟨u, hu, hut⟩ := htyped spec hspec
    exact ⟨u, hu, hwritten _ hut⟩

/-- The one way to an abort. -/
lemma enum_crash {explicit : Option PNode} (hparts : enumParts n = some (explicit, fexp))
    (hinner : ∀ spec, explicit = some spec → Inner spec) :
    validateTypespecEnum src symtab n = .crash ↔ OverEnum src symtab n := by
  cases explicit with
  | none =>
    have hno : ∀ t : TypeT, (none : Option TypeT) = some t → typeIsIntegral t = true ∧
        typeIsUnsigned t = true := nofun
    rw [validateTypespecEnum_plain hparts, enumFromFexp_crash hno]
    simp [OverEnum, hparts]
  | some spec =>
    rw [validateTypespecEnum_typed hparts]
    simp only [bind_crash, validateTypespec_returns (hinner spec rfl), false_or, require_crash,
      Bool.and_eq_true]
    constructor
    · rintro ⟨t, ht, huns, hcrash⟩
      rw [enumFromFexp_crash fun _ heq => Option.some.inj heq ▸ huns] at hcrash
      obtain ⟨henum, list, names, hl, hlisted, hd⟩ := hcrash
      exact ⟨spec, fexp, list, names, t, hparts, hl, hlisted, hd, ht, Option.some.inj henum⟩
    · rintro ⟨spec', fexp', list, names, t, hparts', hl, hlisted, hd, ht, henum⟩
      obtain ⟨h1, rfl⟩ := Prod.mk.inj (Option.some.inj (hparts.symm.trans hparts'))
      obtain rfl := Option.some.inj h1
      have huns : typeIsIntegral t.t = true ∧ typeIsUnsigned t.t = true := by
        rw [henum]
        decide
      refine ⟨t, ht, huns, ?_⟩
      rw [enumFromFexp_crash fun _ heq => Option.some.inj heq ▸ huns, henum]
      exact ⟨rfl, list, names, hl, hlisted, hd⟩

/-- **When an enumeration is declared right**: exactly if the type written for its values, where
its list is accepted, is no enumeration itself. -/
theorem enumRight_iff (h : Derived Token.tk grammar (.node .expr cs)) :
    EnumRight src symtab (.node .expr cs) ↔ ¬ OverEnum src symtab (.node .expr cs) := by
  obtain ⟨explicit, fexp, hparts, hinner⟩ := enumParts_derived h
  rw [EnumRight, ne_eq, enum_crash hparts hinner, and_iff_left_iff_imp]
  intro _ t ht
  obtain ⟨list, names, k, hbuilt⟩ := enum_built hparts ht
  exact ⟨explicit, fexp, list, names, k, hparts, hbuilt⟩

end Declarations

/-! ### A type of values that is an enumeration -/

/-- `type e: enum(a); type f: enum(b): e;` -/
def source : List UInt8 :=
  chars ['t', 'y', 'p', 'e', ' ', 'e', ':', ' ', 'e', 'n', 'u', 'm', '(', 'a', ')', ';', ' ', 't', 'y', 'p',
    'e', ' ', 'f', ':', ' ', 'e', 'n', 'u', 'm', '(', 'b', ')', ':', ' ', 'e', ';']

/-- A list of one name in parentheses. -/
def oneValue (enum lpar name rpar : Token) : PNode :=
  .node .expr [.node .fexp [atomNode enum, .leaf lpar, atomNode name, .leaf rpar]]

def plainSpec : PNode := oneValue ⟨.name, 8, 12⟩ ⟨.lpar, 12, 13⟩ ⟨.name, 13, 14⟩ ⟨.rpar, 14, 15⟩

def typedSpec : PNode :=
  .node .expr [.node .bexp [oneValue ⟨.name, 25, 29⟩ ⟨.lpar, 29, 30⟩ ⟨.name, 30, 31⟩ ⟨.rpar, 31, 32⟩,
    .leaf ⟨.coln, 32, 33⟩, atomNode ⟨.name, 34, 35⟩]]

def enumTable : List (Sym × Ty) := [(⟨[101], 5⟩, .enum 1 [(⟨[97], 13⟩, 0)] .u8)]

lemma derived_expr {nt : Nt} {cs : List PNode} (hr : expr nt ∈ grammar)
    (h : Derived Token.tk grammar (.node nt cs)) : Derived Token.tk grammar (.node .expr [.node nt cs]) :=
  .node (expr nt) hr _ (.one rfl rfl .nil) (by simpa using h)

lemma derived_name {b e : Nat} : Derived Token.tk grammar (atomNode ⟨.name, b, e⟩) :=
  derived_expr (by decide) (.node (⟨.atom, [.tk .name]⟩ : PRule) (by decide) _ (.one rfl rfl .nil)
    (by simp [Derived.leaf]))

lemma derived_plain : Derived Token.tk grammar plainSpec :=
  derived_expr (by decide) (.node
    (⟨.fexp, [.nt .expr, .tk .lpar, .nt .expr, .tk .rpar]⟩ : PRule) (by decide) _
    (.one rfl rfl (.one rfl rfl (.one rfl rfl (.one rfl rfl .nil))))
    (by simp [Derived.leaf, derived_name]))

theorem plain_right :
    EnumRight source [] plainSpec ↔ ¬ OverEnum source [] plainSpec := enumRight_iff derived_plain

/-- The front end does not return from a source with such a type. -/
theorem enum_over_enum :
    validateTypespecEnum source [] plainSpec = .ok (.enum 1 [(⟨[97], 13⟩, 0)] .u8) ∧
      typeSymtabInsert [] ⟨[101], 5⟩ (.enum 1 [(⟨[97], 13⟩, 0)] .u8) = .ok enumTable ∧
      typespecAppearsEnum source typedSpec = true ∧ ¬ EnumRight source enumTable typedSpec ∧
      frontEnd source = none := by
  refine ⟨by rfl, by rfl, by decide, fun h => h.1 (by rfl), by decide +kernel⟩

end Quaint.Enumerations
