import Mathlib
import Quaint.Validate

/-!
Number literals.

`nmbr_to_uint` adds up the digits from the right in 64 bits and never looks at a carry. What it
stores is the exact value modulo 2^64, and the type of the literal is chosen by that remainder.
-/

namespace Quaint.Literals

open Types Ast TypeCheck Lex Parse Validate

/-! ### The smallest type -/

/-- The types of number literals, which are also those of an enumeration without a type. -/
def literalTypes : List IntT := [.u8, .u16, .u32, .u64]

/-- A type that holds a number, and none of the list that holds it is smaller. -/
structure Smallest (n : Nat) (k : IntT) : Prop where
  listed : k ∈ literalTypes
  holds : n < 256 ^ k.size
  least : ∀ k' ∈ literalTypes, n < 256 ^ k'.size → k.size ≤ k'.size

/-- The comparisons of `type_from_nmbr` and of `enum_type_from_maxval`. -/
lemma smallest_of_lt {n : Nat} (hn : n < 2 ^ 64) : Smallest n (enumTypeFromMaxval n) := by
  unfold enumTypeFromMaxval
  split
  · exact ⟨by decide, by simp [IntT.size]; omega, by simp [literalTypes, IntT.size]⟩
  · split
    · refine ⟨by decide, by simp [IntT.size]; omega, ?_⟩
      simp only [literalTypes, List.forall_mem_cons, IntT.size]
      exact ⟨by omega, by omega, by omega, by omega, List.forall_mem_nil _⟩
    · split
      · refine ⟨by decide, by simp [IntT.size]; omega, ?_⟩
        simp only [literalTypes, List.forall_mem_cons, IntT.size]
        exact ⟨by omega, by omega, by omega, by omega, List.forall_mem_nil _⟩
      · refine ⟨by decide, by simpa [IntT.size] using hn, ?_⟩
        simp only [literalTypes, List.forall_mem_cons, IntT.size]
        exact ⟨by omega, by omega, by omega, by omega, List.forall_mem_nil _⟩

/-! ### The value -/

def digit (c : UInt8) : Nat := c.toNat - '0'.toNat

/-- The exact value of a string of digits. -/
def decimal (text : List UInt8) : Nat := Nat.ofDigits 10 (text.reverse.map digit)

lemma decimal_cons (c : UInt8) (text : List UInt8) :
    decimal (c :: text) = decimal text + 10 ^ text.length * digit c := by
  rw [decimal, List.reverse_cons, List.map_append, Nat.ofDigits_append]
  simp [decimal]

/-- The loop of `nmbr_to_uint`: the value of the digits seen so far, and the power of ten that the
next one counts for. -/
lemma nmbrLoop_eq (text : List UInt8) :
    text.foldr (fun c (r : Nat × Nat) => (wrap64 (r.1 + r.2 * digit c), wrap64 (r.2 * 10))) (0, 1) =
      (decimal text % 2 ^ 64, 10 ^ text.length % 2 ^ 64) := by
  induction text with
  | nil => rfl
  | cons c text ih =>
    have hmult : 10 ^ text.length % 2 ^ 64 ≡ 10 ^ text.length [MOD 2 ^ 64] := Nat.mod_modEq _ _
    rw [List.foldr_cons, ih, decimal_cons, List.length_cons, Nat.pow_succ 10]
    exact Prod.ext ((Nat.mod_modEq _ _).add (hmult.mul_right _)) (hmult.mul_right _)

theorem nmbrToUint_eq (text : List UInt8) : nmbrToUint text = decimal text % 2 ^ 64 :=
  congrArg Prod.fst (nmbrLoop_eq text)

/-! ### Literals -/

/-- A token that is a non-empty string of digits. -/
structure IsLiteral (src : List UInt8) (t : Token) : Prop where
  tk : t.tk = .nmbr
  nonempty : (symOf src t).text ≠ []
  digits : ∀ c ∈ (symOf src t).text, isDigit c = true

/-- The atom of the parser that holds a token. -/
def atomNode (t : Token) : PNode := .node .expr [.node .atom [.leaf t]]

/-- What is stored for a literal that is not rejected is its exact value, with the smallest type
that holds it. -/
def LiteralExact (src : List UInt8) (symtab : List (Sym × Ty)) (t : Token) : Prop :=
  ∀ e, validateExpr src symtab (atomNode t) = some (e, []) →
    e = .nmbr (decimal (symOf src t).text) ∧
      ∀ env te, typeFromExpr env e = .ok te →
        ∃ k, te = .nmbr (decimal (symOf src t).text) (.int k 1) ∧
          Smallest (decimal (symOf src t).text) k

lemma validateExpr_literal {src : List UInt8} {symtab : List (Sym × Ty)} {t : Token}
    (h : IsLiteral src t) : validateExpr src symtab (atomNode t) =
      some (.nmbr (decimal (symOf src t).text % 2 ^ 64), []) := by
  rw [atomNode, validateExpr, validateExpr, atomExpr, h.tk, nmbrToUint_eq]
  rfl

lemma typeFromExpr_nmbr (env : Env) (n : Nat) :
    typeFromExpr env (.nmbr n) = .ok (.nmbr n (.int (enumTypeFromMaxval n) 1)) := by
  rw [typeFromExpr]
  rfl

/-- **When a literal keeps its value**: exactly if the value is below 2^64. No literal is
rejected. -/
theorem literal_exact_iff {src : List UInt8} {symtab : List (Sym × Ty)} {t : Token}
    (h : IsLiteral src t) :
    LiteralExact src symtab t ↔ decimal (symOf src t).text < 2 ^ 64 := by
  rw [LiteralExact]
  constructor
  · intro hexact
    obtain ⟨heq, -⟩ := hexact _ (validateExpr_literal h)
    rw [← Expr.nmbr.inj heq]
    exact Nat.mod_lt _ (by decide)
  · rintro hlt e he
    rw [validateExpr_literal h, Nat.mod_eq_of_lt hlt] at he
    obtain rfl := (Prod.mk.inj (Option.some.inj he)).1
    refine ⟨rfl, fun env te hte => ⟨_, ?_, smallest_of_lt hlt⟩⟩
    rw [typeFromExpr_nmbr] at hte
    exact (TRes.ok.inj hte).symm

/-- The bytes of 18446744073709551615, the greatest value that is kept. -/
def greatestText : List UInt8 :=
  chars ['1', '8', '4', '4', '6', '7', '4', '4', '0', '7', '3', '7', '0', '9', '5', '5', '1', '6', '1', '5']

theorem literal_exact_greatest :
    LiteralExact greatestText [] ⟨.nmbr, 0, 20⟩ ↔
      decimal (symOf greatestText ⟨.nmbr, 0, 20⟩).text < 2 ^ 64 :=
  literal_exact_iff ⟨rfl, by decide, by decide +kernel⟩

/-- The bytes of 18446744073709551616, which is stored as zero. -/
def wrappedText : List UInt8 :=
  chars ['1', '8', '4', '4', '6', '7', '4', '4', '0', '7', '3', '7', '0', '9', '5', '5', '1', '6', '1', '6']

theorem literal_wraps :
    IsLiteral wrappedText ⟨.nmbr, 0, 20⟩ ∧
      validateExpr wrappedText [] (atomNode ⟨.nmbr, 0, 20⟩) = some (.nmbr 0, []) ∧
      decimal (symOf wrappedText ⟨.nmbr, 0, 20⟩).text = 18446744073709551616 ∧
      ¬ LiteralExact wrappedText [] ⟨.nmbr, 0, 20⟩ := by
  have hval : validateExpr wrappedText [] (atomNode ⟨.nmbr, 0, 20⟩) = some (.nmbr 0, []) := by rfl
  have hdec : decimal (symOf wrappedText ⟨.nmbr, 0, 20⟩).text = 18446744073709551616 := by decide
  refine ⟨⟨rfl, by decide, by decide +kernel⟩, hval, hdec, fun h => ?_⟩
  obtain ⟨heq, -⟩ := h _ hval
  rw [hdec] at heq
  cases heq

end Quaint.Literals
