import Quaint.Validate
import Quaint.Program

/-!
What `ast_build` leaves behind.

Every type it accepts is well-formed. A tree it returns without a complaint is complete, and one
that comes with complaints still has the shape the later passes ask for: no cast is left among
the other binary operations, and the label of a wait is complete.
-/

namespace Quaint.Building

open Types Ast TypeCheck TRes Lex Parse Derivation Validate Program

/-! ### Rules -/

section Rules

variable {α β γ : Type} {P Q : α → Prop} {P' Q' : β → Prop} {P'' Q'' : γ → Prop}

/-- What is returned is good, and a rejection comes with a complaint. -/
def Yields (P : α → Prop) : TRes α → Prop
  | .ok a => P a
  | .invalid ms => ms ≠ []
  | .crash => True

lemma Yields.bind {r : TRes α} {f : α → TRes β} (hr : Yields P r) (hf : ∀ a, P a → Yields P' (f a)) :
    Yields P' (r.bind f) := by
  cases r with
  | ok a => exact hf a hr
  | invalid ms => exact hr
  | crash => trivial

lemma Yields.require {c : Bool} {m : String} {r : TRes α} (hr : c = true → Yields P r) :
    Yields P (require c m r) := by
  cases c with
  | false => exact List.cons_ne_nil _ _
  | true => exact hr rfl

lemma yields_complaint {m : String} : Yields P (.invalid [m]) := List.cons_ne_nil _ _

lemma Yields.complains {r : TRes α} (hr : Yields P r) : Yields (fun _ => True) r := by
  cases r with
  | ok | crash => trivial
  | invalid ms => exact hr

/-- What is built has a shape, and it is good if there is no complaint. -/
def Gives (P Q : α → Prop) (r : Built α) : Prop := ∀ a ms, r = some (a, ms) → P a ∧ (ms = [] → Q a)

lemma gives_none : Gives P Q (none : Built α) := nofun

lemma gives_complaint {a : α} {m : String} (h : P a) : Gives P Q (some (a, [m])) := by
  intro a' ms heq
  cases heq
  exact ⟨h, nofun⟩

lemma gives_pure {a : α} (h : P a) (hq : Q a) : Gives P Q (some (a, [])) := by
  intro a' ms heq
  cases heq
  exact ⟨h, fun _ => hq⟩

lemma Gives.complaints {r : TRes β} {a : α} {ms : List String} (hr : Yields P' r)
    (hms : r = .invalid ms) (h : P a) : Gives P Q (some (a, ms)) := by
  intro a' ms' heq
  cases heq
  rw [hms] at hr
  exact ⟨h, fun hnil => absurd hnil hr⟩

lemma Gives.step {r : Built α} {stop : α → β} {go : α → Built β} (hr : Gives P Q r)
    (hstop : ∀ a, P a → P' (stop a)) (hgo : ∀ a, P a → Q a → Gives P' Q' (go a)) :
    Gives P' Q' (r.step stop go) := by
  intro b ms h
  simp only [Built.step, Option.bind_eq_some_iff] at h
  obtain ⟨⟨a, ns⟩, hra, h⟩ := h
  obtain ⟨hP, hQ⟩ := hr a ns hra
  split at h
  · rename_i hns
    exact hgo a hP (hQ (List.isEmpty_iff.mp hns)) b ms h
  · rename_i hns
    cases h
    exact ⟨hstop a hP, fun hms => absurd (List.isEmpty_iff.mpr hms) hns⟩

lemma Gives.last {r : Built α} {f : α → β} (hr : Gives P Q r) (hP : ∀ a, P a → P' (f a))
    (hQ : ∀ a, P a → Q a → Q' (f a)) : Gives P' Q' (r.last f) := by
  intro b ms h
  simp only [Built.last, Option.map_eq_some_iff] at h
  obtain ⟨⟨a, ns⟩, hra, h⟩ := h
  cases h
  obtain ⟨hPa, hQa⟩ := hr a ns hra
  exact ⟨hP a hPa, fun hns => hQ a hPa (hQa hns)⟩

lemma Gives.both {r : Built α} {s : Built β} {f : α → β → γ} (hr : Gives P Q r) (hs : Gives P' Q' s)
    (hP : ∀ a b, P a → P' b → P'' (f a b)) (hQ : ∀ a b, Q a → Q' b → Q'' (f a b)) :
    Gives P'' Q'' (r.both s f) := by
  intro c ms h
  simp only [Built.both, Option.bind_eq_some_iff, Option.map_eq_some_iff] at h
  obtain ⟨⟨a, ns⟩, hra, ⟨b, ks⟩, hsb, h⟩ := h
  cases h
  obtain ⟨hPa, hQa⟩ := hr a ns hra
  obtain ⟨hPb, hQb⟩ := hs b ks hsb
  refine ⟨hP a b hPa hPb, fun h => ?_⟩
  obtain ⟨hns, hks⟩ := List.append_eq_nil_iff.mp h
  exact hQ a b (hQa hns) (hQb hks)

lemma gives_typed {r : TRes α} {f : Option α → β} (hr : Yields P r) (hP : ∀ c, P' (f c))
    (hQ : ∀ a, P a → Q' (f (some a))) : Gives P' Q' (Built.typed r f) := by
  intro b ms h
  cases r with
  | ok a =>
    cases h
    exact ⟨hP _, fun _ => hQ a hr⟩
  | invalid ns =>
    cases h
    exact ⟨hP _, fun hns => absurd hns hr⟩
  | crash => cases h

lemma Gives.imp {r : Built α} {R : α → Prop} (hr : Gives P Q r) (h : ∀ a, Q a → R a) : Gives P R r :=
  fun a ms heq => ⟨(hr a ms heq).1, fun hms => h a ((hr a ms heq).2 hms)⟩

lemma gives_bind {o : Option α} {f : α → Built β} (h : ∀ a, o = some a → Gives P' Q' (f a)) :
    Gives P' Q' (o.bind f) := by
  cases o with
  | none => exact gives_none
  | some a => exact h a rfl

end Rules

/-! ### Types -/

section Types

variable {src : List UInt8} {symtab : List (Sym × Ty)} {V : Prop}

/-- Every type of the symbol table is valid. -/
def SymtabValid (symtab : List (Sym × Ty)) : Prop := ∀ e ∈ symtab, e.2.valid = true

lemma typeSymtabFind_valid {s : Sym} {t : Ty} (hs : SymtabValid symtab)
    (h : typeSymtabFind symtab s = some t) : t.valid = true := by
  rw [typeSymtabFind, Option.map_eq_some_iff] at h
  obtain ⟨e, he, rfl⟩ := h
  exact hs e (List.mem_of_find?_eq_some he)

lemma nmbrToUint_lt (text : List UInt8) : nmbrToUint text < 2 ^ 64 := by
  unfold nmbrToUint
  cases text with
  | nil => exact Nat.two_pow_pos 64
  | cons c text => exact Nat.mod_lt _ (Nat.two_pow_pos 64)

lemma setCount_valid {t : Ty} {n : Nat} (ht : t.valid = true) (hn : n < 2 ^ 64) :
    (t.setCount n).valid = true := by
  cases t <;> simp_all [Ty.setCount, Ty.valid]

/-- A type that is valid on some condition, such as the validity of the symbol table. -/
def ValidIf (V : Prop) (t : Ty) : Prop := V → t.valid = true

lemma nameType_valid {complaint : TypeT → String} {count : Nat} {name : Sym} (hc : count < 2 ^ 64) :
    Yields (ValidIf (SymtabValid symtab)) (nameType symtab complaint count name) := by
  unfold nameType
  split
  · unfold resolveType
    split
    · exact yields_complaint
    · rename_i found hfound
      exact fun hs => setCount_valid (typeSymtabFind_valid hs hfound) hc
  · exact fun _ => by simpa [Ty.valid] using hc
  · split
    · exact fun _ => by simpa [Ty.valid] using hc
    · exact yields_complaint

lemma arrayHead_lt {t n : PNode} : Yields (·.2 < 2 ^ 64) (arrayHead src t n) := by
  unfold arrayHead
  split
  · exact yields_complaint
  · split
    · exact yields_complaint
    · exact nmbrToUint_lt _

lemma typeHead_lt {left : PNode} : Yields (·.2.1 < 2 ^ 64) (typeHead src left) := by
  unfold typeHead
  split
  · exact arrayHead_lt.bind fun _ h => h
  · split
    · simp [Yields]
    · exact yields_complaint

lemma fptrHead_lt {left : PNode} : Yields (· < 2 ^ 64) (fptrHead src left) := by
  refine typeHead_lt.bind fun head hhead => ?_
  split
  · exact hhead
  · exact yields_complaint
  · exact yields_complaint

/-- Name-type pairs of which there is at least one. -/
structure PairsValid (V : Prop) (ps : Fields) : Prop where
  nonempty : ps.nonempty = true
  valid : V → ps.valid = true

structure DistinctPairs (V : Prop) (ps : Fields) : Prop extends PairsValid V ps where
  distinct : namesDistinct ps.names = true

lemma distinctPairs_valid {r : TRes Fields} (hr : Yields (PairsValid V) r) :
    Yields (DistinctPairs V) (distinctPairs r) :=
  hr.bind fun _ hps => Yields.require fun hd => ⟨hps, hd⟩

lemma pairOf_valid {left : PNode} {op : Token} {type : TRes Ty} (ht : Yields (ValidIf V) type) :
    Yields (fun p => ValidIf V p.2) (pairOf src left op type) := by
  refine Yields.require fun _ => ?_
  split
  · exact yields_complaint
  · exact ht.bind fun _ h => h

lemma fexpType_valid {head : Sym × Nat × Bool} {s : Option (TRes Ty)} {ps : Option (TRes Fields)}
    (hhead : head.2.1 < 2 ^ 64) (hs : ∀ r, s = some r → Yields (ValidIf V) r)
    (hps : ∀ r, ps = some r → Yields (PairsValid V) r) :
    Yields (ValidIf V) (fexpType head s ps) := by
  have pairs : ∀ r, ps = some r → Yields (DistinctPairs V) (distinctPairs r) :=
    fun r hr => distinctPairs_valid (hps r hr)
  unfold fexpType
  split
  · cases s with
    | none => exact yields_complaint
    | some s =>
      exact (hs s rfl).bind fun t ht hv => by
        rw [Ty.valid, decide_eq_true hhead, ht hv]
        rfl
  · cases s with
    | none =>
      exact fun _ => by
        rw [Ty.valid, decide_eq_true hhead]
        rfl
    | some s =>
      exact (hs s rfl).bind fun t ht hv => by
        rw [Ty.valid, decide_eq_true hhead, ht hv]
        rfl
  · cases ps with
    | none =>
      exact fun _ => by
        rw [Ty.valid, decide_eq_true hhead]
        rfl
    | some r =>
      exact (pairs r rfl).bind fun ps h hv => by
        rw [Ty.valid, decide_eq_true hhead, h.valid hv, h.distinct]
        rfl
  · cases ps with
    | none => exact yields_complaint
    | some r =>
      exact (pairs r rfl).bind fun ps h hv => by
        rw [Ty.valid, decide_eq_true hhead, h.nonempty, h.valid hv, h.distinct]
        rfl
  · cases ps with
    | none => exact yields_complaint
    | some r =>
      exact (pairs r rfl).bind fun ps h hv => by
        rw [Ty.valid, decide_eq_true hhead, h.nonempty, h.valid hv, h.distinct]
        rfl
  all_goals exact yields_complaint

lemma typespec_valid_all :
    (∀ n, Yields (ValidIf (SymtabValid symtab)) (validateTypespec src symtab n)) ∧
      (∀ n, Yields (PairsValid (SymtabValid symtab)) (pairsLoop src symtab n)) ∧
      ∀ n, Yields (fun p => ValidIf (SymtabValid symtab) p.2) (validatePair src symtab n) := by
  apply validateTypespec.mutual_induct
  case case1 =>
    intro c ih
    rw [validateTypespec]
    exact ih
  case case2 =>
    intro t ht
    rw [validateTypespec, if_pos ht]
    exact nameType_valid (by decide)
  case case3 =>
    intro t ht
    rw [validateTypespec, if_neg ht]
    exact yields_complaint
  case case4 =>
    intro left _ right _ hty hps
    rw [validateTypespec]
    refine typeHead_lt.bind fun head hhead => fexpType_valid hhead ?_ ?_
    · rintro r ⟨⟩
      exact hty
    · rintro r ⟨⟩
      exact hps
  case case5 =>
    intro left _ _
    rw [validateTypespec]
    exact typeHead_lt.bind fun head hhead => fexpType_valid hhead nofun nofun
  case case6 =>
    intro t _ n _
    rw [validateTypespec]
    exact arrayHead_lt.bind fun h hlt => nameType_valid hlt
  case case7 =>
    intro left op right ih
    split at ih
    · rw [validateTypespec]
      refine Yields.require fun _ => fptrHead_lt.bind fun count hc => ?_
      refine (distinctPairs_valid ih.1).bind fun ps hps => ih.2.bind fun rt hrt hv => ?_
      rw [Ty.valid, decide_eq_true hc, hps.valid hv, hps.distinct, RetTy.valid, hrt hv]
      rfl
    · rw [validateTypespec]
      refine Yields.require fun _ => fptrHead_lt.bind fun count hc => ?_
      refine Yields.bind ih fun rt hrt hv => ?_
      rw [Ty.valid, decide_eq_true hc, RetTy.valid, hrt hv]
      rfl
    · rename_i h1 h2
      rw [validateTypespec]
      · exact Yields.require fun _ => yields_complaint
      · exact h1
      · exact h2
  case case8 =>
    intro t
    rw [validateTypespec]
    trivial
  case case9 =>
    intro nt cs h1 h2 h3 h4 h5 h6
    rw [validateTypespec] <;> first | assumption | exact yields_complaint
  case case10 =>
    intro left op right hop hl hr
    rw [pairsLoop, if_pos hop]
    refine hl.bind fun p hp => hr.bind fun ps hps => ⟨rfl, fun hv => ?_⟩
    simp [Fields.valid, hp hv, hps.valid hv]
  case case11 =>
    intro left op right hop hr
    rw [pairsLoop, if_neg hop]
    refine (pairOf_valid hr).bind fun p hp => ⟨rfl, fun hv => ?_⟩
    simp [Fields.valid, hp hv]
  case case12 =>
    intro n hn
    rw [pairsLoop]
    · exact yields_complaint
    · exact hn
  case case13 =>
    intro left op right hr
    rw [validatePair]
    exact pairOf_valid hr
  case case14 =>
    intro n hn
    rw [validatePair]
    · exact yields_complaint
    · exact hn

/-- What `validate_typespec` accepts is well-formed if the symbol table is. -/
theorem validateTypespec_valid (n : PNode) :
    Yields (ValidIf (SymtabValid symtab)) (validateTypespec src symtab n) := typespec_valid_all.1 n

lemma validateNameTypePairs_valid (n : PNode) :
    Yields (DistinctPairs (SymtabValid symtab)) (validateNameTypePairs src symtab n) :=
  distinctPairs_valid (typespec_valid_all.2.1 n)

/-! ### Enumerations -/

lemma enumNames_nonempty (n : PNode) : Yields (· ≠ []) (enumNames src n) := by
  induction n using enumNames.induct src with
  | case1 left op right hop name hname ih =>
    rw [enumNames, if_pos hop, hname]
    exact ih.bind fun _ _ => List.cons_ne_nil _ _
  | case2 left op right hop hname =>
    rw [enumNames, if_pos hop, hname]
    exact yields_complaint
  | case3 left op right hop =>
    rw [enumNames, if_neg hop]
    exact yields_complaint
  | case4 n name hn hname =>
    rw [enumNames]
    · rw [hname]
      exact List.cons_ne_nil _ _
    · exact hn
  | case5 n hn hname =>
    rw [enumNames]
    · rw [hname]
      exact yields_complaint
    · exact hn

/-- The type of the values holds all of them, as far as a number of 64 bits counts them. -/
lemma enumType_holds {tEnum : Option TypeT} {maxValue : Nat}
    (ht : ∀ t, tEnum = some t → typeIsUnsigned t = true) :
    Yields (fun k => typeIsUnsigned k.t = true ∧ (maxValue < 2 ^ 64 → maxValue < 256 ^ k.size))
      (enumType tEnum maxValue) := by
  cases tEnum with
  | none =>
    simp only [enumType, Yields, enumTypeFromMaxval]
    split
    · exact ⟨rfl, fun _ => by simp [IntT.size]; omega⟩
    · split
      · exact ⟨rfl, fun _ => by simp [IntT.size]; omega⟩
      · split
        · exact ⟨rfl, fun _ => by simp [IntT.size]; omega⟩
        · exact ⟨rfl, fun hmax => by simpa [IntT.size] using hmax⟩
  | some t =>
    simp only [enumType]
    split
    · trivial
    · rename_i k boundary hk
      refine Yields.require fun hle => ?_
      simp only [decide_eq_true_eq] at hle
      cases t <;> simp only [intOf, Option.bind_some, Option.bind_none, enumBoundaryFromType,
        Option.map_some, Option.map_none, Option.some.injEq, Prod.mk.injEq, reduceCtorEq] at hk <;>
        obtain ⟨rfl, rfl⟩ := hk <;> exact ⟨rfl, fun _ => by simp [IntT.size]; omega⟩

/-- An enumeration, valid if its values can be counted. -/
def EnumValid (t : Ty) : Prop :=
  ∃ values k, t = .enum 1 values k ∧ (values.length ≤ 2 ^ 64 → t.valid = true)

lemma enumFromFexp_valid {tEnum : Option TypeT} {n : PNode}
    (ht : ∀ t, tEnum = some t → typeIsUnsigned t = true) :
    Yields EnumValid (enumFromFexp src tEnum n) := by
  unfold enumFromFexp
  split
  · refine (enumNames_nonempty _).bind fun names hne => Yields.require fun hd => ?_
    refine (enumType_holds ht).bind fun k hk => ⟨_, _, rfl, fun hlen => ?_⟩
    have hlen' : (names.zip (List.range names.length)).length = names.length := by simp
    have hpos : 0 < names.length := List.length_pos_iff.mpr hne
    rw [hlen'] at hlen
    have hfit := hk.2 (by omega)
    have hfst : (names.zip (List.range names.length)).map Prod.fst = names :=
      List.map_fst_zip (by simp)
    have hsnd : (names.zip (List.range names.length)).map Prod.snd = List.range names.length :=
      List.map_snd_zip (by simp)
    simp only [Ty.valid, valuesValid, hlen', hfst, hsnd, hd, hk.1, Bool.and_eq_true, decide_eq_true_eq,
      Bool.not_eq_true', List.isEmpty_eq_false_iff, beq_self_eq_true, and_true]
    refine ⟨by decide, ?_, by omega⟩
    intro hnil
    rw [hnil] at hlen'
    simp at hlen'
    omega
  · exact yields_complaint

lemma validateTypespecEnum_valid (n : PNode) :
    Yields EnumValid (validateTypespecEnum src symtab n) := by
  unfold validateTypespecEnum
  split
  · refine (validateTypespec_valid _).bind fun explicit _ => Yields.require fun hu => ?_
    refine enumFromFexp_valid ?_
    rintro t ⟨⟩
    simp only [Bool.and_eq_true] at hu
    exact hu.2
  · exact enumFromFexp_valid nofun
  · trivial

end Types

/-! ### Expressions -/

mutual
/-- No cast is left among the other binary operations. -/
def exprShaped : Expr → Bool
  | .bexp _ op l r => op != .cast && op != .coln && exprShaped l && exprShaped r
  | .cast e _ | .uexp _ e | .xexp _ e => exprShaped e
  | .fexp l args => exprShaped l && argsShaped args
  | .aexp b o => exprShaped b && exprShaped o
  | .texp c t f => exprShaped c && exprShaped t && exprShaped f
  | _ => true
def argsShaped : Args → Bool
  | .nil => true
  | .cons a rest => exprShaped a && argsShaped rest
end

mutual
/-- No child is missing. -/
def exprWhole : Expr → Bool
  | .absent | .void => false
  | .bexp _ _ l r => exprWhole l && exprWhole r
  | .cast l c => exprWhole l && c.isSome
  | .uexp _ e | .xexp _ e => exprWhole e
  | .szof _ spec => spec.isSome
  | .fexp l args => exprWhole l && argsWhole args
  | .aexp b o => exprWhole b && exprWhole o
  | .texp c t f => exprWhole c && exprWhole t && exprWhole f
  | .name _ | .nmbr _ | .strl _ => true
def argsWhole : Args → Bool
  | .nil => true
  | .cons a rest => exprWhole a && argsWhole rest
end

/-- An expression as `validate_expr` leaves it. -/
abbrev GivesExpr (r : Built Expr) : Prop := Gives (exprShaped · = true) (exprWhole · = true) r

section Exprs

variable {src : List UInt8} {symtab : List (Sym × Ty)}

lemma argsOf_shaped (e : Expr) (h : exprShaped e = true) : argsShaped (argsOf e) = true := by
  induction e using argsOf.induct with
  | case1 => rfl
  | case2 ltok l r ih =>
    simp only [exprShaped, Bool.and_eq_true] at h
    simp [argsOf, argsShaped, h.1.2, ih h.2]
  | case3 e h1 h2 =>
    rw [argsOf]
    · simp [argsShaped, h]
    · exact h1
    · exact h2

lemma argsOf_whole (e : Expr) (h : exprWhole e = true) : argsWhole (argsOf e) = true := by
  induction e using argsOf.induct with
  | case1 => cases h
  | case2 ltok l r ih =>
    simp only [exprWhole, Bool.and_eq_true] at h
    simp [argsOf, argsWhole, h.1, ih h.2]
  | case3 e h1 h2 =>
    rw [argsOf]
    · simp [argsWhole, h]
    · exact h1
    · exact h2

lemma atomExpr_whole {t : Token} {e : Expr} (h : atomExpr src t = some e) :
    exprShaped e = true ∧ exprWhole e = true := by
  unfold atomExpr at h
  split at h <;> cases h <;> exact ⟨rfl, rfl⟩

/-- **What `validate_expr` leaves behind**: a tree of the right shape, and a complete one if there is
no complaint. -/
theorem validateExpr_gives (n : PNode) : GivesExpr (validateExpr src symtab n) := by
  induction n using validateExpr.induct with
  | case1 c ih =>
    rw [validateExpr]
    exact ih
  | case2 _ c _ ih =>
    rw [validateExpr]
    exact ih
  | case3 cs =>
    rw [validateExpr]
    exact gives_complaint rfl
  | case4 l op r ihl ihr =>
    rw [validateExpr]
    refine gives_bind fun bop _ => ?_
    split
    · refine ihl.step (fun l' hl => hl) fun l' hl hw => ?_
      refine gives_typed (validateTypespec_valid r) (fun _ => hl) fun t _ => ?_
      simp [exprWhole, hw]
    · rename_i hop
      have hop' : bop ≠ .cast ∧ bop ≠ .coln := not_or.mp hop
      refine ihl.step (fun l' hl => ?_) fun l' hl hw => ?_
      · simp [exprShaped, hop', hl]
      · refine ihr.last (fun r' hr => ?_) fun r' _ hwr => ?_
        · simp [exprShaped, hop', hl, hr]
        · simp [exprWhole, hw, hwr]
  | case5 op r hop =>
    rw [validateExpr, if_pos hop]
    exact gives_typed (validateTypespec_valid r) (fun _ => rfl) fun _ _ => rfl
  | case6 op r hop ih =>
    rw [validateExpr, if_neg hop]
    exact gives_bind fun uop _ => ih.last (fun _ h => h) fun _ _ h => h
  | case7 l _ r _ ihl ihr =>
    rw [validateExpr]
    refine ihl.step (fun l' hl => ?_) fun l' hl hw => ihr.last (fun r' hr => ?_) fun r' _ hwr => ?_
    · simp [exprShaped, argsShaped, hl]
    · simp [exprShaped, hl, argsOf_shaped r' hr]
    · simp [exprWhole, hw, argsOf_whole r' hwr]
  | case8 l _ _ ih =>
    rw [validateExpr]
    refine ih.last (fun l' hl => ?_) fun l' _ hw => ?_
    · simp [exprShaped, argsShaped, hl]
    · simp [exprWhole, argsWhole, hw]
  | case9 l op ih =>
    rw [validateExpr]
    exact gives_bind fun xop _ => ih.last (fun _ h => h) fun _ _ h => h
  | case10 b _ o _ ihb iho =>
    rw [validateExpr]
    refine ihb.step (fun b' hb => ?_) fun b' hb hw => iho.last (fun o' ho => ?_) fun o' _ hwo => ?_
    · simp [exprShaped, hb]
    · simp [exprShaped, hb, ho]
    · simp [exprWhole, hw, hwo]
  | case11 c _ t _ f ihc iht ihf =>
    rw [validateExpr]
    refine ihc.step (fun c' hc => ?_) fun c' hc hwc => iht.step (fun t' ht => ?_) fun t' ht hwt =>
      ihf.last (fun f' hf => ?_) fun f' _ hwf => ?_
    · simp [exprShaped, hc]
    · simp [exprShaped, hc, ht]
    · simp [exprShaped, hc, ht, hf]
    · simp [exprWhole, hwc, hwt, hwf]
  | case12 t =>
    rw [validateExpr]
    intro e ms h
    simp only [Option.map_eq_some_iff, Prod.mk.injEq] at h
    obtain ⟨e', he, rfl, rfl⟩ := h
    exact ⟨(atomExpr_whole he).1, fun _ => (atomExpr_whole he).2⟩
  | case13 n h1 h2 h3 h4 h5 h6 h7 h8 h9 h10 h11 =>
    rw [validateExpr] <;> first | assumption | exact gives_none

end Exprs

/-! ### Statements -/

/-- An expression that may be left out. -/
def optWhole : Expr → Bool
  | .absent => true
  | e => exprWhole e

@[simp] lemma optWhole_absent : optWhole .absent = true := rfl

lemma optWhole_of_whole {e : Expr} (h : exprWhole e = true) : optWhole e = true := by
  cases e <;> first | exact h | rfl

mutual
/-- The expressions have their shape, and the label of a wait is complete. -/
def stmtShaped : Stmt → Bool
  | .decl d => exprShaped d.initExpr
  | .cond e b rest => exprShaped e && stmtsShaped b && elifsShaped rest
  | .blok b | .noin b => stmtsShaped b
  | .whil e b | .dowh b e => exprShaped e && stmtsShaped b
  | .retn e =>
    match e with
    | some e => exprShaped e
    | none => true
  | .wait q f u _ _ => exprShaped q && exprShaped f && optWhole u
  | .expr e => exprShaped e
  | _ => true
def stmtsShaped : Stmts → Bool
  | .nil => true
  | .cons s rest => stmtShaped s && stmtsShaped rest
def elifsShaped : Elifs → Bool
  | .none => true
  | .els b => stmtsShaped b
  | .elif e b rest => exprShaped e && stmtsShaped b && elifsShaped rest
end

mutual
/-- Nothing is missing. -/
def stmtWhole : Stmt → Bool
  | .absent | .void => false
  | .decl d => optWhole d.initExpr
  | .cond e b rest => exprWhole e && stmtsWhole b && elifsWhole rest
  | .blok b | .noin b => stmtsWhole b
  | .whil e b | .dowh b e => exprWhole e && stmtsWhole b
  | .retn e =>
    match e with
    | some e => exprWhole e
    | none => true
  | .wait q f u _ _ => exprWhole q && optWhole f && optWhole u
  | .wlab _ => true
  | .expr e => exprWhole e
def stmtsWhole : Stmts → Bool
  | .nil => true
  | .cons s rest => stmtWhole s && stmtsWhole rest
def elifsWhole : Elifs → Bool
  | .none => true
  | .els b => stmtsWhole b
  | .elif e b rest => exprWhole e && stmtsWhole b && elifsWhole rest
end

def topShaped : Top → Bool
  | .decl d => exprShaped d.initExpr
  | .func f => stmtsShaped f.stmts
  | .expr e => exprShaped e
  | _ => true

def topWhole : Top → Bool
  | .absent | .void => false
  | .useu | .type => true
  | .decl d => optWhole d.initExpr
  | .func f => stmtsWhole f.stmts
  | .expr e => exprWhole e

def UnitShaped (u : Ast.Unit) : Prop := ∀ s ∈ u.stmts, topShaped s = true

def UnitWhole (u : Ast.Unit) : Prop := ∀ s ∈ u.stmts, topWhole s = true

abbrev GivesTop (r : Built Top) : Prop := Gives (topShaped · = true) (topWhole · = true) r

/-- A statement of the unit, beside the symbol table. -/
abbrev GivesTopOf (r : Built (Top × List (Sym × Ty))) : Prop :=
  Gives (topShaped ·.1 = true) (topWhole ·.1 = true) r

abbrev GivesStmt (r : Built Stmt) : Prop := Gives (stmtShaped · = true) (stmtWhole · = true) r

/-- What is left in the unit of a statement that may stand in it is complete with the statement. -/
def DeclOrExprWhole (s : Stmt) : Prop := stmtWhole s = true ∧ topWhole (topOf s) = true

section Stmts

variable {src : List UInt8} {symtab : List (Sym × Ty)}

lemma exprStmt_shaped {e : Expr} (h : exprShaped e = true) : stmtShaped (exprStmt e) = true := by
  cases e <;> exact h

lemma exprStmt_whole {e : Expr} (h : exprWhole e = true) : DeclOrExprWhole (exprStmt e) := by
  cases e <;> exact ⟨h, h⟩

lemma countDeclQualifiers_complains (unit : Bool) (q : Quals) (cs : List PNode) :
    Yields (fun _ => True) (countDeclQualifiers unit q cs) := by
  fun_induction countDeclQualifiers unit q cs with
  | case1 q t rest _ ih => exact Yields.require fun _ => ih
  | case2 q t rest _ ih => exact Yields.require fun _ => Yields.require fun _ => ih
  | case3 q t rest _ ih => exact Yields.require fun _ => Yields.require fun _ => ih
  | case4 | case5 | case6 => trivial

/-- The type of a declaration. -/
def DeclTyped : DeclOrExpr → Prop
  | .expr _ => True
  | .decl _ type _ => Yields (fun _ => True) type

lemma declEnd_typed {left right : PNode} {op : Token} {initExpr : Option PNode} :
    DeclTyped (declEnd src symtab left op right initExpr) := by
  unfold declEnd
  split
  · trivial
  · split
    · exact (validateTypespec_valid right).complains
    · trivial

lemma declLoop_typed (n : PNode) : DeclTyped (declLoop src symtab n) := by
  fun_induction declLoop src symtab n with
  | case1 => exact declEnd_typed
  | case2 | case3 | case4 | case6 | case8 => trivial
  | case5 left op right _ _ _ _ _ _ _ heq ih =>
    rw [heq] at ih
    exact ih
  | case7 => exact declEnd_typed

lemma validateDecl_gives {q : Quals} {names : List Sym} {type : TRes Ty} {initExpr : Option PNode}
    (ht : Yields (fun _ => True) type) :
    Gives (stmtShaped · = true) DeclOrExprWhole (validateDecl src symtab q names type initExpr) := by
  unfold validateDecl
  split
  · exact gives_none
  · rename_i ms
    exact Gives.complaints ht rfl rfl
  · split
    · split
      · exact gives_pure rfl ⟨rfl, rfl⟩
      · refine (validateExpr_gives _).step (fun _ _ => rfl) fun e' he hw => ?_
        exact gives_pure he ⟨optWhole_of_whole hw, optWhole_of_whole hw⟩
    · exact gives_complaint rfl

lemma validateDeclOrExpr_gives {unit : Bool} {cs : List PNode} :
    Gives (stmtShaped · = true) DeclOrExprWhole (validateDeclOrExpr src symtab unit cs) := by
  unfold validateDeclOrExpr
  split
  · exact gives_none
  · rename_i ms heq
    exact Gives.complaints (countDeclQualifiers_complains _ _ _) heq rfl
  · rename_i q child _
    have hd : DeclTyped (declLoop src symtab child) := declLoop_typed child
    split
    · rename_i heq
      rw [heq] at hd
      exact validateDecl_gives hd
    · split
      · exact gives_complaint rfl
      · exact (validateExpr_gives _).last (fun _ => exprStmt_shaped) fun _ _ => exprStmt_whole

lemma validateRetn_gives {cs : List PNode} : GivesStmt (validateRetn src symtab cs) := by
  unfold validateRetn
  split
  · refine (validateExpr_gives _).step (fun _ _ => rfl) fun e' he hw => ?_
    exact gives_pure he hw
  · exact gives_pure rfl rfl

lemma validateWait_gives {cs : List PNode} : GivesStmt (validateWait src symtab cs) := by
  unfold validateWait
  split
  · refine (validateExpr_gives _).step (fun _ _ => rfl) fun q' hq hwq => ?_
    split
    · exact gives_pure (by simp [stmtShaped, hq, exprShaped]) (by simp [stmtWhole, hwq])
    · exact gives_pure (by simp [stmtShaped, hq, exprShaped]) (by simp [stmtWhole, hwq])
    · split
      · refine (validateExpr_gives _).step (fun _ _ => rfl) fun e' he hw => ?_
        exact gives_pure (by simp [stmtShaped, hq, he]) (by simp [stmtWhole, hwq, optWhole_of_whole hw])
      · refine (validateExpr_gives _).step (fun _ _ => rfl) fun e' _ hw => ?_
        exact gives_pure (by simp [stmtShaped, hq, exprShaped, optWhole_of_whole hw])
          (by simp [stmtWhole, hwq, optWhole_of_whole hw])
    · exact gives_none
  · exact gives_none

lemma validateWlab_gives {cs : List PNode} : GivesStmt (validateWlab src cs) := by
  unfold validateWlab
  split
  · split
    · exact gives_complaint rfl
    · exact gives_pure rfl rfl
  · exact gives_none

lemma tokenStmt_gives {t : Token} {rest : List PNode} {block noint : Built Stmts}
    (hb : Gives (stmtsShaped · = true) (stmtsWhole · = true) block)
    (hn : Gives (stmtsShaped · = true) (stmtsWhole · = true) noint) :
    GivesStmt (tokenStmt src symtab t rest block noint) := by
  unfold tokenStmt
  split
  · exact gives_complaint rfl
  · exact gives_complaint rfl
  · exact gives_complaint rfl
  · exact validateWait_gives
  · exact validateRetn_gives
  · exact validateWlab_gives
  · exact hb.last (fun _ h => h) fun _ _ h => h
  · exact hn.last (fun _ h => h) fun _ _ h => h
  · exact gives_none

/-- An expression and the block it is about. -/
lemma guarded_gives {e : PNode} {block : Built Stmts}
    (hb : Gives (stmtsShaped · = true) (stmtsWhole · = true) block) :
    Gives (fun p : Expr × Stmts => exprShaped p.1 = true ∧ stmtsShaped p.2 = true)
      (fun p => exprWhole p.1 = true ∧ stmtsWhole p.2 = true)
      ((validateExpr src symtab e).both block Prod.mk) :=
  (validateExpr_gives e).both hb (fun _ _ he hb => ⟨he, hb⟩) fun _ _ he hb => ⟨he, hb⟩

lemma stmts_gives :
    (∀ n, GivesStmt (validateStmt src symtab n)) ∧
      (∀ ns, Gives (elifsShaped · = true) (elifsWhole · = true) (validateElifs src symtab ns)) ∧
      ∀ ns, Gives (stmtsShaped · = true) (stmtsWhole · = true) (validateStmts src symtab ns) := by
  apply validateStmt.mutual_induct
  case case1 =>
    intro t n rest ihb ihn
    rw [validateStmt]
    exact tokenStmt_gives ihb ihn
  case case2 =>
    intro _ e _ block rest ihb ihr
    rw [validateStmt]
    refine (guarded_gives ihb).both ihr (fun p rest' hp hr => ?_) fun p rest' hp hr => ?_
    · simp [stmtShaped, hp, hr]
    · simp [stmtWhole, hp, hr]
  case case3 =>
    intro _ e _ block ih
    rw [validateStmt]
    refine (validateExpr_gives e).both ih (fun e' b' he hb => ?_) fun e' b' he hb => ?_
    · simp [stmtShaped, he, hb]
    · simp [stmtWhole, he, hb]
  case case4 =>
    intro _ _ block _ e _ hrev ih
    rw [validateStmt, hrev]
    refine ih.both (validateExpr_gives e) (fun b' e' hb he => ?_) fun b' e' hb he => ?_
    · simp [stmtShaped, he, hb]
    · simp [stmtWhole, he, hb]
  case case5 =>
    intro _ _ block hrev
    rw [validateStmt]
    split
    · rename_i heq
      exact absurd heq (hrev _ _ _)
    · exact gives_none
  case case6 =>
    intro cs
    rw [validateStmt]
    exact gives_complaint rfl
  case case7 =>
    intro cs h1 h2 h3 h4 h5
    rw [validateStmt] <;> first | assumption | exact validateDeclOrExpr_gives.imp fun _ h => h.1
  case case8 =>
    intro n h1 h2 h3 h4 h5 h6
    rw [validateStmt] <;> first | assumption | exact gives_none
  case case9 =>
    rw [validateElifs]
    exact gives_pure rfl rfl
  case case10 =>
    intro _ _ block ih
    rw [validateElifs]
    exact ih.last (fun _ h => h) fun _ _ h => h
  case case11 =>
    intro _ e _ block rest ihb ihr
    rw [validateElifs]
    refine (guarded_gives ihb).both ihr (fun p rest' hp hr => ?_) fun p rest' hp hr => ?_
    · simp [elifsShaped, hp, hr]
    · simp [elifsWhole, hp, hr]
  case case12 =>
    intro ns h1 h2 h3
    rw [validateElifs] <;> first | assumption | exact gives_none
  case case13 =>
    intro t rest
    rw [validateStmts]
    exact gives_pure rfl rfl
  case case14 =>
    intro s rest hs ih ihr
    rw [validateStmts]
    · refine ih.both ihr (fun s' rest' h hr => ?_) fun s' rest' h hr => ?_
      · simp [stmtsShaped, h, hr]
      · simp [stmtsWhole, h, hr]
    · exact hs
  case case15 =>
    rw [validateStmts]
    exact gives_none

end Stmts

/-! ### The unit -/

section Unit

variable {src : List UInt8} {symtab : List (Sym × Ty)}

lemma funcHead_complains {left : PNode} {params : Option PNode} :
    Yields (fun _ => True) (funcHead src symtab left params) := by
  unfold funcHead
  split
  · exact yields_complaint
  · split
    · trivial
    · exact (validateNameTypePairs_valid _).bind fun _ _ => trivial

lemma funcLeft_complains {left : PNode} : Yields (fun _ => True) (funcLeft src symtab left) := by
  unfold funcLeft
  split
  · trivial
  · split
    · exact funcHead_complains
    · exact funcHead_complains
    · exact yields_complaint

lemma funcSignature_complains {child : PNode} :
    Yields (fun _ => True) (funcSignature src symtab child) := by
  unfold funcSignature
  split
  · refine Yields.require fun _ => funcLeft_complains.bind fun _ _ => ?_
    exact (validateTypespec_valid _).bind fun _ _ => trivial
  · exact funcLeft_complains.bind fun _ _ => trivial

lemma funcQualifiers_complains (exposed : Bool) (cs : List PNode) :
    Yields (fun _ => True) (funcQualifiers exposed cs) := by
  fun_induction funcQualifiers exposed cs with
  | case1 | case2 => exact yields_complaint
  | case3 exposed t rest _ ih => exact Yields.require fun _ => ih
  | case4 | case5 => trivial

lemma validateFunc_gives {cs : List PNode} : GivesTop (validateFunc src symtab cs) := by
  unfold validateFunc
  split
  · exact gives_none
  · rename_i ms heq
    exact Gives.complaints (funcQualifiers_complains _ _) heq rfl
  · split
    · exact gives_none
    · rename_i ms heq
      exact Gives.complaints funcSignature_complains heq rfl
    · exact (stmts_gives.2.2 _).last (fun _ h => h) fun _ _ h => h
  · exact gives_none

lemma validateUseu_gives {cs : List PNode} : GivesTop (validateUseu cs) := by
  unfold validateUseu
  split
  · split
    · exact gives_complaint rfl
    · split
      · exact gives_complaint rfl
      · split
        · exact gives_complaint rfl
        · exact gives_pure rfl rfl
  · split
    · exact gives_pure rfl rfl
    · exact gives_complaint rfl
  · exact gives_none

lemma validateType_gives {bexp : PNode} : GivesTopOf (validateType src symtab bexp) := by
  unfold validateType
  split
  · split
    · exact gives_complaint rfl
    · split
      · exact gives_complaint rfl
      · refine gives_typed (P := fun _ => True) ?_ ?_ fun _ _ => rfl
        · refine Yields.bind (P := fun _ => True) ?_ fun _ _ => Yields.require fun _ => trivial
          split
          · exact (validateTypespecEnum_valid _).complains
          · exact (validateTypespec_valid _).complains
        · intro c
          cases c <;> rfl
  · exact gives_complaint rfl

lemma topOf_shaped {s : Stmt} (h : stmtShaped s = true) : topShaped (topOf s) = true := by
  cases s <;> first | exact h | rfl

lemma validateTop_gives (n : PNode) : GivesTopOf (validateTop src symtab n) := by
  unfold validateTop
  split
  · split
    · exact validateUseu_gives.last (fun _ h => h) fun _ _ h => h
    · split
      · exact validateType_gives
      · exact gives_none
    · split
      · exact validateType_gives
      · exact gives_none
    · exact gives_complaint rfl
    · exact gives_complaint rfl
    · exact gives_complaint rfl
    · exact gives_complaint rfl
    · exact gives_complaint rfl
    · exact gives_none
  · exact gives_complaint rfl
  · exact validateFunc_gives.last (fun _ h => h) fun _ _ h => h
  · exact validateDeclOrExpr_gives.last (fun _ => topOf_shaped) fun _ _ h => h.2
  · exact gives_none

lemma validateTops_gives (ns : List PNode) :
    Gives (fun p => ∀ s ∈ p.1, topShaped s = true) (fun p => ∀ s ∈ p.1, topWhole s = true)
      (validateTops src symtab ns) := by
  induction ns generalizing symtab with
  | nil => exact gives_none
  | cons n rest ih =>
    cases n with
    | leaf t => exact gives_pure nofun nofun
    | node nt cs =>
      intro p ms h
      simp only [validateTops, Option.bind_eq_some_iff, Option.map_eq_some_iff] at h
      obtain ⟨⟨s, ns⟩, hs, ⟨q, ks⟩, hq, h⟩ := h
      cases h
      obtain ⟨hshaped, hwhole⟩ := validateTop_gives _ s ns hs
      obtain ⟨hshapedAll, hwholeAll⟩ := ih q ks hq
      refine ⟨List.forall_mem_cons.mpr ⟨hshaped, hshapedAll⟩, fun hms => ?_⟩
      obtain ⟨hns, hks⟩ := List.append_eq_nil_iff.mp hms
      exact List.forall_mem_cons.mpr ⟨hwhole hns, hwholeAll hks⟩

/-- **What `ast_build` leaves behind**: a unit of the right shape, and a complete one if there is no
complaint. -/
theorem astBuild_gives (root : PNode) : Gives UnitShaped UnitWhole (astBuild src root) := by
  unfold astBuild
  split
  · exact (validateTops_gives _).last (fun _ h => h) fun _ _ h => h
  · exact gives_none

end Unit

end Quaint.Building
