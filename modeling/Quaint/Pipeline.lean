import Quaint.Formed
import Quaint.Munching
import Quaint.Cursors

/-!
`main`, up to the machine.

A source is read, parsed, turned into a tree and checked, and only what passes everything is given to the
code generator. So every object the machine is started with is that of an accepted program, whose names are
lexemes of the source.
-/

namespace Quaint.Pipeline

open Types Ast Scope TypeCheck Lex Parse Derivation Parsing Munching Validate Program Codegen Code Formed

/-- How `main` ends before it comes to `exec`, or the object it executes. -/
inductive Main
  | failure
  | crash
  | exec (o : Obj)

/-- The passes after `ast_build`: both of them run, whatever the other ones said. -/
def mainCheck (ast : Ast.Unit) (astError : Bool) : Main :=
  match typeCheckAst ast with
  | .ok tops =>
    if astError || scopeDuplicated ast then .failure
    else
      match codegenObjCreate tops with
      | .ok obj => .exec obj
      | .error _ => .crash
  | .invalid _ => .failure
  | .crash => .crash

/-- `main`, on what is in the file -/
def main (src : List UInt8) : Main :=
  if src.isEmpty then .failure
  else
    match lex src with
    | .ok tokens =>
      match parse tokens with
      | .ok root =>
        match astBuild src root with
        | some (ast, complaints) => mainCheck ast !complaints.isEmpty
        | none => .crash
      | .reject _ => .failure
      | .ub | .hang => .crash
    | .unknownToken _ => .failure
    | .abort | .hang => .crash

/-! ### Tokens -/

section Tokens

variable {input src : List UInt8} {ts tokens : List Token} {p : Nat}

/-- The tokens of a source begin one after the other. -/
lemma begs_of_covers (h : Covers input ts p) :
    (ts.map Token.beg).Nodup ∧ (∀ t ∈ ts, t.beg < p) ∧ ts.length ≤ p := by
  induction h with
  | nil => exact ⟨List.nodup_nil, List.forall_mem_nil _, Nat.le_refl _⟩
  | snoc ts t h hlt _ ih =>
    obtain ⟨hnodup, hbeg, hlen⟩ := ih
    refine ⟨?_, fun u hu => ?_, ?_⟩
    · rw [List.map_append, List.nodup_append]
      refine ⟨hnodup, List.nodup_singleton _, ?_⟩
      rintro _ ha _ hb rfl
      obtain ⟨u, hu, heq⟩ := List.mem_map.mp ha
      have := hbeg u hu
      rw [List.map_singleton, List.mem_singleton] at hb
      omega
    · rcases List.mem_append.mp hu with hu | hu
      · exact (hbeg u hu).trans hlt
      · obtain rfl := List.mem_singleton.mp hu
        exact hlt
    · rw [List.length_append, List.length_singleton]
      omega

lemma spells_mt_tk {n : Nt} {k : Tk} {ns : List PNode} (h : Spells Token.tk [.mt n, .tk k] ns) :
    ∃ ms t, ns = ms ++ [.leaf t] := by
  generalize hts : ([.mt n, .tk k] : List PTerm) = terms at h
  have last {ns : List PNode} (h : Spells Token.tk [.tk k] ns) : ∃ t, ns = [.leaf t] := by
    cases h with
    | @one _ _ m _ _ hn h =>
      cases h
      cases m with
      | leaf t => exact ⟨t, rfl⟩
      | node nt cs => cases hn
    | skip hmt | more hmt => cases hmt
  induction h with
  | nil => cases hts
  | one hmt _ _ _ =>
    cases hts
    cases hmt
  | skip _ h _ =>
    cases hts
    obtain ⟨t, rfl⟩ := last h
    exact ⟨[], t, rfl⟩
  | more _ _ _ ih =>
    obtain ⟨ms, t, rfl⟩ := ih hts
    exact ⟨_ :: ms, t, rfl⟩

/-- The tree of a unit has its statements between the two markers. -/
lemma unit_shape {cs : List PNode} (h : Derived Token.tk grammar (.node .unit cs)) :
    ∃ t stmts t', cs = .leaf t :: stmts ++ [.leaf t'] := by
  obtain ⟨r, hr, hlhs, hs, -⟩ := h.rule
  have hrhs : ∀ r ∈ grammar, r.lhs = .unit → r.rhs = [.tk .fbeg, .mt .stmt, .tk .fend] := by decide
  rw [hrhs r hr hlhs] at hs
  cases hs with
  | @one _ _ m ns _ hn hs =>
    cases m with
    | leaf t =>
      obtain ⟨ms, t', rfl⟩ := spells_mt_tk hs
      exact ⟨t, ms, t', rfl⟩
    | node nt cs => cases hn
  | skip hmt | more hmt => cases hmt

end Tokens

/-! ### Texts -/

section Texts

variable {src : List UInt8} {tokens : List Token} {root : PNode} {u : Ast.Unit} {o : Obj}

/-- The tree of a text, if it is parsed. -/
lemma tree_of_text (hl : lex src = .ok tokens) (hp : parse tokens = .ok root) :
    ∃ ts t stmts t', tokens = fbegToken :: ts ++ [fendToken] ∧ Covers src ts src.length ∧
      root = .node .unit (.leaf t :: stmts ++ [.leaf t']) ∧ stmts.flatMap Node.leaves = kept ts := by
  have hout := lex_outcome src
  rw [hl] at hout
  cases hout with
  | ok ts hc =>
    have hstart : Sound (fbegToken :: ts ++ [fendToken]) ⟨[], fbegToken :: ts ++ [fendToken], false⟩ :=
      ⟨List.forall_mem_nil _, rfl⟩
    obtain ⟨⟨cs, rfl⟩, hd, hleaves⟩ := parseLoop_sound hstart hp
    obtain ⟨t, stmts, t', rfl⟩ := unit_shape hd
    refine ⟨ts, t, stmts, t', rfl, hc, rfl, ?_⟩
    simp only [leaves_node, List.cons_append, List.flatMap_cons, List.flatMap_append, leaves_leaf,
      List.flatMap_nil, List.append_nil, kept] at hleaves
    rw [List.filter_cons_of_pos (by decide), List.filter_append] at hleaves
    exact List.append_inj_left' (List.cons.inj hleaves).2 rfl

/-- **What `ast_build` returns with `AST_OK` for a text** is the unit of a program the later passes can
accept, and the names it declares are those of tokens of the text, in their order. -/
theorem unit_of_text (hsize : src.length < 2 ^ 64) (hl : lex src = .ok tokens) (hp : parse tokens = .ok root)
    (ha : astBuild src root = some (u, [])) :
    unitBuilt u = true ∧ (topsDeclared u.stmts).Sublist (tokens.map (symOf src)) := by
  obtain ⟨ts, t, stmts, t', htokens, hc, rfl, hleaves⟩ := tree_of_text hl hp
  obtain ⟨hnodup, -, hlen⟩ := begs_of_covers hc
  have hkept : (kept ts).Sublist ts := List.filter_sublist
  have hle := hkept.length_le
  obtain ⟨hbuilt, hdecl⟩ := astBuild_formed (by rw [hleaves]; exact (hkept.map _).nodup hnodup)
    (by rw [hleaves]; omega) ha
  refine ⟨hbuilt, hdecl.trans ?_⟩
  have hlex : lexemesAll src stmts = (kept ts).map (symOf src) := by
    rw [← hleaves, List.map_flatMap]
    rfl
  rw [hlex, htokens]
  refine (hkept.trans ?_).map _
  exact (List.sublist_append_left _ _).trans (List.sublist_cons_self _ _)

/-- The passes after `ast_build`, on a unit it returned without a complaint. -/
lemma mainCheck_eq_exec (hb : unitBuilt u = true) : mainCheck u false = .exec o ↔ Compiles u o := by
  unfold mainCheck Compiles compile accept
  rw [hb]
  cases scopeDuplicated u <;> cases typeCheckAst u <;> simp
  rename_i tops
  cases codegenObjCreate tops <;> simp

/-- **`main` comes to the machine** with an object if and only if the text is lexed and parsed, `ast_build`
does not complain about it, and the object is the one the program compiles to; and then the names of the
program are lexemes of the text. -/
theorem main_eq_exec (hsize : src.length < 2 ^ 64) : main src = .exec o ↔
    ∃ tokens root u, lex src = .ok tokens ∧ parse tokens = .ok root ∧ astBuild src root = some (u, []) ∧
      Compiles u o ∧ (topsDeclared u.stmts).Sublist (tokens.map (symOf src)) := by
  constructor
  · intro h
    unfold main at h
    split at h
    · cases h
    split at h
    · rename_i tokens hl
      split at h
      · rename_i root hp
        split at h
        · rename_i u complaints ha
          cases complaints with
          | cons m ms =>
            unfold mainCheck at h
            split at h <;> cases h
          | nil =>
            obtain ⟨hb, hdecl⟩ := unit_of_text hsize hl hp ha
            exact ⟨tokens, root, u, hl, hp, ha, (mainCheck_eq_exec hb).mp h, hdecl⟩
        · cases h
      · cases h
      · cases h
      · cases h
    · cases h
    · cases h
    · cases h
  · rintro ⟨tokens, root, u, hl, hp, ha, hc, -⟩
    have hne : src.isEmpty = false := by
      cases src with
      | nil => cases hl
      | cons c src => rfl
    unfold main
    rw [hne, hl]
    simp only [Bool.false_eq_true, if_false, hp, ha, List.isEmpty_nil, Bool.not_true]
    exact (mainCheck_eq_exec (unit_of_text hsize hl hp ha).1).mpr hc

/-- `m:u8{return 1;}` -/
def smallText : List UInt8 := [109, 58, 117, 56, 123, 114, 101, 116, 117, 114, 110, 32, 49, 59, 125]

/-- It comes to the machine. -/
def Main.executes : Main → Bool
  | .exec _ => true
  | .failure | .crash => false

/-- The text is executed. -/
theorem main_small : ∃ o tokens root u, main smallText = .exec o ∧ lex smallText = .ok tokens ∧
    parse tokens = .ok root ∧ astBuild smallText root = some (u, []) ∧ Compiles u o ∧
    (topsDeclared u.stmts).Sublist (tokens.map (symOf smallText)) := by
  have h : (main smallText).executes = true := by decide +kernel
  cases ho : main smallText with
  | exec o =>
    obtain ⟨tokens, root, u, hl, hp, ha, hc, hdecl⟩ := (main_eq_exec (by decide)).mp ho
    exact ⟨o, tokens, root, u, rfl, hl, hp, ha, hc, hdecl⟩
  | failure | crash =>
    rw [ho] at h
    cases h

end Texts

end Quaint.Pipeline
