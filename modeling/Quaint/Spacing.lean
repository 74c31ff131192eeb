import Quaint.Cursors

/-!
What stands between the tokens.

The parser passes over white space and comments, and of the other tokens it looks at nothing but their
classes. So two lists of tokens with the same classes are parsed alike, wherever the tokens stand and
whatever white space and comments stand between them.
-/

namespace Quaint.Spacing

open Lex Derivation Parse Parsing Cursors

/-! ### Trees over other tokens -/

mutual
/-- The tree with its tokens exchanged. -/
def mapNode (f : Token → Token) : PNode → PNode
  | .leaf t => .leaf (f t)
  | .node nt cs => .node nt (mapNodes f cs)
def mapNodes (f : Token → Token) : List PNode → List PNode
  | [] => []
  | c :: cs => mapNode f c :: mapNodes f cs
end

lemma mapNodes_eq (f : Token → Token) (cs : List PNode) : mapNodes f cs = cs.map (mapNode f) := by
  induction cs with
  | nil => rfl
  | cons c cs ih => rw [mapNodes, ih, List.map_cons]

/-- The answer of the parser with its tokens exchanged. -/
def mapParsed (f : Token → Token) : Parsed → Parsed
  | .ok root => .ok (mapNode f root)
  | .reject stack => .reject (stack.map (mapNode f))
  | .ub => .ub
  | .hang => .hang

section Exchange

variable {f : Token → Token} {r : PRule} {t : PTerm} {prev : Option PTerm} {terms : List PTerm}
  {nodes stack : List PNode} {rest : List Token} {x : Parsing}

@[simp] lemma mapNode_leaf (t : Token) : mapNode f (.leaf t) = .leaf (f t) := by rw [mapNode]

@[simp] lemma mapNode_node (nt : Nt) (cs : List PNode) : mapNode f (.node nt cs) = .node nt (cs.map (mapNode f)) := by
  rw [mapNode, mapNodes_eq]

/-- The classes of the tokens stay. -/
def Keeps (f : Token → Token) : Prop := ∀ t, (f t).tk = t.tk

lemma symbol_map (hf : Keeps f) (n : PNode) : (mapNode f n).symbol Token.tk = n.symbol Token.tk := by
  cases n with
  | leaf t => rw [mapNode_leaf, Node.symbol, Node.symbol, hf]
  | node nt cs => rw [mapNode_node, Node.symbol, Node.symbol]

lemma termEqNode_map (hf : Keeps f) (n : PNode) : termEqNode t (mapNode f n) = termEqNode t n := by
  rw [termEqNode, termEqNode, symbol_map hf]

lemma matchStep_map (hf : Keeps f) : matchStep prev terms (nodes.map (mapNode f)) =
    (matchStep prev terms nodes).map fun p => (p.1, p.2.1, p.2.2.map (mapNode f)) := by
  cases terms with
  | nil => rfl
  | cons t ts =>
    cases nodes with
    | nil => rfl
    | cons n ns =>
      simp only [List.map_cons, matchStep, termEqNode_map hf]
      split
      · rfl
      · split
        · rfl
        · split <;> rfl

lemma matchLoop_map (hf : Keeps f) (fuel : Nat) : matchLoop fuel prev terms (nodes.map (mapNode f)) =
    (matchLoop fuel prev terms nodes).map fun p => (p.1, p.2.map (mapNode f)) := by
  induction fuel generalizing prev terms nodes with
  | zero => rfl
  | succ fuel ih =>
    simp only [matchLoop, matchStep_map hf]
    cases matchStep prev terms nodes with
    | none => rfl
    | some p =>
      obtain ⟨prev', terms', nodes'⟩ := p
      simp only [Option.map_some, List.isEmpty_map]
      split
      · rfl
      · split
        · rfl
        · exact ih

lemma dropPrev_map (hf : Keeps f) : dropPrev prev (nodes.map (mapNode f)) = (dropPrev prev nodes).map (mapNode f) := by
  cases prev with
  | none => rfl
  | some t =>
    have hcomp : termEqNode t ∘ mapNode f = termEqNode t := funext fun n => termEqNode_map hf n
    simp only [dropPrev, List.dropWhile_map, hcomp]

lemma matchRule_map (hf : Keeps f) : matchRule r (stack.map (mapNode f)) = matchRule r stack := by
  simp only [matchRule, List.length_map, matchLoop_map hf]
  cases matchLoop (ruleRhsLast + 1 + stack.length) none (slots r).reverse stack with
  | none => rfl
  | some p => simp only [Option.map_some, dropPrev_map hf, List.length_map]

lemma firstMatch_map (hf : Keeps f) : firstMatch (stack.map (mapNode f)) = firstMatch stack := by
  simp only [firstMatch, matchRule_map hf]

lemma skipToken_map (hf : Keeps f) (t : Token) : skipToken (f t) = skipToken t := by
  simp only [skipToken, hf t]

lemma shouldShift_map (hf : Keeps f) (shifts : PRule → Tk → Bool) : shouldShift shifts r (rest.map f) =
    (shouldShift shifts r rest).map fun p => (p.1, p.2.map f) := by
  have hcomp : skipToken ∘ f = skipToken := funext fun t => skipToken_map hf t
  simp only [shouldShift]
  split
  · rfl
  · rw [List.dropWhile_map, hcomp]
    cases rest.dropWhile skipToken with
    | nil => rfl
    | cons t ts => simp [hf t]

lemma reduce_map (n : Nat) : reduce r n (stack.map (mapNode f)) = (reduce r n stack).map (mapNode f) := by
  simp [reduce, List.map_take, List.map_drop]

/-- The state of the parser with its tokens exchanged. -/
def mapParsing (f : Token → Token) (x : Parsing) : Parsing := ⟨x.stack.map (mapNode f), x.rest.map f, x.retry⟩

def mapMoved (f : Token → Token) : Moved → Moved
  | .next x => .next (mapParsing f x)
  | .stop stack => .stop (stack.map (mapNode f))
  | .ub => .ub

lemma shift_map (rest : List Token) : shift (stack.map (mapNode f)) (rest.map f) = mapMoved f (shift stack rest) := by
  cases rest with
  | nil => rfl
  | cons t ts => simp [shift, mapMoved, mapParsing]

/-- A round of the parser does the same over other tokens. -/
lemma parseStep_map (hf : Keeps f) : parseStep (mapParsing f x) = mapMoved f (parseStep x) := by
  obtain ⟨stack, rest, retry⟩ := x
  cases retry with
  | false =>
    cases rest with
    | nil => rfl
    | cons t ts =>
      simp only [parseStep, mapParsing, Bool.false_eq_true, if_false, List.map_cons, skipToken_map hf]
      split
      · rfl
      · exact shift_map (t :: ts)
  | true =>
    simp only [parseStep, mapParsing, if_true, firstMatch_map hf]
    cases firstMatch stack with
    | none => rfl
    | some p =>
      obtain ⟨r, size⟩ := p
      simp only [shouldShift_map hf]
      cases shouldShift shiftsPre r rest with
      | none => rfl
      | some q =>
        obtain ⟨b, rest⟩ := q
        cases b with
        | true => exact shift_map _
        | false =>
          simp only [Option.map_some, shouldShift_map hf, reduce_map]
          cases shouldShift shiftsPost r rest with
          | none => rfl
          | some q =>
            obtain ⟨b, rest⟩ := q
            cases b with
            | true => exact shift_map _
            | false => rfl

lemma parseEnd_map : parseEnd (stack.map (mapNode f)) = mapParsed f (parseEnd stack) := by
  cases stack with
  | nil => rfl
  | cons n rest =>
    cases rest with
    | cons m rest => simp [parseEnd, mapParsed]
    | nil =>
      cases n with
      | leaf t => simp [parseEnd, mapParsed]
      | node nt cs => cases nt <;> cases cs <;> simp [parseEnd, mapParsed]

lemma parseLoop_map (hf : Keeps f) (fuel : Nat) : parseLoop fuel (mapParsing f x) = mapParsed f (parseLoop fuel x) := by
  induction fuel generalizing x with
  | zero => rfl
  | succ fuel ih =>
    simp only [parseLoop, parseStep_map hf]
    cases parseStep x with
    | next y => exact ih
    | stop stack => exact parseEnd_map
    | ub => rfl

/-- **The parser looks at nothing but the classes of the tokens.** -/
theorem parse_map (hf : Keeps f) (tokens : List Token) : parse (tokens.map f) = mapParsed f (parse tokens) := by
  rw [parse, parse, List.length_map]
  exact parseLoop_map (x := ⟨[], tokens, false⟩) hf _

end Exchange

/-! ### White space and comments -/

section Skipping

variable {x y : Parsing} {rest rest' : List Token} {r : PRule} {stack : List PNode} {n m : Nat} {p : Parsed}
  {shifts : PRule → Tk → Bool}

/-- The state with no white space and no comment left. -/
def bare (x : Parsing) : Parsing := ⟨x.stack, kept x.rest, x.retry⟩

def bareMoved : Moved → Moved
  | .next x => .next (bare x)
  | .stop stack => .stop stack
  | .ub => .ub

lemma dropWhile_kept (rest : List Token) : (kept rest).dropWhile skipToken = kept rest := by
  rw [List.dropWhile_eq_self_iff]
  intro h
  obtain ⟨-, ht⟩ := List.mem_filter.mp (List.getElem_mem h)
  simpa using ht

/-- The token ahead is the same one. -/
lemma kept_ahead (rest : List Token) : rest.dropWhile skipToken = [] ∧ kept rest = [] ∨
    ∃ t ts, rest.dropWhile skipToken = t :: ts ∧ skipToken t = false ∧ kept rest = t :: kept ts := by
  have hkept := kept_dropWhile rest
  cases hd : rest.dropWhile skipToken with
  | nil =>
    rw [hd] at hkept
    exact .inl ⟨rfl, hkept.symm⟩
  | cons t ts =>
    have ht : skipToken t = false := by
      have h := List.head?_dropWhile_not skipToken rest
      rw [hd] at h
      simpa using h
    rw [hd, kept_cons ht] at hkept
    exact .inr ⟨t, ts, rfl, ht, hkept.symm⟩

lemma shouldShift_bare : shouldShift shifts r (kept rest) =
    (shouldShift shifts r rest).map fun p => (p.1, kept p.2) := by
  simp only [shouldShift]
  split
  · rfl
  · rw [dropWhile_kept]
    rcases kept_ahead rest with ⟨hd, hk⟩ | ⟨t, ts, hd, ht, hk⟩
    · rw [hd, hk]
      rfl
    · rw [hd, hk]
      simp only [Option.map_some, kept_cons ht]

/-- What is shifted is not skipped. -/
lemma shouldShift_shifts (h : shouldShift shifts r rest = some (true, rest')) :
    ∃ t ts, rest' = t :: ts ∧ skipToken t = false := by
  simp only [shouldShift] at h
  split at h
  · cases h
  · rcases kept_ahead rest with ⟨hd, -⟩ | ⟨t, ts, hd, ht, -⟩
    · rw [hd] at h
      cases h
    · rw [hd] at h
      obtain ⟨-, rfl⟩ := Prod.mk.inj (Option.some.inj h)
      exact ⟨t, ts, rfl, ht⟩

lemma shift_bare (h : ∃ t ts, rest = t :: ts ∧ skipToken t = false) :
    shift stack (kept rest) = bareMoved (shift stack rest) := by
  obtain ⟨t, ts, rfl, ht⟩ := h
  rw [kept_cons ht]
  rfl

/-- A round passes over a token, or it is a round of the state with none to pass over. -/
lemma parseStep_bare (x : Parsing) : (∃ y, parseStep x = .next y ∧ bare y = bare x) ∨
    parseStep (bare x) = bareMoved (parseStep x) := by
  obtain ⟨stack, rest, retry⟩ := x
  cases retry with
  | false =>
    cases rest with
    | nil => exact .inr rfl
    | cons t ts =>
      cases ht : skipToken t with
      | true =>
        refine .inl ⟨⟨stack, ts, false⟩, by simp [parseStep, ht], ?_⟩
        simp [bare, kept, ht]
      | false =>
        right
        simp only [parseStep, bare, kept_cons ht, ht, Bool.false_eq_true, if_false]
        rfl
  | true =>
    right
    simp only [parseStep, bare, if_true]
    cases firstMatch stack with
    | none => rfl
    | some p =>
      obtain ⟨r, size⟩ := p
      simp only [shouldShift_bare]
      cases hpre : shouldShift shiftsPre r rest with
      | none => rfl
      | some q =>
        obtain ⟨b, rest1⟩ := q
        cases b with
        | true => exact shift_bare (shouldShift_shifts hpre)
        | false =>
          simp only [Option.map_some, shouldShift_bare]
          cases hpost : shouldShift shiftsPost r rest1 with
          | none => rfl
          | some q =>
            obtain ⟨b, rest2⟩ := q
            cases b with
            | true => exact shift_bare (shouldShift_shifts hpost)
            | false => rfl

/-- A parser that has come to its end needs no more rounds. -/
lemma parseLoop_mono (h : parseLoop n x = p) (hp : p ≠ .hang) (hle : n ≤ m) : parseLoop m x = p := by
  induction n generalizing x m with
  | zero => exact absurd h.symm hp
  | succ n ih =>
    obtain ⟨m, rfl⟩ : ∃ k, m = k + 1 := ⟨m - 1, by omega⟩
    rw [parseLoop] at h ⊢
    cases hs : parseStep x with
    | next y =>
      rw [hs] at h
      exact ih h (by omega)
    | stop stack =>
      rw [hs] at h
      exact h
    | ub =>
      rw [hs] at h
      exact h

/-- What stands between the tokens does not change where the parser comes to. -/
lemma parseLoop_bare (h : parseLoop n x = p) (hp : p ≠ .hang) : parseLoop n (bare x) = p := by
  induction n generalizing x with
  | zero => exact absurd h.symm hp
  | succ n ih =>
    have hround := h
    rw [parseLoop] at hround
    rcases parseStep_bare x with ⟨y, hs, hy⟩ | hs
    · rw [hs] at hround
      exact parseLoop_mono (hy ▸ ih hround) hp n.le_succ
    · rw [parseLoop, hs]
      cases hx : parseStep x with
      | next y =>
        rw [hx] at hround
        exact ih hround
      | stop stack =>
        rw [hx] at hround
        exact hround
      | ub =>
        rw [hx] at hround
        exact hround

/-- **White space and comments are parsed as nothing.** -/
theorem parse_kept (tokens : List Token) : parse (kept tokens) = parse tokens := by
  have hkept : parseLoop (10 * tokens.length + 1) ⟨[], kept tokens, false⟩ = parse tokens :=
    parseLoop_bare (x := ⟨[], tokens, false⟩) rfl (parse_ends tokens)
  have hle : (kept tokens).length ≤ tokens.length := List.length_filter_le _ _
  have hmore : parseLoop (10 * tokens.length + 1) ⟨[], kept tokens, false⟩ = parse (kept tokens) :=
    parseLoop_mono rfl (parse_ends (kept tokens)) (by omega)
  exact hmore.symm.trans hkept

end Skipping

/-! ### Texts -/

/-- The token without its place. -/
def unplaced (t : Token) : Token := ⟨t.tk, 0, 0⟩

/-- **Nothing but the classes of the tokens other than white space and comments matters to the parser**: lists
with the same ones are both accepted, with the same tree, or both rejected. -/
theorem parse_alike {ts us : List Token} (h : (kept ts).map Token.tk = (kept us).map Token.tk) :
    mapParsed unplaced (parse ts) = mapParsed unplaced (parse us) := by
  have hf : Keeps unplaced := fun _ => rfl
  have hmap (ts : List Token) : ts.map unplaced = (ts.map Token.tk).map fun k => (⟨k, 0, 0⟩ : Token) := by
    rw [List.map_map]
    rfl
  calc mapParsed unplaced (parse ts)
      = parse ((kept ts).map unplaced) := by rw [parse_map hf, parse_kept]
    _ = parse ((kept us).map unplaced) := by rw [hmap, hmap, h]
    _ = mapParsed unplaced (parse us) := by rw [parse_map hf, parse_kept]

/-- The tokens of `a=1;` -/
def closeTokens : List Token :=
  [fbegToken, ⟨.name, 0, 1⟩, ⟨.assn, 1, 2⟩, ⟨.nmbr, 2, 3⟩, ⟨.scol, 3, 4⟩, fendToken]

/-- The tokens of `bc = 23/**/; ` -/
def wideTokens : List Token :=
  [fbegToken, ⟨.name, 0, 2⟩, ⟨.wspc, 2, 3⟩, ⟨.assn, 3, 4⟩, ⟨.wspc, 4, 5⟩, ⟨.nmbr, 5, 7⟩, ⟨.bcom, 7, 11⟩,
    ⟨.scol, 11, 12⟩, ⟨.wspc, 12, 13⟩, fendToken]

/-- The parser has made a tree of the tokens. -/
def accepted : Parsed → Bool
  | .ok _ => true
  | .reject _ | .ub | .hang => false

/-- They have the same tree. -/
theorem wide_alike : accepted (parse closeTokens) = true ∧
    mapParsed unplaced (parse closeTokens) = mapParsed unplaced (parse wideTokens) :=
  ⟨by decide +kernel, parse_alike (by decide)⟩

end Quaint.Spacing
