import Quaint.Munching
import Quaint.Precedence

/-!
The reads of the parser.

`match_rule` walks a rule and the stack with two indices, from the last term and the top node
down. Here every read through an index is checked, and the walk is shown to be that of the lists.
The token behind the last one is never read either, because only the rule of the unit matches once
`FEND` is on the stack, and nothing looks ahead for it.
-/

namespace Quaint.Cursors

open Relation Lex Derivation Parse Parsing Precedence

/-! ### Indices -/

/-- `rule->rhs[idx]`, nothing outside the right-hand side -/
def slotAt (r : PRule) (idx : Int) : Option PTerm :=
  if 0 ≤ idx then (slots r)[idx.toNat]? else none

/-- `stack.nodes[idx]`, nothing outside the stack -/
def nodeAt (stack : List PNode) (idx : Int) : Option PNode :=
  if 0 ≤ idx then stack.reverse[idx.toNat]? else none

/-- The body of the loop of `match_rule`; a pointer to a term is an index into the right-hand side.
Nothing if a read is outside, and then nothing if the rule does not match. -/
def walkStep (r : PRule) (stack : List PNode) (prev : Option PTerm) (term stIdx : Int) :
    Option (Option (Option PTerm × Int × Int)) :=
  match slotAt r term, nodeAt stack stIdx with
  | some t, some n =>
    some <|
      if termEqNode t n then some (if t.isMt then some t else none, term - 1, stIdx - 1)
      else if prev.any (termEqNode · n) then some (prev, term, stIdx - 1)
      else if t.isMt then some (none, term - 1, stIdx)
      else none
  | _, _ => none

/-- How the loop of `match_rule` ends: with a read outside, not at all, without a match, or at the
end of the rule. -/
inductive Walk
  | ub
  | hang
  | unmatched
  | matched (prev : Option PTerm) (stIdx : Int)

/-- The loop of `match_rule`, with the look at the term behind it -/
def walk (r : PRule) (stack : List PNode) : Nat → Option PTerm → Int → Int → Walk
  | 0, _, _, _ => .hang
  | fuel + 1, prev, term, stIdx =>
    match walkStep r stack prev term stIdx with
    | none => .ub
    | some none => .unmatched
    | some (some (prev, term, stIdx)) =>
      match slotAt r term with
      | none => .ub
      | some t =>
        if 0 ≤ stIdx ∧ t ≠ no then walk r stack fuel prev term stIdx
        else if t = no then .matched prev stIdx
        else .unmatched

/-- The loop over the nodes more that the term repeated last takes; the argument is the index and
one. -/
def skipPrev (stack : List PNode) (t : PTerm) : Nat → Option Nat
  | 0 => some 0
  | at' + 1 =>
    match nodeAt stack at' with
    | none => none
    | some n => if termEqNode t n then skipPrev stack t at' else some (at' + 1)

/-- `match_rule`, nothing if a read is outside or the walk does not end -/
def matchRuleAt (r : PRule) (stack : List PNode) : Option Nat :=
  match walk r stack (ruleRhsLast + 1 + stack.length) none ruleRhsLast ((stack.length : Int) - 1) with
  | .matched (some t) stIdx => (skipPrev stack t (stIdx + 1).toNat).map fun at' => stack.length - at'
  | .matched none stIdx => some (stack.length - (stIdx + 1).toNat)
  | .unmatched => some 0
  | .ub | .hang => none

/-! ### The walk is that of the lists -/

section Match

variable {r : PRule} {stack nodes nodes' ns : List PNode} {terms terms' done : List PTerm}
  {prev prev' : Option PTerm} {fuel : Nat}

/-- The last index of a list. -/
def lastIdx {α : Type} (l : List α) : Int := (l.length : Int) - 1

lemma lastIdx_cons {α : Type} (a : α) (l : List α) : lastIdx (a :: l) = l.length := by
  simp [lastIdx]

lemma getElem?_reverse_append {α : Type} (a : α) (l m : List α) :
    ((a :: l).reverse ++ m)[l.length]? = some a := by
  rw [List.reverse_cons, List.append_assoc, List.getElem?_append_right (by simp)]
  simp

lemma slotAt_eq (h : slots r = terms.reverse ++ done) : slotAt r (lastIdx terms) = terms.head? := by
  cases terms with
  | nil => rfl
  | cons t ts =>
    rw [lastIdx_cons, slotAt, if_pos (Int.natCast_nonneg _), Int.toNat_natCast, h, getElem?_reverse_append]
    rfl

lemma nodeAt_eq (h : stack.reverse = nodes.reverse ++ ns) : nodeAt stack (lastIdx nodes) = nodes.head? := by
  cases nodes with
  | nil => rfl
  | cons n ns =>
    rw [lastIdx_cons, nodeAt, if_pos (Int.natCast_nonneg _), Int.toNat_natCast, h, getElem?_reverse_append]
    rfl

lemma walkStep_eq (hslots : slots r = terms.reverse ++ done)
    (hstack : stack.reverse = nodes.reverse ++ ns) (hterms : terms ≠ []) (hnodes : nodes ≠ []) :
    walkStep r stack prev (lastIdx terms) (lastIdx nodes) = some ((matchStep prev terms nodes).map
      fun p => (p.1, lastIdx p.2.1, lastIdx p.2.2)) := by
  obtain ⟨t, ts, rfl⟩ := List.exists_cons_of_ne_nil hterms
  obtain ⟨n, nds, rfl⟩ := List.exists_cons_of_ne_nil hnodes
  have hpred : ∀ {α : Type} (a : α) (l : List α), lastIdx (a :: l) - 1 = lastIdx l := by simp [lastIdx]
  rw [walkStep, slotAt_eq hslots, nodeAt_eq hstack, matchStep]
  simp only [List.head?_cons, hpred]
  split
  · rfl
  · split
    · rfl
    · split <;> rfl

/-- The body takes a term or a node. -/
lemma matchStep_shrinks (h : matchStep prev terms nodes = some (prev', terms', nodes')) :
    terms'.length + nodes'.length < terms.length + nodes.length := by
  match terms, nodes with
  | [], _ => cases h
  | _ :: _, [] => cases h
  | t :: ts, n :: nds =>
    rw [matchStep] at h
    split at h
    · cases h
      simp only [List.length_cons]
      omega
    · split at h
      · cases h
        simp only [List.length_cons]
        omega
      · split at h
        · cases h
          simp only [List.length_cons]
          omega
        · cases h

lemma walk_eq (htaken : Taken prev done ns) (hslots : slots r = terms.reverse ++ done)
    (hstack : stack.reverse = nodes.reverse ++ ns) (hno : no ∈ slots r) (hhead : terms.head? ≠ some no)
    (hnodes : nodes ≠ []) (hfuel : terms.length + nodes.length ≤ fuel) :
    walk r stack fuel prev (lastIdx terms) (lastIdx nodes) =
      match matchLoop fuel prev terms nodes with
      | none => .unmatched
      | some (prev, nodes) => .matched prev (lastIdx nodes) := by
  have hleft : ∀ {ts ds : List PTerm}, slots r = ts.reverse ++ ds → no ∉ ds → ts ≠ [] := by
    rintro ts ds h hds rfl
    rw [h] at hno
    exact hds hno
  induction fuel generalizing prev done ns terms nodes with
  | zero => simp_all
  | succ fuel ih =>
    rw [walk, matchLoop, walkStep_eq hslots hstack (hleft hslots htaken.used) hnodes]
    cases hstep : matchStep prev terms nodes with
    | none => rfl
    | some p =>
      obtain ⟨prev', terms', nodes'⟩ := p
      obtain ⟨done', ns', htaken', hterms', hnodes'⟩ := matchStep_taken htaken hhead hstep
      have hslots' := hslots.trans hterms'
      have hshrink := matchStep_shrinks hstep
      obtain ⟨t, ts, rfl⟩ := List.exists_cons_of_ne_nil (hleft hslots' htaken'.used)
      simp only [Option.map_some, slotAt_eq hslots', List.head?_cons, Option.some.injEq]
      by_cases ht : t = no
      · simp [ht]
      · cases nodes' with
        | nil => simp [ht, lastIdx]
        | cons n nds =>
          have hge : 0 ≤ lastIdx (n :: nds) := by
            rw [lastIdx_cons]
            exact Int.natCast_nonneg _
          rw [if_pos ⟨hge, ht⟩, if_neg ht]
          exact ih htaken' hslots' (hstack.trans hnodes') (by simpa using ht) (List.cons_ne_nil _ _) (by omega)

lemma skipPrev_eq {t : PTerm} (h : stack.reverse = nodes.reverse ++ ns) :
    skipPrev stack t nodes.length = some (dropPrev (some t) nodes).length := by
  induction nodes generalizing ns with
  | nil => rfl
  | cons n nds ih =>
    have hn := nodeAt_eq h
    rw [lastIdx_cons, List.head?_cons] at hn
    rw [List.length_cons, skipPrev, hn, dropPrev, List.dropWhile_cons]
    simp only
    split
    · have hrest : stack.reverse = nds.reverse ++ (n :: ns) := by simpa using h
      exact ih hrest
    · rfl

/-- Every rule leaves its first slot unused. -/
lemma slots_grammar : ∀ r ∈ grammar, (slots r).length = ruleRhsLast + 1 ∧ no ∈ slots r ∧
    (slots r).reverse.head? ≠ some no := by decide +kernel

/-- Every read of `match_rule` is inside, and it finds the size that the lists give. -/
theorem matchRuleAt_eq (hr : r ∈ grammar) (hstack : stack ≠ []) :
    matchRuleAt r stack = some (matchRule r stack) := by
  obtain ⟨hlen, hno, hhead⟩ := slots_grammar r hr
  have hlast : lastIdx (slots r).reverse = ruleRhsLast := by simp [lastIdx, hlen]
  have hslots : slots r = (slots r).reverse.reverse ++ [] := by simp
  have hall : stack.reverse = stack.reverse ++ [] := by simp
  have hfuel : (slots r).reverse.length + stack.length ≤ ruleRhsLast + 1 + stack.length := by simp [hlen]
  have hwalk := walk_eq taken_nil hslots hall hno hhead hstack hfuel
  rw [hlast] at hwalk
  rw [matchRuleAt, ← lastIdx, hwalk, matchRule]
  cases hloop : matchLoop (ruleRhsLast + 1 + stack.length) none (slots r).reverse stack with
  | none => rfl
  | some p =>
    obtain ⟨prev, below⟩ := p
    obtain ⟨_, ns, _, -, -, -, hns⟩ := matchLoop_taken taken_nil hhead hloop
    have hidx : (lastIdx below + 1).toNat = below.length := by simp [lastIdx]
    cases prev with
    | none => simp only [hidx, dropPrev]
    | some t =>
      rw [List.append_nil] at hns
      simp only [hidx, skipPrev_eq hns, Option.map_some]

end Match

/-! ### The token ahead -/

/-- The tokens begin with `FBEG` and end with their only `FEND`. -/
structure Framed (tokens : List Token) : Prop where
  begins : tokens.head?.map Token.tk = some .fbeg
  ends : ∃ mid e, tokens = mid ++ [e] ∧ e.tk = .fend ∧ ∀ t ∈ mid, t.tk ≠ .fend

/-- The lexer returns such tokens. -/
theorem lex_framed {input : List UInt8} {tokens : List Token} (h : lex input = .ok tokens) :
    Framed tokens := by
  obtain ⟨ts, rfl, hcov⟩ := Munching.lex_covers h
  refine ⟨rfl, fbegToken :: ts, fendToken, rfl, rfl, List.forall_mem_cons.mpr ⟨by decide, fun t ht => ?_⟩⟩
  obtain ⟨us, vs, rfl⟩ := List.append_of_mem ht
  obtain ⟨f, hf⟩ := Munching.munch_class hcov.split.2.2
  have hne : ∀ e ∈ tkFuncs, e.1 ≠ .fend := by decide
  exact hne _ hf

/-- The only `FEND` is the last token there is. -/
def EndsOnce (rest : List Token) : Prop :=
  ∃ mid e, kept rest = mid ++ [e] ∧ e.tk = .fend ∧ ∀ t ∈ mid, t.tk ≠ .fend

def top (stack : List PNode) : Option (Tk ⊕ Nt) := stack.head?.map (Node.symbol Token.tk)

/-- There is a token ahead until `FEND` is shifted; then it stands on top of the stack, or the unit
does. -/
structure Fenced (x : Parsing) : Prop where
  shifted : x.retry = true → x.stack ≠ []
  ahead : EndsOnce x.rest ∨
    kept x.rest = [] ∧ (top x.stack = some (.inl .fend) ∨ top x.stack = some (.inr .unit))

section Rounds

variable {x y : Parsing} {tokens rest rest' : List Token} {stack : List PNode} {r : PRule} {n : Nat}
  {t : Token} {s : Tk ⊕ Nt}

lemma endsOnce_cons (h : EndsOnce rest) (hk : kept rest = t :: kept rest') :
    EndsOnce rest' ∨ kept rest' = [] ∧ t.tk = .fend := by
  obtain ⟨mid, e, heq, he, hmid⟩ := h
  rw [hk] at heq
  cases mid with
  | nil =>
    obtain ⟨rfl, hnil⟩ := List.cons.inj heq
    exact .inr ⟨hnil, he⟩
  | cons m mid =>
    obtain ⟨rfl, htail⟩ := List.cons.inj heq
    exact .inl ⟨mid, e, htail, he, fun t ht => hmid t (List.mem_cons_of_mem _ ht)⟩

lemma kept_cons (ht : skipToken t = false) : kept (t :: rest) = t :: kept rest :=
  List.filter_cons_of_pos (by simp [ht])

/-- No rule is spelled by nothing. -/
lemma spelled_nonempty (hr : r ∈ grammar) (hs : Spells Token.tk r.rhs (stack.take n).reverse) :
    stack ≠ [] ∧ n ≠ 0 := by
  have hlt := Nat.lt_of_lt_of_le (grammar_weight r hr) (spells_weight hs)
  constructor
  · rintro rfl
    simp [nodesWeight] at hlt
  · rintro rfl
    simp [nodesWeight] at hlt

/-- A rule that the nodes on top spell may end in the node on top. -/
lemma compatible_top (hr : r ∈ grammar) (hs : Spells Token.tk r.rhs (stack.take n).reverse)
    (htop : top stack = some s) : compatible r.rhs.reverse [s] = true := by
  obtain ⟨m, stack, rfl⟩ := List.exists_cons_of_ne_nil (spelled_nonempty hr hs).1
  have hrev := Spells.reverse hs
  rw [List.reverse_reverse] at hrev
  have hsyms : [s] <+: ((m :: stack).take n ++ (m :: stack).drop n).map (Node.symbol Token.tk) := by
    rw [List.take_append_drop, List.map_cons, ← Option.some.inj htop]
    exact ⟨_, rfl⟩
  exact compatible_of_spells hrev hsyms

lemma grammar_fend : ∀ r ∈ grammar, compatible r.rhs.reverse [.inl .fend] = true → r.lhs = .unit := by
  decide +kernel

lemma grammar_unit : ∀ r ∈ grammar, compatible r.rhs.reverse [.inr .unit] = false := by decide +kernel

lemma lhs_of_top (hr : r ∈ grammar) (hs : Spells Token.tk r.rhs (stack.take n).reverse)
    (htop : top stack = some (.inl .fend) ∨ top stack = some (.inr .unit)) :
    r.lhs = .unit ∧ top stack = some (.inl .fend) := by
  rcases htop with htop | htop
  · exact ⟨grammar_fend r hr (compatible_top hr hs htop), htop⟩
  · have := compatible_top hr hs htop
    rw [grammar_unit r hr] at this
    cases this

/-- A round keeps the fence. -/
lemma Fenced.step (h : Fenced x) (hs : parseStep x = .next y) : Fenced y := by
  obtain ⟨stack, rest, retry⟩ := x
  rcases parseStep_cases hs with ⟨-, rfl⟩ | ⟨t, rest', -, hrest, ht, rfl⟩ | ⟨t, rest', hk, -, ht, rfl⟩ |
    ⟨r, n, rest', -, hr, hspells, hk, -, rfl | ⟨t, rest'', rfl, ht, rfl⟩⟩
  · exact ⟨nofun, h.ahead⟩
  · have hk : kept rest = kept rest' := by
      simp only at hrest
      rw [hrest, kept, kept, List.filter_cons_of_neg (by simp [ht])]
    refine ⟨h.shifted, ?_⟩
    have := h.ahead
    rwa [EndsOnce, hk] at this
  · refine ⟨fun _ => List.cons_ne_nil _ _, ?_⟩
    rw [kept_cons ht] at hk
    rcases h.ahead with hends | ⟨hnil, -⟩
    · rcases endsOnce_cons hends hk with hmore | ⟨hlast, hfend⟩
      · exact .inl hmore
      · exact .inr ⟨hlast, .inl (by simp [top, Node.symbol, hfend])⟩
    · rw [hk] at hnil
      cases hnil
  · refine ⟨fun _ => List.cons_ne_nil _ _, ?_⟩
    rcases h.ahead with hends | ⟨hnil, htop⟩
    · exact .inl (by rwa [EndsOnce, hk] at hends)
    · refine .inr ⟨hk ▸ hnil, .inr ?_⟩
      rw [reduce, (lhs_of_top hr hspells htop).1]
      rfl
  · refine ⟨fun _ => List.cons_ne_nil _ _, ?_⟩
    rw [kept_cons ht] at hk
    rcases h.ahead with hends | ⟨hnil, -⟩
    · rcases endsOnce_cons hends hk with hmore | ⟨hlast, hfend⟩
      · exact .inl hmore
      · exact .inr ⟨hlast, .inl (by simp [top, Node.symbol, hfend])⟩
    · rw [hk] at hnil
      cases hnil

lemma Fenced.run (h : Fenced x) (run : Rounds x y) : Fenced y := by
  induction run with
  | refl => exact h
  | tail _ hs ih => exact ih.step hs

/-- Where the parser looks ahead, there is a token. -/
lemma shouldShift_ne_none {f : PRule → Tk → Bool} (h : r.lhs = .unit ∨ kept rest ≠ []) :
    ∃ b rest', shouldShift f r rest = some (b, rest') ∧ kept rest' = kept rest ∧
      (b = true → ∃ t ts, rest' = t :: ts) := by
  unfold shouldShift
  by_cases hunit : r.lhs = .unit
  · exact ⟨false, rest, by rw [if_pos hunit], rfl, nofun⟩
  · have hkept := kept_dropWhile rest
    rw [if_neg hunit]
    cases hdrop : rest.dropWhile skipToken with
    | nil =>
      rw [hdrop] at hkept
      exact absurd hkept.symm (h.resolve_left hunit)
    | cons t ts => exact ⟨f r t.tk, t :: ts, rfl, hdrop ▸ hkept, fun _ => ⟨t, ts, rfl⟩⟩

/-- No round reads behind the last token. -/
lemma Fenced.inside (h : Fenced x) : parseStep x ≠ .ub := by
  obtain ⟨stack, rest, retry⟩ := x
  cases retry with
  | false =>
    simp only [parseStep, Bool.false_eq_true, if_false]
    cases rest with
    | nil =>
      intro h
      cases h
    | cons t rest =>
      simp only
      split <;> exact fun h => by cases h
  | true =>
    simp only [parseStep, if_true]
    split
    · intro h
      cases h
    · rename_i r n hm
      obtain ⟨hr, hs⟩ := firstMatch_some hm
      have hahead : r.lhs = .unit ∨ kept rest ≠ [] := by
        rcases h.ahead with ⟨mid, e, hk, -⟩ | ⟨-, htop⟩
        · exact .inr (by rw [hk]; simp)
        · exact .inl (lhs_of_top hr hs htop).1
      obtain ⟨b, rest1, hpre, hk1, hb⟩ := shouldShift_ne_none (f := shiftsPre) hahead
      obtain ⟨b', rest2, hpost, -, hb'⟩ := shouldShift_ne_none (f := shiftsPost) (hk1.symm ▸ hahead)
      simp only [hpre]
      cases b with
      | true =>
        obtain ⟨t, ts, rfl⟩ := hb rfl
        intro h
        cases h
      | false =>
        simp only [hpost]
        cases b' with
        | true =>
          obtain ⟨t, ts, rfl⟩ := hb' rfl
          intro h
          cases h
        | false =>
          intro h
          cases h

lemma parseLoop_inside {fuel : Nat} (h : Fenced x) : parseLoop fuel x ≠ .ub := by
  induction fuel generalizing x with
  | zero =>
    intro h
    cases h
  | succ fuel ih =>
    rw [parseLoop]
    cases hs : parseStep x with
    | next y => exact ih (h.step hs)
    | stop stack =>
      simp only
      unfold parseEnd
      split <;> exact fun h => by cases h
    | ub => exact absurd hs h.inside

lemma Framed.fenced (h : Framed tokens) : Fenced ⟨[], tokens, false⟩ := by
  obtain ⟨mid, e, rfl, he, hmid⟩ := h.ends
  refine ⟨nofun, .inl ⟨kept mid, e, ?_, he, fun t ht => hmid t (List.mem_of_mem_filter ht)⟩⟩
  rw [kept, List.filter_append, kept, List.filter_cons_of_pos (by simp [skipToken, he])]
  rfl

/-- **The parser ends, and reads nothing outside**: on tokens that begin with `FBEG` and end with
their only `FEND` the loop returns without a read behind the last token. Whenever it tries the
rules, `match_rule` stays inside the stack and the rule, whichever rule it tries, and what it finds
to reduce is not empty and no more than the stack holds. -/
theorem parse_inside (h : Framed tokens) :
    parse tokens ≠ .hang ∧ parse tokens ≠ .ub ∧
      ∀ x, Rounds ⟨[], tokens, false⟩ x → parseStep x ≠ .ub ∧ (x.retry = true →
        (∀ r ∈ grammar, matchRuleAt r x.stack = some (matchRule r x.stack)) ∧
        ∀ r n, firstMatch x.stack = some (r, n) →
          matchRuleAt r x.stack = some n ∧ 0 < n ∧ n ≤ x.stack.length) := by
  refine ⟨parse_ends tokens, parseLoop_inside h.fenced, fun x run => ?_⟩
  have hx := h.fenced.run run
  refine ⟨hx.inside, fun hretry => ⟨fun r hr => matchRuleAt_eq hr (hx.shifted hretry), ?_⟩⟩
  intro r n hm
  rw [firstMatch] at hm
  obtain ⟨r', hr', hfound⟩ := List.exists_of_findSome?_eq_some hm
  split at hfound
  · cases hfound
  · rename_i hne
    cases hfound
    refine ⟨matchRuleAt_eq hr' (hx.shifted hretry), Nat.pos_of_ne_zero hne, ?_⟩
    unfold matchRule
    split <;> omega

/-- Some rounds of the loop. -/
def roundsFrom : Nat → Parsing → Option Parsing
  | 0, x => some x
  | n + 1, x =>
    match parseStep x with
    | .next y => roundsFrom n y
    | _ => none

lemma rounds_of_roundsFrom {n : Nat} {x y : Parsing} (h : roundsFrom n x = some y) : Rounds x y := by
  induction n generalizing x with
  | zero =>
    cases h
    exact .refl
  | succ n ih =>
    rw [roundsFrom] at h
    split at h
    · rename_i z hz
      exact .head hz (ih h)
    · cases h

/-- The tokens of `someTokens`, and those of a statement `f;` -/
def twoStatements : List Token := someTokens.dropLast ++ [⟨.name, 17, 18⟩, ⟨.scol, 18, 19⟩, fendToken]

/-- Two statements are parsed: a rule of three terms is put off because of the token ahead, and the rule
of the unit matches `FBEG`, the statements and `FEND`. -/
theorem parse_inside_statements : Framed twoStatements ∧
    parse twoStatements ≠ .hang ∧ parse twoStatements ≠ .ub ∧
    (∃ x r, Rounds ⟨[], twoStatements, false⟩ x ∧ firstMatch x.stack = some (r, 3) ∧
      (shouldShift shiftsPre r x.rest).map Prod.fst = some true ∧ parseStep x ≠ .ub ∧
      matchRuleAt r x.stack = some 3) ∧
    ∃ x r, Rounds ⟨[], twoStatements, false⟩ x ∧ x.stack.length = 4 ∧ firstMatch x.stack = some (r, 4) ∧
      r.lhs = .unit ∧ parseStep x ≠ .ub ∧ matchRuleAt r x.stack = some 4 := by
  have hframed : Framed twoStatements := ⟨rfl, twoStatements.dropLast, fendToken, rfl, rfl, by decide⟩
  obtain ⟨hends, hinside, hrounds⟩ := parse_inside hframed
  refine ⟨hframed, hends, hinside, ?_, ?_⟩
  · have hlook : ((roundsFrom 11 ⟨[], twoStatements, false⟩).map fun x => (x.retry,
        (firstMatch x.stack).map fun m => (m.2, (shouldShift shiftsPre m.1 x.rest).map Prod.fst))) =
          some (true, some (3, some true)) := by decide +kernel
    obtain ⟨x, hx, hlook⟩ := Option.map_eq_some_iff.mp hlook
    obtain ⟨hretry, hfirst⟩ := Prod.mk.inj hlook
    obtain ⟨⟨r, n⟩, hfirst, hm⟩ := Option.map_eq_some_iff.mp hfirst
    obtain ⟨rfl, hshift⟩ := Prod.mk.inj hm
    obtain ⟨hstep, hmatch⟩ := hrounds x (rounds_of_roundsFrom hx)
    exact ⟨x, r, rounds_of_roundsFrom hx, hfirst, hshift, hstep, ((hmatch hretry).2 r 3 hfirst).1⟩
  · have hlook : ((roundsFrom 52 ⟨[], twoStatements, false⟩).map fun x => (x.retry, x.stack.length,
        (firstMatch x.stack).map fun m => (m.2, m.1.lhs))) = some (true, 4, some (4, .unit)) := by
      decide +kernel
    obtain ⟨x, hx, hlook⟩ := Option.map_eq_some_iff.mp hlook
    simp only [Prod.mk.injEq] at hlook
    obtain ⟨hretry, hlen, hfirst⟩ := hlook
    obtain ⟨⟨r, n⟩, hfirst, hm⟩ := Option.map_eq_some_iff.mp hfirst
    obtain ⟨rfl, hlhs⟩ := Prod.mk.inj hm
    obtain ⟨hstep, hmatch⟩ := hrounds x (rounds_of_roundsFrom hx)
    exact ⟨x, r, rounds_of_roundsFrom hx, hlen, hfirst, hlhs, hstep, ((hmatch hretry).2 r 4 hfirst).1⟩

end Rounds

end Quaint.Cursors
