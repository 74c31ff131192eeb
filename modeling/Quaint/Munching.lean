import Quaint.Lex

/-!
The tokens of the lexer.

The loop keeps, for every automaton, what it says of the bytes since the last token. So a token
ends where the last automaton dies, and the tokens cover the input.
-/

namespace Quaint.Munching

open Lockstep Lex

/-! ### The automata -/

section Automata

lemma tr_spec (b : Bool) (st n : Nat) (sts : Sts) (hsts : sts ≠ .reject) (hn : st ≤ n) :
    (tr b st sts).2 ≤ n ∧ ((tr b st sts).1 = .reject → (tr b st sts).2 = 0) := by
  cases b with
  | false => exact ⟨Nat.zero_le _, fun _ => rfl⟩
  | true => exact ⟨hn, fun h => (hsts h).elim⟩

lemma tokenDefine_orderly (str : List Char) : Orderly (tokenDefine str) := by
  refine orderly_of_bounded (n := str.length) fun c s hs => ?_
  rw [tokenDefine]
  split
  · rename_i hlt
    refine ⟨_, rfl, tr_spec _ _ _ _ ?_ hlt⟩
    split <;> decide
  · rw [if_pos (by omega)]
    exact ⟨_, rfl, Nat.zero_le _, fun _ => rfl⟩

lemma tkName_orderly : Orderly tkName := by
  refine orderly_of_bounded (n := 1) fun c s hs => ?_
  match s, hs with
  | 0, _ | 1, _ => exact ⟨_, rfl, tr_spec _ _ _ _ (by decide) (Nat.le_refl _)⟩

/-- The only state of this one is the first. -/
lemma tkNmbr_orderly : Orderly tkNmbr :=
  orderly_of_bounded (n := 0) fun _ _ hs => ⟨_, rfl, hs, fun _ => Nat.le_zero.mp hs⟩

lemma tkStrl_orderly : Orderly tkStrl := by
  refine orderly_of_bounded (n := 2) fun c s hs => ?_
  match s, hs with
  | 0, _ => exact ⟨_, rfl, tr_spec _ _ _ _ (by decide) (by decide)⟩
  | 1, _ =>
    refine ⟨_, rfl, ?_⟩
    split <;> decide
  | 2, _ => exact ⟨_, rfl, by decide⟩

lemma tkWspc_orderly : Orderly tkWspc := by
  refine orderly_of_bounded (n := 1) fun c s hs => ?_
  match s, hs with
  | 0, _ | 1, _ => exact ⟨_, rfl, tr_spec _ _ _ _ (by decide) (Nat.le_refl _)⟩

lemma tkLcom_orderly : Orderly tkLcom := by
  refine orderly_of_bounded (n := 3) fun c s hs => ?_
  match s, hs with
  | 0, _ | 1, _ => exact ⟨_, rfl, tr_spec _ _ _ _ (by decide) (by decide)⟩
  | 2, _ =>
    refine ⟨_, rfl, ?_⟩
    split <;> decide
  | 3, _ => exact ⟨_, rfl, by decide⟩

lemma tkBcom_orderly : Orderly tkBcom := by
  refine orderly_of_bounded (n := 4) fun c s hs => ?_
  match s, hs with
  | 0, _ | 1, _ => exact ⟨_, rfl, tr_spec _ _ _ _ (by decide) (by decide)⟩
  | 2, _ | 3, _ =>
    refine ⟨_, rfl, ?_⟩
    split <;> decide
  | 4, _ => exact ⟨_, rfl, by decide⟩

/-- All but the first six are fixed words. -/
lemma tkFuncs_fixed : ∀ e ∈ tkFuncs.drop 6, ∃ str, e.2 = tokenDefine str := by
  rw [tkFuncs]
  repeat first
    | exact List.forall_mem_nil _
    | refine List.forall_mem_cons.mpr ⟨⟨_, rfl⟩, ?_⟩

lemma tkFuncs_orderly : ∀ e ∈ tkFuncs, Orderly e.2 := by
  intro e he
  rw [← List.take_append_drop 6 tkFuncs, List.mem_append] at he
  rcases he with he | he
  · have h6 : tkFuncs.take 6 = [(.name, tkName), (.nmbr, tkNmbr), (.strl, tkStrl), (.wspc, tkWspc),
      (.lcom, tkLcom), (.bcom, tkBcom)] := rfl
    simp only [h6, List.mem_cons, List.not_mem_nil, or_false] at he
    rcases he with rfl | rfl | rfl | rfl | rfl | rfl
    · exact tkName_orderly
    · exact tkNmbr_orderly
    · exact tkStrl_orderly
    · exact tkWspc_orderly
    · exact tkLcom_orderly
    · exact tkBcom_orderly
  · obtain ⟨str, hstr⟩ := tkFuncs_fixed e he
    exact hstr ▸ tokenDefine_orderly str

lemma tkFuncs_nonempty : ∃ e, e ∈ tkFuncs := ⟨_, List.mem_cons_self⟩

/-- No token has the class that stands for none. -/
lemma tkFuncs_ne_count : ∀ e ∈ tkFuncs, e.1 ≠ .count := by decide

end Automata

/-! ### The loop -/

/-- The tokens, one behind the other, cover the input up to a position: each is the longest
prefix of what is left that some automaton accepts, and has the class of the last one that
does. -/
inductive Covers (input : List UInt8) : List Token → Nat → Prop
  | nil : Covers input [] 0
  | snoc (ts : List Token) (t : Token) (h : Covers input ts t.beg) (hlt : t.beg < t.stop)
    (hmunch : Munch tkFuncs (input.drop t.beg) (t.stop - t.beg) t.tk) : Covers input (ts ++ [t]) t.stop

section Tokens

variable {input : List UInt8} {ts us vs : List Token} {t : Token} {p : Nat}

/-- `Covers.snoc`, read backwards. -/
lemma Covers.last (h : Covers input (ts ++ [t]) p) : p = t.stop ∧ Covers input ts t.beg ∧ t.beg < t.stop ∧
    Munch tkFuncs (input.drop t.beg) (t.stop - t.beg) t.tk := by
  generalize hts : ts ++ [t] = ts' at h
  cases h with
  | nil => simp at hts
  | snoc ts' t' h hlt hmunch =>
    obtain ⟨rfl, rfl⟩ := List.append_inj' hts rfl |>.imp_right List.head_eq_of_cons_eq
    exact ⟨rfl, h, hlt, hmunch⟩

lemma Covers.le (h : Covers input ts p) : p ≤ input.length := by
  cases h with
  | nil => exact Nat.zero_le _
  | snoc ts t h hlt hmunch =>
    have := hmunch.le
    rw [List.length_drop] at this
    omega

/-- The tokens in front of one cover the input up to it. -/
lemma Covers.split (h : Covers input (us ++ t :: vs) p) : Covers input us t.beg ∧ t.beg < t.stop ∧
    Munch tkFuncs (input.drop t.beg) (t.stop - t.beg) t.tk := by
  induction vs using List.reverseRecOn generalizing p with
  | nil => exact h.last.2
  | append_singleton vs v ih =>
    rw [← List.cons_append, ← List.append_assoc] at h
    exact ih h.last.2.1

/-- The class of a token is that of an automaton. -/
lemma munch_class {w : List UInt8} {n : Nat} {a : Tk} (h : Munch tkFuncs w n a) : ∃ f, (a, f) ∈ tkFuncs := by
  obtain ⟨l, f, r, hes, -⟩ := h.accepted
  exact ⟨f, hes ▸ List.mem_append_right _ List.mem_cons_self⟩

end Tokens

/-- The bytes since the last token. -/
def pending (input : List UInt8) (x : Lexing) : List UInt8 :=
  (input.drop x.beg).take (x.stop - x.beg)

/-- What holds whenever the loop begins anew. -/
structure Scanned (input : List UInt8) (x : Lexing) (ts : List Token) : Prop where
  tokens : x.tokens = fbegToken :: ts
  covers : Covers input ts x.beg
  le : x.beg ≤ x.stop
  inside : x.stop ≤ input.length
  tracks : TracksAll (pending input x) tkFuncs x.slots
  live : ∃ e ∈ tkFuncs, Live e.2 (pending input x)

section Loop

variable {input : List UInt8} {x : Lexing} {ts : List Token} {c : UInt8} {slots : List Slot} {fuel : Nat}

/-- At a token start every automaton is live. -/
lemma scanned_start {p : Nat} {tokens : List Token} (hp : p ≤ input.length)
    (ht : tokens = fbegToken :: ts) (hc : Covers input ts p) (hs : TracksAll [] tkFuncs slots) :
    Scanned input ⟨p, p, slots, tokens⟩ ts := by
  have hnil : pending input ⟨p, p, slots, tokens⟩ = [] := by simp [pending]
  obtain ⟨e, he⟩ := tkFuncs_nonempty
  exact ⟨ht, hc, Nat.le_refl _, hp, hnil ▸ hs, ⟨e, he, hnil ▸ live_nil⟩⟩

lemma Scanned.length (h : Scanned input x ts) : x.stop - x.beg ≤ (input.drop x.beg).length := by
  have := h.inside
  rw [List.length_drop]
  omega

/-- The next byte belongs to what is left. -/
lemma Scanned.take_succ (h : Scanned input x ts) (hc : input[x.stop]? = some c) :
    (input.drop x.beg).take (x.stop - x.beg + 1) = pending input x ++ [c] := by
  have hget : (input.drop x.beg)[x.stop - x.beg]? = some c := by
    rw [List.getElem?_drop, Nat.add_sub_cancel' h.le]
    exact hc
  rw [List.take_add_one, hget]
  rfl

lemma Scanned.keep (h : Scanned input x ts) (hc : input[x.stop]? = some c)
    (hs : AheadAll (pending input x) c tkFuncs slots) (hlive : ∃ s ∈ slots, s.curr ≠ .reject) :
    Scanned input { x with stop := x.stop + 1, slots := slots.map Slot.keep } ts := by
  have hp : pending input { x with stop := x.stop + 1, slots := slots.map Slot.keep } =
      pending input x ++ [c] := by
    rw [← h.take_succ hc, pending, Nat.sub_add_comm h.le]
  have hlt : x.stop < input.length := (List.getElem?_eq_some_iff.mp hc).1
  exact ⟨h.tokens, h.covers, Nat.le_succ_of_le h.le, hlt, hp ▸ hs.keep, hp ▸ hs.live_iff.mp hlive⟩

/-- What has been read is the longest live prefix, if no automaton goes on. -/
lemma Scanned.longestLive (h : Scanned input x ts)
    (hdead : ∀ c, input[x.stop]? = some c → ∀ e ∈ tkFuncs, ¬ Live e.2 (pending input x ++ [c])) :
    LongestLive tkFuncs (input.drop x.beg) (x.stop - x.beg) := by
  refine longestLive_of_next h.length h.live fun hlt => ?_
  have hstop : x.stop < input.length := by
    rw [List.length_drop] at hlt
    have := h.le
    omega
  have hc := List.getElem?_eq_getElem hstop
  rw [h.take_succ hc]
  exact hdead _ hc

/-- The token that ends here, or none. -/
lemma Scanned.token (h : Scanned input x ts) {p : Slot → Bool}
    (hll : LongestLive tkFuncs (input.drop x.beg) (x.stop - x.beg))
    (hp : List.Forall₂ (fun (e : Tk × Auto UInt8) s => p s = true ↔ Accepts e.2 (pending input x)) tkFuncs
      slots) :
    (acceptedToken p slots = .count ∧ ∀ e ∈ tkFuncs, ¬ Accepts e.2 (pending input x)) ∨
      (acceptedToken p slots ≠ .count ∧ x.beg < x.stop ∧
        Covers input (ts ++ [⟨acceptedToken p slots, x.beg, x.stop⟩]) x.stop) := by
  rcases lastWhere_spec (z := Tk.count) hp with ⟨heq, hno⟩ | ⟨l, e, r, hes, heq, ha, hr⟩
  · exact .inl ⟨heq, hno⟩
  · have hm : Munch tkFuncs (input.drop x.beg) (x.stop - x.beg) e.1 := hll.munch hes ha hr
    have hlt : x.beg < x.stop := Nat.lt_of_sub_pos hm.pos
    have heq' : acceptedToken p slots = e.1 := heq
    rw [heq']
    refine .inr ⟨tkFuncs_ne_count e ?_, hlt, .snoc ts ⟨e.1, x.beg, x.stop⟩ h.covers hlt hm⟩
    rw [hes]
    exact List.mem_append_right _ List.mem_cons_self

/-- What `lex` returns: tokens that cover the input, or a token start at which no automaton
accepts the longest prefix that is still live. -/
inductive Outcome (input : List UInt8) : LexRes → Prop
  | ok (ts : List Token) (h : Covers input ts input.length) :
    Outcome input (.ok (fbegToken :: ts ++ [fendToken]))
  | unknown (ts tokens : List Token) (p n : Nat) (h : Covers input ts p)
    (hll : LongestLive tkFuncs (input.drop p) n)
    (hno : ∀ e ∈ tkFuncs, ¬ Accepts e.2 ((input.drop p).take n)) : Outcome input (.unknownToken tokens)

lemma lexEnd_outcome (h : Scanned input x ts) (hend : input[x.stop]? = none) :
    Outcome input (lexEnd x) := by
  have hstop : x.stop = input.length :=
    Nat.le_antisymm h.inside (List.getElem?_eq_none_iff.mp hend)
  have hll := h.longestLive fun c hc => by simp [hend] at hc
  rw [lexEnd]
  rcases h.token hll h.tracks.accepts with ⟨hcount, hno⟩ | ⟨hcount, -, hcov⟩
  · rw [if_pos hcount]
    exact .unknown ts _ x.beg _ h.covers hll hno
  · rw [if_neg hcount, h.tokens]
    exact .ok _ (hstop ▸ hcov)

/-- The loop returns as the specification says, with enough fuel for two rounds a byte. -/
theorem lexLoop_outcome (h : Scanned input x ts)
    (hf : 2 * (input.length - x.stop) + (if x.beg = x.stop then 0 else 1) < fuel) :
    Outcome input (lexLoop input fuel x) := by
  induction fuel generalizing x ts with
  | zero => omega
  | succ fuel ih =>
    rw [lexLoop]
    cases hc : input[x.stop]? with
    | none => exact lexEnd_outcome h hc
    | some c =>
      have hlt : x.stop < input.length := (List.getElem?_eq_some_iff.mp hc).1
      obtain ⟨slots, hfeed, hs⟩ := feedAll_ahead (c := c) tkFuncs_orderly h.tracks
      simp only [hfeed]
      split
      · -- some automaton goes on
        rename_i hany
        have hlive : ∃ s ∈ slots, s.curr ≠ .reject := by simpa using hany
        refine ih (h.keep hc hs hlive) ?_
        have hle := h.le
        have hne : x.beg ≠ x.stop + 1 := by omega
        simp only [hne, if_false]
        omega
      · rename_i hany
        have hrej : ∀ s ∈ slots, s.curr = .reject := by simpa using hany
        have hdead : ∀ e ∈ tkFuncs, ¬ Live e.2 (pending input x ++ [c]) := fun e he hl => by
          obtain ⟨s, hs', hne⟩ := hs.live_iff.mpr ⟨e, he, hl⟩
          exact hne (hrej s hs')
        have hll := h.longestLive fun c' hc' => by
          obtain rfl := Option.some.inj (hc.symm.trans hc')
          exact hdead
        rcases h.token hll hs.accepts with ⟨hcount, hno⟩ | ⟨hcount, hbeg, hcov⟩
        · rw [if_pos hcount]
          exact .unknown ts _ x.beg _ h.covers hll hno
        · rw [if_neg hcount]
          refine ih (scanned_start h.inside ?_ hcov (hs.reset tkFuncs_orderly hrej)) ?_
          · rw [h.tokens]
            rfl
          · have hne : x.beg ≠ x.stop := Nat.ne_of_lt hbeg
            simp only [hne, if_false, if_true] at hf ⊢
            omega

end Loop

lemma lex_outcome (input : List UInt8) : Outcome input (lex input) := by
  refine lexLoop_outcome (scanned_start (Nat.zero_le _) rfl .nil tracksAll_init) ?_
  simp only [if_true]
  omega

/-- What the lexer returns covers the input. -/
lemma lex_covers {input : List UInt8} {tokens : List Token} (h : lex input = .ok tokens) :
    ∃ ts, tokens = fbegToken :: ts ++ [fendToken] ∧ Covers input ts input.length := by
  have hout := lex_outcome input
  rw [h] at hout
  cases hout with
  | ok ts hcov => exact ⟨ts, rfl, hcov⟩

/-- **The tokens of the lexer**: it always returns; if it accepts, the tokens between the markers
cover the input, each one the longest prefix of what is left that some automaton accepts, and of
the class of the last one that does; if it does not, then at some token start no automaton accepts
the longest prefix on which one is still live. -/
theorem lex_tokens (input : List UInt8) :
    (∃ tokens, lex input = .ok tokens ∨ lex input = .unknownToken tokens) ∧
    (∀ tokens, lex input = .ok tokens →
      ∃ ts, tokens = fbegToken :: ts ++ [fendToken] ∧ Covers input ts input.length) ∧
    (∀ tokens, lex input = .unknownToken tokens → ∃ ts p n, Covers input ts p ∧
      LongestLive tkFuncs (input.drop p) n ∧
      ∀ e ∈ tkFuncs, ¬ Accepts e.2 ((input.drop p).take n)) := by
  refine ⟨?_, fun _ h => lex_covers h, fun tokens h => ?_⟩
  · have hout := lex_outcome input
    generalize lex input = r at hout ⊢
    cases hout with
    | ok => exact ⟨_, .inl rfl⟩
    | unknown => exact ⟨_, .inr rfl⟩
  · have hout := lex_outcome input
    rw [h] at hout
    cases hout with
    | unknown ts _ p n hcov hll hno => exact ⟨ts, p, n, hcov, hll, hno⟩

/-- A keyword, which is also a name, and a name that begins like one. -/
example : lex ['i'.toNat.toUInt8, 'f'.toNat.toUInt8, 32, 'i'.toNat.toUInt8, 'f'.toNat.toUInt8,
    'y'.toNat.toUInt8] =
    .ok [fbegToken, ⟨.cond, 0, 2⟩, ⟨.wspc, 2, 3⟩, ⟨.name, 3, 6⟩, fendToken] := by decide +kernel

end Quaint.Munching
