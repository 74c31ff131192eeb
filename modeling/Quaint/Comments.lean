import Mathlib
import Quaint.Locating

/-!
Comments.

Once two bytes of an opening are read, one automaton alone is live, so a comment ends where that
automaton says. The one of block comments forgets a star it has seen when another star comes, so
it finds the end only behind an odd number of stars. The one of line comments never accepts
before it has seen a line break.
-/

namespace Quaint.Comments

open Lockstep Lex Munching Locating

/-! ### What ends a token -/

/-- The tokens that `lex` leaves behind, whether it accepts or not. -/
def tokensOf : LexRes → List Token
  | .ok tokens | .unknownToken tokens => tokens
  | .abort | .hang => []

/-- A token that ends where the last automaton dies, or that has no class because none accepts
there. -/
def Cut (input : List UInt8) (t : Token) : Prop :=
  ∃ n, LongestLive tkFuncs (input.drop t.beg) n ∧
    ((t.stop = t.beg + n ∧ Munch tkFuncs (input.drop t.beg) n t.tk) ∨
      (t.tk = .count ∧ ∀ e ∈ tkFuncs, ¬ Accepts e.2 ((input.drop t.beg).take n)))

section Loop

variable {input : List UInt8} {x : Lexing} {ts : List Token} {t : Token} {slots : List Slot} {fuel : Nat}

/-- A token between the two markers is cut off where it should be. -/
def AllCut (input : List UInt8) (tokens : List Token) : Prop :=
  ∀ t ∈ tokens, t ≠ fbegToken → t ≠ fendToken → Cut input t

lemma allCut_snoc {tokens : List Token} (h : AllCut input tokens) (ht : t ≠ fendToken → Cut input t) :
    AllCut input (tokens ++ [t]) := by
  intro t' ht' hbeg hend
  rcases List.mem_append.mp ht' with ht' | ht'
  · exact h t' ht' hbeg hend
  · obtain rfl := List.mem_singleton.mp ht'
    exact ht hend

/-- The token that is pushed next, whether it has a class or not. -/
lemma Scanned.cut (h : Scanned input x ts) {p : Slot → Bool} {stop : Nat}
    (hll : LongestLive tkFuncs (input.drop x.beg) (x.stop - x.beg))
    (hp : List.Forall₂ (fun (e : Tk × Auto UInt8) s => p s = true ↔ Accepts e.2 (pending input x)) tkFuncs
      slots) (hstop : acceptedToken p slots ≠ .count → stop = x.stop) :
    Cut input ⟨acceptedToken p slots, x.beg, stop⟩ := by
  refine ⟨x.stop - x.beg, hll, ?_⟩
  rcases h.token hll hp with ⟨hcount, hno⟩ | ⟨hcount, hlt, hcov⟩
  · exact .inr ⟨hcount, hno⟩
  · refine .inl ⟨?_, hcov.last.2.2.2⟩
    simp only [hstop hcount]
    omega

lemma lexEnd_cut (h : Scanned input x ts) (hend : input[x.stop]? = none) (hx : AllCut input x.tokens) :
    AllCut input (tokensOf (lexEnd x)) := by
  have hll := h.longestLive fun c hc => by simp [hend] at hc
  have hcut := allCut_snoc hx fun _ => Scanned.cut h hll h.tracks.accepts fun _ => rfl
  rw [lexEnd]
  split
  · exact hcut
  · exact allCut_snoc hcut fun hne => absurd rfl hne

lemma lexLoop_cut (h : Scanned input x ts) (hx : AllCut input x.tokens) :
    AllCut input (tokensOf (lexLoop input fuel x)) := by
  induction fuel generalizing x ts with
  | zero => exact nofun
  | succ fuel ih =>
    rw [lexLoop]
    cases hc : input[x.stop]? with
    | none => exact lexEnd_cut h hc hx
    | some c =>
      obtain ⟨slots, hfeed, hs⟩ := feedAll_ahead (c := c) tkFuncs_orderly h.tracks
      simp only [hfeed]
      split
      · rename_i hany
        exact ih (h.keep hc hs (by simpa using hany)) hx
      · rename_i hany
        have hrej : ∀ s ∈ slots, s.curr = .reject := by simpa using hany
        have hdead : ∀ e ∈ tkFuncs, ¬ Live e.2 (pending input x ++ [c]) := fun e he hl => by
          obtain ⟨s, hs', hne⟩ := hs.live_iff.mpr ⟨e, he, hl⟩
          exact hne (hrej s hs')
        have hll := h.longestLive fun c' hc' => by
          obtain rfl := Option.some.inj (hc.symm.trans hc')
          exact hdead
        split
        · rename_i hcount
          exact allCut_snoc hx fun _ => Scanned.cut h hll hs.accepts fun hne => absurd hcount hne
        · rename_i hcount
          rcases h.token hll hs.accepts with ⟨hno, -⟩ | ⟨-, -, hcov⟩
          · exact absurd hno hcount
          · refine ih (scanned_start h.inside ?_ hcov (hs.reset tkFuncs_orderly hrej))
              (allCut_snoc hx fun _ => Scanned.cut h hll hs.accepts fun _ => rfl)
            rw [h.tokens]
            rfl

/-- Every token of a run is cut off where the last automaton dies. -/
theorem lex_cut (input : List UInt8) : AllCut input (tokensOf (lex input)) := by
  refine lexLoop_cut (scanned_start (Nat.zero_le _) rfl .nil tracksAll_init) ?_
  intro t ht hbeg
  exact absurd (List.mem_singleton.mp ht) hbeg

end Loop

/-! ### A sole automaton -/

section Sole

variable {input w : List UInt8} {t : Token} {a : Tk} {f : Auto UInt8} {n k : Nat}

/-- Of all automata only one is live on a word. -/
def Sole (a : Tk) (f : Auto UInt8) (w : List UInt8) : Prop :=
  (a, f) ∈ tkFuncs ∧ ∀ e ∈ tkFuncs, Live e.2 w → e = (a, f)

lemma Sole.append {v : List UInt8} (h : Sole a f w) : Sole a f (w ++ v) :=
  ⟨h.1, fun e he hl => h.2 e he (live_of_append hl)⟩

lemma LongestLive.le_of_live (h : LongestLive tkFuncs w n) (hf : (a, f) ∈ tkFuncs)
    (hl : Live f (w.take k)) (hk : k ≤ w.length) : k ≤ n :=
  Nat.le_of_not_lt fun hlt => h.dead k hlt hk _ hf hl

/-- The class of the longest token is that of the sole automaton, if it accepts there. -/
lemma Munch.of_sole (h : Munch tkFuncs w n t.tk) (hs : Sole a f (w.take n)) :
    t.tk = a ∧ Accepts f (w.take n) := by
  obtain ⟨l, g, r, hes, ha, -⟩ := h.accepted
  have he : (t.tk, g) ∈ tkFuncs := hes ▸ List.mem_append_right _ List.mem_cons_self
  obtain ⟨rfl, rfl⟩ := Prod.mk.inj (hs.2 _ he ha.live)
  exact ⟨rfl, ha⟩

variable {u v : List UInt8} (hdrop : input.drop t.beg = u ++ v)
include hdrop

/-- The token ends behind a word on which the sole automaton accepts and then dies. -/
lemma Cut.accepted (h : Cut input t) (hs : Sole a f u) (ha : Accepts f u)
    (hdead : ∀ c, ¬ Live f (u ++ [c])) : t = ⟨a, t.beg, t.beg + u.length⟩ := by
  obtain ⟨n, hll, hcut⟩ := h
  have htake : (input.drop t.beg).take u.length = u := by rw [hdrop, List.take_left' rfl]
  have hlen : u.length ≤ (input.drop t.beg).length := by rw [hdrop, List.length_append]; omega
  have hn : n = u.length := by
    refine Nat.le_antisymm (Nat.le_of_not_lt fun hlt => ?_)
      (LongestLive.le_of_live hll hs.1 (htake.symm ▸ ha.live) hlen)
    obtain ⟨e, he, hl⟩ := hll.live
    obtain ⟨c, v', rfl⟩ : ∃ c v', v = c :: v' := by
      cases v with
      | nil =>
        have := hll.le
        rw [hdrop, List.append_nil] at this
        omega
      | cons c v' => exact ⟨c, v', rfl⟩
    have hpre : (input.drop t.beg).take n = u ++ [c] ++ v'.take (n - u.length - 1) := by
      rw [hdrop, List.take_append, List.take_of_length_le (by omega), List.append_assoc,
        show n - u.length = n - u.length - 1 + 1 by omega, List.take_succ_cons]
      rfl
    rw [hpre] at hl
    obtain rfl := hs.2 e he (live_of_append (live_of_append hl))
    exact hdead c (live_of_append hl)
  subst hn
  rw [htake] at hcut
  rcases hcut with ⟨hstop, hm⟩ | ⟨-, hno⟩
  · rw [← htake] at hs
    obtain ⟨htk, -⟩ := Munch.of_sole hm hs
    cases t
    simp_all
  · exact absurd ha (hno _ hs.1)

/-- The token does not end behind a word on which the sole automaton is live and does not
accept. -/
lemma Cut.hungry (h : Cut input t) (hs : Sole a f u) (hna : ¬ Accepts f u) :
    t ≠ ⟨a, t.beg, t.beg + u.length⟩ := by
  intro ht
  obtain ⟨n, hll, ⟨hstop, hm⟩ | ⟨htk, -⟩⟩ := h
  · have hn : n = u.length := by
      have := congrArg Token.stop ht
      simp only at this
      omega
    have htake : (input.drop t.beg).take n = u := by rw [hdrop, hn, List.take_left' rfl]
    exact hna (htake ▸ (Munch.of_sole hm (htake.symm ▸ hs)).2)
  · have hne : ∀ e ∈ tkFuncs, e.1 ≠ .count := tkFuncs_ne_count
    exact hne _ hs.1 ((congrArg Token.tk ht).symm.trans htk)

end Sole

/-! ### The two automata -/

def opening : List UInt8 := [47, 42]
def closing : List UInt8 := [42, 47]
def slashes : List UInt8 := [47, 47]

/-- The run of stars at the end of a text. -/
def stars (text : List UInt8) : Nat := (text.reverse.takeWhile fun c => c == 42).length

section Automata

variable {body : List UInt8}

lemma sole_of_class {a : Tk} {f : Auto UInt8} {w : List UInt8} (hf : (a, f) ∈ tkFuncs)
    (h : ∀ e ∈ tkFuncs, Live e.2 w → e.1 = a) : Sole a f w := by
  have hnodup : (tkFuncs.map Prod.fst).Nodup := by decide +kernel
  exact ⟨hf, fun e he hl => List.inj_on_of_nodup_map hnodup he hf (h e he hl)⟩

lemma sole_block : Sole .bcom tkBcom opening :=
  sole_of_class (by simp [tkFuncs]) (by decide)

lemma sole_line : Sole .lcom tkLcom slashes :=
  sole_of_class (by simp [tkFuncs]) (by decide)

lemma stars_snoc (w : List UInt8) (c : UInt8) :
    stars (w ++ [c]) = if c = 42 then stars w + 1 else 0 := by
  rw [stars, List.reverse_append, List.reverse_singleton, List.singleton_append, List.takeWhile_cons]
  by_cases hc : c = 42
  · simp [hc, stars]
  · simp [hc]

lemma ends_in_star (h : stars body ≠ 0) : ∃ w, body = w ++ [42] := by
  induction body using List.reverseRecOn with
  | nil => exact absurd rfl h
  | append_singleton w c _ =>
    rw [stars_snoc] at h
    split at h
    · rename_i hc
      exact ⟨w, hc ▸ rfl⟩
    · exact absurd rfl h

/-- Inside a block comment the automaton has seen a star, unless it has seen an even number of
them. -/
lemma after_bcom (h : ¬ closing <:+: body) :
    after tkBcom (opening ++ body) = some (.hungry, if stars body % 2 = 0 then 2 else 3) := by
  induction body using List.reverseRecOn with
  | nil => rfl
  | append_singleton w c ih =>
    have hw : ¬ closing <:+: w := fun hi => h (hi.trans (List.prefix_append w [c]).isInfix)
    rw [← List.append_assoc, after_snoc, ih hw, Option.bind_some, stars_snoc]
    by_cases heven : stars w % 2 = 0
    · by_cases hc : c = 42
      · simp [heven, hc, move, tkBcom, show (stars w + 1) % 2 = 1 by omega]
      · have hc' : c.toNat ≠ 42 := fun heq => hc (UInt8.toNat_inj.mp heq)
        simp [heven, hc, hc', move, tkBcom]
    · have hslash : c.toNat ≠ 47 := by
        intro hc
        obtain rfl : c = 47 := UInt8.toNat_inj.mp hc
        have hstars : stars w ≠ 0 := by omega
        obtain ⟨w', rfl⟩ := ends_in_star hstars
        exact h ⟨w', [], by simp [closing]⟩
      by_cases hc : c = 42
      · simp [heven, hc, move, tkBcom, show (stars w + 1) % 2 = 0 by omega]
      · simp [heven, hc, hslash, move, tkBcom]

lemma after_lcom (h : ∀ b ∈ body, isBreak b = false) :
    after tkLcom (slashes ++ body) = some (.hungry, 2) := by
  induction body using List.reverseRecOn with
  | nil => rfl
  | append_singleton w c ih =>
    rw [← List.append_assoc, after_snoc, ih fun b hb => h b (List.mem_append_left _ hb), Option.bind_some]
    have hc := h c (List.mem_append_right _ List.mem_cons_self)
    simp only [isBreak, Bool.or_eq_false_iff, beq_eq_false_iff_ne, ne_eq] at hc
    have h10 : c.toNat ≠ 10 := fun heq => hc.1 (UInt8.toNat_inj.mp heq)
    have h13 : c.toNat ≠ 13 := fun heq => hc.2 (UInt8.toNat_inj.mp heq)
    simp [move, tkLcom, h10, h13]

/-- At the first end of a block comment the automaton accepts behind an odd number of stars, the
last one included, and goes on behind an even one. -/
lemma after_closing (h : ¬ closing <:+: body) : after tkBcom (opening ++ body ++ closing) =
    some (if stars body % 2 = 0 then (.accept, 4) else (.hungry, 2)) := by
  rw [after_append, after_bcom h]
  by_cases heven : stars body % 2 = 0
  · rw [if_pos heven, if_pos heven]
    rfl
  · rw [if_neg heven, if_neg heven]
    rfl

lemma after_break {c : UInt8} (h : ∀ b ∈ body, isBreak b = false) (hc : isBreak c = true) :
    after tkLcom (slashes ++ body ++ [c]) = some (.accept, 3) := by
  rw [after_snoc, after_lcom h, Option.bind_some]
  rw [isBreak, Bool.or_eq_true, beq_iff_eq, beq_iff_eq] at hc
  rcases hc with rfl | rfl <;> rfl

end Automata

/-! ### Where comments end -/

/-- A comment that begins with a token ends where it should: a block comment at the first closing
behind its opening, a line comment at the first line break, or, if there is none, with the input,
which is then accepted. -/
structure EndsRight (input : List UInt8) (t : Token) : Prop where
  block : ∀ body rest, input.drop t.beg = opening ++ body ++ closing ++ rest → ¬ closing <:+: body →
    t = ⟨.bcom, t.beg, t.beg + (opening ++ body ++ closing).length⟩
  line : ∀ body c rest, input.drop t.beg = slashes ++ body ++ [c] ++ rest →
    (∀ b ∈ body, isBreak b = false) → isBreak c = true →
      t = ⟨.lcom, t.beg, t.beg + (slashes ++ body ++ [c]).length⟩
  last : ∀ body, input.drop t.beg = slashes ++ body → (∀ b ∈ body, isBreak b = false) →
    t = ⟨.lcom, t.beg, t.beg + (slashes ++ body).length⟩ ∧ ∃ tokens, lex input = .ok tokens

/-- A block comment whose first closing stands behind an odd run of stars, or a line comment that
no line break ends. -/
def Slips (text : List UInt8) : Prop :=
  (∃ body rest, text = opening ++ body ++ closing ++ rest ∧ ¬ closing <:+: body ∧ stars body % 2 = 1) ∨
    ∃ body, text = slashes ++ body ∧ ∀ b ∈ body, isBreak b = false

section Ends

variable {input : List UInt8} {t : Token}

lemma Cut.block_iff (h : Cut input t) {body rest : List UInt8}
    (hdrop : input.drop t.beg = opening ++ body ++ closing ++ rest) (hb : ¬ closing <:+: body) :
    t = ⟨.bcom, t.beg, t.beg + (opening ++ body ++ closing).length⟩ ↔ stars body % 2 = 0 := by
  have hs : Sole .bcom tkBcom (opening ++ body ++ closing) := sole_block.append.append
  have hafter := after_closing hb
  by_cases heven : stars body % 2 = 0
  · rw [if_pos heven] at hafter
    refine iff_of_true (Cut.accepted hdrop h hs (status_of_after hafter) fun c hl => hl ?_) heven
    exact status_of_after (p := (.reject, 0)) (by rw [after_snoc, hafter]; rfl)
  · rw [if_neg heven] at hafter
    refine iff_of_false (Cut.hungry hdrop h hs fun ha => ?_) heven
    cases (status_of_after hafter).symm.trans ha

lemma Cut.line (h : Cut input t) {body rest : List UInt8} {c : UInt8}
    (hdrop : input.drop t.beg = slashes ++ body ++ [c] ++ rest) (hb : ∀ b ∈ body, isBreak b = false)
    (hc : isBreak c = true) : t = ⟨.lcom, t.beg, t.beg + (slashes ++ body ++ [c]).length⟩ := by
  have hafter := after_break hb hc
  refine Cut.accepted hdrop h sole_line.append.append (status_of_after hafter) fun c hl => hl ?_
  exact status_of_after (p := (.reject, 0)) (by rw [after_snoc, hafter]; rfl)

lemma Cut.last (h : Cut input t) {body : List UInt8} (hdrop : input.drop t.beg = slashes ++ body)
    (hb : ∀ b ∈ body, isBreak b = false) :
    t ≠ ⟨.lcom, t.beg, t.beg + (slashes ++ body).length⟩ := by
  refine Cut.hungry (v := []) (by rw [hdrop, List.append_nil]) h sole_line.append fun ha => ?_
  cases (status_of_after (after_lcom hb)).symm.trans ha

/-- **When a comment ends where it should**: exactly if the run of stars at its first closing is
odd, and a line break ends it if it is a line comment. -/
theorem endsRight_iff (ht : t ∈ tokensOf (lex input)) (hbeg : t ≠ fbegToken) (hend : t ≠ fendToken) :
    EndsRight input t ↔ ¬ Slips (input.drop t.beg) := by
  have hcut := lex_cut input t ht hbeg hend
  constructor
  · rintro hr (⟨body, rest, hdrop, hb, hodd⟩ | ⟨body, hdrop, hb⟩)
    · have heven := (Cut.block_iff hcut hdrop hb).mp (hr.block body rest hdrop hb)
      omega
    · exact Cut.last hcut hdrop hb (hr.last body hdrop hb).1
  · intro hno
    refine ⟨fun body rest hdrop hb => (Cut.block_iff hcut hdrop hb).mpr ?_,
      fun body c rest hdrop hb hc => Cut.line hcut hdrop hb hc,
      fun body hdrop hb => absurd (.inr ⟨body, hdrop, hb⟩) hno⟩
    by_contra hodd
    exact hno (.inl ⟨body, rest, hdrop, hb, by omega⟩)

end Ends

/-- A comment with nothing in it, and one of a line. -/
def soundInput : List UInt8 := [47, 42, 42, 47, 47, 47, 10]

theorem endsRight_sound : EndsRight soundInput ⟨.bcom, 0, 4⟩ ↔ ¬ Slips (soundInput.drop 0) :=
  endsRight_iff (t := ⟨.bcom, 0, 4⟩) (by decide +kernel) (by decide) (by decide)

/-- A comment that holds one star is not found to end, and neither is one of a line at the end of
the input. -/
theorem comment_slips :
    (lex [47, 42, 42, 42, 47] = .unknownToken [fbegToken, ⟨.count, 0, 5⟩] ∧
      ¬ EndsRight [47, 42, 42, 42, 47] ⟨.count, 0, 5⟩) ∧
    lex [47, 47] = .unknownToken [fbegToken, ⟨.count, 0, 2⟩] ∧ ¬ EndsRight [47, 47] ⟨.count, 0, 2⟩ := by
  refine ⟨⟨by decide +kernel, fun h => ?_⟩, by decide +kernel, fun h => ?_⟩
  · exact absurd (h.block [42] [] rfl (by decide)) (by decide)
  · exact absurd (h.last [] rfl nofun).1 (by decide)

end Quaint.Comments
