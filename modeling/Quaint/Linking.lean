import Quaint.Defined
import Quaint.Legality

/-!
The addresses in the code of an object.

Every jump stays inside its function, every saved return address is that of the call it
belongs to, and every function a program names is called at its first instruction.
-/

namespace Quaint.Linking

open Types Ast Scope TypeCheck Code Codegen Program Typing Layout Emit Generated Listing Operand Legality Defined

/-! ### Jumps -/

/-- Where an instruction may jump to. -/
def target : Insn → Option Nat
  | .jz _ _ loc | .jmp loc => some loc
  | _ => none

/-- The jumps of the code stay between the two places. -/
def JumpsIn (lo hi : Nat) (code : List Insn) : Prop := ∀ i ∈ code, ∀ t, target i = some t → lo ≤ t ∧ t ≤ hi

/-- The place the branches of an `else if` jump to when they end. -/
def itemFin : Item → Option Nat
  | .elifs _ fin => some fin
  | _ => none

section Jumps

variable {lo hi : Nat} {cx : Cx} {x : Item} {p p' : Pt} {code c1 c2 : List Insn} {r : Option Opd} {i : Insn}
  {a b : Opd} {t : Ty}

@[simp] lemma jumpsIn_nil : JumpsIn lo hi [] := List.forall_mem_nil _

@[simp] lemma jumpsIn_append : JumpsIn lo hi (c1 ++ c2) ↔ JumpsIn lo hi c1 ∧ JumpsIn lo hi c2 :=
  List.forall_mem_append

@[simp] lemma jumpsIn_cons :
    JumpsIn lo hi (i :: code) ↔ (∀ t, target i = some t → lo ≤ t ∧ t ≤ hi) ∧ JumpsIn lo hi code :=
  List.forall_mem_cons

@[simp] lemma bound_ip : p.bound.ip = p.ip := rfl

lemma fin_none (h : itemFin x = none) : ∀ t, itemFin x = some t → lo ≤ t ∧ t ≤ hi := by
  simp [h]

lemma scaled_jumps {m : Nat} (h : Scaled p m a code b p') : p.ip ≤ p'.ip ∧ JumpsIn lo hi code := by
  cases h <;> simp [target]

lemma indexed_jumps {m k : Nat} (h : Indexed p m k a code b p') : p.ip ≤ p'.ip ∧ JumpsIn lo hi code := by
  cases h <;> simp [target]

lemma fetched_jumps (h : Fetched p a code b p') : p.ip ≤ p'.ip ∧ JumpsIn lo hi code := by
  cases h <;> simp [target]

lemma base_jumps (h : Base p a code b p') : p.ip ≤ p'.ip ∧ JumpsIn lo hi code := by
  cases h <;> simp [target]

lemma inits_jumps {ns : List Sym} (h : Inits cx t a ns code) : JumpsIn lo hi code := by
  induction h with
  | nil => simp
  | cons n ns ofs code hn h ih => simp [target, ih]

/-- **The jumps of an item stay in it**, if the end they jump to does. -/
theorem jumps_item (h : Emit cx x p code r p') : lo ≤ p.ip → p'.ip ≤ hi →
    (∀ t, itemFin x = some t → lo ≤ t ∧ t ≤ hi) → JumpsIn lo hi code := by
  induction h with
  | assn hl hr ihl ihr | asmu _ hl hr ihl ihr | waitFor hl hr _ ihl ihr =>
    intro h1 h2 _
    have e1 := emit_le hl
    have e2 := emit_le hr
    simp only [skip_ip, reset_ip] at h2
    simp [target, ihl h1 (by omega) (fin_none rfl), ihr (by omega) (by omega) (fin_none rfl)]
  | coma hl hr ihl ihr =>
    intro h1 h2 _
    have e1 := emit_le hl
    have e2 : _ ≤ _ := emit_le hr
    rw [reset_ip] at e2
    simp [ihl h1 (by omega) (fin_none rfl), ihr (h1.trans e1) h2 (fin_none rfl)]
  | stmtsCons hl hr ihl ihr =>
    intro h1 h2 _
    have e1 : _ ≤ _ := emit_le hl
    have e2 := emit_le hr
    rw [bound_ip] at e1
    simp [ihl h1 (by omega) (fin_none rfl), ihr (by omega) h2 (fin_none rfl)]
  | equl hop hl hr _ ihl ihr =>
    intro h1 h2 _
    have e1 := emit_le hl
    have e2 := emit_le hr
    simp only [skip_ip, alloc_ip] at h2
    obtain ⟨neq, rfl⟩ | ⟨cop, rfl⟩ | ⟨aop, rfl⟩ := bexpInsn_cases hop <;>
      simp [target, ihl h1 (by omega) (fin_none rfl), ihr (by omega) (by omega) (fin_none rfl)]
  | plus _ hl hr hs _ ihl ihr | aspl _ hl hr hs _ ihl ihr =>
    intro h1 h2 _
    have e1 := emit_le hl
    have e2 := emit_le hr
    obtain ⟨e3, hj⟩ : _ ∧ JumpsIn lo hi _ := scaled_jumps hs
    simp only [skip_ip, alloc_ip] at h2
    simp [target, hj, ihl h1 (by omega) (fin_none rfl), ihr (by omega) (by omega) (fin_none rfl)]
  | conj _ hl _ hr ihl ihr =>
    intro h1 h2 _
    have e1 := emit_le hl
    have e2 := emit_le hr
    simp only [skip_ip, alloc_ip] at e2 h2
    simp [target, ihl h1 (by omega) (fin_none rfl), ihr (by simp; omega) (by omega) (fin_none rfl)]
    omega
  | scop | szof | name | nmbr | argsNil | decl | stmtsNil | elifsNone =>
    intro _ _ _
    exact jumpsIn_nil
  | retn | wlab | strl =>
    intro _ _ _
    simp [target]
  | arow _ hl hf _ ih =>
    intro h1 h2 _
    obtain ⟨e, hj⟩ : _ ∧ JumpsIn lo hi _ := fetched_jumps hf
    simp only [skip_ip, alloc_ip] at h2
    simp [target, hj, ih h1 (by omega) (fin_none rfl)]
  | aexp hb ho hi' ha ihb iho =>
    intro h1 h2 _
    have e1 := emit_le hb
    have e2 := emit_le ho
    obtain ⟨e3, hj3⟩ : _ ∧ JumpsIn lo hi _ := indexed_jumps hi'
    obtain ⟨e4, hj4⟩ : _ ∧ JumpsIn lo hi _ := base_jumps ha
    simp only [skip_ip, alloc_ip] at h2
    simp [target, hj3, hj4, ihb h1 (by omega) (fin_none rfl), iho (by omega) (by omega) (fin_none rfl)]
  | memb _ _ _ ih | uplus _ ih | multLvalue _ _ ih | blok _ ih =>
    intro h1 h2 _
    exact ih h1 h2 (fin_none rfl)
  | els _ ih =>
    intro h1 h2 _
    exact ih h1 h2 (fin_none rfl)
  | atsi _ _ _ ih | membIndirect _ _ _ ih | cast _ _ ih | tild _ _ _ ih
  | multRvalue _ _ _ ih | multValue _ _ _ ih | multVoid _ _ _ ih | amps _ _ ih | incr _ _ _ ih
  | incrBy _ _ _ ih | xexp _ _ _ ih | xexpBy _ _ _ ih | retnValue _ ih | wait _ _ ih | exprStmt _ ih =>
    intro h1 h2 _
    simp only [skip_ip, alloc_ip, reset_ip] at h2
    simp [target, ih h1 (by omega) (fin_none rfl)]
  | unary hop _ _ ih =>
    intro h1 h2 _
    simp only [skip_ip, alloc_ip] at h2
    obtain rfl | rfl | rfl := unaryInsn_cases hop <;> simp [target, ih h1 (by omega) (fin_none rfl)]
  | declInit _ hi' ih =>
    intro h1 h2 _
    simp only [skip_ip, reset_ip] at h2
    simp [inits_jumps hi', ih h1 (by omega) (fin_none rfl)]
  | tildCall _ ha hl iha ihl | callv _ ha hl iha ihl | call _ ha hl iha ihl =>
    intro h1 h2 _
    have e1 := emit_le ha
    have e2 := emit_le hl
    simp only [skip_ip, alloc_ip, note_ip] at e1 h2
    simp [target, iha (by simp; omega) (by omega) (fin_none rfl), ihl (by omega) (by omega) (fin_none rfl)]
  | texp hc _ ht hf ihc iht ihf =>
    intro h1 h2 _
    have e1 := emit_le hc
    have e2 := emit_le ht
    have e3 := emit_le hf
    simp only [skip_ip, alloc_ip, reset_ip] at e2 e3 h2
    simp [target, ihc h1 (by omega) (fin_none rfl), iht (by simp; omega) (by omega) (fin_none rfl),
      ihf (by simp; omega) (by omega) (fin_none rfl)]
    omega
  | argsCons h hr ih ihr =>
    intro h1 h2 _
    have e1 := emit_le h
    have e2 := emit_le hr
    simp only [skip_ip] at e2
    simp [target, ih h1 (by omega) (fin_none rfl), ihr (by simp; omega) h2 (fin_none rfl)]
  | cond he hb hr ihe ihb ihr =>
    intro h1 h2 _
    have e1 := emit_le he
    have e2 := emit_le hb
    have e3 := emit_le hr
    simp only [skip_ip, reset_ip] at e2 e3 h2
    have hrest := ihr (by simp; omega) h2 fun t ht => by
      obtain rfl := Option.some.inj ht
      omega
    simp [target, ihe h1 (by omega) (fin_none rfl), ihb (by simp; omega) (by omega) (fin_none rfl), hrest]
    omega
  | elif he hb hr ihe ihb ihr =>
    intro h1 h2 h3
    have e1 := emit_le he
    have e2 := emit_le hb
    have e3 := emit_le hr
    have hfin := h3 _ rfl
    simp only [skip_ip, reset_ip] at e2 e3 h2
    simp [target, ihe h1 (by omega) (fin_none rfl), ihb (by simp; omega) (by omega) (fin_none rfl),
      ihr (by simp; omega) h2 h3]
    omega
  | noin _ ih =>
    intro h1 h2 _
    simp only [skip_ip, reset_ip] at h2
    simp [target, ih (by simp; omega) (by omega) (fin_none rfl)]
  | whil he hb ihe ihb =>
    intro h1 h2 _
    have e1 := emit_le he
    have e2 := emit_le hb
    simp only [skip_ip, reset_ip] at e2 h2
    simp [target, ihe h1 (by omega) (fin_none rfl), ihb (by simp; omega) (by omega) (fin_none rfl)]
    omega
  | dowh hb he ihb ihe =>
    intro h1 h2 _
    have e1 := emit_le hb
    have e2 := emit_le he
    simp only [skip_ip, reset_ip] at h2
    simp [target, ihb h1 (by omega) (fin_none rfl), ihe (by omega) (by omega) (fin_none rfl)]
    omega

end Jumps

/-! ### Calls -/

/-- The code read from the place `ip` on: each call is that of the last return address not
taken yet, and takes the stack pointer saved with it. -/
def callsMatch : Nat → List (Opd × Opd) → List Insn → Bool
  | _, saved, [] => saved.isEmpty
  | ip, saved, .pushr v ssp :: rest => callsMatch (ip + 1) ((v, ssp) :: saved) rest
  | ip, (v, ssp) :: saved, .call _ bp :: rest | ip, (v, ssp) :: saved, .callv _ _ bp :: rest =>
    v == opdImm false ip 8 && ssp == bp && callsMatch (ip + 1) saved rest
  | _, [], .call _ _ :: _ | _, [], .callv _ _ _ :: _ => false
  | ip, saved, _ :: rest => callsMatch (ip + 1) saved rest

/-- The linked code from the one place to the other takes all the addresses it saves. -/
def Balanced (fns : List Fn) (ip : Nat) (code : List Insn) (ip' : Nat) : Prop :=
  ∀ saved rest, callsMatch ip saved (code.map (link fns) ++ rest) = callsMatch ip' saved rest

/-- The instruction neither saves a return address nor takes one. -/
def plain : Insn → Bool
  | .pushr _ _ | .call _ _ | .callv _ _ _ => false
  | _ => true

section Calls

variable {fns : List Fn} {ip ip1 ip2 : Nat} {cx : Cx} {x : Item} {p p' : Pt} {code c1 c2 : List Insn}
  {r : Option Opd} {i : Insn} {a b : Opd} {t : Ty}

lemma balanced_nil : Balanced fns ip [] ip := fun _ _ => rfl

lemma Balanced.append (h1 : Balanced fns ip c1 ip1) (h2 : Balanced fns ip1 c2 ip2) :
    Balanced fns ip (c1 ++ c2) ip2 := by
  intro saved rest
  rw [List.map_append, List.append_assoc, h1, h2]

lemma callsMatch_plain (h : plain i = true) (saved : List (Opd × Opd)) (rest : List Insn) :
    callsMatch ip saved (link fns i :: rest) = callsMatch (ip + 1) saved rest := by
  cases i <;> first | (cases h; done) | rfl

lemma balanced_plain (h : code.all plain = true) : Balanced fns ip code (ip + code.length) := by
  induction code generalizing ip with
  | nil => exact balanced_nil
  | cons i code ih =>
    simp only [List.all_cons, Bool.and_eq_true] at h
    intro saved rest
    rw [List.map_cons, List.cons_append, callsMatch_plain h.1, ih h.2, List.length_cons, Nat.add_assoc,
      Nat.add_comm 1]

/-- Other instructions may follow. -/
lemma Balanced.tail (h : Balanced fns ip c1 ip1) (h2 : c2.all plain = true) :
    Balanced fns ip (c1 ++ c2) (ip1 + c2.length) := h.append (balanced_plain h2)

lemma Balanced.head (h : Balanced fns (ip + c1.length) c2 ip2) (h1 : c1.all plain = true) :
    Balanced fns ip (c1 ++ c2) ip2 := (balanced_plain h1).append h

lemma balanced_call (h : Balanced fns (ip + 1) code ip1) :
    Balanced fns ip ([Insn.pushr (opdImm false ip1 8) p.word] ++ code ++ [Insn.call a p.word]) (ip1 + 1) := by
  intro saved rest
  have hin := h ((opdImm false ip1 8, p.word) :: saved) (.call (printOpd (locsOf fns) a) p.word :: rest)
  simpa [link, Insn.mapOpds, callsMatch] using hin

lemma balanced_callv (h : Balanced fns (ip + 1) code ip1) :
    Balanced fns ip ([Insn.pushr (opdImm false ip1 8) p.word] ++ code ++ [Insn.callv b a p.word]) (ip1 + 1) := by
  intro saved rest
  have hin := h ((opdImm false ip1 8, p.word) :: saved)
    (.callv (printOpd (locsOf fns) b) (printOpd (locsOf fns) a) p.word :: rest)
  simpa [link, Insn.mapOpds, callsMatch] using hin

lemma scaled_balanced {m : Nat} (h : Scaled p m a code b p') : Balanced fns p.ip code p'.ip := by
  cases h with
  | one => exact balanced_nil
  | many => exact balanced_plain rfl

lemma indexed_balanced {m k : Nat} (h : Indexed p m k a code b p') : Balanced fns p.ip code p'.ip := by
  cases h with
  | byte => exact balanced_nil
  | widen | scale | both => exact balanced_plain rfl

lemma fetched_balanced (h : Fetched p a code b p') : Balanced fns p.ip code p'.ip := by
  cases h with
  | direct => exact balanced_nil
  | indirect => exact balanced_plain rfl

lemma base_balanced (h : Base p a code b p') : Balanced fns p.ip code p'.ip := by
  cases h with
  | indirect => exact balanced_nil
  | direct => exact balanced_plain rfl

lemma inits_plain {ns : List Sym} (h : Inits cx t a ns code) : code.all plain = true := by
  induction h with
  | nil => rfl
  | cons n ns ofs code hn h ih => exact ih

/-- **The calls of an item match the return addresses saved in it.** -/
theorem balanced_item (h : Emit cx x p code r p') : Balanced fns p.ip code p'.ip := by
  induction h with
  | assn _ _ ihl ihr | asmu _ _ _ ihl ihr | waitFor _ _ _ ihl ihr => exact (ihl.append ihr).tail rfl
  | equl hop _ _ _ ihl ihr =>
    obtain ⟨neq, rfl⟩ | ⟨cop, rfl⟩ | ⟨aop, rfl⟩ := bexpInsn_cases hop <;> exact (ihl.append ihr).tail rfl
  | plus _ _ _ hs _ ihl ihr | aspl _ _ _ hs _ ihl ihr =>
    exact ((ihl.append ihr).append (scaled_balanced hs)).tail rfl
  | conj _ _ _ _ ihl ihr => exact .tail (.append (.tail ihl rfl) ihr) rfl
  | coma _ _ ihl ihr | stmtsCons _ _ ihl ihr => exact ihl.append ihr
  | scop | szof | name | nmbr | argsNil | decl | stmtsNil | elifsNone => exact balanced_nil
  | retn | wlab | strl => exact balanced_plain rfl
  | arow _ _ hf _ ih => exact (ih.append (fetched_balanced hf)).tail rfl
  | aexp _ _ hi ha ihb iho =>
    exact (((ihb.append iho).append (indexed_balanced hi)).append (base_balanced ha)).tail rfl
  | memb _ _ _ ih | uplus _ ih | multLvalue _ _ ih | blok _ ih | els _ ih => exact ih
  | atsi _ _ _ ih | membIndirect _ _ _ ih | cast _ _ ih | tild _ _ _ ih
  | multRvalue _ _ _ ih | multValue _ _ _ ih | multVoid _ _ _ ih | amps _ _ ih | incr _ _ _ ih
  | incrBy _ _ _ ih | xexp _ _ _ ih | xexpBy _ _ _ ih | retnValue _ ih | wait _ _ ih
  | exprStmt _ ih => exact ih.tail rfl
  | unary hop _ _ ih => obtain rfl | rfl | rfl := unaryInsn_cases hop <;> exact ih.tail rfl
  | declInit _ hi ih => exact ih.tail (inits_plain hi)
  | tildCall _ _ _ iha ihl => exact ((iha.head rfl).append ihl).tail rfl
  | callv _ _ _ iha ihl =>
    rw [List.append_assoc [_]]
    exact balanced_callv (iha.append ihl)
  | call _ _ _ iha ihl =>
    rw [List.append_assoc [_]]
    exact balanced_call (iha.append ihl)
  | texp _ _ _ _ ihc iht ihf => exact .tail (.append (.tail (.append (.tail ihc rfl) iht) rfl) ihf) rfl
  | argsCons _ _ ih ihr => exact .append (.tail ih rfl) ihr
  | whil _ _ ihe ihb => exact .tail (.append (.tail ihe rfl) ihb) rfl
  | cond _ _ _ ihe ihb ihr | elif _ _ _ ihe ihb ihr =>
    exact .append (.tail (.append (.tail ihe rfl) ihb) rfl) ihr
  | noin _ ih => exact (ih.head rfl).tail rfl
  | dowh _ _ ihb ihe => exact (ihb.append ihe).tail rfl

end Calls

/-! ### Objects -/

section Objects

variable {tops : List TTop} {o : Obj} {fns : List Fn} {fn : Fn} {p p' : Pt} {u : Ast.Unit}

lemma balanced_fn {dataSize : Nat} {globals : Layout} (h : fn.Emitted dataSize globals) :
    Balanced fns fn.start.ip fn.code (fn.stop.ip + 1) :=
  ((balanced_item h).head (show [fn.incsp].all plain = true from rfl)).tail rfl

lemma balanced_placed {dataSize : Nat} {globals : Layout} {gs : List Fn}
    (h : Placed dataSize globals tops p gs p') : Balanced fns p.ip (gs.flatMap Fn.code) p'.ip := by
  induction h with
  | nil p => exact balanced_nil
  | other t rest p p' gs ht hr ih => exact ih
  | func g rest p' gs hg hr ih => exact (balanced_fn hg).append ih

/-- The operand the generator makes of the name of a function. -/
structure Refers (name : Sym) (a : Opd) : Prop where
  opd : a.opd = .imm
  size : a.size = 0
  off : a.off = nodeAddr name

lemma refers_of_name {cx : Cx} {n : Sym} {g : FuncSig} {t : Ty} {a : Opd}
    (h : nameOpd cx ⟨n, .func g⟩ t = some a) : Refers g.name a := by
  obtain rfl := Option.some.inj h
  exact ⟨rfl, rfl, rfl⟩

/-- The object is closed: the code of each function lies behind its `INCSP`, with the size of its
temporaries in it; its jumps stay between that and its last `RET`; each `PUSHR` has the place of
its call; every operand that refers to a function has the place of its `INCSP`. -/
structure Closed (fns : List Fn) (o : Obj) : Prop where
  placed : ∀ fn ∈ fns, At o.insns fn.entry (fn.code.map (link fns))
  entries : ∀ fn ∈ fns, ∃ addend, o.insns[fn.entry]? = some (.incsp addend (opdImm false fn.stop.tempOffPeak 8))
  jumps : ∀ fn ∈ fns, JumpsIn (fn.entry + 1) (fn.entry + fn.code.length - 1) (fn.code.map (link fns))
  calls : callsMatch 0 [] o.insns = true
  resolved : ∀ i ∈ o.insns, ∀ a ∈ i.opds, ¬(a.opd = .imm ∧ a.size = 0)
  refers : ∀ fn ∈ fns, ∀ i ∈ fn.code, ∀ a ∈ i.opds, a.opd = .imm → a.size = 0 →
    ∃ g ∈ fns, Refers g.func.name a
  addresses : ∀ g ∈ fns, ∀ a, Refers g.func.name a →
    printOpd (locsOf fns) a = { a with off := g.entry, size := 8 }

lemma target_link (i : Insn) : target (link fns i) = target i := by cases i <;> rfl

lemma jumpsIn_link {lo hi : Nat} {code : List Insn} (h : JumpsIn lo hi code) :
    JumpsIn lo hi (code.map (link fns)) := by
  intro i hi
  obtain ⟨j, hj, rfl⟩ := List.mem_map.mp hi
  rw [target_link]
  exact h j hj

lemma placed_funcs_sublist {dataSize : Nat} {globals : Layout} {gs : List Fn}
    (h : Placed dataSize globals tops p gs p') :
    (gs.map fun g => g.func.name).Sublist (declaredNames tops) := by
  induction h with
  | nil => exact List.Sublist.refl _
  | other t rest p p' gs ht hr ih =>
    cases t with
    | func f => exact absurd rfl (ht f)
    | skip => exact ih
    | decl names t => exact ih.trans (List.sublist_append_right _ _)
  | func g rest p' gs hg hr ih =>
    exact (ih.trans (List.sublist_append_right _ _)).cons_cons _

/-- The address of a function is found again. -/
lemma lookup_entry (h : ((fns.map fun g => g.func.name).map Sym.beg).Nodup) (hfn : fn ∈ fns) :
    (locsOf fns).lookup (nodeAddr fn.func.name) = some fn.entry := by
  induction fns with
  | nil => cases hfn
  | cons g gs ih =>
    simp only [List.map_cons, List.nodup_cons] at h
    rcases List.mem_cons.mp hfn with rfl | hfn
    · simp [locsOf]
    · have hne : (nodeAddr fn.func.name == nodeAddr g.func.name) = false := by
        rw [beq_eq_false_iff_ne]
        intro he
        have hbeg : fn.func.name.beg = g.func.name.beg := by
          unfold nodeAddr at he
          omega
        refine h.1 (hbeg ▸ List.mem_map.mpr ⟨_, List.mem_map.mpr ⟨fn, hfn, rfl⟩, rfl⟩)
      rw [locsOf, List.map_cons, List.lookup_cons, hne]
      exact ih h.2 hfn

lemma lookup_fn {n loc : Nat} (h : (locsOf fns).lookup n = some loc) :
    ∃ g ∈ fns, n = nodeAddr g.func.name := by
  induction fns with
  | nil => cases h
  | cons g gs ih =>
    rw [locsOf, List.map_cons, List.lookup_cons] at h
    split at h
    · rename_i he
      exact ⟨g, List.mem_cons_self, by simpa using he⟩
    · obtain ⟨k, hk, he⟩ := ih h
      exact ⟨k, List.mem_cons_of_mem _ hk, he⟩

lemma printOpd_refers {g : Fn} {a : Opd} (ha : Refers g.func.name a)
    (h : (locsOf fns).lookup (nodeAddr g.func.name) = some g.entry) :
    printOpd (locsOf fns) a = { a with off := g.entry, size := 8 } := by
  rw [printOpd, if_pos ⟨ha.opd, ha.size⟩, ha.off, h]

/-- Every function of the unit is listed. -/
lemma listed_func (hl : Listed tops fns o) (f : TFunc) (hf : TTop.func f ∈ tops) : ∃ fn ∈ fns, fn.func = f := by
  obtain ⟨p, hp, -⟩ := hl.placed
  exact placed_of_func hp hf

/-- What is listed of an accepted unit is closed. -/
lemma closed_of_listed (hA : Accepted tops) (hl : Listed tops fns o) : Closed fns o := by
  obtain ⟨p, hp, -⟩ := hl.placed
  have hnames := hA.distinct.sublist ((placed_funcs_sublist hp).map Sym.beg)
  have hat : ∀ fn ∈ fns, At o.insns fn.entry (fn.code.map (link fns)) := by
    intro fn hfn
    rw [hl.insns]
    exact ((placed_at hp hfn).2.2 _ (by simp [start])).map _
  have hrefers : ∀ fn ∈ fns, ∀ i ∈ fn.code, ∀ a ∈ i.opds, a.opd = .imm → a.size = 0 →
      ∃ g ∈ fns, Refers g.func.name a := by
    intro fn hfn i hi a hai hopd hsize
    have hres := hl.resolved i (List.mem_flatMap.mpr ⟨fn, hfn, hi⟩) a hai
    simp only [opdResolved, hopd, hsize, and_self, decide_true, Bool.not_true, Bool.false_or,
      Option.isSome_iff_exists] at hres
    obtain ⟨loc, hloc⟩ := hres
    obtain ⟨g, hg, he⟩ := lookup_fn hloc
    exact ⟨g, hg, hopd, hsize, he⟩
  have haddr : ∀ g ∈ fns, ∀ a, Refers g.func.name a →
      printOpd (locsOf fns) a = { a with off := g.entry, size := 8 } :=
    fun g hg a h => printOpd_refers h (lookup_entry hnames hg)
  refine ⟨hat, ?_, ?_, ?_, ?_, hrefers, haddr⟩
  · intro fn hfn
    exact ⟨_, (hat fn hfn).head⟩
  · intro fn hfn
    have hemit := (placed_at hp hfn).1
    have hlen := fn_code_length hemit
    have hle := emit_le hemit
    refine jumpsIn_link ?_
    have hbody : JumpsIn (fn.entry + 1) fn.stop.ip fn.body :=
      jumps_item hemit (Nat.le_refl _) (Nat.le_refl _) (fin_none rfl)
    rw [show fn.entry + fn.code.length - 1 = fn.stop.ip by omega, Fn.code]
    simp [target, Fn.incsp, Fn.ret, hbody]
  · have hbfun : callsMatch 0 [] ((List.replicate scopeBfunIdCount Insn.bfun).map (link fns) ++
        (fns.flatMap Fn.code).map (link fns)) =
        callsMatch scopeBfunIdCount [] ((fns.flatMap Fn.code).map (link fns)) := rfl
    have hbal : Balanced fns _ (fns.flatMap Fn.code) _ := balanced_placed hp
    have hcode := hbal [] []
    rw [List.append_nil] at hcode
    rw [hl.insns, List.map_append, hbfun]
    exact hcode
  · intro i hi a hai hbad
    rw [hl.insns] at hi
    obtain ⟨j, hj, rfl⟩ := List.mem_map.mp hi
    rw [link_opds] at hai
    obtain ⟨b, hb, rfl⟩ := List.mem_map.mp hai
    rcases List.mem_append.mp hj with hj | hj
    · rw [(List.mem_replicate.mp hj).2] at hb
      cases hb
    · obtain ⟨fn, hfn, hj⟩ := List.mem_flatMap.mp hj
      by_cases hz : b.opd = .imm ∧ b.size = 0
      · obtain ⟨g, hg, hr⟩ := hrefers fn hfn j hj b hb hz.1 hz.2
        rw [haddr g hg b hr] at hbad
        cases hbad.2
      · rw [printOpd, if_neg hz] at hbad
        exact hz hbad

/-- **The code of an object is closed.** -/
theorem object_closed (h : Compiles u o) :
    ∃ tops fns, accept u = some tops ∧ Listed tops fns o ∧
      (∀ f, TTop.func f ∈ tops → ∃ fn ∈ fns, fn.func = f) ∧ Closed fns o := by
  obtain ⟨tops, fns, ha, hl⟩ := listed_of_compiles h
  exact ⟨tops, fns, ha, hl, listed_func hl, closed_of_listed (accepted_of_accept ha) hl⟩

/-- `m { if (1) { f(); } } f { m(); }` -/
def rounds : Ast.Unit :=
  ⟨[],
    [.func ⟨false, letter 109 0, .nil, .none,
       .cons (.cond (.nmbr 1) (.cons (.expr (.fexp (.name (letter 102 13)) .nil)) .nil) .none) .nil⟩,
     .func ⟨false, letter 102 22, .nil, .none, .cons (.expr (.fexp (.name (letter 109 26)) .nil)) .nil⟩]⟩

def roundsObj : Obj :=
  ⟨0, [], List.replicate 17 Insn.bfun ++
    [Insn.incsp (opdImm false 0 8) (opdImm false 8 8), .jz false (opdImm false 1 1) 23,
     .pushr (opdImm false 20 8) ⟨.temp, false, false, 0, 8⟩,
     .call (opdImm false 24 8) ⟨.temp, false, false, 0, 8⟩, .nop, .jmp 23, .ret (opdImm false 16 8),
     .incsp (opdImm false 0 8) (opdImm false 8 8),
     .pushr (opdImm false 26 8) ⟨.temp, false, false, 0, 8⟩,
     .call (opdImm false 17 8) ⟨.temp, false, false, 0, 8⟩, .nop, .ret (opdImm false 16 8)]⟩

theorem rounds_closed : ∃ tops fns, accept rounds = some tops ∧ Listed tops fns roundsObj ∧
    (∀ f, TTop.func f ∈ tops → ∃ fn ∈ fns, fn.func = f) ∧ Closed fns roundsObj :=
  object_closed (by decide +kernel)

end Objects

end Quaint.Linking
