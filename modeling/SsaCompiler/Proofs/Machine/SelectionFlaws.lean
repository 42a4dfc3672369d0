import SsaCompiler.Proofs.Ir.PromotedSlots
import SsaCompiler.Proofs.Machine.SelectedFunction

/-!
# What selection adds

Instructions have sixteen bits for an immediate or an offset. Selection looks at the range of every number that it puts
into an instruction but for three: the offset of a slot whose address a phi takes, which is copied into the phi's register
with one addition, and the offsets of the stack words of parameters and arguments.

`Select.Flaws` says of a part of a selection that it takes steps of selection only, under which condition it adds an
instruction that is not encodable, and what its result has. It is closed under sequencing, and most parts add no such
instruction, which is `Select.Clean`.
-/

set_option autoImplicit false

namespace SsaCompiler

open Stateful

/-- If an operand is a number, then one that passes a test. -/
def Operand.passes (fits : Word → Bool) : Operand → Bool
  | .immediate c => fits c
  | _ => true

/-- Whether the numbers of an instruction fit its fields. -/
def Instr.encodable : Instr → Bool
  | .binary op _ _ rhs => rhs.passes op.acceptsImmediate
  | .compare _ _ lhs rhs => lhs.passes Word.fitsSigned16 && rhs.passes Word.fitsSigned16
  | .branch _ lhs rhs _ => lhs.passes Word.fitsSigned16 && rhs.passes Word.fitsSigned16
  | .load _ _ offset _ => Word.fitsSigned16 offset
  | .store _ _ offset => Word.fitsSigned16 offset
  | _ => true

/-- A register passes every test. -/
theorem Operand.passes_of_isRegister {fits : Word → Bool} {op : Operand} (h : op.isRegister = true) :
    op.passes fits = true := by
  cases op with
  | immediate c => cases h
  | _ => rfl

variable {i : Instr} {k : Nat}

namespace Selection

/-- Some selected instruction is not encodable. -/
def Flawed (s : Selection) : Prop := ∃ k, ∃ i ∈ s.code.instsOf k, i.encodable = false

variable {m : Module} {s s' s'' : Selection} {bad bad' : Prop} {n : Nat}

variable {added : List Instr} {change : List Instr → List Instr} {b : Nat}

/-- Inserting an encodable instruction. -/
theorem flawed_insert (hcode : s'.code = s.code.modifyInsts b fun insts => insts.insertIdx k i)
    (hi : i.encodable = true) : s'.Flawed ↔ s.Flawed := by
  refine exists_congr fun c => ?_
  rw [hcode, instsOf_modifyInsts]
  split
  · rename_i hc
    obtain ⟨rfl, -⟩ := hc
    refine ⟨fun ⟨j, hj, hflaw⟩ => ?_, fun ⟨j, hj, hflaw⟩ => ⟨j, (List.sublist_insertIdx _ _ _).subset hj, hflaw⟩⟩
    rcases eq_or_mem_of_mem_insertIdx hj with rfl | hj
    · cases hi.symm.trans hflaw
    · exact ⟨j, hj, hflaw⟩
  · exact Iff.rfl

/-- Adding instructions to a block. -/
theorem flawed_add (hb : b < s.code.blocks.size)
    (hmem : ∀ i, i ∈ change (s.code.instsOf b) ↔ i ∈ s.code.instsOf b ∨ i ∈ added) :
    Flawed { s with code := s.code.modifyInsts b change } ↔ s.Flawed ∨ ∃ i ∈ added, i.encodable = false := by
  have hinsts : ∀ k i, i ∈ (s.code.modifyInsts b change).instsOf k ↔ i ∈ s.code.instsOf k ∨ b = k ∧ i ∈ added := by
    intro k i
    rw [instsOf_modifyInsts]
    split
    · rename_i hk
      obtain ⟨rfl, -⟩ := hk
      rw [hmem, and_iff_right rfl]
    · rename_i hk
      rw [or_iff_left fun h => hk ⟨h.1, hb⟩]
  constructor
  · rintro ⟨k, i, hi, hflaw⟩
    exact ((hinsts k i).1 hi).imp (fun hi => ⟨k, i, hi, hflaw⟩) fun hi => ⟨i, hi.2, hflaw⟩
  · rintro (⟨k, i, hi, hflaw⟩ | ⟨i, hi, hflaw⟩)
    · exact ⟨k, i, (hinsts k i).2 (.inl hi), hflaw⟩
    · exact ⟨b, i, (hinsts b i).2 (.inr ⟨rfl, hi⟩), hflaw⟩

/-- What a part of a selection makes of a state: steps that keep the slots and that, in one of the blocks, add an
instruction that is not encodable exactly in the bad case. -/
structure Grows (m : Module) (n : Nat) (bad : Prop) (s s' : Selection) : Prop where
  steps : Relation.ReflTransGen (Step m) s s'
  slots : s'.slots = s.slots
  flawed : s.code.blocks.size = n → s.current < n → s'.current < n ∧ (s'.Flawed ↔ s.Flawed ∨ bad)

namespace Grows

theorem refl (s : Selection) : Grows m n False s s := ⟨.refl, rfl, fun _ hs => ⟨hs, (or_iff_left id).symm⟩⟩

/-- A step that adds nothing. -/
theorem step (h : Step m s s') (hslots : s'.slots = s.slots) (hcode : ∀ k, s'.code.instsOf k = s.code.instsOf k)
    (hcurrent : s'.current = s.current ∨ s'.current < n) : Grows m n False s s' := by
  refine ⟨.single h, hslots, fun _ hs => ⟨hcurrent.elim (fun heq => heq ▸ hs) id, ?_⟩⟩
  rw [or_iff_left id]
  unfold Flawed
  simp only [hcode]

/-- A step that inserts an encodable instruction. -/
theorem insert (h : Step m s s') (hcode : s'.code = s.code.modifyInsts b fun insts => insts.insertIdx k i)
    (hi : i.encodable = true) (hslots : s'.slots = s.slots) (hcurrent : s'.current = s.current) :
    Grows m n False s s' :=
  ⟨.single h, hslots, fun _ hs => ⟨hcurrent ▸ hs, (flawed_insert hcode hi).trans (or_iff_left id).symm⟩⟩

/-- Adding instructions that load no address. -/
theorem add {c : List Instr} (hb : s.current < n → b < n) (hmem : ∀ insts i, i ∈ change insts ↔ i ∈ insts ∨ i ∈ c)
    (hnone : ∀ i ∈ c, i.symbol? = none) (hold : ∀ insts : List Instr, insts.Sublist (change insts)) :
    Grows m n (∃ i ∈ c, i.encodable = false) s { s with code := s.code.modifyInsts b change } := by
  refine ⟨.single (.add s b change (fun insts i hi => ((hmem insts i).1 hi).imp_right (hnone i)) hold), rfl, fun hsize hs => ⟨hs, ?_⟩⟩
  exact flawed_add (hsize ▸ hb hs) (hmem _)

theorem trans (h : Grows m n bad s s') (h' : Grows m n bad' s' s'') : Grows m n (bad ∨ bad') s s'' := by
  refine ⟨h.steps.trans h'.steps, h'.slots.trans h.slots, fun hsize hs => ?_⟩
  obtain ⟨hs', hflawed⟩ := h.flawed hsize hs
  obtain ⟨hs'', hflawed'⟩ := h'.flawed ((sameLabels_of_steps h.steps).size.trans hsize) hs'
  exact ⟨hs'', by rw [hflawed', hflawed, or_assoc]⟩

theorem congr (h : Grows m n bad s s') (hbad : bad ↔ bad') : Grows m n bad' s s' :=
  ⟨h.steps, h.slots, fun hsize hs => (h.flawed hsize hs).imp_right fun hflawed => by rw [hflawed, hbad]⟩

end Grows

end Selection

namespace Select

variable {α β : Type} {m : Module} {slots : List (ValueId × Word)} {n : Nat}

/-- A part of a selection adds an instruction that is not encodable exactly in the bad case, and its result is good. -/
def Flaws (m : Module) (slots : List (ValueId × Word)) (n : Nat) (act : Select α) (bad : Prop) (Q : α → Prop) : Prop :=
  ∀ s : Selection, s.slots = slots → Meets (fun _ => True) act s fun a s' => s.Grows m n bad s' ∧ Q a

/-- A part of a selection adds encodable instructions only, and its result is good. -/
abbrev Clean (m : Module) (slots : List (ValueId × Word)) (n : Nat) (act : Select α) (Q : α → Prop) : Prop :=
  Flaws m slots n act False Q

namespace Flaws

variable {act : Select α} {bad bad' : Prop} {Q Q' : α → Prop}

/-- Another way to say when it is bad, which may use what is good, and less that is good. -/
theorem imp (h : Flaws m slots n act bad Q) (hbad : ∀ a, Q a → (bad ↔ bad')) (hgood : ∀ a, Q a → Q' a) :
    Flaws m slots n act bad' Q' :=
  fun s hs => (h s hs).mono fun a _ ⟨hgrows, ha⟩ => ⟨hgrows.congr (hbad a ha), hgood a ha⟩

theorem congr (h : Flaws m slots n act bad Q) (hbad : bad ↔ bad') : Flaws m slots n act bad' Q :=
  h.imp (fun _ _ => hbad) fun _ hq => hq

theorem pure {a : α} (h : Q a) : Clean m slots n (pure a : Select α) Q := fun s _ => .pure ⟨.refl s, h⟩

/-- Asking. -/
theorem lift {outcome : Outcome α} (h : ∀ a, outcome = .ok a → Q a) : Clean m slots n (liftM outcome : Select α) Q :=
  fun s _ => .lift (fun _ _ => trivial) fun a ha => ⟨.refl s, h a ha⟩

theorem report (cause : CompileError) : Flaws m slots n (report cause : Select α) bad Q := fun _ _ => trivial

variable {next : α → Select β} {Q' : β → Prop}

/-- Two parts. -/
theorem bind_both (h : Flaws m slots n act bad Q) (hnext : ∀ a, Q a → Flaws m slots n (next a) bad' Q') :
    Flaws m slots n (act >>= next) (bad ∨ bad') Q' :=
  fun s hs => .bind ((h s hs).mono fun a _ ⟨hgrows, ha⟩ =>
    (hnext a ha _ (hgrows.slots.trans hs)).mono fun _ _ ⟨hgrows', hb⟩ => ⟨hgrows.trans hgrows', hb⟩)

theorem bind (h : Clean m slots n act Q) (hnext : ∀ a, Q a → Flaws m slots n (next a) bad Q') :
    Flaws m slots n (act >>= next) bad Q' :=
  (bind_both h hnext).congr (or_iff_right id)

/-- Two parts, the second of which is clean. -/
theorem bind_clean (h : Flaws m slots n act bad Q) (hnext : ∀ a, Q a → Clean m slots n (next a) Q') :
    Flaws m slots n (act >>= next) bad Q' :=
  (bind_both h hnext).congr (or_iff_left id)

theorem get_bind {next : Selection → Select β} (h : ∀ s : Selection, s.slots = slots → Flaws m slots n (next s) bad Q') :
    Flaws m slots n (get >>= next) bad Q' :=
  fun s hs => .bind (.get (h s hs s hs))

theorem modify {change : Selection → Selection} (hstep : ∀ s, Selection.Step m s (change s)) (hslots : ∀ s, (change s).slots = s.slots)
    (hcode : ∀ s k, (change s).code.instsOf k = s.code.instsOf k)
    (hcurrent : ∀ s, (change s).current = s.current ∨ (change s).current < n) :
    Clean m slots n (modify change : Select PUnit) fun _ => True :=
  fun s _ => .modify ⟨.step (hstep s) (hslots s) (hcode s) (hcurrent s), trivial⟩

theorem forM {act : α → Select PUnit} {B F : α → Prop} (list : List α)
    (h : ∀ a ∈ list, Flaws m slots n (act a) (B a) fun _ => F a) :
    Flaws m slots n (list.forM act) (∃ a ∈ list, B a) fun _ => ∀ a ∈ list, F a := by
  induction list with
  | nil => exact (pure (Q := fun _ => True) trivial).imp (fun _ _ => by simp) fun _ _ a ha => absurd ha List.not_mem_nil
  | cons a rest ih =>
    have hrest := ih fun b hb => h b (List.mem_cons_of_mem a hb)
    have hboth : Flaws m slots n (act a >>= fun _ => rest.forM act) (B a ∨ ∃ b ∈ rest, B b)
        fun _ => F a ∧ ∀ b ∈ rest, F b := bind_both (h a List.mem_cons_self) fun _ ha =>
      hrest.imp (fun _ _ => Iff.rfl) fun _ hr => ⟨ha, hr⟩
    exact hboth.imp (fun _ _ => by rw [List.exists_mem_cons_iff]) fun _ hall => List.forall_mem_cons.2 hall

/-- A clean step for each element of a list. -/
theorem forM_clean {act : α → Select PUnit} (list : List α)
    (h : ∀ a ∈ list, Clean m slots n (act a) fun _ => True) : Clean m slots n (list.forM act) fun _ => True :=
  (forM list h).imp (fun _ _ => by simp) fun _ _ => trivial

theorem mapM {act : α → Select β} {R : α → β → Prop} (list : List α)
    (h : ∀ a ∈ list, Clean m slots n (act a) (R a)) : Clean m slots n (list.mapM act) (List.Forall₂ R list) := by
  induction list with
  | nil => exact pure .nil
  | cons a rest ih =>
    rw [List.mapM_cons]
    exact bind (h a List.mem_cons_self) fun b hb => bind (ih fun c hc => h c (List.mem_cons_of_mem a hc)) fun found hfound =>
      pure (.cons hb hfound)

end Flaws

open Flaws

/-! ## Operands -/

/-- Appending an instruction. -/
theorem flaws_emit (i : Instr) (hi : i.symbol? = none) :
    Flaws m slots n (emit i) (i.encodable = false) fun _ => True := fun s _ =>
  .modify ⟨.congr (.add id (fun _ _ => List.mem_append) (by simpa using hi) fun _ => List.sublist_append_left _ _)
    (by simp), trivial⟩

/-- Appending an encodable instruction. -/
theorem clean_emit (hnone : i.symbol? = none) (hi : i.encodable = true) :
    Clean m slots n (emit i) fun _ => True :=
  (flaws_emit i hnone).imp (fun _ _ => by simp [hi]) fun _ _ => trivial

theorem clean_newVreg : Clean m slots n newVreg fun op => op.isRegister = true :=
  fun s _ => .modifyGet ⟨.step (.fresh s) rfl (fun _ => rfl) (.inl rfl), rfl⟩

theorem clean_vregFor (v : ValueId) : Clean m slots n (vregFor v) fun _ => True := by
  refine .get_bind fun s _ => ?_
  split
  · exact .pure trivial
  · exact .bind clean_newVreg fun op _ => .bind
      (.modify (fun s => .name s v op) (fun _ => rfl) (fun _ _ => rfl) fun _ => .inl rfl) fun _ _ => .pure trivial

theorem clean_cachedAddress {label : String} (hlabel : m.HasLabel label) :
    Clean m slots n (cachedAddress label) fun _ => True := by
  refine .get_bind fun s _ => ?_
  split
  · exact .pure trivial
  · refine .bind clean_newVreg fun op _ => .bind (Q := fun _ => True) (fun s hs => ?_) fun _ _ => .pure trivial
    exact .modify ⟨.insert (.load s op label hlabel) rfl rfl rfl rfl, trivial⟩

theorem clean_emitAddImmediate (dst src : Operand) (c : Word) :
    Clean m slots n (emitAddImmediate dst src c) fun _ => True := by
  unfold emitAddImmediate
  split
  · rename_i hfits
    exact clean_emit rfl hfits
  · exact .bind clean_newVreg fun t ht => .bind (clean_emit rfl rfl) fun _ _ =>
      clean_emit rfl (Operand.passes_of_isRegister ht)

variable (ctx : SelectionContext)

theorem clean_stringAddress (id : StringId) : Clean ctx.module slots n (stringAddress ctx id) fun _ => True :=
  .bind (.lift fun _ h => Module.hasLabel_string h) fun _ => clean_cachedAddress

theorem clean_plainOperand (v : ValueId) : Clean ctx.module slots n (plainOperand ctx v) fun _ => True := by
  unfold plainOperand
  split
  · exact .pure trivial
  · exact .bind (.lift fun _ h => Module.hasLabel_global h) fun _ => clean_cachedAddress
  · exact clean_stringAddress ctx _
  · exact clean_vregFor v
  · exact clean_vregFor v

theorem clean_operand (v : ValueId) : Clean ctx.module slots n (operand ctx v) fun _ => True := by
  refine .get_bind fun s _ => ?_
  split
  · exact .bind clean_newVreg fun dst _ => .bind (clean_emitAddImmediate _ _ _) fun _ _ => .pure trivial
  · exact clean_plainOperand ctx v

theorem clean_register (v : ValueId) : Clean ctx.module slots n (register ctx v) fun op => op.isRegister = true := by
  refine .bind (clean_operand ctx v) fun op _ => ?_
  split
  · split
    · exact .pure rfl
    · exact .bind clean_newVreg fun dst hdst => .bind (clean_emit rfl rfl) fun _ _ => .pure hdst
  · rename_i hnot
    refine .pure ?_
    cases op with
    | immediate c => exact absurd rfl (hnot c)
    | _ => rfl

theorem clean_define (i : InstId) : Clean ctx.module slots n (define ctx i) fun _ => True :=
  .bind (.lift fun _ _ => trivial) fun v _ => clean_vregFor v

theorem clean_compareOperands (op : BinaryOp) (l r : ValueId) : Clean ctx.module slots n (compareOperands ctx op l r)
    fun e => e.2.1.passes Word.fitsSigned16 = true ∧ e.2.2.passes Word.fitsSigned16 = true := by
  unfold compareOperands
  dsimp only
  split
  · exact .report _
  · refine .bind (clean_register ctx _) fun lhs hlhs => ?_
    have hrhs : ∀ cond v, Clean ctx.module slots n (do return (cond, lhs, ← register ctx v) : Select (Cond × Operand × Operand))
        fun e => e.2.1.passes Word.fitsSigned16 = true ∧ e.2.2.passes Word.fitsSigned16 = true := fun cond v =>
      .bind (clean_register ctx v) fun rhs h => .pure ⟨Operand.passes_of_isRegister hlhs, Operand.passes_of_isRegister h⟩
    split
    · split
      · rename_i hfits
        exact .pure ⟨Operand.passes_of_isRegister hlhs, hfits⟩
      · exact hrhs _ _
    · exact hrhs _ _

/-- The right operand of an arithmetic instruction. -/
theorem clean_rightOperand (op : MachineOp) (r : ValueId) :
    Clean ctx.module slots n (rightOperand ctx op r) fun rhs => rhs.passes op.acceptsImmediate = true := by
  have hregister : Clean ctx.module slots n (register ctx r) fun rhs => rhs.passes op.acceptsImmediate = true :=
    (clean_register ctx r).imp (fun _ _ => Iff.rfl) fun _ => Operand.passes_of_isRegister
  unfold rightOperand
  split
  · split
    · rename_i haccepts
      exact .pure haccepts
    · exact hregister
  · exact hregister

/-! ## Instructions -/

theorem clean_selectBinary (i : InstId) (op : BinaryOp) (l r : ValueId) :
    Clean ctx.module slots n (selectBinary ctx i op l r) fun _ => True := by
  refine .bind (clean_define ctx i) fun dst _ => ?_
  split
  · exact .bind (clean_compareOperands ctx op l r) fun e he => clean_emit rfl (Bool.and_eq_true_iff.2 he)
  · split
    · exact .report _
    · dsimp only
      split
      · rename_i c hc
        refine .bind (clean_register ctx _) fun lhs _ => clean_emit rfl ?_
        unfold negatedConstant? at hc
        split at hc
        · exact (Option.filter_eq_some_iff.1 hc).2
        · cases hc
      · exact .bind (clean_register ctx _) fun lhs _ => .bind (clean_rightOperand ctx _ _) fun rhs hrhs =>
          clean_emit rfl hrhs

/-- The amount of a shift by the exponent of a word. -/
theorem acceptsImmediate_sll {c : Word} (h : powerOfTwo? c.toInt.toNat = some k) :
    MachineOp.sll.acceptsImmediate (Int32.ofNat k) = true := by
  have hk : k < 32 := by
    unfold powerOfTwo? at h
    split at h
    · rename_i hpower
      cases h
      rw [Bool.and_eq_true, decide_eq_true_iff] at hpower
      have hlt : c.toInt < 2 ^ 31 := Int32.toInt_lt c
      exact Nat.log2_lt (Nat.ne_of_gt hpower.1) |>.2 (by omega)
    · cases h
  have hword : (Int32.ofNat k).toInt = k := Int32.toInt_ofNat_of_lt (by omega)
  simp only [MachineOp.acceptsImmediate, hword, Bool.and_eq_true, decide_eq_true_eq]
  omega

theorem clean_selectGep (i : InstId) (base index : ValueId) (multiplier : Word) :
    Clean ctx.module slots n (selectGep ctx i base index multiplier) fun _ => True := by
  refine .bind (clean_define ctx i) fun dst _ => ?_
  dsimp only
  split
  · refine .get_bind fun s _ => ?_
    split
    · exact clean_emitAddImmediate _ _ _
    · exact .bind (clean_register ctx base) fun start _ => clean_emitAddImmediate _ _ _
  · refine .bind (clean_register ctx index) fun idx _ => .bind clean_newVreg fun scaled hscaled => ?_
    have hlast : Clean ctx.module slots n (do
        let start ← register ctx base
        emit (.binary .addu dst start scaled)) fun _ => True :=
      .bind (clean_register ctx base) fun start _ => clean_emit rfl (Operand.passes_of_isRegister hscaled)
    split
    · rename_i hpower
      exact .bind (clean_emit rfl (acceptsImmediate_sll hpower)) fun _ _ => hlast
    · exact .bind clean_newVreg fun factor hfactor => .bind (clean_emit rfl rfl) fun _ _ =>
        .bind (clean_emit rfl (Operand.passes_of_isRegister hfactor)) fun _ _ => hlast

theorem clean_foldOffset (base : Operand) (offset : Word) :
    Clean m slots n (foldOffset base offset) fun e => Word.fitsSigned16 e.2 = true := by
  unfold foldOffset
  split
  · rename_i hfits
    exact .pure hfits
  · exact .bind clean_newVreg fun addr _ => .bind (clean_emitAddImmediate _ _ _) fun _ _ => .pure rfl

theorem clean_address (base index : ValueId) :
    Clean ctx.module slots n (address ctx base index) fun e => Word.fitsSigned16 e.2 = true := by
  refine .get_bind fun s _ => ?_
  extract_lets rest
  have hrest : ∀ p, p.1.isRegister = true → Clean ctx.module slots n (rest p) fun e => Word.fitsSigned16 e.2 = true := by
    rintro ⟨start, offset⟩ hstart
    dsimp only [rest]
    split
    · exact clean_foldOffset _ _
    · exact .bind (clean_register ctx index) fun idx _ => .bind clean_newVreg fun scaled _ =>
        .bind (clean_emit rfl rfl) fun _ _ => .bind clean_newVreg fun addr _ =>
          .bind (clean_emit rfl (Operand.passes_of_isRegister hstart)) fun _ _ => clean_foldOffset _ _
  have hpure : ∀ p : Operand × Word, p.1.isRegister = true →
      Clean ctx.module slots n (pure p : Select (Operand × Word)) fun p => p.1.isRegister = true := fun p hp => .pure hp
  split
  · exact .bind (hpure _ rfl) hrest
  · exact .bind (clean_register ctx base) fun start hstart => .bind (hpure _ hstart) hrest

/-- A word that does not fit a sign-extended 16-bit field. -/
theorem fitsSigned16_eq_false_iff (w : Word) : Word.fitsSigned16 w = false ↔ w.toInt < -32768 ∨ 32767 < w.toInt := by
  rw [← Bool.not_eq_true, Word.fitsSigned16, Bool.and_eq_true, decide_eq_true_iff, decide_eq_true_iff]
  omega

/-- The stack word of an argument is out of reach, given the offset of the first one. -/
def FarWord (first : Word) (k : Nat) : Prop :=
  ∃ offset, stackOffset? first k = some offset ∧ Word.fitsSigned16 offset = false

/-- A call whose lowest stack word is in the word range has one out of reach exactly if it has very many arguments. -/
theorem exists_farWord_iff {args : Nat} {lowest : Word}
    (hlowest : Word.mul? (-4) (Int32.ofNat (args - Register.arguments.length)) = some lowest) :
    (∃ k, Register.arguments.length ≤ k ∧ k < args ∧ FarWord lowest k) ↔ 8196 < args := by
  have hfour : Register.arguments.length = 4 := rfl
  have hfits := fitsSigned16_eq_false_iff
  rw [hfour] at hlowest ⊢
  have hvalue : 4 * (args - 4) < 2 ^ 31 → lowest.toInt = -4 * (args - 4 : Nat) := fun hlt => by
    obtain ⟨w, hw, hwi⟩ := Word.exists_mul_neg_four hlt
    cases hlowest.symm.trans hw
    exact hwi
  constructor
  · rintro ⟨k, hk, hlt, offset, hoffset, hfar⟩
    by_contra hle
    have hfirst := hvalue (by omega)
    obtain ⟨w, hw, hwi⟩ := @exists_stackOffset lowest k (by omega) hk (by omega) (by omega)
    cases hoffset.symm.trans hw
    rcases (hfits offset).1 hfar with hfar | hfar <;> omega
  · intro hlt
    have hlow : -2 ^ 31 ≤ lowest.toInt := Int32.le_toInt lowest
    have hhigh : lowest.toInt < 2 ^ 31 := Int32.toInt_lt lowest
    -- The first word is too low, or so many words follow that one of them is too high.
    by_cases hfar : Word.fitsSigned16 lowest = false
    · obtain ⟨w, hw, hwi⟩ := @exists_stackOffset lowest 4 (by omega) (Nat.le_refl 4) (by omega) (by omega)
      exact ⟨4, Nat.le_refl 4, by omega, w, hw, (hfits w).2 (by have := (hfits lowest).1 hfar; omega)⟩
    · rw [hfits, not_or, Int.not_lt, Int.not_lt] at hfar
      have hmany : 4 + 16384 < args := by
        by_contra hle
        have := hvalue (by omega)
        omega
      obtain ⟨w, hw, hwi⟩ := @exists_stackOffset lowest (4 + 16384) (by omega) (by omega) (by omega) (by omega)
      exact ⟨4 + 16384, by omega, hmany, w, hw, (hfits w).2 (by omega)⟩

theorem flaws_selectCall (label : String) (args : List ValueId) :
    Flaws ctx.module slots n (selectCall ctx label args) (8196 < args.length) fun _ => True := by
  unfold selectCall
  dsimp only
  refine .bind (Q := fun lowest => Word.mul? (-4) (Int32.ofNat (args.length - Register.arguments.length)) = some lowest)
    (.lift fun _ h => Outcome.ofOption_eq_ok.1 h) fun lowest hlowest => ?_
  have hmem : ∀ arg k, (arg, k) ∈ (args.drop Register.arguments.length).zipIdx Register.arguments.length ↔
      Register.arguments.length ≤ k ∧ args[k]? = some arg := by
    intro arg k
    rw [List.mem_zipIdx_iff_le_and_getElem?_sub]
    refine and_congr_right fun hk => ?_
    rw [List.getElem?_drop, Nat.add_sub_cancel' hk]
  have hstores : Flaws ctx.module slots n (((args.drop Register.arguments.length).zipIdx Register.arguments.length).forM
      fun e => do
        let src ← register ctx e.1
        let offset ← Outcome.ofOption (stackOffset? lowest e.2)
        emit (.store src .sp offset)) (8196 < args.length) fun _ => True := by
    refine (Flaws.forM (B := fun e => FarWord lowest e.2) (F := fun _ => True) _ fun e _ => ?_).imp (fun _ _ => ?_)
      fun _ _ => trivial
    · refine .bind (clean_register ctx e.1) fun src _ =>
        .bind (.lift fun _ h => Outcome.ofOption_eq_ok.1 h) fun offset hoffset =>
          (flaws_emit _ rfl).imp (fun _ _ => ?_) fun _ _ => trivial
      refine ⟨fun hfar => ⟨offset, hoffset, hfar⟩, fun hfar => ?_⟩
      obtain ⟨w, hw, hfar⟩ := hfar
      exact Option.some.inj (hw.symm.trans hoffset) ▸ hfar
    · rw [← exists_farWord_iff hlowest]
      constructor
      · rintro ⟨⟨arg, k⟩, he, hfar⟩
        obtain ⟨hk, harg⟩ := (hmem arg k).1 he
        exact ⟨k, hk, (List.getElem?_eq_some_iff.1 harg).1, hfar⟩
      · rintro ⟨k, hk, hlt, hfar⟩
        exact ⟨_, (hmem _ k).2 ⟨hk, List.getElem?_eq_getElem hlt⟩, hfar⟩
  refine .bind_clean hstores fun _ _ => .bind (.forM_clean _ fun e _ => ?_) fun _ _ => clean_emit rfl rfl
  exact .bind (clean_operand ctx e.1) fun src _ => clean_emit rfl rfl

theorem clean_selectPieces (pieces : List PrintPiece) :
    ∀ args, Clean ctx.module slots n (selectPieces ctx pieces args) fun _ => True := by
  induction pieces with
  | nil =>
    intro args
    unfold selectPieces
    exact .pure trivial
  | cons piece rest ih =>
    intro args
    cases piece with
    | str s =>
      unfold selectPieces
      exact .bind (clean_stringAddress ctx s) fun src _ => .bind (clean_emit rfl rfl) fun _ _ =>
        .bind (clean_emit rfl rfl) fun _ _ => ih args
    | arg =>
      cases args with
      | nil =>
        unfold selectPieces
        exact .report _
      | cons v args =>
        unfold selectPieces
        exact .bind (clean_operand ctx v) fun src _ => .bind (clean_emit rfl rfl) fun _ _ =>
          .bind (clean_emit rfl rfl) fun _ _ =>
          ih args

theorem clean_selectBranch (i : InstId) (thenBlock elseBlock : BlockId) :
    Clean ctx.module slots n (selectBranch ctx i thenBlock elseBlock) fun _ => True := by
  refine .bind (.lift fun _ _ => trivial) fun thenTarget _ => .bind (.lift fun _ _ => trivial) fun elseTarget _ =>
    .bind (.lift fun _ _ => trivial) fun cond _ => ?_
  have hjump : Clean ctx.module slots n (emit (.jump elseTarget)) fun _ => True := clean_emit rfl rfl
  dsimp only
  split
  · split
    · exact .bind (.lift fun _ _ => trivial) fun l _ => .bind (.lift fun _ _ => trivial) fun r _ =>
        .bind (clean_compareOperands ctx _ _ _) fun e he =>
          .bind (clean_emit rfl (Bool.and_eq_true_iff.2 he)) fun _ _ => hjump
    · exact .bind (Q := fun _ => True) (.report _) fun _ _ => hjump
  · exact .bind (clean_register ctx _) fun lhs hlhs => .bind
      (clean_emit rfl (Bool.and_eq_true_iff.2 ⟨Operand.passes_of_isRegister hlhs, rfl⟩)) fun _ _ => hjump

/-- A call with arguments in stack words out of reach. -/
def FarCall (f : Function) (i : InstId) : Prop := (∃ callee, f.kind i = .call callee) ∧ 8196 < (f.operands i).length

theorem flaws_selectInst (i : InstId) : Flaws ctx.module slots n (selectInst ctx i) (FarCall ctx.func i) fun _ => True := by
  have hplain : ∀ {act : Select PUnit}, (∀ callee, ctx.func.kind i ≠ .call callee) → Clean ctx.module slots n act (fun _ => True) →
      Flaws ctx.module slots n act (FarCall ctx.func i) fun _ => True := fun hnot h =>
    h.imp (fun _ _ => iff_of_false id fun hfar => hnot _ hfar.1.choose_spec) fun _ _ => trivial
  have hask : ∀ {outcome : Outcome ValueId} {next : ValueId → Select PUnit},
      (∀ v, Clean ctx.module slots n (next v) fun _ => True) → Clean ctx.module slots n ((liftM outcome : Select ValueId) >>= next) fun _ => True :=
    fun hnext => .bind (.lift fun _ _ => trivial) fun v _ => hnext v
  unfold selectInst
  dsimp only
  split
  all_goals rename_i hkind
  · exact hplain (by simp [hkind]) (hask fun l => hask fun r => clean_selectBinary ctx i _ l r)
  · exact hplain (by simp [hkind]) (clean_selectBranch ctx i _ _)
  · exact hplain (by simp [hkind]) (.bind (.lift fun _ _ => trivial) fun target _ => clean_emit rfl rfl)
  · refine hplain (by simp [hkind]) ?_
    split
    · exact .bind (clean_operand ctx _) fun src _ => .bind (clean_emit rfl rfl) fun _ _ => clean_emit rfl rfl
    · exact clean_emit rfl rfl
  · exact hplain (by simp [hkind]) (hask fun base => hask fun index => clean_selectGep ctx i base index _)
  · exact hplain (by simp [hkind]) (hask fun base => hask fun index => .bind (clean_address ctx base index)
      fun place hplace => .bind (clean_define ctx i) fun dst _ => clean_emit rfl hplace)
  · exact hplain (by simp [hkind]) (hask fun base => hask fun index => .bind (clean_address ctx base index)
      fun place hplace => hask fun data => .bind (clean_register ctx data) fun src _ => clean_emit rfl hplace)
  · refine .congr (bind_clean (flaws_selectCall ctx _ _) fun _ _ => ?_) (and_iff_right ⟨_, hkind⟩).symm
    split
    · exact .bind (clean_vregFor _) fun dst _ => clean_emit rfl rfl
    · exact .pure trivial
  · exact hplain (by simp [hkind]) (clean_selectPieces ctx _ _)
  · exact hplain (by simp [hkind]) (.pure trivial)
  · exact hplain (by simp [hkind]) (.pure trivial)

/-! ## Blocks -/

/-- The machine block of a listed block is there. -/
theorem lt_of_blockIndex {b : BlockId} (h : blockIndex ctx b = .ok k) : k < ctx.func.layout.length :=
  (List.idxOf?_eq_some_iff.1 (blockIndex_eq_ok.1 h)).1

theorem flaws_selectBlock (b : BlockId) : Flaws ctx.module slots ctx.func.layout.length (selectBlock ctx b)
    (∃ i ∈ (ctx.func.instsOf b).filter fun i => !ctx.fused.contains i, FarCall ctx.func i) fun _ => True :=
  .bind (.lift fun _ hk => lt_of_blockIndex ctx hk) fun k hk =>
    .bind (.modify (fun s => .turn s k) (fun _ => rfl) (fun _ _ => rfl) fun _ => .inr hk) fun _ _ => (Flaws.forM (F := fun _ => True) _ fun i _ => flaws_selectInst ctx i).imp (fun _ _ => Iff.rfl) fun _ _ => trivial

theorem flaws_bindParam (v : ValueId) (k : Nat) :
    Flaws m slots n (bindParam v k) (Register.arguments.length ≤ k ∧ FarWord 0 k) fun _ =>
      Register.arguments.length ≤ k → stackOffset? 0 k ≠ none := by
  refine .bind (clean_vregFor v) fun dst _ => ?_
  split
  · rename_i hreg
    have hk := Nat.not_le.2 (List.getElem?_eq_some_iff.1 hreg).1
    exact (clean_emit rfl rfl).imp (fun _ _ => iff_of_false id fun h => hk h.1) fun _ _ h => absurd h hk
  · rename_i hreg
    refine .bind (.lift fun _ h => Outcome.ofOption_eq_ok.1 h) fun offset hoffset =>
      (flaws_emit _ rfl).imp (fun _ _ => ?_) fun _ _ _ => ?_
    · refine ⟨fun hfar => ⟨List.getElem?_eq_none_iff.1 hreg, offset, hoffset, hfar⟩, ?_⟩
      rintro ⟨-, w, hw, hfar⟩
      exact Option.some.inj (hw.symm.trans hoffset) ▸ hfar
    · rw [hoffset]
      exact Option.some_ne_none offset

theorem flaws_bindParams (params : List ValueId) :
    Flaws m slots n (params.zipIdx.forM fun (v, k) => bindParam v k) (8196 < params.length) fun _ => True := by
  refine (Flaws.forM (F := fun e => Register.arguments.length ≤ e.2 → stackOffset? 0 e.2 ≠ none) _
    fun e _ => flaws_bindParam e.1 e.2).imp (fun _ hall => ?_) fun _ _ => trivial
  have hfour : Register.arguments.length = 4 := rfl
  have hzero : (0 : Word).toInt = 0 := rfl
  constructor
  · rintro ⟨⟨v, k⟩, he, hk, offset, hoffset, hfar⟩
    by_contra hle
    have hlt := (List.getElem?_eq_some_iff.1 (List.mem_zipIdx_iff_getElem?.1 he)).1
    dsimp only at hlt hk hoffset
    obtain ⟨w, hw, hwi⟩ := @exists_stackOffset 0 k (by omega) hk (by omega) (by omega)
    cases hoffset.symm.trans hw
    rw [fitsSigned16_eq_false_iff] at hfar
    omega
  · intro hlt
    obtain ⟨w, hw, hwi⟩ := @exists_stackOffset 0 8196 (by omega) (by omega) (by omega) (by omega)
    refine ⟨(params[8196], 8196), List.mem_zipIdx_iff_getElem?.2 (List.getElem?_eq_getElem hlt), by simp [hfour], w, hw, ?_⟩
    rw [fitsSigned16_eq_false_iff]
    omega

/-! ## Phis -/

/-- A value is the address of a slot out of reach. -/
def FarSlot (slots : List (ValueId × Word)) (v : ValueId) : Prop :=
  ∃ offset, slots.lookup v = some offset ∧ Word.fitsSigned16 offset = false

theorem clean_copyInto (dst : Operand) (v : ValueId) :
    Clean ctx.module slots n (copyInto ctx dst v) fun i => i.symbol? = none ∧ (i.encodable = false ↔ FarSlot slots v) := by
  refine .get_bind fun s hs => ?_
  rw [hs]
  split
  · rename_i slot hslot
    refine .pure ⟨rfl, fun hfar => ⟨slot, hslot, hfar⟩, ?_⟩
    rintro ⟨w, hw, hfar⟩
    exact Option.some.inj (hw.symm.trans hslot) ▸ hfar
  · rename_i hslot
    refine .bind (clean_plainOperand ctx v) fun op _ => .pure ⟨rfl, iff_of_false Bool.noConfusion ?_⟩
    rintro ⟨w, hw, -⟩
    cases hw.symm.trans hslot

theorem clean_receivePhis (block : BlockId) (target : Nat) (phis : List InstId) :
    Clean ctx.module slots n (receivePhis ctx block target phis) fun temps => temps.length = phis.length ∧
      ∀ phi ∈ phis, (ctx.func.operands phi).length = (ctx.func.preds block).length := by
  refine (Flaws.mapM (R := fun e _ => (ctx.func.operands e.1).length = (ctx.func.preds block).length) _
    fun e _ => ?_).imp (fun _ _ => Iff.rfl) fun temps hall => ⟨?_, fun phi hphi => ?_⟩
  · rcases e with ⟨phi, i⟩
    dsimp -zeta only
    extract_lets f operands preds receive
    have hreceive : operands = preds → Clean ctx.module slots n (receive ⟨⟩) fun _ => operands = preds := by
      intro harity
      dsimp only [receive]
      split
      · exact .report _
      · refine .bind clean_newVreg fun temp _ => .bind (clean_vregFor _) fun dst _ => ?_
        refine .bind (Q := fun _ => True) (fun s _ => ?_) fun _ _ => .pure harity
        refine .modify ⟨.insert (.add s target _ (fun insts j hj => ?_) fun insts => List.sublist_insertIdx _ _ _) rfl rfl
          rfl rfl, trivial⟩
        rcases eq_or_mem_of_mem_insertIdx hj with rfl | hj
        · exact .inr rfl
        · exact .inl hj
    split
    · exact .bind (Q := fun _ => False) (.report _) fun _ h => h.elim
    · rename_i harity
      exact hreceive (not_not.1 harity)
  · rw [← hall.length_eq, List.length_zipIdx]
  · obtain ⟨i, hi⟩ := List.mem_iff_getElem?.1 hphi
    obtain ⟨temp, -, harity⟩ :=
      exists_of_forall₂_right hall.flip (List.mem_zipIdx_iff_getElem?.2 hi : (phi, i) ∈ phis.zipIdx)
    exact harity

theorem flaws_sendPhis (phis : List InstId) (temps : List Operand) (slot : Nat) (pred : BlockId)
    (hlength : temps.length = phis.length) : Flaws ctx.module slots ctx.func.layout.length (sendPhis ctx phis temps slot pred)
      (∃ phi ∈ phis, ∃ v, (ctx.func.operands phi)[slot]? = some v ∧ FarSlot slots v) fun _ => True := by
  refine .bind (.lift fun k hk => lt_of_blockIndex ctx hk) fun source hsource => ?_
  refine .bind (.mapM (R := fun e i => ∃ v, (ctx.func.operands e.1)[slot]? = some v ∧
    i.symbol? = none ∧ (i.encodable = false ↔ FarSlot slots v)) _ fun e _ => ?_) fun copies hcopies s _ => ?_
  · exact .bind (.lift fun v hv => Edit.operand_eq_ok hv) fun v hv =>
      (clean_copyInto ctx e.2 v).imp (fun _ _ => Iff.rfl) fun i hi => ⟨v, hv, hi⟩
  · refine .modify ⟨.congr (.add (c := copies) (fun _ => hsource) (fun insts i => ?_) (fun i hi => ?_) fun insts => ?_) ?_,
      trivial⟩
    · conv_rhs => rw [← List.take_append_drop (s.code.firstTransfer source) insts]
      rw [List.mem_append, List.mem_append, List.mem_append, or_right_comm]
    · obtain ⟨e, -, v, -, hnone, -⟩ := exists_of_forall₂_right hcopies hi
      exact hnone
    · have hkept := (List.sublist_append_left (insts.take (s.code.firstTransfer source)) copies).append_right
        (insts.drop (s.code.firstTransfer source))
      rwa [List.take_append_drop] at hkept
    · constructor
      · rintro ⟨i, hi, hflaw⟩
        obtain ⟨e, he, v, hv, -, hfar⟩ := exists_of_forall₂_right hcopies hi
        exact ⟨e.1, (List.of_mem_zip he).1, v, hv, hfar.1 hflaw⟩
      · rintro ⟨phi, hphi, v, hv, hfar⟩
        rw [← List.map_fst_zip (Nat.le_of_eq hlength.symm)] at hphi
        obtain ⟨e, he, rfl⟩ := List.mem_map.1 hphi
        obtain ⟨i, hi, w, hw, -, hflaw⟩ := exists_of_forall₂_right hcopies.flip he
        exact ⟨i, hi, hflaw.2 (Option.some.inj (hw.symm.trans hv) ▸ hfar)⟩

theorem flaws_lowerPhis (b : BlockId) : Flaws ctx.module slots ctx.func.layout.length (lowerPhis ctx b)
    (∃ phi ∈ ctx.func.phis b, ∃ v ∈ ctx.func.operands phi, FarSlot slots v) fun _ => True := by
  unfold lowerPhis
  dsimp only
  split
  · rename_i hempty
    rw [List.isEmpty_iff.1 hempty]
    exact .congr (.pure trivial) (by simp)
  · refine .bind (Q := fun _ => True) (.lift fun _ _ => trivial) fun target _ =>
      .bind (clean_receivePhis ctx _ _ _) fun temps ⟨hlength, harity⟩ => ?_
    refine (Flaws.forM (B := fun e => (ctx.func.preds b).idxOf e.1 = e.2 ∧
      ∃ phi ∈ ctx.func.phis b, ∃ v, (ctx.func.operands phi)[e.2]? = some v ∧ FarSlot slots v)
      (F := fun e => ∀ phi ∈ ctx.func.phis b, (ctx.func.operands phi)[(ctx.func.preds b).idxOf e.1]? =
        (ctx.func.operands phi)[e.2]?) _ fun e _ => ?_).imp (fun _ hall => ?_) fun _ _ => trivial
    · split
      · rename_i hfirst
        exact (flaws_sendPhis ctx _ _ _ _ hlength).imp (fun _ _ => (and_iff_right hfirst).symm) fun _ _ phi _ => by rw [hfirst]
      · rename_i hfirst
        split
        · exact .report _
        · rename_i hsame
          refine .congr (.pure fun phi hphi => ?_) (iff_of_false id fun h => hfirst h.1)
          by_contra hne
          exact hsame (List.any_eq_true.2 ⟨phi, hphi, by simpa using hne⟩)
    · constructor
      · rintro ⟨e, -, -, phi, hphi, v, hv, hfar⟩
        exact ⟨phi, hphi, v, List.mem_of_getElem? hv, hfar⟩
      · rintro ⟨phi, hphi, v, hv, hfar⟩
        -- A repeated predecessor gives what its first edge gives.
        obtain ⟨slot, hslot⟩ := List.mem_iff_getElem?.1 hv
        have hlt : slot < (ctx.func.preds b).length := harity phi hphi ▸ (List.getElem?_eq_some_iff.1 hslot).1
        have hpred := List.getElem?_eq_getElem hlt
        have hin : (ctx.func.preds b)[slot] ∈ ctx.func.preds b := List.getElem_mem hlt
        refine ⟨((ctx.func.preds b)[slot], (ctx.func.preds b).idxOf (ctx.func.preds b)[slot]),
          List.mem_zipIdx_iff_getElem?.2 (List.getElem?_idxOf hin), rfl, phi, hphi, v, ?_, hfar⟩
        exact (hall (_, slot) (List.mem_zipIdx_iff_getElem?.2 hpred) phi hphi).trans hslot

/-! ## Functions -/

theorem flaws_selectAll : Flaws ctx.module slots ctx.func.layout.length (selectAll ctx) (8196 < ctx.func.params.length ∨
      (∃ b ∈ ctx.func.layout, ∃ i ∈ (ctx.func.instsOf b).filter fun i => !ctx.fused.contains i, FarCall ctx.func i) ∨
      ∃ b ∈ ctx.func.layout, ∃ phi ∈ ctx.func.phis b, ∃ v ∈ ctx.func.operands phi, FarSlot slots v) fun _ => True := by
  refine .bind_both (flaws_bindParams _) fun _ _ => .bind
    (.modify (fun s => .close s) (fun _ => rfl) (fun _ _ => rfl) fun _ => .inl rfl) fun _ _ => .bind_both (.forM (F := fun _ => True) _ fun b _ => flaws_selectBlock ctx b) fun _ _ =>
      (Flaws.forM (F := fun _ => True) _ fun b _ => flaws_lowerPhis ctx b).imp (fun _ _ => Iff.rfl) fun _ _ => trivial

end Select

namespace Function

/-- Selected code has a block for each block of the function, each with the label of its number, and loads
addresses of labels of the module only. -/
theorem select_spec {m : Module} {f : Function} {loops : LoopForest} {mf : MachineFunction}
    (h : f.select m loops = .ok mf) : mf.Labelled ∧ mf.name = f.name ∧ mf.isMain = (f.name == "main") ∧
      mf.blocks.size = f.layout.length ∧ mf.LoadsFrom m := by
  obtain ⟨⟨⟨⟩, s₁⟩, hslots, h₁⟩ := Outcome.bind_eq_ok.1 h
  obtain ⟨fused, -, h₂⟩ := Outcome.bind_eq_ok.1 h₁
  obtain ⟨⟨⟨⟩, s₂⟩, hall, hlink⟩ := Outcome.bind_eq_ok.1 h₂
  obtain ⟨hlabelled, hname, hmain, hsize, hblank⟩ := blank_spec f loops.blockDepth f.layout
  -- The labels are those of the blank code, and what is loaded was loaded by a step.
  have hleads : Stateful.Leads (Selection.Step m) (f.placedInsts.forM (Select.assignSlot f)) :=
    .forM (Select.leads_assignSlot f) _
  have hsteps := (hleads hslots).trans ((Select.flaws_selectAll _ s₁ rfl).of_run hall).1.steps
  have hlabels := (Selection.sameLabels_of_steps hsteps).trans (MachineFunction.sameLabels_linkBlocks hlink)
  refine ⟨hlabels.labelled hlabelled, hlabels.name.trans hname, hlabels.isMain.trans hmain, hlabels.size.trans hsize, ?_⟩
  intro b i hi
  rw [MachineFunction.instsOf_linkBlocks hlink] at hi
  refine Selection.loadsFrom_of_steps hsteps (fun c j hj => ?_) b i hi
  rw [show _ = [] from hblank c] at hj
  exact absurd hj List.not_mem_nil

end Function

end SsaCompiler
