import SsaCompiler.Proofs.Machine.InstCode

/-!
# Selecting instructions

Selection emits for each operand and instruction the code that belongs to it. On a function that is sound and in shape
and whose references are good, it fails for one reason only: a number of bytes leaves the word range.
-/

set_option autoImplicit false

namespace SsaCompiler

/-! ## Offsets -/

/-- A number in the word range is the value of a word. -/
theorem Word.exists_ofInt? {n : Int} (hlow : -2 ^ 31 ≤ n) (hhigh : n < 2 ^ 31) :
    ∃ w, Word.ofInt? n = some w ∧ w.toInt = n := by
  refine ⟨Int32.ofInt n, ?_, Int32.toInt_ofInt_of_le hlow hhigh⟩
  unfold Word.ofInt? Word.inRange Word.minInt Word.maxInt
  rw [if_pos]
  simp only [Bool.and_eq_true, decide_eq_true_eq]
  omega

/-- The offset of the lowest of some words below the stack pointer. -/
theorem Word.exists_mul_neg_four {n : Nat} (h : 4 * n < 2 ^ 31) :
    ∃ w, Word.mul? (-4) (Int32.ofNat n) = some w ∧ w.toInt = -4 * n := by
  have hn : (Int32.ofNat n).toInt = n := Int32.toInt_ofNat_of_lt (by omega)
  have hfour : (-4 : Word).toInt = -4 := rfl
  unfold Word.mul?
  rw [hn, hfour]
  exact Word.exists_ofInt? (by omega) (by omega)

/-- The offset of a stack argument. -/
theorem Select.exists_stackOffset {first : Word} {k : Nat} (hk : 4 * k < 2 ^ 31) (hfour : 4 ≤ k)
    (hlow : -2 ^ 31 ≤ first.toInt + 4 * (k - 4)) (hhigh : first.toInt + 4 * (k - 4) < 2 ^ 31) :
    ∃ w, Select.stackOffset? first k = some w ∧ w.toInt = first.toInt + 4 * (k - 4) := by
  have hk' : (Int32.ofNat k).toInt = k := Int32.toInt_ofNat_of_lt (by omega)
  obtain ⟨a, ha, hai⟩ : ∃ w, Word.add? (Int32.ofNat k) (-4) = some w ∧ w.toInt = k - 4 := by
    unfold Word.add?
    rw [hk', show (-4 : Word).toInt = -4 from rfl, ← sub_eq_add_neg]
    exact Word.exists_ofInt? (by omega) (by omega)
  obtain ⟨b, hb, hbi⟩ : ∃ w, Word.mul? 4 a = some w ∧ w.toInt = 4 * (k - 4) := by
    unfold Word.mul?
    rw [hai, show (4 : Word).toInt = 4 from rfl]
    exact Word.exists_ofInt? (by omega) (by omega)
  obtain ⟨c, hc, hci⟩ : ∃ w, Word.add? first b = some w ∧ w.toInt = first.toInt + 4 * (k - 4) := by
    unfold Word.add?
    rw [hbi]
    exact Word.exists_ofInt? hlow hhigh
  refine ⟨c, ?_, hci⟩
  unfold stackOffset?
  rw [ha, Option.bind_eq_bind, Option.bind_some, hb, Option.bind_some, hc]

namespace Select

/-- The stack words of a call with this many arguments leave the word range. -/
inductive CallOverflow (args : Nat) : Prop
  | area (h : Word.mul? (-4) (Int32.ofNat (args - Register.arguments.length)) = none)
  | argument {lowest : Word} {k : Nat}
      (hlowest : Word.mul? (-4) (Int32.ofNat (args - Register.arguments.length)) = some lowest)
      (hk : Register.arguments.length ≤ k) (hlt : k < args) (h : stackOffset? lowest k = none)

/-- The stack word of one of this many parameters leaves the word range. -/
def ParamOverflow (params : Nat) : Prop :=
  ∃ k < params, Register.arguments.length ≤ k ∧ stackOffset? 0 k = none

end Select

/-! ## Selecting -/

/-- A state of the selection of a function. -/
structure Selection.Ready (s : Selection) (ctx : SelectionContext) : Prop extends s.Sound where
  values : s.registers.size = ctx.func.values.size

/-- A state with more code. -/
theorem Selection.Emits.ready {s s' : Selection} {code : List Instr} {ctx : SelectionContext} (h : s.Emits code s')
    (hs : s.Ready ctx) : s'.Ready ctx := ⟨h.sound, h.values.trans hs.values⟩

namespace Select

open Stateful Selection

variable {allowed : Failure → Prop} {ctx : SelectionContext} {s : Selection}

/-- Adding a number to a register. -/
theorem meets_emitAddImmediate (hs : s.Sound) (dst src : Operand) (c : Word) :
    Meets allowed (emitAddImmediate dst src c) s fun _ s' =>
      ∃ code, s.Emits code s' ∧ AddCode s' s.code.vregCount s'.code.vregCount dst src c code := by
  unfold emitAddImmediate
  split
  · exact (meets_emit hs _).mono fun _ s' he => ⟨_, he, .near⟩
  · refine .bind ((meets_newVreg hs).mono fun t s₁ ⟨he₁, n, hop, hn⟩ => ?_)
    subst hop
    refine .bind ((meets_emit he₁.sound _).mono fun _ s₂ he₂ => ?_)
    refine (meets_emit he₂.sound _).mono fun _ s₃ he₃ => ?_
    have hext := he₂.toExtends.trans he₃.toExtends
    exact ⟨_, (he₁.trans he₂).trans he₃, .far ((hn.mono hext).widen (Nat.le_refl _) hext.count)⟩

theorem meets_stringAddress (hs : s.Sound) {id : StringId} (hid : (ctx.module.string id).FailsOnly allowed) :
    Meets allowed (stringAddress ctx id) s fun op s' => s.Emits [] s' ∧
      ∃ n name, op = .virtual n ∧ ctx.module.label? (.str id) = some name ∧ s'.Belongs n (.label name) := by
  refine .bind (.lift hid fun string hok => ?_)
  exact (meets_cachedAddress hs _).mono fun op s' ⟨he, n, hop, hn⟩ => ⟨he, n, _, hop, Module.label?_str hok, hn⟩

section

variable (h : ctx.Selectable allowed)

include h

theorem meets_plainOperand (hs : s.Ready ctx) {v : ValueId} (hv : v < ctx.func.values.size)
    (hslot : s.slots.lookup v = none) : Meets allowed (plainOperand ctx v) s fun op s' =>
      s.Emits [] s' ∧ ∀ low high, OperandCode ctx s' low high v [] op := by
  have hregister : (ctx.func.value v).kind.isComputed = true → Meets allowed (vregFor v) s fun op s' =>
      s.Emits [] s' ∧ ∀ low high, OperandCode ctx s' low high v [] op := by
    intro hkind
    refine (meets_vregFor hs.toSound (hs.values ▸ hv)).mono fun op s' ⟨he, n, hop, hn⟩ => ?_
    subst hop
    exact ⟨he, fun low high => .register (he.slots ▸ hslot) hkind hn⟩
  unfold plainOperand
  split
  · rename_i c hkind
    exact .pure ⟨.refl hs.toSound, fun low high => .number hslot hkind⟩
  · rename_i g hkind
    refine .bind (.lift (h.failsOnly_global hkind) fun global hok => ?_)
    refine (meets_cachedAddress hs.toSound _).mono fun op s' ⟨he, n, hop, hn⟩ => ?_
    subst hop
    exact ⟨he, fun low high => .address (he.slots ▸ hslot) (hkind ▸ Module.label?_global hok) hn⟩
  · rename_i id hkind
    refine (meets_stringAddress hs.toSound (h.failsOnly_string hkind)).mono fun op s' ⟨he, n, name, hop, hname, hn⟩ => ?_
    subst hop
    exact ⟨he, fun low high => .address (he.slots ▸ hslot) (hkind ▸ hname) hn⟩
  · rename_i k hkind
    exact hregister (by rw [hkind]; rfl)
  · rename_i i hkind
    exact hregister (by rw [hkind]; rfl)

theorem meets_operand (hs : s.Ready ctx) {v : ValueId} (hv : v < ctx.func.values.size) :
    Meets allowed (operand ctx v) s fun op s' =>
      ∃ code, s.Emits code s' ∧ OperandCode ctx s' s.code.vregCount s'.code.vregCount v code op := by
  refine .bind (.get ?_)
  split
  · rename_i offset hslot
    refine .bind ((meets_newVreg hs.toSound).mono fun dst s₁ ⟨he₁, n, hop, hn⟩ => ?_)
    subst hop
    refine .bind ((meets_emitAddImmediate he₁.sound _ _ _).mono fun _ s₂ ⟨code, he₂, hadd⟩ => .pure ?_)
    refine ⟨code, he₁.trans he₂, .slot ?_ ((hn.mono he₂.toExtends).widen (Nat.le_refl _) he₂.count)
      (hadd.widen he₁.count (Nat.le_refl _))⟩
    rw [he₂.slots, he₁.slots]
    exact hslot
  · rename_i hslot
    exact (meets_plainOperand h hs hv hslot).mono fun op s' ⟨he, hcode⟩ => ⟨[], he, hcode _ _⟩

theorem meets_register (hs : s.Ready ctx) {v : ValueId} (hv : v < ctx.func.values.size) :
    Meets allowed (register ctx v) s fun op s' =>
      ∃ code, s.Emits code s' ∧ RegisterCode ctx s' s.code.vregCount s'.code.vregCount v code op := by
  refine .bind ((meets_operand h hs hv).mono fun op s₁ ⟨code, he₁, hcode⟩ => ?_)
  cases hcode with
  | @number c hslot hkind =>
    dsimp only
    split
    · rename_i hc
      subst hc
      exact .pure ⟨[], he₁, .zero hslot hkind⟩
    · refine .bind ((meets_newVreg he₁.sound).mono fun dst s₂ ⟨he₂, n, hop, hn⟩ => ?_)
      subst hop
      refine .bind ((meets_emit he₂.sound _).mono fun _ s₃ he₃ => .pure ?_)
      have hext := he₂.toExtends.trans he₃.toExtends
      exact ⟨_, (he₁.trans he₂).trans he₃, .number (hext.slots ▸ hslot) hkind
        ((hn.mono he₃.toExtends).widen he₁.count he₃.count)⟩
  | address hslot hname hn => exact .pure ⟨_, he₁, .operand (.address hslot hname hn)⟩
  | register hslot hkind hn => exact .pure ⟨_, he₁, .operand (.register hslot hkind hn)⟩
  | slot hslot hn hadd => exact .pure ⟨_, he₁, .operand (.slot hslot hn hadd)⟩

/-- The right operand of a comparison or of arithmetic. -/
theorem meets_right (hs : s.Ready ctx) {v : ValueId} (hv : v < ctx.func.values.size) (fits : Word → Bool) :
    Meets allowed (match ctx.func.const? v with
      | some c => if fits c then pure (.immediate c) else register ctx v
      | none => register ctx v) s fun op s' =>
      ∃ code, s.Emits code s' ∧ RightCode ctx s' s.code.vregCount s'.code.vregCount v code op := by
  have hregister : Meets allowed (register ctx v) s fun op s' =>
      ∃ code, s.Emits code s' ∧ RightCode ctx s' s.code.vregCount s'.code.vregCount v code op :=
    (meets_register h hs hv).mono fun op s' ⟨code, he, hcode⟩ => ⟨code, he, .register hcode⟩
  split
  · rename_i c hc
    split
    · exact .pure ⟨[], .refl hs.toSound, .number hc⟩
    · exact hregister
  · exact hregister

/-- Finding the operands of a comparison when it is decided which one comes first. -/
def orderedOperands (ctx : SelectionContext) (op : BinaryOp) (l r : ValueId) : Select (Cond × Operand × Operand) :=
  match Cond.ofBinary? op with
  | none => report (.invariant ctx.func.name (.notACompare op.title))
  | some cond => do
    let lhs ← register ctx l
    match ctx.func.const? r with
    | some c =>
      if Word.fitsSigned16 c then return (cond, lhs, .immediate c)
      return (cond, lhs, ← register ctx r)
    | none => return (cond, lhs, ← register ctx r)

/-- The operands of a comparison, in their order or the other way round. -/
theorem meets_orderedOperands (hs : s.Ready ctx) {op op' : BinaryOp} {l l' r r' : ValueId} (hop : op.isCompare = true)
    (hl : l < ctx.func.values.size) (hr : r < ctx.func.values.size)
    (hsame : op' = op ∧ l' = l ∧ r' = r ∨ op.swapped? = some op' ∧ l' = r ∧ r' = l) :
    Meets allowed (orderedOperands ctx op' l' r') s fun found s' => ∃ code, s.Emits code s' ∧
      CompareCode ctx s' s.code.vregCount s'.code.vregCount op l r code found.1 found.2.1 found.2.2 := by
  obtain ⟨cond, hcond⟩ : ∃ cond, Cond.ofBinary? op' = some cond := by
    rcases hsame with ⟨rfl, -, -⟩ | ⟨hswap, -, -⟩
    · cases op' <;> first | exact ⟨_, rfl⟩ | cases hop
    · cases op <;> cases hop <;> cases hswap <;> exact ⟨_, rfl⟩
  have hl' : l' < ctx.func.values.size := by
    rcases hsame with ⟨-, rfl, -⟩ | ⟨-, rfl, -⟩
    · exact hl
    · exact hr
  have hr' : r' < ctx.func.values.size := by
    rcases hsame with ⟨-, -, rfl⟩ | ⟨-, -, rfl⟩
    · exact hr
    · exact hl
  unfold orderedOperands
  rw [hcond]
  refine .bind ((meets_register h hs hl').mono fun lhs s₁ ⟨code₁, he₁, h₁⟩ => ?_)
  have hright := @meets_right allowed ctx s₁ h (he₁.ready hs) r' hr' Word.fitsSigned16
  have hdone : ∀ rhs s₂, (∃ code, s₁.Emits code s₂ ∧ RightCode ctx s₂ s₁.code.vregCount s₂.code.vregCount r' code rhs) →
      ∃ code, s.Emits code s₂ ∧ CompareCode ctx s₂ s.code.vregCount s₂.code.vregCount op l r code cond lhs rhs :=
    fun rhs s₂ ⟨code₂, he₂, h₂⟩ => ⟨_, he₁.trans he₂, .mk hsame hcond (h₁.mono he₂.toExtends) h₂⟩
  split at hright
  · split at hright
    · rename_i c hc hfits
      rw [if_pos hfits]
      exact hright.mono fun rhs s₂ hpost => hdone _ s₂ hpost
    · rename_i c hc hfits
      rw [if_neg hfits]
      exact .bind (hright.mono fun rhs s₂ hpost => .pure (hdone rhs s₂ hpost))
  · exact .bind (hright.mono fun rhs s₂ hpost => .pure (hdone rhs s₂ hpost))

theorem meets_compareOperands (hs : s.Ready ctx) {op : BinaryOp} {l r : ValueId} (hop : op.isCompare = true)
    (hl : l < ctx.func.values.size) (hr : r < ctx.func.values.size) :
    Meets allowed (compareOperands ctx op l r) s fun found s' => ∃ code, s.Emits code s' ∧
      CompareCode ctx s' s.code.vregCount s'.code.vregCount op l r code found.1 found.2.1 found.2.2 := by
  have hplain : Meets allowed (orderedOperands ctx op l r) s _ :=
    meets_orderedOperands h hs hop hl hr (.inl ⟨rfl, rfl, rfl⟩)
  unfold compareOperands
  cases hswap : op.swapped? with
  | none => exact hplain
  | some mirrored =>
    dsimp only
    by_cases hconst : ((ctx.func.const? l).isSome && !(ctx.func.const? r).isSome) = true
    · rw [if_pos hconst]
      exact meets_orderedOperands h hs hop hl hr (.inr ⟨hswap, rfl, rfl⟩)
    · rw [if_neg hconst]
      exact hplain

omit h in
theorem meets_define (hs : s.Ready ctx) {i : InstId} {v : ValueId} (hresult : ctx.func.result? i = some v)
    (hv : v < ctx.func.values.size) : Meets allowed (define ctx i) s fun op s' =>
      s.Emits [] s' ∧ ∃ n, op = .virtual n ∧ s'.Belongs n (.value v) := by
  have hresult' := Edit.resultOf_of_result hresult
  refine .bind (.lift (.of_exists ⟨v, hresult'⟩) fun w hw => ?_)
  cases hresult'.symm.trans hw
  exact meets_vregFor hs.toSound (hs.values ▸ hv)

theorem meets_selectBinary (hs : s.Ready ctx) {b : BlockId} {i : InstId} {op : BinaryOp} {l r : ValueId}
    (hi : i ∈ ctx.func.instsOf b) (hkind : ctx.func.kind i = .binary op) (hops : ctx.func.operands i = [l, r]) :
    Meets allowed (selectBinary ctx i op l r) s fun _ s' => ∃ code, s.Emits code s' ∧ InstCode ctx s' i code := by
  obtain ⟨v, hresult, hv⟩ := h.exists_result hi (by rw [hkind]; rfl)
  have hl : l < ctx.func.values.size := h.lt_size (i := i) (by rw [hops]; exact List.mem_cons_self)
  have hr : r < ctx.func.values.size :=
    h.lt_size (i := i) (by rw [hops]; exact List.mem_cons_of_mem _ List.mem_cons_self)
  refine .bind ((meets_define hs hresult hv).mono fun dst s₁ ⟨he₁, n, hop, hn⟩ => ?_)
  subst hop
  split
  · rename_i hcompare
    refine .bind ((meets_compareOperands h (he₁.ready hs) hcompare hl hr).mono fun found s₂ ⟨code, he₂, hcode⟩ => ?_)
    refine (meets_emit he₂.sound _).mono fun _ s₃ he₃ => ?_
    have hext := he₂.toExtends.trans he₃.toExtends
    exact ⟨_, (he₁.trans he₂).trans he₃, .compare hkind hcompare hops hresult (hext.kept _ _ hn)
      (hcode.mono he₃.toExtends)⟩
  · rename_i hcompare
    obtain ⟨mop, hmop⟩ : ∃ mop, MachineOp.ofBinary? op = some mop := by
      cases op <;> first | exact ⟨_, rfl⟩ | exact absurd rfl hcompare
    rw [hmop]
    -- What is left when it is decided which operand comes first.
    have hrest : ∀ l' r', (l' = l ∧ r' = r ∨ op.isCommutative = true ∧ l' = r ∧ r' = l) →
        Meets allowed (match negatedConstant? ctx mop r' with
          | some c => do
            let lhs ← register ctx l'
            emit (.binary .addu (.virtual n) lhs (.immediate c))
          | none => do
            let lhs ← register ctx l'
            let rhs ← rightOperand ctx mop r'
            emit (.binary mop (.virtual n) lhs rhs)) s₁ fun _ s' => ∃ code, s.Emits code s' ∧ InstCode ctx s' i code := by
      intro l' r' hsame
      have hl' : l' < ctx.func.values.size := by
        rcases hsame with ⟨rfl, -⟩ | ⟨-, rfl, -⟩
        · exact hl
        · exact hr
      have hr' : r' < ctx.func.values.size := by
        rcases hsame with ⟨-, rfl⟩ | ⟨-, -, rfl⟩
        · exact hr
        · exact hl
      split
      · rename_i c hneg
        refine .bind ((meets_register h (he₁.ready hs) hl').mono fun lhs s₂ ⟨code, he₂, hcode⟩ => ?_)
        refine (meets_emit he₂.sound _).mono fun _ s₃ he₃ => ?_
        have hext := he₂.toExtends.trans he₃.toExtends
        exact ⟨_, (he₁.trans he₂).trans he₃, .subtract hkind hops hmop hsame hresult (hext.kept _ _ hn) hneg
          (hcode.mono he₃.toExtends)⟩
      · refine .bind ((meets_register h (he₁.ready hs) hl').mono fun lhs s₂ ⟨code, he₂, hcode⟩ => ?_)
        refine .bind ((meets_right h ((he₁.trans he₂).ready hs) hr' mop.acceptsImmediate).mono
          fun rhs s₃ ⟨code', he₃, hcode'⟩ => ?_)
        refine (meets_emit he₃.sound _).mono fun _ s₄ he₄ => ?_
        have hext := he₃.toExtends.trans he₄.toExtends
        exact ⟨_, ((he₁.trans he₂).trans he₃).trans he₄, .arith hkind hops hmop hsame hresult
          ((he₂.toExtends.trans hext).kept _ _ hn) (hcode.mono hext) (hcode'.mono he₄.toExtends)⟩
    dsimp only
    by_cases hconst : ((ctx.func.const? l).isSome && !(ctx.func.const? r).isSome && op.isCommutative) = true
    · rw [if_pos hconst]
      exact hrest r l (.inr ⟨(Bool.and_eq_true_iff.1 hconst).2, rfl, rfl⟩)
    · rw [if_neg hconst]
      exact hrest l r (.inl ⟨rfl, rfl⟩)

omit h in
theorem meets_foldOffset (hs : s.Sound) (base : Operand) (offset : Word) :
    Meets allowed (foldOffset base offset) s fun found s' =>
      ∃ code, s.Emits code s' ∧ FoldCode s' s.code.vregCount s'.code.vregCount base offset code found.1 found.2 := by
  unfold foldOffset
  split
  · exact .pure ⟨[], .refl hs, .near⟩
  · refine .bind ((meets_newVreg hs).mono fun addr s₁ ⟨he₁, n, hop, hn⟩ => ?_)
    subst hop
    refine .bind ((meets_emitAddImmediate he₁.sound _ _ _).mono fun _ s₂ ⟨code, he₂, hadd⟩ => .pure ?_)
    exact ⟨_, he₁.trans he₂, .far ((hn.mono he₂.toExtends).widen (Nat.le_refl _) he₂.count)
      (hadd.widen he₁.count (Nat.le_refl _))⟩

theorem meets_address (hs : s.Ready ctx) {base index : ValueId} (hbase : base < ctx.func.values.size)
    (hindex : index < ctx.func.values.size) : Meets allowed (address ctx base index) s fun found s' =>
      ∃ code, s.Emits code s' ∧
        AddressCode ctx s' s.code.vregCount s'.code.vregCount base index code found.1 found.2 := by
  refine .bind (.get ?_)
  -- The rest after the start of the array is known.
  extract_lets rest
  have hrest : ∀ s₁ code start offset, s.Emits code s₁ →
      StartCode ctx s₁ s.code.vregCount s₁.code.vregCount base code start offset →
      Meets allowed (rest (start, offset)) s₁ fun found s' => ∃ code, s.Emits code s' ∧
        AddressCode ctx s' s.code.vregCount s'.code.vregCount base index code found.1 found.2 := by
    intro s₁ code start offset he₁ hstart
    dsimp only [rest]
    split
    · rename_i c hc
      refine (meets_foldOffset he₁.sound _ _).mono fun found s₂ ⟨code', he₂, hfold⟩ => ?_
      exact ⟨_, he₁.trans he₂, .fixed hc (hstart.mono he₂.toExtends) he₂.count hfold⟩
    · refine .bind ((meets_register h (he₁.ready hs) hindex).mono fun idx s₂ ⟨code', he₂, hidx⟩ => ?_)
      refine .bind ((meets_newVreg he₂.sound).mono fun scaled s₃ ⟨he₃, n, hop, hn⟩ => ?_)
      subst hop
      refine .bind ((meets_emit he₃.sound _).mono fun _ s₄ he₄ => ?_)
      refine .bind ((meets_newVreg he₄.sound).mono fun addr s₅ ⟨he₅, m, hop, hm⟩ => ?_)
      subst hop
      refine .bind ((meets_emit he₅.sound _).mono fun _ s₆ he₆ => ?_)
      refine (meets_foldOffset he₆.sound _ _).mono fun found s₇ ⟨code'', he₇, hfold⟩ => ?_
      have hext₅ := he₆.toExtends.trans he₇.toExtends
      have hext₃ := he₄.toExtends.trans (he₅.toExtends.trans hext₅)
      have hext₂ := he₃.toExtends.trans hext₃
      refine ⟨_, (((((he₁.trans he₂).trans he₃).trans he₄).trans he₅).trans he₆).trans he₇, ?_⟩
      have hcode := AddressCode.scaled (hstart.mono (he₂.toExtends.trans hext₂)) he₂.count (hidx.mono hext₂)
        ((hn.mono hext₃).widen (Nat.le_refl _) (he₄.toExtends.trans (he₅.toExtends.trans he₆.toExtends)).count)
        ((hm.mono hext₅).widen (he₃.toExtends.trans he₄.toExtends).count he₆.count) he₇.count hfold
      simpa using hcode
  split
  · rename_i slot hslot
    exact .bind (.pure (hrest s [] .sp slot (.refl hs.toSound) (.slot hslot)))
  · rename_i hslot
    refine .bind ((meets_register h hs hbase).mono fun op s₁ ⟨code, he, hcode⟩ => .bind (.pure ?_))
    exact hrest s₁ code op 0 he (.register (he.slots ▸ hslot) hcode)

theorem meets_selectGep (hs : s.Ready ctx) {b : BlockId} {i : InstId} {multiplier : Word} {base index : ValueId}
    (hi : i ∈ ctx.func.instsOf b) (hkind : ctx.func.kind i = .gep multiplier)
    (hops : ctx.func.operands i = [base, index]) : Meets allowed (selectGep ctx i base index multiplier) s fun _ s' =>
      ∃ code, s.Emits code s' ∧ InstCode ctx s' i code := by
  obtain ⟨v, hresult, hv⟩ := h.exists_result hi (by rw [hkind]; rfl)
  have hbase : base < ctx.func.values.size := h.lt_size (i := i) (by rw [hops]; exact List.mem_cons_self)
  have hindex : index < ctx.func.values.size :=
    h.lt_size (i := i) (by rw [hops]; exact List.mem_cons_of_mem _ List.mem_cons_self)
  refine .bind ((meets_define hs hresult hv).mono fun dst s₁ ⟨he₁, n, hop, hn⟩ => ?_)
  subst hop
  have hs₁ := he₁.ready hs
  suffices hcode : Meets allowed _ s₁ fun _ s' => ∃ code, s₁.Emits code s' ∧
      ElementCode ctx s' (.virtual n) base index (multiplier * 4) code from
    hcode.mono fun _ s' ⟨code, he, hcode⟩ =>
      ⟨_, he₁.trans he, .gep hkind hops hresult (he.kept _ _ hn) hcode⟩
  dsimp only
  split
  · rename_i c hc
    refine .bind (.get ?_)
    split
    · rename_i slot hslot
      refine (meets_emitAddImmediate he₁.sound _ _ _).mono fun _ s₂ ⟨code, he₂, hadd⟩ => ?_
      have hstart : StartCode ctx s₂ 0 s₁.code.vregCount base [] .sp slot := .slot (he₂.slots ▸ hslot)
      exact ⟨_, he₂, .fixed hc hstart hadd⟩
    · rename_i hslot
      refine .bind ((meets_register h hs₁ hbase).mono fun start s₂ ⟨code, he₂, hstart⟩ => ?_)
      refine (meets_emitAddImmediate he₂.sound _ _ _).mono fun _ s₃ ⟨code', he₃, hadd⟩ => ?_
      have hslot' : s₃.slots.lookup base = none := by
        rw [he₃.slots, he₂.slots]
        exact hslot
      rw [← Int32.zero_add (c * (multiplier * 4))] at hadd
      exact ⟨_, he₂.trans he₃, .fixed hc (.register hslot' (hstart.mono he₃.toExtends)) hadd⟩
  · refine .bind ((meets_register h hs₁ hindex).mono fun idx s₂ ⟨code, he₂, hidx⟩ => ?_)
    refine .bind ((meets_newVreg he₂.sound).mono fun scaled s₃ ⟨he₃, m, hop, hm⟩ => ?_)
    subst hop
    -- The rest after the index is scaled.
    have hlast : ∀ s₄ code', s₃.Emits code' s₄ →
        ScaleCode s₄ s₂.code.vregCount s₄.code.vregCount (.virtual m) idx (multiplier * 4) code' →
        Meets allowed (do
          let start ← register ctx base
          emit (.binary .addu (.virtual n) start (.virtual m))) s₄ fun _ s' => ∃ code, s₁.Emits code s' ∧
            ElementCode ctx s' (.virtual n) base index (multiplier * 4) code := by
      intro s₄ code' he₄ hscale
      have hs₄ := ((he₂.trans he₃).trans he₄).ready hs₁
      refine .bind ((meets_register h hs₄ hbase).mono fun start s₅ ⟨code'', he₅, hstart⟩ => ?_)
      refine (meets_emit he₅.sound _).mono fun _ s₆ he₆ => ?_
      have hext₄ := he₅.toExtends.trans he₆.toExtends
      have hext₃ := he₄.toExtends.trans hext₄
      refine ⟨_, (((he₂.trans he₃).trans he₄).trans he₅).trans he₆, ?_⟩
      rw [List.append_nil]
      exact .scaled (hidx.mono (he₃.toExtends.trans hext₃)) ((hm.mono hext₃).widen (Nat.le_refl _) he₄.count)
        (hscale.mono hext₄) (hstart.mono he₆.toExtends)
    split
    · rename_i k hk
      refine .bind ((meets_emit he₃.sound _).mono fun _ s₄ he₄ => ?_)
      exact hlast s₄ _ he₄ (.shift hk)
    · refine .bind ((meets_newVreg he₃.sound).mono fun factor s₄ ⟨he₄, t, hop, ht⟩ => ?_)
      subst hop
      refine .bind ((meets_emit he₄.sound _).mono fun _ s₅ he₅ => ?_)
      refine .bind ((meets_emit he₅.sound _).mono fun _ s₆ he₆ => ?_)
      have hext := he₅.toExtends.trans he₆.toExtends
      exact hlast s₆ _ ((he₄.trans he₅).trans he₆)
        (.factor ((ht.mono hext).widen he₃.count hext.count))

theorem meets_selectCall (hs : s.Ready ctx) {label : String} {args : List ValueId}
    (hargs : ∀ v ∈ args, v < ctx.func.values.size) (hallowed : CallOverflow args.length → allowed (.crash none)) :
    Meets allowed (selectCall ctx label args) s fun _ s' => ∃ code, s.Emits code s' ∧ CallCode ctx s' label args code := by
  refine .bind (.lift (.ofOption fun hnone => hallowed (.area hnone)) fun lowest hlowest₀ => ?_)
  have hlowest := Outcome.ofOption_eq_ok.1 hlowest₀
  refine .bind ((Meets.forM (I := fun done s' => ∃ code, s.Emits code s' ∧ PushCode ctx s' lowest done code) _
    (fun done arg rest s₁ hlist ⟨code, he₁, hpush⟩ => ?_) ⟨[], .refl hs.toSound, .nil⟩).mono
      fun _ s₁ ⟨code, he₁, hpush⟩ => ?_)
  · have hmem : arg ∈ (args.drop Register.arguments.length).zipIdx Register.arguments.length := by
      rw [hlist]
      exact List.mem_append_right _ List.mem_cons_self
    obtain ⟨hge, hlt, -⟩ := List.mem_zipIdx hmem
    rw [List.length_drop] at hlt
    have harg : arg.1 ∈ args := List.mem_of_mem_drop (List.fst_mem_of_mem_zipIdx hmem)
    refine .bind ((meets_register h (he₁.ready hs) (hargs _ harg)).mono fun src s₂ ⟨code', he₂, hsrc⟩ => ?_)
    refine .bind (.lift (.ofOption fun hnone => hallowed (.argument hlowest hge (by omega) hnone))
      fun offset hoffset => ?_)
    refine (meets_emit he₂.sound _).mono fun _ s₃ he₃ => ⟨_, (he₁.trans he₂).trans he₃, ?_⟩
    rw [List.append_assoc]
    exact (hpush.mono (he₂.toExtends.trans he₃.toExtends)).snoc (hsrc.mono he₃.toExtends)
      (Outcome.ofOption_eq_ok.1 hoffset)
  refine .bind ((Meets.forM (I := fun done s' => ∃ code', s₁.Emits code' s' ∧ PassCode ctx s' done code') _
    (fun done arg rest s₂ hlist ⟨code', he₂, hpass⟩ => ?_) ⟨[], .refl he₁.sound, .nil⟩).mono
      fun _ s₂ ⟨code', he₂, hpass⟩ => ?_)
  · have hmem : (arg.1, arg.2) ∈ args.zip Register.arguments := by
      rw [hlist]
      exact List.mem_append_right _ List.mem_cons_self
    have harg := (List.of_mem_zip hmem).1
    refine .bind ((meets_operand h ((he₁.trans he₂).ready hs) (hargs _ harg)).mono fun src s₃ ⟨code'', he₃, hsrc⟩ => ?_)
    refine (meets_emit he₃.sound _).mono fun _ s₄ he₄ => ⟨_, (he₂.trans he₃).trans he₄, ?_⟩
    rw [List.append_assoc]
    exact (hpass.mono (he₃.toExtends.trans he₄.toExtends)).snoc (hsrc.mono he₄.toExtends)
  · refine (meets_emit he₂.sound _).mono fun _ s₃ he₃ => ⟨_, (he₁.trans he₂).trans he₃, ?_⟩
    exact .mk hlowest (hpush.mono (he₂.toExtends.trans he₃.toExtends)) (hpass.mono he₃.toExtends)

theorem meets_selectPieces {pieces : List PrintPiece} : ∀ {args : List ValueId} {s : Selection}, s.Ready ctx →
    (∀ id, PrintPiece.str id ∈ pieces → (ctx.module.string id).FailsOnly allowed) → (∀ v ∈ args, v < ctx.func.values.size) →
    pieces.count .arg ≤ args.length → Meets allowed (selectPieces ctx pieces args) s fun _ s' =>
      ∃ code, s.Emits code s' ∧ PrintCode ctx s' pieces args code := by
  induction pieces with
  | nil =>
    intro args s hs _ _ _
    exact .pure ⟨[], .refl hs.toSound, .nil args⟩
  | cons piece pieces ih =>
    intro args s hs hstrings hargs hcount
    have hstrings' : ∀ id, PrintPiece.str id ∈ pieces → (ctx.module.string id).FailsOnly allowed :=
      fun id hid => hstrings id (List.mem_cons_of_mem _ hid)
    cases piece with
    | str id =>
      rw [List.count_cons_of_ne (show PrintPiece.str id ≠ .arg from PrintPiece.noConfusion)] at hcount
      refine .bind ((meets_stringAddress hs.toSound (hstrings id List.mem_cons_self)).mono
        fun src s₁ ⟨he₁, n, name, hop, hname, hn⟩ => ?_)
      subst hop
      refine .bind ((meets_emit he₁.sound _).mono fun _ s₂ he₂ => ?_)
      refine .bind ((meets_emit he₂.sound _).mono fun _ s₃ he₃ => ?_)
      have he := (he₁.trans he₂).trans he₃
      refine (ih (he.ready hs) hstrings' hargs hcount).mono fun _ s₄ ⟨code, he₄, hcode⟩ => ⟨_, he.trans he₄, ?_⟩
      exact .str hname (((he₂.toExtends.trans he₃.toExtends).trans he₄.toExtends).kept _ _ hn) hcode
    | arg =>
      rw [List.count_cons_self] at hcount
      cases args with
      | nil => exact absurd hcount (Nat.not_succ_le_zero _)
      | cons v args =>
        refine .bind ((meets_operand h hs (hargs v List.mem_cons_self)).mono fun src s₁ ⟨code₁, he₁, hsrc⟩ => ?_)
        refine .bind ((meets_emit he₁.sound _).mono fun _ s₂ he₂ => ?_)
        refine .bind ((meets_emit he₂.sound _).mono fun _ s₃ he₃ => ?_)
        have he := (he₁.trans he₂).trans he₃
        refine (ih (he.ready hs) hstrings' (fun w hw => hargs w (List.mem_cons_of_mem _ hw))
          (Nat.le_of_succ_le_succ hcount)).mono fun _ s₄ ⟨code, he₄, hcode⟩ => ⟨_, he.trans he₄, ?_⟩
        have hall := PrintCode.arg (hsrc.mono ((he₂.toExtends.trans he₃.toExtends).trans he₄.toExtends)) hcode
        simpa using hall

theorem meets_selectBranch (hs : s.Ready ctx) {b : BlockId} {i : InstId} {thenBlock elseBlock : BlockId}
    (hb : b ∈ ctx.func.layout) (hi : i ∈ ctx.func.instsOf b) (hkind : ctx.func.kind i = .branch thenBlock elseBlock) :
    Meets allowed (selectBranch ctx i thenBlock elseBlock) s fun _ s' =>
      ∃ code transfers, s.Emits (code ++ transfers) s' ∧ ExitCode ctx s' i code transfers := by
  obtain ⟨t, ht, hthen⟩ := h.exists_blockIndex hb hi (t := thenBlock) (by rw [hkind]; exact List.mem_cons_self)
  obtain ⟨e, he, helse⟩ := h.exists_blockIndex hb hi (t := elseBlock)
    (by rw [hkind]; exact List.mem_cons_of_mem _ List.mem_cons_self)
  obtain ⟨v, hops⟩ := h.operands_one hi (by rw [hkind]; rfl)
  have hv : v < ctx.func.values.size := h.lt_size (i := i) (by rw [hops]; exact List.mem_cons_self)
  have hcond : ctx.func.operand i 0 = .ok v := Edit.operand_of_getElem? (by rw [hops]; rfl)
  refine .bind (.lift (.of_exists ⟨t, ht⟩) fun t' ht' => ?_)
  cases ht.symm.trans ht'
  refine .bind (.lift (.of_exists ⟨e, he⟩) fun e' he' => ?_)
  cases he.symm.trans he'
  refine .bind (.lift (.of_exists ⟨v, hcond⟩) fun v' hv' => ?_)
  cases hcond.symm.trans hv'
  dsimp only
  split
  · rename_i d hd₀
    obtain ⟨hd, hfused⟩ := Option.filter_eq_some_iff.1 hd₀
    obtain ⟨b', hb', hfusable⟩ := h.fused d hfused
    obtain ⟨before, term, op, hinsts, hcompare, hop, -⟩ := Function.fusableCompare?_eq_some hfusable
    have hmem : d ∈ ctx.func.instsOf b' := by simp [hinsts]
    obtain ⟨l, r, hargs⟩ := h.operands_two hmem (by rw [hcompare]; rfl)
    have hl : l < ctx.func.values.size := h.lt_size (i := d) (by rw [hargs]; exact List.mem_cons_self)
    have hr : r < ctx.func.values.size :=
      h.lt_size (i := d) (by rw [hargs]; exact List.mem_cons_of_mem _ List.mem_cons_self)
    have hl' : ctx.func.operand d 0 = .ok l := Edit.operand_of_getElem? (by rw [hargs]; rfl)
    have hr' : ctx.func.operand d 1 = .ok r := Edit.operand_of_getElem? (by rw [hargs]; rfl)
    rw [hcompare]
    refine .bind (.lift (.of_exists ⟨l, hl'⟩) fun l₁ hl₁ => ?_)
    cases hl'.symm.trans hl₁
    refine .bind (.lift (.of_exists ⟨r, hr'⟩) fun r₁ hr₁ => ?_)
    cases hr'.symm.trans hr₁
    refine .bind ((meets_compareOperands h hs hop hl hr).mono fun found s₁ hpost => ?_)
    obtain ⟨code, he₁, hcode⟩ := hpost
    refine .bind ((meets_emit he₁.sound _).mono fun _ s₂ he₂ => ?_)
    refine (meets_emit he₂.sound _).mono fun _ s₃ he₃ => ⟨code, _, he₁.trans (he₂.trans he₃), ?_⟩
    exact .fused hkind hops hthen helse hd hfused hcompare hargs (hcode.mono (he₂.toExtends.trans he₃.toExtends))
  · rename_i hnone
    refine .bind ((meets_register h hs hv).mono fun lhs s₁ hpost => ?_)
    obtain ⟨code, he₁, hcode⟩ := hpost
    refine .bind ((meets_emit he₁.sound _).mono fun _ s₂ he₂ => ?_)
    refine (meets_emit he₂.sound _).mono fun _ s₃ he₃ => ⟨code, _, he₁.trans (he₂.trans he₃), ?_⟩
    refine .branch hkind hops hthen helse (fun d hd => ?_) (hcode.mono (he₂.toExtends.trans he₃.toExtends))
    exact Bool.eq_false_iff.2 (Option.filter_eq_none_iff.1 hnone d hd)

/-- An instruction that is neither a terminator nor a phi. -/
theorem meets_selectInst (hs : s.Ready ctx) {b : BlockId} {i : InstId} (hi : i ∈ ctx.func.instsOf b)
    (hterm : (ctx.func.kind i).isTerminator = false) (hphi : (ctx.func.kind i).isPhi = false)
    (hallowed : ∀ callee, ctx.func.kind i = .call callee → CallOverflow (ctx.func.operands i).length →
      allowed (.crash none)) :
    Meets allowed (selectInst ctx i) s fun _ s' => ∃ code, s.Emits code s' ∧ InstCode ctx s' i code := by
  have hoperands : ∀ v ∈ ctx.func.operands i, v < ctx.func.values.size := fun v hv => h.lt_size hv
  have hoperand : ∀ {slot v} {next : ValueId → Select Unit} {s₀ : Selection} {post}, (ctx.func.operands i)[slot]? = some v →
      Meets allowed (next v) s₀ post → Meets allowed ((liftM (ctx.func.operand i slot) : Select ValueId) >>= next) s₀ post := by
    intro slot v next s₀ post hslot hnext
    have hok := Edit.operand_of_getElem? hslot
    refine .bind (.lift (.of_exists ⟨v, hok⟩) fun w hw => ?_)
    cases hok.symm.trans hw
    exact hnext
  unfold selectInst
  dsimp only
  cases hkind : ctx.func.kind i with
  | binary op =>
    obtain ⟨l, r, hops⟩ := h.operands_two hi (by rw [hkind]; rfl)
    exact hoperand (by rw [hops]; rfl) (hoperand (by rw [hops]; rfl) (meets_selectBinary h hs hi hkind hops))
  | branch thenBlock elseBlock =>
    rw [hkind] at hterm
    cases hterm
  | jump target =>
    rw [hkind] at hterm
    cases hterm
  | ret =>
    rw [hkind] at hterm
    cases hterm
  | gep multiplier =>
    obtain ⟨base, index, hops⟩ := h.operands_two hi (by rw [hkind]; rfl)
    exact hoperand (by rw [hops]; rfl) (hoperand (by rw [hops]; rfl) (meets_selectGep h hs hi hkind hops))
  | load =>
    obtain ⟨base, index, hops⟩ := h.operands_two hi (by rw [hkind]; rfl)
    obtain ⟨v, hresult, hv⟩ := h.exists_result hi (by rw [hkind]; rfl)
    refine hoperand (by rw [hops]; rfl) (hoperand (by rw [hops]; rfl) ?_)
    refine .bind ((meets_address h hs (hoperands base (by simp [hops])) (hoperands index (by simp [hops]))).mono
      fun found s₁ ⟨code, he₁, hcode⟩ => ?_)
    obtain ⟨op, offset⟩ := found
    refine .bind ((meets_define (he₁.ready hs) hresult hv).mono fun dst s₂ ⟨he₂, n, hop, hn⟩ => ?_)
    subst hop
    refine (meets_emit he₂.sound _).mono fun _ s₃ he₃ => ⟨_, (he₁.trans he₂).trans he₃, ?_⟩
    rw [List.append_nil]
    exact .load hkind hops hresult (he₃.kept _ _ hn) (hcode.mono (he₂.toExtends.trans he₃.toExtends))
  | store =>
    obtain ⟨base, index, data, hops⟩ := h.operands_three hi (by rw [hkind]; rfl)
    refine hoperand (by rw [hops]; rfl) (hoperand (by rw [hops]; rfl) ?_)
    refine .bind ((meets_address h hs (hoperands base (by simp [hops])) (hoperands index (by simp [hops]))).mono
      fun found s₁ ⟨code, he₁, hcode⟩ => ?_)
    obtain ⟨op, offset⟩ := found
    refine hoperand (by rw [hops]; rfl) ?_
    refine .bind ((meets_register h (he₁.ready hs) (hoperands data (by simp [hops]))).mono
      fun src s₂ ⟨code', he₂, hcode'⟩ => ?_)
    refine (meets_emit he₂.sound _).mono fun _ s₃ he₃ => ⟨_, (he₁.trans he₂).trans he₃, ?_⟩
    exact .store hkind hops (hcode.mono (he₂.toExtends.trans he₃.toExtends)) (hcode'.mono he₃.toExtends)
  | call callee =>
    refine .bind ((meets_selectCall h hs hoperands (hallowed callee hkind)).mono fun _ s₁ ⟨code, he₁, hcode₀⟩ => ?_)
    have hcode : CallCode ctx s₁ (ctx.calleeLabel callee) (ctx.func.operands i) code := by cases callee <;> exact hcode₀
    split
    · rename_i result hresult
      have hv := (h.sound.kind_of_result i result hresult).1
      refine .bind ((meets_vregFor he₁.sound ((he₁.ready hs).values ▸ hv)).mono fun dst s₂ ⟨he₂, n, hop, hn⟩ => ?_)
      subst hop
      refine (meets_emit he₂.sound _).mono fun _ s₃ he₃ => ⟨_, (he₁.trans he₂).trans he₃, ?_⟩
      rw [List.append_nil]
      exact .callFor hkind hresult (he₃.kept _ _ hn) (hcode.mono (he₂.toExtends.trans he₃.toExtends))
    · rename_i hresult
      exact .pure ⟨code, he₁, .call hkind hresult hcode⟩
  | print pieces =>
    have hfits := h.sound.fits b i hi
    rw [hkind] at hfits
    refine (meets_selectPieces h hs (fun _ => h.failsOnly_piece hkind) hoperands (of_decide_eq_true hfits)).mono fun _ s₁ ⟨code, he₁, hcode⟩ => ?_
    exact ⟨code, he₁, .print hkind hcode⟩
  | alloca words => exact .pure ⟨[], .refl hs.toSound, .alloca hkind⟩
  | phi =>
    rw [hkind] at hphi
    cases hphi

theorem meets_selectTerminator (hs : s.Ready ctx) {b : BlockId} {i : InstId} (hb : b ∈ ctx.func.layout)
    (hi : i ∈ ctx.func.instsOf b) (hterm : (ctx.func.kind i).isTerminator = true) :
    Meets allowed (selectInst ctx i) s fun _ s' =>
      ∃ code transfers, s.Emits (code ++ transfers) s' ∧ ExitCode ctx s' i code transfers := by
  unfold selectInst
  dsimp only
  cases hkind : ctx.func.kind i with
  | branch thenBlock elseBlock => exact meets_selectBranch h hs hb hi hkind
  | jump target =>
    obtain ⟨k, hk, hget⟩ := h.exists_blockIndex hb hi (t := target) (by rw [hkind]; exact List.mem_cons_self)
    refine .bind (.lift (.of_exists ⟨k, hk⟩) fun k' hk' => ?_)
    cases hk.symm.trans hk'
    exact (meets_emit hs.toSound _).mono fun _ s₁ he => ⟨[], _, he, .jump hkind hget⟩
  | ret =>
    have hfits := h.sound.fits b i hi
    rw [hkind] at hfits
    cases hops : ctx.func.operands i with
    | nil => exact (meets_emit hs.toSound _).mono fun _ s₁ he => ⟨[], _, he, .ret hkind hops⟩
    | cons v rest =>
      rw [hops] at hfits
      obtain rfl : rest = [] := List.eq_nil_of_length_eq_zero (by simpa [InstKind.fits] using hfits)
      refine .bind ((meets_operand h hs (h.lt_size (i := i) (by rw [hops]; exact List.mem_cons_self))).mono
        fun src s₁ ⟨code, he₁, hcode⟩ => ?_)
      refine .bind ((meets_emit he₁.sound _).mono fun _ s₂ he₂ => ?_)
      refine (meets_emit he₂.sound _).mono fun _ s₃ he₃ => ⟨_, _, (he₁.trans he₂).trans he₃, ?_⟩
      exact .give hkind hops (hcode.mono (he₂.toExtends.trans he₃.toExtends))
  | _ =>
    rw [hkind] at hterm
    cases hterm

end

end Select

end SsaCompiler
