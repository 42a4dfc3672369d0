import SsaCompiler.Proofs.Ir.Additions

/-!
# Live values

Only removing an instruction makes a value dead, and only the result of that instruction. All other edits leave the
marks of the values as they are. But for the edit that names a value, all of them leave the names of the values, too.
-/

set_option autoImplicit false

namespace SsaCompiler

/-- The marks and the names of the values of a function. -/
def Function.Marked (marks : ValueId → Bool × Option String) (f : Function) : Prop :=
  ∀ v, ((f.value v).live, (f.value v).name) = marks v

namespace Edit

open Edits

variable {f f' : Function} {marks : ValueId → Bool × Option String} {α : Type}

/-- An edit that changes no marks and no names. -/
abbrev KeepsMarks (edit : Edit α) : Prop := ∀ marks, Preserves (Function.Marked marks) edit

variable {edit : Edit α}

/-- The marks after an edit that changes none. -/
theorem KeepsMarks.live_eq {a : α} (h : KeepsMarks edit) (hrun : edit.run f = (.ok a, f')) (v : ValueId) :
    (f'.value v).live = (f.value v).live := congrArg Prod.fst (h _ (fun _ => rfl) hrun v)

/-- The names after an edit that changes none. -/
theorem KeepsMarks.name_eq {a : α} (h : KeepsMarks edit) (hrun : edit.run f = (.ok a, f')) (v : ValueId) :
    (f'.value v).name = (f.value v).name := congrArg Prod.snd (h _ (fun _ => rfl) hrun v)

theorem keepsMarks_pure (a : α) : KeepsMarks (pure a : Edit α) := fun _ => .pure a

theorem keepsMarks_get : KeepsMarks (get : Edit Function) := fun _ => .get

theorem keepsMarks_throw (e : Failure) : KeepsMarks (throw e : Edit α) := fun _ => .throw e

theorem keepsMarks_bind {β : Type} {next : α → Edit β} (h : KeepsMarks edit) (hnext : ∀ a, KeepsMarks (next a)) :
    KeepsMarks (edit >>= next) := fun marks => (h marks).bind fun a => hnext a marks

theorem keepsMarks_forM {edit : α → Edit PUnit} {list : List α} (h : ∀ a, KeepsMarks (edit a)) :
    KeepsMarks (list.forM edit) := fun marks => .forM fun a _ => h a marks

theorem keepsMarks_ask (question : Function → Outcome α) : KeepsMarks (ask question) := by
  intro marks f f' a hf h
  obtain ⟨-, rfl⟩ := ask_eq_ok h
  exact hf

theorem keepsMarks_demand (condition : Bool) (text : String) : KeepsMarks (demand condition text) := by
  intro marks f f' a hf h
  obtain ⟨-, rfl⟩ := demand_eq_ok h
  exact hf

theorem keepsMarks_modifyValue (v : ValueId) {change : ValueData → ValueData}
    (h : ∀ d, ((change d).live, (change d).name) = (d.live, d.name)) : KeepsMarks (modifyValue v change) := by
  intro marks f f' _ hf hrun w
  obtain ⟨hv, rfl⟩ := modifyValue_eq_ok hrun
  rw [Function.value_modify hv]
  split
  · rename_i hw
    rw [h, hw]
    exact hf v
  · exact hf w

theorem keepsMarks_modifyInst (i : InstId) (change : InstData → InstData) : KeepsMarks (modifyInst i change) := by
  intro marks f f' _ hf hrun
  obtain ⟨-, rfl⟩ := modifyInst_eq_ok hrun
  exact hf

theorem keepsMarks_modifyBlock (b : BlockId) (change : BlockData → BlockData) : KeepsMarks (modifyBlock b change) := by
  intro marks f f' _ hf hrun
  obtain ⟨-, rfl⟩ := modifyBlock_eq_ok hrun
  exact hf

theorem keepsMarks_newValue (kind : ValueKind) : KeepsMarks (newValue kind) := by
  intro marks f f' _ hf hrun w
  obtain ⟨-, rfl⟩ := newValue_eq_ok hrun
  rw [Function.value_push]
  split
  · rename_i hw
    rw [← hf w, hw, Function.value_of_size_le (Nat.le_refl _)]
    rfl
  · exact hf w

theorem keepsMarks_internValue (kind : ValueKind) : KeepsMarks (internValue kind) := by
  refine keepsMarks_bind keepsMarks_get fun f => ?_
  split
  · exact keepsMarks_pure _
  · exact keepsMarks_newValue kind

/-! ## Operands -/

theorem keepsMarks_addUse (v : ValueId) (u : Use) : KeepsMarks (addUse v u) := keepsMarks_modifyValue v fun _ => rfl

theorem keepsMarks_removeUse (v : ValueId) (u : Use) : KeepsMarks (removeUse v u) := by
  refine keepsMarks_bind keepsMarks_get fun f => ?_
  split
  · exact keepsMarks_modifyValue v fun _ => rfl
  · exact keepsMarks_bind keepsMarks_get fun _ => keepsMarks_throw _

theorem keepsMarks_addUses (i : InstId) (l : List ValueId) : ∀ slot, KeepsMarks (addUses i slot l) := by
  induction l with
  | nil => exact fun _ => keepsMarks_pure _
  | cons v rest ih => exact fun slot => keepsMarks_bind (keepsMarks_addUse v _) fun _ => ih (slot + 1)

theorem keepsMarks_removeUses (i : InstId) (l : List ValueId) : ∀ slot, KeepsMarks (removeUses i slot l) := by
  induction l with
  | nil => exact fun _ => keepsMarks_pure _
  | cons v rest ih => exact fun slot => keepsMarks_bind (keepsMarks_removeUse v _) fun _ => ih (slot + 1)

theorem keepsMarks_lowerUses (i : InstId) (l : List ValueId) : ∀ slot, KeepsMarks (lowerUses i slot l) := by
  induction l with
  | nil => exact fun _ => keepsMarks_pure _
  | cons v rest ih =>
    refine fun slot => keepsMarks_bind (keepsMarks_modifyValue v fun d => ?_) fun _ => ih (slot + 1)
    split <;> rfl

theorem keepsMarks_createInst (kind : InstKind) (operands : List ValueId) (hasResult : Bool) :
    KeepsMarks (createInst kind operands hasResult) := by
  have hpush : ∀ i result, KeepsMarks (do
      addUses i 0 operands
      modify fun f => { f with insts := f.insts.push { kind, operands, result } }
      return i : Edit InstId) := by
    refine fun i result => keepsMarks_bind (keepsMarks_addUses i operands 0) fun _ => keepsMarks_bind ?_ fun _ =>
      keepsMarks_pure _
    intro marks f f' _ hf hrun
    cases hrun
    exact hf
  refine keepsMarks_bind keepsMarks_get fun f => ?_
  cases hasResult with
  | true =>
    exact keepsMarks_bind (keepsMarks_bind (keepsMarks_newValue _) fun _ => keepsMarks_pure _) fun _ => hpush _ _
  | false => exact keepsMarks_bind (keepsMarks_pure _) fun _ => hpush _ _

theorem keepsMarks_setOperand (i : InstId) (slot : Nat) (v : ValueId) : KeepsMarks (setOperand i slot v) := by
  refine keepsMarks_bind (keepsMarks_ask _) fun old => ?_
  split
  · exact keepsMarks_bind (keepsMarks_removeUse old _) fun _ => keepsMarks_bind (keepsMarks_addUse v _) fun _ =>
      keepsMarks_modifyInst i _
  · exact keepsMarks_pure _

theorem keepsMarks_pushOperand (i : InstId) (v : ValueId) : KeepsMarks (pushOperand i v) :=
  keepsMarks_bind keepsMarks_get fun _ => keepsMarks_bind (keepsMarks_modifyInst i _) fun _ => keepsMarks_addUse v _

theorem keepsMarks_removeOperand (i : InstId) (slot : Nat) : KeepsMarks (removeOperand i slot) := by
  refine keepsMarks_bind (keepsMarks_ask _) fun old => keepsMarks_bind (keepsMarks_removeUse old _) fun _ => ?_
  exact keepsMarks_bind keepsMarks_get fun f => keepsMarks_bind (keepsMarks_lowerUses i _ _) fun _ =>
    keepsMarks_modifyInst i _

theorem keepsMarks_replaceAllUses (old new : ValueId) : KeepsMarks (replaceAllUses old new) := by
  unfold replaceAllUses
  split
  · exact keepsMarks_pure _
  · refine keepsMarks_bind keepsMarks_get fun f => keepsMarks_bind (keepsMarks_modifyValue old fun _ => rfl) fun _ => ?_
    refine keepsMarks_bind (keepsMarks_forM fun u => keepsMarks_modifyInst _ _) fun _ => ?_
    exact keepsMarks_bind (keepsMarks_modifyValue new fun _ => rfl) fun _ => keepsMarks_pure _

theorem keepsMarks_detachOperands (i : InstId) : KeepsMarks (detachOperands i) :=
  keepsMarks_bind keepsMarks_get fun _ => keepsMarks_bind (keepsMarks_modifyInst i _) fun _ =>
    keepsMarks_removeUses i _ 0

/-! ## Blocks -/

theorem keepsMarks_place (b : BlockId) (pos : Nat) (i : InstId) : KeepsMarks (place b pos i) :=
  keepsMarks_bind keepsMarks_get fun _ => keepsMarks_bind (keepsMarks_demand _ _) fun _ =>
    keepsMarks_bind (keepsMarks_modifyBlock b _) fun _ => keepsMarks_modifyInst i _

theorem keepsMarks_redirectTarget (i : InstId) (source target : BlockId) :
    KeepsMarks (redirectTarget i source target) := by
  refine keepsMarks_bind keepsMarks_get fun f => ?_
  split
  · exact keepsMarks_bind (keepsMarks_modifyInst i _) fun _ => keepsMarks_pure _
  · exact keepsMarks_pure _

theorem keepsMarks_addPred (b pred : BlockId) : KeepsMarks (addPred b pred) := keepsMarks_modifyBlock b _

theorem keepsMarks_removePredAt (b : BlockId) (idx : Nat) : KeepsMarks (removePredAt b idx) := by
  refine keepsMarks_bind keepsMarks_get fun f => keepsMarks_bind (keepsMarks_forM fun phi => ?_) fun _ => ?_
  · exact keepsMarks_removeOperand phi idx
  · refine keepsMarks_bind keepsMarks_get fun g => ?_
    split
    · exact keepsMarks_modifyBlock b _
    · exact keepsMarks_throw _

end Edit

end SsaCompiler
