import SsaCompiler.Ir.Promote
import SsaCompiler.Proofs.Ir.Placement

/-!
# What edits leave alone

The name of a function, its parameters and whether it returns a value are fixed when the function is declared, and
no edit changes them. Values and instructions keep their kinds, but for the new ones and for terminators that are
redirected. So of most edits it is enough to know which kinds they bring in.
-/

set_option autoImplicit false

namespace SsaCompiler

/-- What the declaration of a function says of it. -/
structure Heading where
  name : String
  params : List ValueId
  returnsValue : Bool

/-- The heading of a function. -/
def Function.heading (f : Function) : Heading := ⟨f.name, f.params, f.returnsValue⟩

/-- A function with the heading of another one and all its values, in which all values and instructions have the kinds
that they had or kinds of the given sorts, and values that were there have the kinds that they had. -/
structure Function.Outlines (V : ValueKind → Prop) (K : InstKind → Prop) (f f' : Function) : Prop where
  heading : f'.heading = f.heading
  size : f.values.size ≤ f'.values.size
  old : ∀ v, v < f.values.size → (f'.value v).kind = (f.value v).kind
  values : ∀ v, (f'.value v).kind = (f.value v).kind ∨ V (f'.value v).kind
  insts : ∀ i, f'.kind i = f.kind i ∨ K (f'.kind i)

namespace Function.Outlines

variable {V : ValueKind → Prop} {K : InstKind → Prop} {f f' f'' : Function}

theorem refl (f : Function) : f.Outlines V K f := ⟨rfl, Nat.le_refl _, fun _ _ => rfl, fun _ => .inl rfl, fun _ => .inl rfl⟩

theorem trans (h : f.Outlines V K f') (h' : f'.Outlines V K f'') : f.Outlines V K f'' := by
  refine ⟨h'.heading.trans h.heading, h.size.trans h'.size,
    fun v hv => (h'.old v (hv.trans_le h.size)).trans (h.old v hv), fun v => ?_, fun i => ?_⟩
  · rcases h'.values v with heq | hnew
    · rw [heq]
      exact h.values v
    · exact .inr hnew
  · rcases h'.insts i with heq | hnew
    · rw [heq]
      exact h.insts i
    · exact .inr hnew

end Function.Outlines

namespace Edit

open Edits

variable {V : ValueKind → Prop} {K : InstKind → Prop}

/-- An edit brings in kinds of the given sorts only. -/
abbrev Brings {α : Type} (V : ValueKind → Prop) (K : InstKind → Prop) (edit : Edit α) : Prop :=
  ∀ f₀ : Function, Preserves (f₀.Outlines V K ·) edit

variable {change : InstData → InstData} {α : Type}

/-- What an edit brings in. -/
theorem Brings.outlines {edit : Edit α} (h : Brings V K edit) {f f' : Function} {a : α}
    (hrun : edit.run f = (.ok a, f')) : f.Outlines V K f' := h f (.refl f) hrun

/-- A change of a function that keeps its outline. -/
theorem preserves_outline_modify {f₀ : Function} {change : Function → Function}
    (h : ∀ f : Function, f.Outlines V K (change f)) : Preserves (f₀.Outlines V K ·) (modify change : Edit PUnit) := by
  intro f f' _ hf hrun
  cases hrun
  exact hf.trans (h f)

/-- The kinds of records after one record was changed. -/
theorem kind_modify {β : Type} [Inhabited α] (kind : α → β) (records : Array α) (k : Nat) (change : α → α) (j : Nat) :
    kind ((records.modify k change).getD j default) = kind (records.getD j default) ∨
      kind ((records.modify k change).getD j default) = kind (change (records.getD j default)) := by
  rw [Array.getD_eq_getD_getElem?, Array.getD_eq_getD_getElem?, Array.getElem?_modify]
  split
  · rename_i hkj
    cases records[j]? with
    | none => exact .inl rfl
    | some d => exact .inr rfl
  · exact .inl rfl

/-- Changing the record of a value, but not its kind. -/
theorem brings_modifyValue (v : ValueId) {change : ValueData → ValueData} (hchange : ∀ d, (change d).kind = d.kind) :
    Brings V K (modifyValue v change) := by
  refine fun f₀ => .bind .get fun f => ?_
  split
  · have hkinds : ∀ (g : Function) w, ((g.values.modify v change).getD w default).kind = (g.value w).kind := fun g w =>
      (kind_modify ValueData.kind g.values v change w).elim id fun hchanged => hchanged.trans (hchange _)
    exact preserves_outline_modify fun g =>
      ⟨rfl, Nat.le_of_eq Array.size_modify.symm, fun w _ => hkinds g w, fun w => .inl (hkinds g w), fun _ => .inl rfl⟩
  · exact .throw _

theorem brings_modifyInst (i : InstId) (hchange : ∀ d, (change d).kind = d.kind ∨ K (change d).kind) :
    Brings V K (modifyInst i change) := by
  refine fun f₀ => .bind .get fun f => ?_
  split
  · refine preserves_outline_modify fun g => ⟨rfl, Nat.le_refl _, fun _ _ => rfl, fun _ => .inl rfl, fun j => ?_⟩
    rcases kind_modify InstData.kind g.insts i change j with hsame | hchanged
    · exact .inl hsame
    · rcases hchange (g.inst j) with hold | hnew
      · exact .inl (hchanged.trans hold)
      · exact .inr (by unfold Function.kind Function.inst; rw [hchanged]; exact hnew)
  · exact .throw _

/-- Changing the record of an instruction, but not its kind. -/
theorem brings_keepKind (i : InstId) (hchange : ∀ d, (change d).kind = d.kind) :
    Brings V K (modifyInst i change) := brings_modifyInst i fun d => .inl (hchange d)

theorem brings_modifyBlock (b : BlockId) (change : BlockData → BlockData) : Brings V K (modifyBlock b change) := by
  refine fun f₀ => .bind .get fun f => ?_
  split
  · exact preserves_outline_modify fun _ => ⟨rfl, Nat.le_refl _, fun _ _ => rfl, fun _ => .inl rfl, fun _ => .inl rfl⟩
  · exact .throw _

theorem brings_ask (question : Function → Outcome α) : Brings V K (ask question) := by
  refine fun f₀ => .bind .get fun f => ?_
  split
  · exact .pure _
  · exact .throw _

theorem brings_demand (condition : Bool) (text : String) : Brings V K (demand condition text) := by
  intro f₀
  unfold demand
  split
  · exact .pure _
  · exact .bind .get fun _ => .throw _

theorem brings_newValue {kind : ValueKind} (hkind : V kind) : Brings V K (newValue kind) := by
  refine fun _ => .bind .get fun _ => .bind (preserves_outline_modify fun g => ?_) fun _ => .pure _
  refine ⟨rfl, Array.size_push _ ▸ Nat.le_succ _, fun v hv => ?_, fun v => ?_, fun _ => .inl rfl⟩
  all_goals unfold Function.value
  all_goals rw [Array.getD_eq_getD_getElem?, Array.getElem?_push, Array.getD_eq_getD_getElem?]
  · rw [if_neg (Nat.ne_of_lt hv)]
  · split
    · exact .inr hkind
    · exact .inl rfl

theorem brings_internValue {kind : ValueKind} (hkind : V kind) : Brings V K (internValue kind) := by
  refine fun f₀ => .bind .get fun f => ?_
  split
  · exact .pure _
  · exact brings_newValue hkind f₀

theorem brings_removeUse (v : ValueId) (u : Use) : Brings V K (removeUse v u) := by
  refine fun f₀ => .bind .get fun f => ?_
  split
  · exact brings_modifyValue _ (fun _ => by rfl) f₀
  · exact .bind .get fun _ => .throw _

section

variable (i : InstId) (slot : Nat) (l : List ValueId)

include i slot l

theorem brings_addUses : Brings V K (addUses i slot l) := by
  intro f₀
  induction l generalizing slot with
  | nil => exact .pure _
  | cons v rest ih => exact .bind (brings_modifyValue _ (fun _ => by rfl) f₀) fun _ => ih _

theorem brings_removeUses : Brings V K (removeUses i slot l) := by
  intro f₀
  induction l generalizing slot with
  | nil => exact .pure _
  | cons v rest ih => exact .bind (brings_removeUse _ _ f₀) fun _ => ih _

theorem brings_lowerUses : Brings V K (lowerUses i slot l) := by
  intro f₀
  induction l generalizing slot with
  | nil => exact .pure _
  | cons v rest ih => exact .bind (brings_modifyValue _ (fun d => by split <;> rfl) f₀) fun _ => ih _

end

theorem brings_createInst {kind : InstKind} (hkind : K kind) (operands : List ValueId) {hasResult : Bool}
    (hresult : hasResult = true → ∀ i, V (.inst i)) : Brings V K (createInst kind operands hasResult) := by
  intro f₀
  have hrest : ∀ (i : InstId) result, Preserves (f₀.Outlines V K ·) (do
      addUses i 0 operands
      modify fun f => { f with insts := f.insts.push { kind, operands, result } }
      return i : Edit InstId) := by
    intro i result
    refine .bind (brings_addUses i 0 operands f₀) fun _ => .bind (preserves_outline_modify fun g => ?_) fun _ => .pure _
    refine ⟨rfl, Nat.le_refl _, fun _ _ => rfl, fun _ => .inl rfl, fun j => ?_⟩
    unfold Function.kind
    rw [inst_push, Function.update_apply]
    split
    · exact .inr hkind
    · exact .inl rfl
  refine .bind .get fun f => ?_
  dsimp only
  split
  · rename_i hgives
    exact .bind (.bind (brings_newValue (hresult hgives _) f₀) fun _ => .pure _) fun result => hrest _ result
  · exact .bind (.pure _) fun result => hrest _ result

theorem brings_setOperand (i : InstId) (slot : Nat) (v : ValueId) : Brings V K (setOperand i slot v) := by
  refine fun f₀ => .bind (brings_ask _ f₀) fun old => ?_
  split
  · exact .bind (brings_removeUse _ _ f₀) fun _ => .bind (brings_modifyValue _ (fun _ => by rfl) f₀) fun _ =>
      brings_keepKind _ (fun _ => by rfl) f₀
  · exact .pure _

theorem brings_pushOperand (i : InstId) (v : ValueId) : Brings V K (pushOperand i v) := fun f₀ =>
  .bind .get fun _ => .bind (brings_keepKind _ (fun _ => by rfl) f₀) fun _ => brings_modifyValue _ (fun _ => by rfl) f₀

theorem brings_removeOperand (i : InstId) (slot : Nat) : Brings V K (removeOperand i slot) := fun f₀ =>
  .bind (brings_ask _ f₀) fun _ => .bind (brings_removeUse _ _ f₀) fun _ => .bind .get fun _ =>
    .bind (brings_lowerUses _ _ _ f₀) fun _ => brings_keepKind _ (fun _ => by rfl) f₀

/-- Making all uses of a value uses of another one. -/
theorem brings_replaceAllUses (old new : ValueId) : Brings V K (replaceAllUses old new) := by
  intro f₀
  unfold replaceAllUses
  split
  · exact .pure _
  · exact .bind .get fun f => .bind (brings_modifyValue _ (fun _ => by rfl) f₀) fun _ =>
      .bind (.forM fun u _ => brings_keepKind _ (fun _ => by rfl) f₀) fun _ =>
        .bind (brings_modifyValue _ (fun _ => by rfl) f₀) fun _ => .pure _

theorem brings_detachOperands (i : InstId) : Brings V K (detachOperands i) := fun f₀ =>
  .bind .get fun _ => .bind (brings_keepKind _ (fun _ => by rfl) f₀) fun _ => brings_removeUses _ _ _ f₀

theorem brings_createBlock (name : String) : Brings V K (createBlock name) := fun _ =>
  .bind .get fun _ => .bind (preserves_outline_modify fun _ =>
    ⟨rfl, Nat.le_refl _, fun _ _ => rfl, fun _ => .inl rfl, fun _ => .inl rfl⟩) fun _ => .pure _

theorem brings_place (b : BlockId) (pos : Nat) (i : InstId) : Brings V K (place b pos i) := fun f₀ =>
  .bind .get fun _ => .bind (brings_demand _ _ f₀) fun _ =>
    .bind (brings_modifyBlock _ _ f₀) fun _ => brings_keepKind _ (fun _ => by rfl) f₀

theorem brings_pushBack (b : BlockId) (i : InstId) : Brings V K (pushBack b i) := by
  refine fun f₀ => .bind .get fun f => .bind (brings_demand _ _ f₀) fun _ => ?_
  dsimp only
  split
  · exact .bind (.throw _) fun _ => brings_place _ _ _ f₀
  · exact brings_place _ _ _ f₀

theorem brings_insertPhi (b : BlockId) (i : InstId) : Brings V K (insertPhi b i) := by
  refine fun f₀ => .bind .get fun f => ?_
  split
  · exact brings_place _ _ _ f₀
  · exact .throw _

theorem brings_unplace (i : InstId) : Brings V K (unplace i) := by
  refine fun f₀ => .bind (brings_detachOperands i f₀) fun _ => .bind .get fun f => ?_
  split
  · exact .bind (brings_keepKind _ (fun _ => by rfl) f₀) fun _ => brings_modifyBlock _ _ f₀
  · exact .pure _

theorem brings_removeInst (i : InstId) : Brings V K (removeInst i) := by
  refine fun f₀ => .bind .get fun f => ?_
  dsimp only
  split
  · split
    · exact .bind (.throw _) fun _ => brings_unplace i f₀
    · exact .bind (brings_modifyValue _ (fun _ => by rfl) f₀) fun _ => brings_unplace i f₀
  · exact brings_unplace i f₀

theorem brings_removeBlocks (doomed : List BlockId) : Brings V K (removeBlocks doomed) := fun f₀ =>
  .bind .get fun _ => .bind (.forM fun i _ => brings_detachOperands i f₀) fun _ =>
    .bind (.forM fun i _ => brings_removeInst i f₀) fun _ =>
      .bind (.forM fun _ _ => brings_modifyBlock _ _ f₀) fun _ => preserves_outline_modify fun _ =>
        ⟨rfl, Nat.le_refl _, fun _ _ => rfl, fun _ => .inl rfl, fun _ => .inl rfl⟩

theorem brings_replaceTerminator (b : BlockId) {kind : InstKind} (hkind : K kind) (operands : List ValueId) :
    Brings V K (replaceTerminator b kind operands) := fun f₀ =>
  .bind (brings_ask _ f₀) fun _ => .bind (brings_removeInst _ f₀) fun _ =>
    .bind (brings_createInst hkind _ (fun h => by cases h) f₀) fun _ => .bind (brings_pushBack _ _ f₀) fun _ => .pure _

theorem brings_removePredAt (b : BlockId) (idx : Nat) : Brings V K (removePredAt b idx) := by
  refine fun f₀ => .bind .get fun f => .bind (.forM fun phi _ => brings_removeOperand _ _ f₀) fun _ =>
    .bind .get fun g => ?_
  split
  · exact brings_modifyBlock _ _ f₀
  · exact .throw _

theorem brings_sharesBranch (blocks : List BlockId) (target : BlockId) : Brings V K (sharesBranch blocks target) := by
  intro f₀
  induction blocks with
  | nil => exact .pure _
  | cons p rest ih =>
    refine .bind (brings_ask _ f₀) fun term => .bind .get fun f => ?_
    split
    · split
      · exact .pure _
      · exact ih
    · exact ih

section Terminators

variable (hends : ∀ kind : InstKind, kind.isTerminator = true → K kind)

include hends

theorem brings_redirectTarget (i : InstId) (source target : BlockId) : Brings V K (redirectTarget i source target) := by
  refine fun f₀ => .bind .get fun f => ?_
  split
  · rename_i kind hkind
    have hterm : kind.isTerminator = true := by
      unfold InstKind.redirect? at hkind
      repeat' split at hkind
      all_goals first | cases hkind; rfl | cases hkind
    exact .bind (brings_modifyInst _ (fun _ => .inr (hends kind hterm)) f₀) fun _ => .pure _
  · exact .pure _

theorem brings_foldBranch (b : BlockId) : Brings V K (foldBranch b) := by
  refine fun f₀ => .bind (brings_ask _ f₀) fun term => .bind .get fun f => ?_
  split
  · refine .bind (brings_ask _ f₀) fun cond => .bind .get fun g => ?_
    split
    · exact .pure _
    · refine .bind (brings_replaceTerminator _ (hends _ rfl) _ f₀) fun _ => .bind .get fun g => ?_
      split
      · exact .throw _
      · exact .bind (brings_removePredAt _ _ f₀) fun _ => .pure _
  · exact .pure _

theorem brings_moveEdge (b target : BlockId) (carried : List (InstId × ValueId)) (pred : BlockId) :
    Brings V K (moveEdge b target carried pred) := by
  refine fun f₀ => .bind (brings_ask _ f₀) fun term =>
    .bind (brings_redirectTarget hends _ _ _ f₀) fun found => ?_
  split
  · exact .bind (brings_modifyBlock _ _ f₀) fun _ => .forM fun e _ => brings_pushOperand _ _ f₀
  · exact .bind .get fun _ => .throw _

theorem brings_elideBlock (entry b : BlockId) : Brings V K (elideBlock entry b) := by
  refine fun f₀ => .bind .get fun f => ?_
  split
  · exact .pure _
  split
  · split
    · extract_lets preds phis splice
      have hsplice : Preserves (f₀.Outlines V K ·) (splice ()) := by
        dsimp only [splice]
        split
        · exact .throw _
        · exact .bind (.mapM fun phi _ => .bind (brings_ask _ f₀) fun _ => .pure _) fun carried =>
            .bind (brings_removePredAt _ _ f₀) fun _ => .bind (.forM fun p _ => brings_moveEdge hends _ _ _ _ f₀)
              fun _ => .bind (brings_removeBlocks _ f₀) fun _ => .pure _
      split
      · exact .pure _
      split
      · refine .bind (brings_sharesBranch _ _ f₀) fun shared => ?_
        split
        · exact .pure _
        · exact hsplice
      · exact hsplice
    · exact .pure _
  · exact .pure _

end Terminators

end Edit

/-! ## Globals and strings -/

/-- A kind of value that refers to the first globals and strings only. -/
def ValueKind.Within (globals strings : Nat) : ValueKind → Prop
  | global g => g < globals
  | str s => s < strings
  | inst _ | param _ | const _ => True

/-- A kind of instruction that refers to the first strings only. -/
def InstKind.Within (strings : Nat) : InstKind → Prop
  | print pieces => ∀ s, PrintPiece.str s ∈ pieces → s < strings
  | _ => True

/-- A terminator refers to no string. -/
theorem InstKind.within_of_isTerminator {kind : InstKind} (h : kind.isTerminator = true) (strings : Nat) :
    kind.Within strings := by
  cases kind <;> trivial

namespace Function

/-- A function that refers to the first globals and strings only, and whose parameters are values of it. -/
structure Linked (f : Function) (globals strings : Nat) : Prop where
  params : ∀ v ∈ f.params, v < f.values.size
  values : ∀ v, (f.value v).kind.Within globals strings
  insts : ∀ i, (f.kind i).Within strings

variable {f f' : Function} {globals globals' strings strings' : Nat}

/-- New kinds that refer to the first globals and strings only. -/
theorem Linked.of_outlines (h : f.Linked globals strings)
    (ho : f.Outlines (ValueKind.Within globals strings) (InstKind.Within strings) f') : f'.Linked globals strings := by
  refine ⟨fun v hv => ?_, fun v => ?_, fun i => ?_⟩
  · have hparams : f'.params = f.params := congrArg Heading.params ho.heading
    exact (h.params v (hparams ▸ hv)).trans_le ho.size
  · rcases ho.values v with heq | hnew
    · rw [heq]
      exact h.values v
    · exact hnew
  · rcases ho.insts i with heq | hnew
    · rw [heq]
      exact h.insts i
    · exact hnew

theorem Linked.mono (h : f.Linked globals strings) (hglobals : globals ≤ globals') (hstrings : strings ≤ strings') :
    f.Linked globals' strings' := by
  refine ⟨h.params, fun v => ?_, fun i => ?_⟩
  · have hv := h.values v
    cases hkind : (f.value v).kind with
    | global g =>
      rw [hkind] at hv
      exact Nat.lt_of_lt_of_le hv hglobals
    | str s =>
      rw [hkind] at hv
      exact Nat.lt_of_lt_of_le hv hstrings
    | inst | param | const => trivial
  · have hi := h.insts i
    cases hkind : f.kind i with
    | print pieces =>
      rw [hkind] at hi
      exact fun s hs => Nat.lt_of_lt_of_le (hi s hs) hstrings
    | _ => trivial

/-- The parameters of a function are different values of it that are parameters, each by its place, and no other value is a
parameter. -/
structure Headed (f : Function) : Prop where
  params : ∀ v ∈ f.params, v < f.values.size
  nodup : f.params.Nodup
  place : ∀ k v, f.params[k]? = some v → (f.value v).kind = .param k
  only : ∀ v k, (f.value v).kind = .param k → v ∈ f.params

/-- The empty function has no parameters. -/
theorem headed_default : (default : Function).Headed :=
  ⟨fun _ hv => absurd hv List.not_mem_nil, .nil, fun k v hv => (by cases hv), fun _ _ hk => nomatch hk⟩

/-- Parameters are values of their kind. -/
theorem Headed.kind (h : f.Headed) {v : ValueId} (hv : v ∈ f.params) : ∃ k, (f.value v).kind = .param k := by
  obtain ⟨k, hk⟩ := List.getElem?_of_mem hv
  exact ⟨k, h.place k v hk⟩

/-- Parameters are not brought in. -/
theorem Headed.of_outlines {V : ValueKind → Prop} {K : InstKind → Prop} (h : f.Headed) (ho : f.Outlines V K f')
    (hno : ∀ k, ¬ V (.param k)) : f'.Headed := by
  have hparams : f'.params = f.params := congrArg Heading.params ho.heading
  refine ⟨fun v hv => (h.params v (hparams ▸ hv)).trans_le ho.size, hparams ▸ h.nodup, fun k v hv => ?_, fun v k hk => ?_⟩
  · rw [hparams] at hv
    rw [ho.old v (h.params v (List.mem_of_getElem? hv))]
    exact h.place k v hv
  rw [hparams]
  rcases ho.values v with heq | hnew
  · exact h.only v k (heq ▸ hk)
  · exact absurd (hk ▸ hnew) (hno k)

end Function

end SsaCompiler
