import SsaCompiler.Proofs.Ir.Additions
import Mathlib

/-!
# The use index is exact

The editing interface as a system: a state is a function, a call is one of the editing actions, and a run
goes on after a call that succeeds and after a call that reports an error. In every state that is reached
from a new function, the index of a value lists exactly the slots that read it, each once. So no call ever
strikes a slot from an index that does not list it.

A call is taken apart by `Safe`: whatever happens, the function keeps its name; where the call succeeds or
reports an error, the promised property holds; and where it crashes, it is not for a missing use.
-/

set_option autoImplicit false

namespace SsaCompiler

namespace Edit

open Edits

/-- The text about a slot that an index does not list. -/
def missingUse (name : String) (v : ValueId) (u : Use) : String :=
  let text := s!"use-list of ValueId({v}) is missing " ++
    s!"Use \x7b user: InstId({u.user}), slot: {u.slot} \x7d"
  s!"{name}: {text}"

/-- The slots that read a value are exactly the entries of its index. -/
abbrev Indexed (f : Function) : Prop := f.IndexedBy f.reads

variable {α β : Type}

/-- What may be left of a function by a call. -/
def Harmless (name : String) (Q : α → Function → Prop) : Except Failure α × Function → Prop
  | (.ok a, f') => f'.name = name ∧ Q a f'
  | (.error (.error _), f') => f'.name = name ∧ Indexed f'
  | (.error (.crash text), _) => ∀ v u, text ≠ some (missingUse name v u)

/-- An action that does no harm in some states and promises a property of its result. -/
def Safe (P : Function → Prop) (edit : Edit α) (Q : α → Function → Prop) : Prop :=
  ∀ f, P f → Harmless f.name Q (edit.run f)

namespace Safe

variable {P P' : Function → Prop} {Q Q' : α → Function → Prop} {edit : Edit α}

theorem pure {a : α} (h : ∀ f, P f → Q a f) : Safe P (pure a : Edit α) Q := fun f hf => ⟨rfl, h f hf⟩

theorem get : Safe P get fun g f => g = f ∧ P f := fun _ hf => ⟨rfl, rfl, hf⟩

theorem crash : Safe P (crash : Edit α) Q := fun _ _ _ _ h => nomatch h

theorem report {cause : CompileError} (h : ∀ f, P f → Indexed f) : Safe P (report cause : Edit α) Q :=
  fun f hf => ⟨rfl, h f hf⟩

theorem bind {next : α → Edit β} {R : β → Function → Prop} (h : Safe P edit Q)
    (hnext : ∀ a, Safe (Q a) (next a) R) : Safe P (edit >>= next) R := by
  intro f hf
  rw [run_bind]
  have hfirst := h f hf
  generalize edit.run f = result at hfirst
  obtain ⟨r, f₁⟩ := result
  match r with
  | .ok a =>
    have hrest := hnext a f₁ hfirst.2
    rw [hfirst.1] at hrest
    exact hrest
  | .error (.error _) => exact hfirst
  | .error (.crash _) => exact hfirst

theorem mono (h : Safe P edit Q) (hP : ∀ f, P' f → P f) (hQ : ∀ a f, Q a f → Q' a f) : Safe P' edit Q' := by
  intro f hf
  have hrun := h f (hP f hf)
  generalize edit.run f = result at hrun
  obtain ⟨r, f₁⟩ := result
  match r with
  | .ok a => exact ⟨hrun.1, hQ a f₁ hrun.2⟩
  | .error (.error _) => exact hrun
  | .error (.crash _) => exact hrun

/-- A promise that is known of all successful runs. -/
theorem of_ok (h : Safe P edit Q) (hok : ∀ f f' a, P f → edit.run f = (.ok a, f') → Q' a f') : Safe P edit Q' := by
  intro f hf
  have hrun := h f hf
  have hkept := fun a f' => hok f f' a hf
  generalize edit.run f = result at hrun hkept
  obtain ⟨r, f₁⟩ := result
  match r with
  | .ok a => exact ⟨hrun.1, hkept a f₁ rfl⟩
  | .error (.error _) => exact hrun
  | .error (.crash _) => exact hrun

theorem forM {edit : α → Edit PUnit} {list : List α} (h : ∀ a ∈ list, Safe P (edit a) fun _ => P) :
    Safe P (list.forM edit) fun _ => P := by
  induction list with
  | nil => exact pure fun _ hf => hf
  | cons a rest ih => exact bind (h a List.mem_cons_self) fun _ => ih fun b hb => h b (List.mem_cons_of_mem _ hb)

theorem ask {question : Function → Outcome α} (h : ∀ f, P f → Indexed f ∨ ∀ cause, question f ≠ .error (.error cause))
    (hcrash : ∀ f text, question f ≠ .error (.crash (some text))) :
    Safe P (ask question) fun a f => question f = .ok a ∧ P f := by
  intro f hf
  rw [run_ask]
  match hq : question f with
  | .ok a => exact ⟨rfl, hq, hf⟩
  | .error (.error cause) => exact ⟨rfl, (h f hf).resolve_right fun hnone => hnone cause hq⟩
  | .error (.crash none) => exact fun _ _ h => nomatch h
  | .error (.crash (some text)) => exact absurd hq (hcrash f text)

end Safe

variable {P : Function → Prop}

variable {i : InstId} {l : List ValueId} {v : ValueId}

variable {b : BlockId} {text : String} {u : Use} {change : ValueData → ValueData}

/-- A text that begins otherwise is not about a missing use. -/
theorem ne_missingUse {name : String} (h : text.toList.head? ≠ some 'u') :
    s!"{name}: {text}" ≠ missingUse name v u := by
  intro heq
  have hlist := congrArg String.toList heq
  simp only [missingUse, String.toList_append, List.append_assoc] at hlist
  have htail := List.append_cancel_left (List.append_cancel_left hlist)
  apply h
  change (toString text).toList.head? = some 'u'
  rw [htail]
  simp only [toString, String.toList_append, List.append_assoc]
  rfl

/-- Asserting a condition with a text about something else. -/
theorem safe_demand {condition : Bool} (h : text.toList.head? ≠ some 'u') :
    Safe P (demand condition text) fun _ => P := by
  unfold demand
  split
  · exact .pure fun _ hf => hf
  · exact fun f _ v u heq => ne_missingUse h (Option.some.inj heq)

/-! ## Changes of records -/

theorem safe_modifyValue : Safe P (modifyValue v change) fun _ _ => True := by
  refine .bind .get fun g => ?_
  split
  · exact fun f _ => ⟨rfl, trivial⟩
  · exact .crash

theorem safe_modifyInst {change : InstData → InstData} : Safe P (modifyInst i change) fun _ _ => True := by
  refine .bind .get fun g => ?_
  split
  · exact fun f _ => ⟨rfl, trivial⟩
  · exact .crash

theorem safe_modifyBlock {change : BlockData → BlockData} : Safe P (modifyBlock b change) fun _ _ => True := by
  refine .bind .get fun g => ?_
  split
  · exact fun f _ => ⟨rfl, trivial⟩
  · exact .crash

/-- Changing a block does not touch the index. -/
theorem indexed_modifyBlock {change : BlockData → BlockData} :
    Safe Indexed (modifyBlock b change) fun _ => Indexed := by
  refine safe_modifyBlock.of_ok fun f f' _ hf h v u => ?_
  obtain ⟨-, -, hbecomes, huses⟩ := modifyBlock_spec h
  rw [huses, reads_eq hbecomes]
  exact hf v u

/-- Changing an instruction but for its operands does not touch the index. -/
theorem indexed_modifyInst {change : InstData → InstData} (hsame : ∀ d, (change d).operands = d.operands) :
    Safe Indexed (modifyInst i change) fun _ => Indexed := by
  refine safe_modifyInst.of_ok fun f f' _ hf h v u => ?_
  obtain ⟨-, -, hbecomes, huses⟩ := modifyInst_spec h
  have hreads : f'.reads u = f.reads u := by
    rw [reads_eq hbecomes, Function.update_apply]
    split
    · rename_i hu
      rw [hsame, ← hu]
      rfl
    · rfl
  rw [huses, hreads]
  exact hf v u

/-- Changing a value but for its uses does not touch the index. -/
theorem indexed_modifyValue (hsame : ∀ d, (change d).kind = d.kind ∧ (change d).uses = d.uses) :
    Safe Indexed (modifyValue v change) fun _ => Indexed := by
  refine safe_modifyValue.of_ok fun f f' _ hf h w u => ?_
  obtain ⟨-, hgraph, -, huses⟩ := modifyUses_spec id h hsame
  have huses' : f'.uses w = f.uses w := by
    rw [huses]
    split
    · rename_i hw
      rw [hw]
      rfl
    · rfl
  rw [huses', reads_eq hgraph]
  exact hf w u

/-! ## Striking and entering slots -/

theorem safe_removeUse {table : Use → Option ValueId} (hu : table u = some v) :
    Safe (fun f => f.IndexedBy table) (removeUse v u) fun _ f' => f'.IndexedBy (Function.update table u none) := by
  have hlisted : Safe (fun f => f.IndexedBy table) (removeUse v u) fun _ _ => True := by
    refine .bind .get fun g => ?_
    split
    · exact safe_modifyValue
    · rename_i hnone
      rintro f ⟨rfl, hf⟩
      have hin : u ∈ g.uses v := by
        rw [← List.count_pos_iff, hf v u, if_pos hu]
        exact Nat.one_pos
      exact absurd hin (List.idxOf?_eq_none_iff.1 hnone)
  exact hlisted.of_ok fun f f' _ hf h => ((removeUse_spec h).2.2 table hf).2

theorem safe_removeUses :
    ∀ {slot : Nat} {table : Use → Option ValueId}, (∀ k, l[k]? = table ⟨i, slot + k⟩ ∨ l.length ≤ k) →
      Safe (fun f => f.IndexedBy table) (removeUses i slot l) fun _ _ => True := by
  induction l with
  | nil => exact fun _ => .pure fun _ _ => trivial
  | cons v rest ih =>
    intro slot table htable
    have hfirst : table ⟨i, slot⟩ = some v := ((htable 0).resolve_right (by simp)).symm
    refine .bind (safe_removeUse hfirst) fun _ => ih fun k => ?_
    have hnext := htable (k + 1)
    rw [Function.update_of_ne (by simp; omega), show slot + 1 + k = slot + (k + 1) by omega]
    simpa using hnext

theorem safe_addUses : ∀ {P : Function → Prop} {slot : Nat}, Safe P (addUses i slot l) fun _ _ => True := by
  induction l with
  | nil => exact .pure fun _ _ => trivial
  | cons v rest ih => exact .bind safe_modifyValue fun _ => ih

theorem safe_lowerUses : ∀ {P : Function → Prop} {slot : Nat}, Safe P (lowerUses i slot l) fun _ _ => True := by
  induction l with
  | nil => exact .pure fun _ _ => trivial
  | cons v rest ih => exact .bind safe_modifyValue fun _ => ih

theorem safe_askOperand {slot : Nat} :
    Safe P (ask (·.operand i slot)) fun v f => (f.operands i)[slot]? = some v ∧ P f := by
  refine (Safe.ask (fun f _ => .inr fun cause h => ?_) fun f text h => ?_).mono (fun _ hf => hf)
    fun v f h => ⟨operand_eq_ok h.1, h.2⟩
  all_goals
    unfold Function.operand Outcome.ofOption at h
    split at h <;> cases h

theorem indexed_detachOperands (i : InstId) : Safe Indexed (detachOperands i) fun _ => Indexed := by
  have hsafe : Safe Indexed (detachOperands i) fun _ _ => True := by
    refine .bind .get fun g => ?_
    refine .bind (Q := fun _ f' => f'.IndexedBy g.reads) (safe_modifyInst.of_ok ?_) fun _ => ?_
    · rintro f f' _ ⟨rfl, hf⟩ h v u
      obtain ⟨-, -, -, huses⟩ := modifyInst_spec h
      rw [huses]
      exact hf v u
    · refine safe_removeUses fun k => .inl ?_
      rw [Nat.zero_add]
      rfl
  exact hsafe.of_ok fun f f' _ hf h => (detachOperands_spec h).2.2.2 hf

/-! ## The editing interface -/

theorem indexed_internValue {kind : ValueKind} (hkind : kind.isComputed = false) :
    Safe Indexed (internValue kind) fun _ => Indexed := by
  have hsafe : Safe Indexed (internValue kind) fun _ _ => True := by
    refine .bind .get fun g => ?_
    split
    · exact .pure fun _ _ => trivial
    · exact fun f _ => ⟨rfl, trivial⟩
  refine hsafe.of_ok fun f f' v hf h w u => ?_
  obtain ⟨hmore, -, -⟩ := internValue_spec hkind h
  unfold Function.reads Function.operands
  rw [hmore.uses, hmore.inst]
  exact hf w u

theorem indexed_createInst {kind : InstKind} {operands : List ValueId} {hasResult : Bool} :
    Safe Indexed (createInst kind operands hasResult) fun _ => Indexed := by
  have hsafe : Safe Indexed (createInst kind operands hasResult) fun _ _ => True := by
    refine .bind .get fun g => ?_
    have hrest : ∀ result, Safe (fun _ => True) (do
        addUses g.insts.size 0 operands
        modify fun f => { f with insts := f.insts.push { kind, operands, result } }
        return g.insts.size : Edit InstId) fun _ _ => True :=
      fun result => .bind safe_addUses fun _ f _ => ⟨rfl, trivial⟩
    dsimp only
    split
    · exact .bind (Q := fun _ _ => True) (fun f _ => ⟨rfl, trivial⟩) hrest
    · exact .bind (Q := fun _ _ => True) (.pure fun _ _ => trivial) hrest
  exact hsafe.of_ok fun f f' i hf h => (created_createInst h).2.indexed hf

theorem indexed_setOperand (i : InstId) (slot : Nat) (v : ValueId) :
    Safe Indexed (setOperand i slot v) fun _ => Indexed := by
  have hsafe : Safe Indexed (setOperand i slot v) fun _ _ => True := by
    refine .bind safe_askOperand fun old => ?_
    split
    · intro f hf
      have hrun : Safe (fun g => g.IndexedBy f.reads) (do
          removeUse old ⟨i, slot⟩
          addUse v ⟨i, slot⟩
          modifyInst i fun d => { d with operands := d.operands.set slot v } : Edit Unit) fun _ _ => True :=
        .bind (safe_removeUse hf.1) fun _ => .bind safe_modifyValue fun _ => safe_modifyInst
      exact hrun f hf.2
    · exact .pure fun _ _ => trivial
  exact hsafe.of_ok fun f f' _ hf h => by
    obtain ⟨old, -, -, -, hindex⟩ := setOperand_spec h
    exact hindex hf

theorem indexed_pushOperand (i : InstId) (v : ValueId) : Safe Indexed (pushOperand i v) fun _ => Indexed := by
  have hsafe : Safe Indexed (pushOperand i v) fun _ _ => True :=
    .bind .get fun g => .bind safe_modifyInst fun _ => safe_modifyValue
  exact hsafe.of_ok fun f f' _ hf h => (pushOperand_spec h).2.2.2.2 hf

theorem indexed_removeOperand (i : InstId) (slot : Nat) : Safe Indexed (removeOperand i slot) fun _ => Indexed := by
  have hsafe : Safe Indexed (removeOperand i slot) fun _ _ => True := by
    refine .bind safe_askOperand fun old f hf => ?_
    have hrun : Safe (fun g => g.IndexedBy f.reads) (do
        removeUse old ⟨i, slot⟩
        lowerUses i (slot + 1) (((← MonadState.get).operands i).drop (slot + 1))
        modifyInst i fun d => { d with operands := d.operands.eraseIdx slot } : Edit Unit) fun _ _ => True :=
      .bind (safe_removeUse hf.1) fun _ => .bind .get fun _ => .bind safe_lowerUses fun _ => safe_modifyInst
    exact hrun f hf.2
  exact hsafe.of_ok fun f f' _ hf h => (removeOperand_spec h).2.2.2.2 hf

/-- Making every slot that reads one value read another one. -/
theorem indexed_replaceAllUses (old new : ValueId) : Safe Indexed (replaceAllUses old new) fun _ => Indexed := by
  by_cases hne : old = new
  · unfold replaceAllUses
    rw [if_pos hne]
    exact .pure fun _ hf => hf
  · have hsafe : Safe Indexed (replaceAllUses old new) fun _ _ => True := by
      unfold replaceAllUses
      rw [if_neg hne]
      refine .bind .get fun g => .bind safe_modifyValue fun _ => .bind (.forM fun u _ => safe_modifyInst) fun _ => ?_
      exact .bind safe_modifyValue fun _ => .pure fun _ _ => trivial
    exact hsafe.of_ok fun f f' _ hf h => (replaceAllUses_spec hne hf h).2.2.2

theorem indexed_place (b : BlockId) (pos : Nat) (i : InstId) : Safe Indexed (place b pos i) fun _ => Indexed := by
  refine .bind (Safe.get.mono (fun _ hf => hf) fun _ _ h => h.2) fun g => .bind (safe_demand ?_) fun _ => ?_
  · simp [toString, String.toList_append]
  · exact .bind indexed_modifyBlock fun _ => indexed_modifyInst fun _ => rfl

theorem indexed_unplace (i : InstId) : Safe Indexed (unplace i) fun _ => Indexed := by
  refine .bind (indexed_detachOperands i) fun _ => ?_
  refine .bind (Safe.get.mono (fun _ hf => hf) fun _ _ h => h.2) fun g => ?_
  split
  · exact .bind (indexed_modifyInst fun _ => rfl) fun _ => indexed_modifyBlock
  · exact .pure fun _ hf => hf

theorem indexed_removeInst (i : InstId) : Safe Indexed (removeInst i) fun _ => Indexed := by
  refine .bind (Safe.get.mono (fun _ hf => hf) fun _ _ h => h.2) fun f => ?_
  split
  · split
    · exact .bind (.report fun _ hf => hf) fun _ => indexed_unplace i
    · exact .bind (indexed_modifyValue fun _ => ⟨rfl, rfl⟩) fun _ => indexed_unplace i
  · exact indexed_unplace i

theorem indexed_removeBlocks (doomed : List BlockId) : Safe Indexed (removeBlocks doomed) fun _ => Indexed := by
  refine .bind (Safe.get.mono (fun _ hf => hf) fun _ _ h => h.2) fun f => ?_
  refine .bind (.forM fun i _ => indexed_detachOperands i) fun _ => ?_
  refine .bind (.forM fun i _ => indexed_removeInst i) fun _ => .bind (.forM fun b _ => indexed_modifyBlock) fun _ => ?_
  exact fun g hg => ⟨rfl, hg⟩

theorem indexed_pushBack (b : BlockId) (i : InstId) : Safe Indexed (pushBack b i) fun _ => Indexed := by
  refine .bind (Safe.get.mono (fun _ hf => hf) fun _ _ h => h.2) fun f => .bind (safe_demand ?_) fun _ => ?_
  · simp [toString, String.toList_append]
  · dsimp only
    split
    · exact .bind .crash fun _ => indexed_place _ _ _
    · exact indexed_place _ _ _

theorem indexed_replaceTerminator (b : BlockId) (kind : InstKind) (operands : List ValueId) :
    Safe Indexed (replaceTerminator b kind operands) fun _ => Indexed := by
  refine .bind (Q := fun _ => Indexed) ?_ fun old => .bind (indexed_removeInst old) fun _ => ?_
  · refine (Safe.ask (fun f hf => .inl hf) fun f text h => ?_).mono (fun _ hf => hf) fun _ _ h => h.2
    unfold Function.terminator Outcome.report at h
    split at h
    · split at h <;> cases h
    · cases h
  · exact .bind indexed_createInst fun i => .bind (indexed_pushBack b i) fun _ => .pure fun _ hf => hf

theorem indexed_position (i : InstId) : Safe Indexed (position i) fun _ => Indexed := by
  refine .bind (Safe.get.mono (fun _ hf => hf) fun _ _ h => h.2) fun f => ?_
  split
  · exact fun f _ v u heq => ne_missingUse (by simp [toString, String.toList_append]) (Option.some.inj heq)
  · refine .bind (Safe.get.mono (fun _ hf => hf) fun _ _ h => h.2) fun g => ?_
    split
    · exact .pure fun _ hf => hf
    · exact fun f _ v u heq => ne_missingUse (by simp [toString, String.toList_append]) (Option.some.inj heq)

theorem indexed_insertBefore (anchor i : InstId) : Safe Indexed (insertBefore anchor i) fun _ => Indexed := by
  refine .bind (indexed_position anchor) fun at_ => ?_
  refine .bind (Safe.get.mono (fun _ hf => hf) fun _ _ h => h.2) fun f => .bind (safe_demand (by simp)) fun _ => ?_
  split
  · exact .bind (safe_demand (by simp)) fun _ => indexed_place _ _ _
  · exact .bind (safe_demand (by simp)) fun _ => indexed_place _ _ _

theorem indexed_insertAfter (anchor i : InstId) : Safe Indexed (insertAfter anchor i) fun _ => Indexed := by
  refine .bind (indexed_position anchor) fun at_ => ?_
  refine .bind (Safe.get.mono (fun _ hf => hf) fun _ _ h => h.2) fun f => .bind (safe_demand (by simp)) fun _ => ?_
  refine .bind (safe_demand (by simp)) fun _ => ?_
  split
  · exact .bind (safe_demand (by simp)) fun _ => indexed_place _ _ _
  · exact .bind (safe_demand (by simp)) fun _ => indexed_place _ _ _

/-- A call of the editing interface. -/
inductive Call
  | constValue (c : Word)
  | globalValue (g : GlobalId)
  | stringValue (s : StringId)
  | setValueName (v : ValueId) (name : String)
  | addCallee (callee : FuncId)
  | createInst (kind : InstKind) (operands : List ValueId) (hasResult : Bool)
  | setOperand (i : InstId) (slot : Nat) (v : ValueId)
  | pushOperand (i : InstId) (v : ValueId)
  | removeOperand (i : InstId) (slot : Nat)
  | replaceAllUses (old new : ValueId)
  | createBlock (name : String)
  | pushBack (b : BlockId) (i : InstId)
  | insertPhi (b : BlockId) (i : InstId)
  | insertBefore (anchor i : InstId)
  | insertAfter (anchor i : InstId)
  | removeInst (i : InstId)
  | removeBlocks (doomed : List BlockId)
  | replaceTerminator (b : BlockId) (kind : InstKind) (operands : List ValueId)
  | redirectTarget (i : InstId) (source target : BlockId)
  | addPred (b pred : BlockId)
  | removePredAt (b : BlockId) (idx : Nat)

/-- What a call does, its result left out. -/
def Call.edit : Call → Edit Unit
  | constValue c => discard (Edit.constValue c)
  | globalValue g => discard (Edit.globalValue g)
  | stringValue s => discard (Edit.stringValue s)
  | setValueName v name => Edit.setValueName v name
  | addCallee callee => Edit.addCallee callee
  | createInst kind operands hasResult => discard (Edit.createInst kind operands hasResult)
  | setOperand i slot v => Edit.setOperand i slot v
  | pushOperand i v => Edit.pushOperand i v
  | removeOperand i slot => Edit.removeOperand i slot
  | replaceAllUses old new => discard (Edit.replaceAllUses old new)
  | createBlock name => discard (Edit.createBlock name)
  | pushBack b i => Edit.pushBack b i
  | insertPhi b i => Edit.insertPhi b i
  | insertBefore anchor i => Edit.insertBefore anchor i
  | insertAfter anchor i => Edit.insertAfter anchor i
  | removeInst i => Edit.removeInst i
  | removeBlocks doomed => Edit.removeBlocks doomed
  | replaceTerminator b kind operands => discard (Edit.replaceTerminator b kind operands)
  | redirectTarget i source target => discard (Edit.redirectTarget i source target)
  | addPred b pred => Edit.addPred b pred
  | removePredAt b idx => Edit.removePredAt b idx

theorem indexed_discard {edit : Edit α} (h : Safe Indexed edit fun _ => Indexed) :
    Safe Indexed (discard edit) fun _ => Indexed := .bind h fun _ => .pure fun _ hf => hf

theorem indexed_call (call : Call) : Safe Indexed call.edit fun _ => Indexed := by
  cases call with
  | constValue c => exact indexed_discard (indexed_internValue rfl)
  | globalValue g => exact indexed_discard (indexed_internValue rfl)
  | stringValue s => exact indexed_discard (indexed_internValue rfl)
  | setValueName v name => exact indexed_modifyValue fun _ => ⟨rfl, rfl⟩
  | addCallee callee => exact fun f hf => ⟨rfl, hf⟩
  | createInst kind operands hasResult => exact indexed_discard indexed_createInst
  | setOperand i slot v => exact indexed_setOperand i slot v
  | pushOperand i v => exact indexed_pushOperand i v
  | removeOperand i slot => exact indexed_removeOperand i slot
  | replaceAllUses old new => exact indexed_discard (indexed_replaceAllUses old new)
  | createBlock name => exact fun f hf => ⟨rfl, hf⟩
  | pushBack b i => exact indexed_pushBack b i
  | insertPhi b i =>
    refine .bind (Safe.get.mono (fun _ hf => hf) fun _ _ h => h.2) fun f => ?_
    split
    · exact indexed_place _ _ _
    · exact .crash
  | insertBefore anchor i => exact indexed_insertBefore anchor i
  | insertAfter anchor i => exact indexed_insertAfter anchor i
  | removeInst i => exact indexed_removeInst i
  | removeBlocks doomed => exact indexed_removeBlocks doomed
  | replaceTerminator b kind operands => exact indexed_discard (indexed_replaceTerminator b kind operands)
  | redirectTarget i source target =>
    refine indexed_discard (.bind (Safe.get.mono (fun _ hf => hf) fun _ _ h => h.2) fun f => ?_)
    split
    · exact .bind (indexed_modifyInst fun _ => rfl) fun _ => .pure fun _ hf => hf
    · exact .pure fun _ hf => hf
  | addPred b pred => exact indexed_modifyBlock
  | removePredAt b idx =>
    refine .bind (Safe.get.mono (fun _ hf => hf) fun _ _ h => h.2) fun f => ?_
    refine .bind (.forM fun phi _ => indexed_removeOperand phi idx) fun _ => ?_
    refine .bind (Safe.get.mono (fun _ hf => hf) fun _ _ h => h.2) fun g => ?_
    split
    · exact indexed_modifyBlock
    · exact .crash

/-- The functions that calls make of a new function, those that report an error among them. -/
inductive Reached : Function → Prop
  | new (name : String) (paramCount : Nat) (returnsValue : Bool) :
    Reached (Function.new name paramCount returnsValue)
  | done {f f' : Function} (call : Call) (hf : Reached f) (hrun : call.edit.run f = (.ok (), f')) : Reached f'
  | failed {f f' : Function} {cause : CompileError} (call : Call) (hf : Reached f)
    (hrun : call.edit.run f = (.error (.error cause), f')) : Reached f'

/-- Calls one after the other, none of which fails. -/
theorem Reached.calls {calls : List Call} : ∀ {f f' : Function}, Reached f →
    (calls.forM Call.edit).run f = (.ok (), f') → Reached f' := by
  induction calls with
  | nil =>
    intro f f' h hrun
    cases hrun
    exact h
  | cons call calls ih =>
    intro f f' h hrun
    obtain ⟨⟨⟩, f₁, hfirst, hrest⟩ := bind_eq_ok hrun
    exact ih (h.done call hfirst) hrest

/-- The index of a function that calls have made is exact. -/
theorem Reached.indexed {f : Function} (h : Reached f) : Indexed f := by
  induction h with
  | new name paramCount returnsValue => exact (Function.sound_new name paramCount returnsValue).indexed
  | done call _ hrun ih =>
    have hsafe := indexed_call call _ ih
    rw [hrun] at hsafe
    exact hsafe.2
  | failed call _ hrun ih =>
    have hsafe := indexed_call call _ ih
    rw [hrun] at hsafe
    exact hsafe.2

/-- In every state of the editing interface, the index of a value lists each slot that reads it once and no
other slot; and no call crashes for a use that an index does not list. -/
theorem exact_uses_of_reached {f : Function} (h : Reached f) :
    (∀ v i s, (f.uses v).count ⟨i, s⟩ = if (f.operands i)[s]? = some v then 1 else 0) ∧
      ∀ (call : Call) v u, (call.edit.run f).1 ≠ .error (.crash (some (missingUse f.name v u))) := by
  refine ⟨fun v i s => h.indexed v ⟨i, s⟩, fun call v u hcrash => ?_⟩
  have hsafe := indexed_call call f h.indexed
  generalize call.edit.run f = result at hsafe hcrash
  obtain ⟨r, f'⟩ := result
  obtain rfl : r = _ := hcrash
  exact hsafe v u rfl

/-- A function that returns twice its argument, after the attempt to remove the block of the sum: the sum has
lost its operands, but as it is still read, it has kept its place. -/
def halfRemoved : Function where
  name := "twice"
  returnsValue := true
  params := [0]
  values := #[{ kind := .param 0 }, { kind := .inst 0, uses := [⟨1, 0⟩] }]
  insts := #[
    { kind := .binary .add, operands := [], result := some 1, block := some 0 },
    { kind := .ret, operands := [1], result := none, block := some 1 }]
  blocks := #[{ name := "entry", insts := [0] }, { name := "out", insts := [1] }]
  layout := [0, 1]

/-- The index is exact after a removal that was not finished. -/
theorem exact_uses_of_reached_halfRemoved : Reached halfRemoved ∧
    (∀ v i s, (halfRemoved.uses v).count ⟨i, s⟩ = if (halfRemoved.operands i)[s]? = some v then 1 else 0) ∧
      ∀ (call : Call) v u,
        (call.edit.run halfRemoved).1 ≠ .error (.crash (some (missingUse halfRemoved.name v u))) := by
  -- The function before the attempt, with both blocks filled.
  have hfilled : Reached { halfRemoved with
      values := #[{ kind := .param 0, uses := [⟨0, 0⟩, ⟨0, 1⟩] }, { kind := .inst 0, uses := [⟨1, 0⟩] }]
      insts := #[
        { kind := .binary .add, operands := [0, 0], result := some 1, block := some 0 },
        { kind := .ret, operands := [1], result := none, block := some 1 }] } := by
    have hblocks := Reached.done (.createBlock "out") (.done (.createBlock "entry") (.new "twice" 1 true) rfl) rfl
    have hsum := Reached.done (.createInst (.binary .add) [0, 0] true) hblocks rfl
    have hret := Reached.done (.createInst .ret [1] false) (.done (.pushBack 0 0) hsum rfl) rfl
    exact .done (.pushBack 1 1) hret (by cbv)
  have hreached : Reached halfRemoved := .failed (.removeBlocks [0]) hfilled (by cbv)
  exact ⟨hreached, exact_uses_of_reached hreached⟩

end Edit

end SsaCompiler
