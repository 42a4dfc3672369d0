import SsaCompiler.Proofs.Ir.LiveValues
import SsaCompiler.Proofs.Ir.SoundPasses
import SsaCompiler.Proofs.Ir.Verified

/-!
# The records of removed instructions

An instruction that stands in a block has a live result, and one that was removed has neither a live result nor
operands. Every successful edit of a pass keeps this bookkeeping, so it holds of whatever passes make of a
function. Simplification also keeps that only live values are read: an instruction is removed only when nothing
reads its result, and what is read in its place was read before.
-/

set_option autoImplicit false

namespace SsaCompiler

variable {b : BlockId} {i : InstId} {kind : InstKind} {v : ValueId}

namespace InstKind

/-- Whether an instruction always comes with a result. A call may be made without one. -/
def alwaysGives : InstKind → Bool
  | binary _ | gep _ | load | alloca _ | phi => true
  | branch .. | jump _ | ret | store | call _ | print _ => false

/-- A terminator needs no result. -/
theorem not_alwaysGives (h : kind.isTerminator = true) : kind.alwaysGives = false := by
  cases kind <;> first | rfl | cases h

end InstKind

namespace Function

variable {f f' : Function} {inst : InstId → InstData} {block : BlockId → BlockData} {layout : List BlockId}

/-- The bookkeeping of placed and removed instructions. -/
structure Tended (f : Function) : Prop where
  indexed : f.IndexedBy f.reads
  owned : ∀ i r, f.result? i = some r → r < f.values.size ∧ (f.value r).kind = .inst i
  marked : ∀ i r, f.result? i = some r → ((f.value r).live = true ↔ f.blockOf? i ≠ none)
  /-- Only results are ever dead. -/
  buried : ∀ v, (f.value v).live = false → ∃ i, f.result? i = some v
  detached : ∀ i, f.blockOf? i = none → f.operands i = []
  valued : ∀ i, f.blockOf? i ≠ none → (f.kind i).alwaysGives = true → f.result? i ≠ none

/-- Only live values are read. -/
def LiveOperands (f : Function) : Prop := ∀ i, ∀ v ∈ f.operands i, (f.value v).live = true

/-- No instruction stands in a removed block. -/
def Emptied (f : Function) : Prop := ∀ b, (f.block b).removed = true → f.instsOf b = []

/-- A sound function with its bookkeeping in order. -/
structure Tidy (f : Function) : Prop where
  sound : f.Sound
  tended : f.Tended
  emptied : f.Emptied

/-- A tidy function that reads live values only. -/
structure Neat (f : Function) : Prop extends Tidy f where
  live : f.LiveOperands

/-- A neat function passes the checks of operands. -/
theorem Neat.closed (h : f.Neat) : f.Closed := ⟨h.live, h.tended.detached⟩

/-- Instructions in blocks have records. -/
theorem Sound.lt_insts_size {f : Function} (h : f.Sound) (hi : i ∈ f.instsOf b) : i < f.insts.size := by
  by_contra hge
  have hblock := (h.placed b i).1 hi
  unfold blockOf? at hblock
  rw [Edit.inst_of_size_le (Nat.le_of_not_lt hge)] at hblock
  cases hblock

namespace Tended

/-- An operand belongs to an instruction that stands in a block. -/
theorem placed_of_mem (h : f.Tended) (hv : v ∈ f.operands i) : f.blockOf? i ≠ none := by
  intro hnone
  rw [h.detached i hnone] at hv
  cases hv

/-- What no slot reads is no operand. -/
theorem not_mem_of_uses_eq_nil (hindexed : f.IndexedBy f.reads) (hv : f.uses v = []) (i : InstId) :
    v ∉ f.operands i := by
  intro hmem
  obtain ⟨slot, hslot, rfl⟩ := List.getElem_of_mem hmem
  have hcount := hindexed (f.operands i)[slot] ⟨i, slot⟩
  have hreads : f.reads ⟨i, slot⟩ = some (f.operands i)[slot] := List.getElem?_eq_getElem hslot
  rw [hv, if_pos hreads] at hcount
  cases hcount

/-- A change that leaves results, places and marks as they are. -/
theorem becomes (h : f.Tended) (hb : f.Becomes f' inst block layout) (hindexed : f'.IndexedBy f'.reads)
    (hlive : ∀ v, (f'.value v).live = (f.value v).live)
    (hinst : ∀ i, (inst i).result = f.result? i ∧ (inst i).block = f.blockOf? i ∧
      (inst i).kind.alwaysGives = (f.kind i).alwaysGives)
    (hdetached : ∀ i, f.blockOf? i = none → f.operands i = [] → (inst i).operands = []) : f'.Tended := by
  have hresult : ∀ i, f'.result? i = f.result? i := fun i => by rw [result?, hb.inst, (hinst i).1]
  have hblock : ∀ i, f'.blockOf? i = f.blockOf? i := fun i => by rw [blockOf?, hb.inst, (hinst i).2.1]
  refine ⟨hindexed, fun i r hr => ?_, fun i r hr => ?_, fun v hv => ?_, fun i hi => ?_, fun i hi hkind => ?_⟩
  · rw [hb.values_size, hb.kinds]
    exact h.owned i r (hresult i ▸ hr)
  · rw [hlive, hblock]
    exact h.marked i r (hresult i ▸ hr)
  · obtain ⟨i, hi⟩ := h.buried v (hlive v ▸ hv)
    exact ⟨i, (hresult i).trans hi⟩
  · rw [hblock] at hi
    rw [operands, hb.inst]
    exact hdetached i hi (h.detached i hi)
  · rw [hblock] at hi
    rw [kind, hb.inst, (hinst i).2.2] at hkind
    rw [hresult]
    exact h.valued i hi hkind

/-- More values. -/
theorem moreValues (h : f.Tended) (hmore : f.MoreValues f') : f'.Tended := by
  have hresult : ∀ i, f'.result? i = f.result? i := fun i => by rw [result?, hmore.inst]; rfl
  have hblock : ∀ i, f'.blockOf? i = f.blockOf? i := fun i => by rw [blockOf?, hmore.inst]; rfl
  refine ⟨fun v u => ?_, fun i r hr => ?_, fun i r hr => ?_, fun v hv => ?_, fun i hi => ?_, fun i hi hkind => ?_⟩
  · rw [hmore.uses, reads, operands, hmore.inst]
    exact h.indexed v u
  · obtain ⟨hlt, hkind⟩ := h.owned i r (hresult i ▸ hr)
    exact ⟨Nat.lt_of_lt_of_le hlt hmore.values_size, (hmore.kinds r hlt).trans hkind⟩
  · rw [hmore.live, hblock]
    exact h.marked i r (hresult i ▸ hr)
  · obtain ⟨i, hi⟩ := h.buried v (hmore.live v ▸ hv)
    exact ⟨i, (hresult i).trans hi⟩
  · rw [operands, hmore.inst]
    exact h.detached i (hblock i ▸ hi)
  · rw [kind, hmore.inst] at hkind
    rw [hresult]
    exact h.valued i (hblock i ▸ hi) hkind

end Tended

/-- A change that adds only live operands. -/
theorem LiveOperands.becomes (h : f.LiveOperands) (hb : f.Becomes f' inst block layout)
    (hlive : ∀ v, (f'.value v).live = (f.value v).live)
    (hoperands : ∀ i, ∀ v ∈ (inst i).operands, v ∈ f.operands i ∨ (f.value v).live = true) : f'.LiveOperands := by
  intro i v hv
  rw [operands, hb.inst] at hv
  rw [hlive]
  exact (hoperands i v hv).elim (h i v) id

end Function

namespace Edit

open Edits

variable {f f' : Function}

/-! ## Removing instructions -/

/-- Taking an instruction out of its block. -/
theorem keepsMarks_unplace (i : InstId) : KeepsMarks (unplace i) := by
  refine keepsMarks_bind (keepsMarks_detachOperands i) fun _ => keepsMarks_bind keepsMarks_get fun g => ?_
  split
  · exact keepsMarks_bind (keepsMarks_modifyInst i _) fun _ => keepsMarks_modifyBlock _ _
  · exact keepsMarks_pure _

/-- Removing an instruction makes its result dead and leaves all other marks and all names. -/
theorem marks_removeInst (h : (removeInst i).run f = (.ok (), f')) (v : ValueId) :
    (f'.value v).live = (if f.result? i = some v then false else (f.value v).live) ∧
      (f'.value v).name = (f.value v).name := by
  unfold removeInst at h
  have h₀ := of_get_bind h
  dsimp only at h₀
  split at h₀
  · rename_i r hr
    split at h₀
    · cases h₀
    · obtain ⟨⟨⟩, f₁, hmark, h₁⟩ := bind_eq_ok h₀
      obtain ⟨hlt, rfl⟩ := modifyValue_eq_ok hmark
      rw [(keepsMarks_unplace i).live_eq h₁, (keepsMarks_unplace i).name_eq h₁, Function.value_modify hlt, hr]
      by_cases hv : v = r
      · rw [if_pos hv, if_pos (congrArg some hv.symm), hv]
        exact ⟨rfl, rfl⟩
      · rw [if_neg hv, if_neg fun heq => hv (Option.some.inj heq).symm]
        exact ⟨rfl, rfl⟩
  · rename_i hr
    rw [(keepsMarks_unplace i).live_eq h₀, (keepsMarks_unplace i).name_eq h₀, hr, if_neg (by simp)]
    exact ⟨rfl, rfl⟩

/-- Removing an instruction makes its result dead. -/
theorem live_removeInst (h : (removeInst i).run f = (.ok (), f')) (v : ValueId) :
    (f'.value v).live = if f.result? i = some v then false else (f.value v).live := (marks_removeInst h v).1

/-- Removing an instruction keeps the bookkeeping. -/
theorem tended_removeInst (i : InstId) : Preserves Function.Tended (removeInst i) := by
  intro f f' _ ht h
  obtain ⟨-, hunread, -, hbecomes, hindex⟩ := removeInst_spec h
  have hresult : ∀ j, f'.result? j = f.result? j := by
    intro j
    rw [Function.result?, hbecomes.inst]
    exact Function.proj_update (by rfl) _
  have hother : ∀ {j}, j ≠ i → f'.inst j = f.inst j := fun hj => by rw [hbecomes.inst, Function.update_of_ne hj]
  have hself : f'.inst i = detached (f.inst i) := by rw [hbecomes.inst, Function.update_self]
  refine ⟨hindex ht.indexed, fun j r hr => ?_, fun j r hr => ?_, fun v hv => ?_, fun j hj => ?_, fun j hj hkind => ?_⟩
  · rw [hbecomes.values_size, hbecomes.kinds]
    exact ht.owned j r (hresult j ▸ hr)
  · rw [hresult] at hr
    rw [live_removeInst h]
    by_cases hji : j = i
    · subst hji
      rw [if_pos hr, Function.blockOf?, hself]
      simp [detached]
    · have hne : f.result? i ≠ some r := by
        intro hi
        have hkind := (ht.owned i r hi).2
        rw [(ht.owned j r hr).2] at hkind
        cases hkind
        exact hji rfl
      rw [if_neg hne, Function.blockOf?, hother hji]
      exact ht.marked j r hr
  · rw [live_removeInst h] at hv
    split at hv
    · rename_i hi
      exact ⟨i, (hresult i).trans hi⟩
    · obtain ⟨j, hj⟩ := ht.buried v hv
      exact ⟨j, (hresult j).trans hj⟩
  · by_cases hji : j = i
    · rw [hji, Function.operands, hself]
      rfl
    · rw [Function.blockOf?, hother hji] at hj
      rw [Function.operands, hother hji]
      exact ht.detached j hj
  · have hji : j ≠ i := by
      rintro rfl
      rw [Function.blockOf?, hself] at hj
      exact hj rfl
    rw [Function.blockOf?, hother hji] at hj
    rw [Function.kind, hother hji] at hkind
    rw [hresult]
    exact ht.valued j hj hkind

/-- Removing an instruction leaves live what is read. -/
theorem liveOperands_removeInst (hindexed : f.IndexedBy f.reads) (hl : f.LiveOperands)
    (h : (removeInst i).run f = (.ok (), f')) : f'.LiveOperands := by
  obtain ⟨-, hunread, -, hbecomes, -⟩ := removeInst_spec h
  intro j v hv
  have hv' : v ∈ f.operands j := by
    rw [Function.operands, hbecomes.inst] at hv
    by_cases hj : j = i
    · rw [hj, Function.update_self] at hv
      cases hv
    · rw [Function.update_of_ne hj] at hv
      exact hv
  rw [live_removeInst h, if_neg]
  · exact hl j v hv'
  · exact fun hr => Function.Tended.not_mem_of_uses_eq_nil hindexed (hunread v hr) j hv'

/-! ## Operands, blocks and edges -/

variable {P : Function → Prop} {operands : List ValueId} {count : Nat}

/-- A change of the operands of one instruction keeps the bookkeeping when a detached one gets none. -/
theorem tended_updateOperands (ht : f.Tended)
    (hb : f.Becomes f' (Function.update f.inst i { f.inst i with operands }) f.block f.layout)
    (hindexed : f'.IndexedBy f'.reads) (hlive : ∀ v, (f'.value v).live = (f.value v).live)
    (hdetached : f.blockOf? i = none → operands = []) : f'.Tended := by
  refine ht.becomes hb hindexed hlive (fun j => ?_) fun j hnone hj => ?_
  · by_cases hji : j = i
    · rw [hji, Function.update_self]
      exact ⟨rfl, rfl, rfl⟩
    · rw [Function.update_of_ne hji]
      exact ⟨rfl, rfl, rfl⟩
  · by_cases hji : j = i
    · rw [hji, Function.update_self]
      exact hdetached (hji ▸ hnone)
    · rw [Function.update_of_ne hji]
      exact hj

/-- A change of the operands of one instruction to live ones. -/
theorem liveOperands_updateOperands (hl : f.LiveOperands)
    (hb : f.Becomes f' (Function.update f.inst i { f.inst i with operands }) f.block f.layout)
    (hlive : ∀ v, (f'.value v).live = (f.value v).live)
    (hnew : ∀ v ∈ operands, v ∈ f.operands i ∨ (f.value v).live = true) : f'.LiveOperands := by
  refine hl.becomes hb hlive fun j v hv => ?_
  by_cases hji : j = i
  · rw [hji, Function.update_self] at hv
    exact hji ▸ hnew v hv
  · rw [Function.update_of_ne hji] at hv
    exact .inl hv

theorem tended_detachOperands (i : InstId) : Preserves Function.Tended (detachOperands i) := by
  intro f f' _ ht h
  obtain ⟨-, -, hbecomes, hindex⟩ := detachOperands_spec h
  exact tended_updateOperands ht hbecomes (hindex ht.indexed) ((keepsMarks_detachOperands i).live_eq h) fun _ => rfl

theorem liveOperands_detachOperands (i : InstId) : Preserves Function.LiveOperands (detachOperands i) := by
  intro f f' _ hl h
  obtain ⟨-, -, hbecomes, -⟩ := detachOperands_spec h
  exact liveOperands_updateOperands hl hbecomes ((keepsMarks_detachOperands i).live_eq h) fun v hv => by cases hv

theorem tended_removeOperand (i : InstId) (slot : Nat) : Preserves Function.Tended (removeOperand i slot) := by
  intro f f' _ ht h
  obtain ⟨-, -, -, hbecomes, hindex⟩ := removeOperand_spec h
  refine tended_updateOperands ht hbecomes (hindex ht.indexed) ((keepsMarks_removeOperand i slot).live_eq h) fun hi => ?_
  rw [ht.detached i hi]
  rfl

theorem liveOperands_removeOperand (i : InstId) (slot : Nat) :
    Preserves Function.LiveOperands (removeOperand i slot) := by
  intro f f' _ hl h
  obtain ⟨-, -, -, hbecomes, -⟩ := removeOperand_spec h
  exact liveOperands_updateOperands hl hbecomes ((keepsMarks_removeOperand i slot).live_eq h) fun v hv =>
    .inl (List.mem_of_mem_eraseIdx hv)

/-- Adding a slot to an instruction that stands in a block. -/
theorem tended_pushOperand (ht : f.Tended) (hi : f.blockOf? i ≠ none) (h : (pushOperand i v).run f = (.ok (), f')) :
    f'.Tended := by
  obtain ⟨-, -, -, hbecomes, hindex⟩ := pushOperand_spec h
  exact tended_updateOperands ht hbecomes (hindex ht.indexed) ((keepsMarks_pushOperand i v).live_eq h) fun hnone =>
    absurd hnone hi

theorem liveOperands_pushOperand (hl : f.LiveOperands) (hv : (f.value v).live = true)
    (h : (pushOperand i v).run f = (.ok (), f')) : f'.LiveOperands := by
  obtain ⟨-, -, -, hbecomes, -⟩ := pushOperand_spec h
  refine liveOperands_updateOperands hl hbecomes ((keepsMarks_pushOperand i v).live_eq h) fun w hw => ?_
  rcases List.mem_append.1 hw with hw | hw
  · exact .inl hw
  · rw [List.mem_singleton.1 hw]
    exact .inr hv

theorem tended_setOperand (i : InstId) (slot : Nat) (v : ValueId) :
    Preserves Function.Tended (setOperand i slot v) := by
  intro f f' _ ht h
  obtain ⟨old, hold, -, hbecomes, hindex⟩ := setOperand_spec h
  exact tended_updateOperands ht hbecomes (hindex ht.indexed) ((keepsMarks_setOperand i slot v).live_eq h) fun hnone =>
    absurd hnone (ht.placed_of_mem (List.mem_of_getElem? hold))

/-- Making all slots that read one value read another one. -/
theorem tended_replaceAllUses (old new : ValueId) : Preserves Function.Tended (replaceAllUses old new) := by
  intro f f' _ ht h
  by_cases hne : old = new
  · unfold replaceAllUses at h
    rw [if_pos hne] at h
    cases h
    exact ht
  · obtain ⟨-, -, hbecomes, hindexed⟩ := replaceAllUses_spec hne ht.indexed h
    refine ht.becomes hbecomes hindexed ((keepsMarks_replaceAllUses old new).live_eq h) (fun _ => ⟨rfl, rfl, rfl⟩) ?_
    intro i _ hi
    change (f.operands i).map _ = []
    rw [hi]
    rfl

variable {entry : BlockId} {hasResult : Bool} {f₁ : Function} {phi : InstId} {carried : List (InstId × ValueId)}
variable {doomed : List BlockId} {pos : Nat} {new old : ValueId}

/-- Making all slots that read one value read a live one. -/
theorem liveOperands_replaceAllUses (ht : f.Tended) (hl : f.LiveOperands) (hnew : (f.value new).live = true)
    (h : (replaceAllUses old new).run f = (.ok count, f')) : f'.LiveOperands := by
  by_cases hne : old = new
  · unfold replaceAllUses at h
    rw [if_pos hne] at h
    cases h
    exact hl
  · obtain ⟨-, -, hbecomes, -⟩ := replaceAllUses_spec hne ht.indexed h
    refine hl.becomes hbecomes ((keepsMarks_replaceAllUses old new).live_eq h) fun i v hv => ?_
    obtain ⟨w, hw, rfl⟩ := List.mem_map.1 hv
    unfold substituted
    split
    · exact .inr hnew
    · exact .inl hw

theorem tended_modifyBlock (b : BlockId) (change : BlockData → BlockData) :
    Preserves Function.Tended (modifyBlock b change) := by
  intro f f' _ ht h
  obtain ⟨-, -, hbecomes, huses⟩ := modifyBlock_spec h
  refine ht.becomes hbecomes (fun v u => ?_) ((keepsMarks_modifyBlock b change).live_eq h) (fun _ => ⟨rfl, rfl, rfl⟩)
    fun _ _ hi => hi
  rw [huses, reads_eq hbecomes]
  exact ht.indexed v u

theorem liveOperands_modifyBlock (b : BlockId) (change : BlockData → BlockData) :
    Preserves Function.LiveOperands (modifyBlock b change) := by
  intro f f' _ hl h
  obtain ⟨-, -, hbecomes, -⟩ := modifyBlock_spec h
  exact hl.becomes hbecomes ((keepsMarks_modifyBlock b change).live_eq h) fun _ _ hv => .inl hv

/-- What removing slots and changing blocks, but not their names, keep, removing a predecessor keeps. -/
theorem preserves_removePredAt (hslot : ∀ i slot, Preserves P (removeOperand i slot))
    (hblock : ∀ b change, (∀ d, (change d).name = d.name) → Preserves P (modifyBlock b change)) (b : BlockId)
    (idx : Nat) : Preserves P (removePredAt b idx) := by
  refine .bind .get fun f => .bind (.forM fun phi _ => hslot phi idx) fun _ => .bind .get fun g => ?_
  split
  · exact hblock b _ fun _ => rfl
  · exact .throw _

theorem tended_redirectTarget (i : InstId) (source target : BlockId) :
    Preserves Function.Tended (redirectTarget i source target) := by
  intro f f' found ht h
  rcases redirectTarget_spec h with ⟨-, rfl⟩ | ⟨kind, hkind, -, -, -, hbecomes, huses⟩
  · exact ht
  have hgives : kind.alwaysGives = (f.kind i).alwaysGives := by
    unfold InstKind.redirect? at hkind
    split at hkind
    · rename_i hi
      rw [hi]
      split at hkind <;> cases hkind
      rfl
    · rename_i hi
      rw [hi]
      split at hkind
      · cases hkind
        rfl
      · split at hkind <;> cases hkind
        rfl
    · cases hkind
  refine ht.becomes hbecomes (fun v u => ?_) ((keepsMarks_redirectTarget i source target).live_eq h) (fun j => ?_)
    fun j _ hj => ?_
  · rw [huses, reads_eq hbecomes, ht.indexed v u, Function.reads, Function.operands]
    by_cases hu : u.user = i
    · rw [hu, Function.update_self]
    · rw [Function.update_of_ne hu]
  · by_cases hji : j = i
    · rw [hji, Function.update_self]
      exact ⟨rfl, rfl, hgives⟩
    · rw [Function.update_of_ne hji]
      exact ⟨rfl, rfl, rfl⟩
  · by_cases hji : j = i
    · rw [hji, Function.update_self]
      exact hji ▸ hj
    · rw [Function.update_of_ne hji]
      exact hj

theorem liveOperands_redirectTarget (i : InstId) (source target : BlockId) :
    Preserves Function.LiveOperands (redirectTarget i source target) := by
  intro f f' found hl h
  rcases redirectTarget_spec h with ⟨-, rfl⟩ | ⟨kind, -, -, -, -, hbecomes, -⟩
  · exact hl
  refine hl.becomes hbecomes ((keepsMarks_redirectTarget i source target).live_eq h) fun j v hv => ?_
  by_cases hji : j = i
  · rw [hji, Function.update_self] at hv
    exact .inl (hji ▸ hv)
  · rw [Function.update_of_ne hji] at hv
    exact .inl hv

theorem preserves_removeBlocks (hdetach : ∀ i, Preserves P (detachOperands i))
    (hremove : ∀ i, Preserves P (removeInst i))
    (hblock : ∀ b change, (∀ d, (change d).name = d.name) → Preserves P (modifyBlock b change))
    (hlayout : ∀ f layout, P f → P { f with layout }) (doomed : List BlockId) :
    Preserves P (removeBlocks doomed) := by
  refine .bind .get fun f => .bind (.forM fun i _ => hdetach i) fun _ => .bind (.forM fun i _ => hremove i) fun _ => ?_
  refine .bind (.forM fun b _ => hblock b _ fun _ => rfl) fun _ g g' _ hg h => ?_
  cases h
  exact hlayout g _ hg

/-! ## New instructions -/

/-- An instruction that is created and put into a block comes with a result where its kind demands one. -/
theorem tended_put (ht : f.Tended) (hvalued : kind.alwaysGives = true → hasResult = true)
    (hcreate : (createInst kind operands hasResult).run f = (.ok i, f₁))
    (hplace : (place b pos i).run f₁ = (.ok (), f')) : f'.Tended := by
  obtain ⟨rfl, hcreated⟩ := created_createInst hcreate
  obtain ⟨-, -, -, -, hbecomes, huses⟩ := place_spec hplace
  have hlive : ∀ v, (f'.value v).live = (f.value v).live := fun v =>
    ((keepsMarks_place b pos _).live_eq hplace v).trans ((keepsMarks_createInst kind operands hasResult).live_eq hcreate v)
  have hold : ∀ {j}, j ≠ f.insts.size → f'.inst j = f.inst j := by
    intro j hj
    rw [hbecomes.inst, Function.update_of_ne hj, hcreated.inst, Function.update_of_ne hj]
  have hnew : f'.inst f.insts.size =
      { kind, operands, result := if hasResult then some f.values.size else none, block := some b } := by
    rw [hbecomes.inst, Function.update_self, hcreated.inst, Function.update_self]
  have hkinds : ∀ v, v < f.values.size → v < f'.values.size ∧ (f'.value v).kind = (f.value v).kind := by
    intro v hv
    have hsize := hcreated.values_size
    have hv₁ : v < f₁.values.size := by omega
    rw [hbecomes.values_size, hbecomes.kinds, hcreated.kinds v hv₁, if_neg (Nat.ne_of_lt hv)]
    exact ⟨hv₁, rfl⟩
  refine ⟨fun v u => ?_, fun j r hr => ?_, fun j r hr => ?_, fun v hv => ?_, fun j hj => ?_, fun j hj hkind => ?_⟩
  · rw [huses, hcreated.indexed ht.indexed, reads_eq hbecomes, Function.reads, Function.operands]
    by_cases hu : u.user = f.insts.size
    · rw [hu, Function.update_self]
    · rw [Function.update_of_ne hu]
  · rw [Function.result?] at hr
    by_cases hj : j = f.insts.size
    · subst hj
      rw [hnew] at hr
      cases hasResult with
      | false => cases hr
      | true =>
        cases hr
        have hsize : f₁.values.size = f.values.size + 1 := hcreated.values_size
        have hlt : f.values.size < f₁.values.size := by omega
        rw [hbecomes.values_size, hbecomes.kinds, hcreated.kinds _ hlt, if_pos rfl]
        exact ⟨hlt, rfl⟩
    · rw [hold hj] at hr
      obtain ⟨hlt, hkind⟩ := ht.owned j r hr
      exact ⟨(hkinds r hlt).1, (hkinds r hlt).2.trans hkind⟩
  · rw [Function.result?] at hr
    rw [hlive, Function.blockOf?]
    by_cases hj : j = f.insts.size
    · subst hj
      rw [hnew] at hr ⊢
      cases hasResult with
      | false => cases hr
      | true =>
        cases hr
        rw [Function.value_of_size_le (Nat.le_refl _)]
        exact ⟨fun _ => nofun, fun _ => rfl⟩
    · rw [hold hj] at hr ⊢
      exact ht.marked j r hr
  · obtain ⟨j, hj⟩ := ht.buried v (hlive v ▸ hv)
    have hne : j ≠ f.insts.size := by
      rintro rfl
      rw [Function.result?, inst_of_size_le (Nat.le_refl _)] at hj
      cases hj
    exact ⟨j, by rw [Function.result?, hold hne]; exact hj⟩
  · rw [Function.blockOf?] at hj
    by_cases hji : j = f.insts.size
    · rw [hji, hnew] at hj
      cases hj
    · rw [hold hji] at hj
      rw [Function.operands, hold hji]
      exact ht.detached j hj
  · rw [Function.blockOf?] at hj
    rw [Function.kind] at hkind
    rw [Function.result?]
    by_cases hji : j = f.insts.size
    · rw [hji, hnew] at hkind ⊢
      rw [hvalued hkind]
      exact nofun
    · rw [hold hji] at hj hkind ⊢
      exact ht.valued j hj hkind

theorem liveOperands_put (hl : f.LiveOperands) (hoperands : ∀ v ∈ operands, (f.value v).live = true)
    (hcreate : (createInst kind operands hasResult).run f = (.ok i, f₁))
    (hplace : (place b pos i).run f₁ = (.ok (), f')) : f'.LiveOperands := by
  obtain ⟨rfl, hcreated⟩ := created_createInst hcreate
  obtain ⟨-, -, -, -, hbecomes, -⟩ := place_spec hplace
  have hlive : ∀ v, (f'.value v).live = (f.value v).live := fun v =>
    ((keepsMarks_place b pos _).live_eq hplace v).trans ((keepsMarks_createInst kind operands hasResult).live_eq hcreate v)
  intro j v hv
  rw [hlive]
  rw [Function.operands, hbecomes.inst] at hv
  by_cases hj : j = f.insts.size
  · rw [hj, Function.update_self, hcreated.inst, Function.update_self] at hv
    exact hoperands v hv
  · rw [Function.update_of_ne hj, hcreated.inst, Function.update_of_ne hj] at hv
    exact hl j v hv

/-- Exchanging a terminator for a jump is removing one instruction and putting another one. -/
theorem preserves_replaceTerminator (hremove : ∀ i, Preserves P (removeInst i))
    (hput : ∀ {f f₁ f' : Function} {b : BlockId} {pos : Nat} {i : InstId} (t : BlockId), P f →
      (createInst (.jump t) [] false).run f = (.ok i, f₁) → (place b pos i).run f₁ = (.ok (), f') → P f')
    (b t : BlockId) : Preserves P (replaceTerminator b (.jump t) []) := by
  refine .bind (preserves_ask _) fun old => .bind (hremove old) fun _ f f' n hf h => ?_
  obtain ⟨i, f₁, hcreate, h₁⟩ := bind_eq_ok h
  obtain ⟨⟨⟩, f₂, hpush, hpure⟩ := bind_eq_ok h₁
  cases hpure
  exact hput t hf hcreate (place_of_pushBack hpush).2.2

/-! ## The edits of the passes -/

/-- Folding a branch is exchanging its terminator and removing a predecessor. -/
theorem preserves_foldBranch (hterm : ∀ b t, Preserves P (replaceTerminator b (.jump t) []))
    (hpred : ∀ b idx, Preserves P (removePredAt b idx)) (b : BlockId) : Preserves P (foldBranch b) := by
  refine .bind (preserves_ask _) fun term => .bind .get fun f => ?_
  split
  · refine .bind (preserves_ask _) fun cond => .bind .get fun g => ?_
    split
    · exact .pure _
    · refine .bind (hterm b _) fun _ => .bind .get fun g' => ?_
      split
      · exact .throw _
      · exact .bind (hpred _ _) fun _ => .pure _
  · exact .pure _

/-- Moving an edge over to phis that stand in a block. -/
theorem tended_moveEdge (b target p : BlockId) :
    Preserves (fun f => f.Tended ∧ ∀ e ∈ carried, f.blockOf? e.1 ≠ none) (moveEdge b target carried p) := by
  have hblocks : ∀ {f f' : Function} {inst block layout}, f.Becomes f' inst block layout →
      (∀ i, (inst i).block = f.blockOf? i) → (∀ e ∈ carried, f.blockOf? e.1 ≠ none) →
      ∀ e ∈ carried, f'.blockOf? e.1 ≠ none := by
    intro f f' inst block layout hb hsame hcarried e he
    rw [Function.blockOf?, hb.inst, hsame]
    exact hcarried e he
  refine .bind (preserves_ask _) fun term => .bind (fun f f' found hf h => ?_) fun found => ?_
  · refine ⟨tended_redirectTarget _ _ _ hf.1 h, ?_⟩
    rcases redirectTarget_spec h with ⟨-, rfl⟩ | ⟨kind, -, -, -, -, hbecomes, -⟩
    · exact hf.2
    · refine hblocks hbecomes (fun i => ?_) hf.2
      exact Function.proj_update (by rfl) _
  split
  · refine .bind (fun f f' _ hf h => ?_) fun _ => .forM fun e he f f' _ hf h => ?_
    · exact ⟨tended_modifyBlock _ _ hf.1 h, hblocks (addPred_spec h).2.2.1 (fun _ => rfl) hf.2⟩
    · refine ⟨tended_pushOperand hf.1 (hf.2 e he) h, ?_⟩
      obtain ⟨-, -, -, hbecomes, -⟩ := pushOperand_spec h
      refine hblocks hbecomes (fun i => ?_) hf.2
      by_cases hi : i = e.1
      · rw [hi, Function.update_self]
        rfl
      · rw [Function.update_of_ne hi]
        rfl
  · exact .bind .get fun _ => .throw _

/-- Moving an edge over to phis, which read live values for it. -/
theorem liveOperands_moveEdge (b target p : BlockId) :
    Preserves (fun f => f.LiveOperands ∧ ∀ e ∈ carried, (f.value e.2).live = true) (moveEdge b target carried p) := by
  refine .bind (preserves_ask _) fun term => .bind (fun f f' found hf h => ?_) fun found => ?_
  · refine ⟨liveOperands_redirectTarget _ _ _ hf.1 h, fun e he => ?_⟩
    rw [(keepsMarks_redirectTarget _ _ _).live_eq h]
    exact hf.2 e he
  split
  · refine .bind (fun f f' _ hf h => ⟨liveOperands_modifyBlock _ _ hf.1 h, fun e he => ?_⟩) fun _ =>
      .forM fun e he f f' _ hf h => ⟨liveOperands_pushOperand hf.1 (hf.2 e he) h, fun e' he' => ?_⟩
    · rw [(keepsMarks_addPred _ _).live_eq h]
      exact hf.2 e he
    · rw [(keepsMarks_pushOperand _ _).live_eq h]
      exact hf.2 e' he'
  · exact .bind .get fun _ => .throw _

theorem tended_removeBlocks (doomed : List BlockId) : Preserves Function.Tended (removeBlocks doomed) :=
  preserves_removeBlocks tended_detachOperands tended_removeInst (fun b change _ => tended_modifyBlock b change)
    (fun _ _ h => ⟨h.indexed, h.owned, h.marked, h.buried, h.detached, h.valued⟩) doomed

theorem tended_removePredAt (b : BlockId) (idx : Nat) : Preserves Function.Tended (removePredAt b idx) :=
  preserves_removePredAt tended_removeOperand (fun b change _ => tended_modifyBlock b change) b idx

/-- Removing an instruction keeps a function that reads live values only. -/
theorem attended_removeInst (i : InstId) :
    Preserves (fun f => f.Tended ∧ f.LiveOperands) (removeInst i) := fun _ _ _ h hrun =>
  ⟨tended_removeInst i h.1 hrun, liveOperands_removeInst h.1.indexed h.2 hrun⟩

theorem liveOperands_removeBlocks (ht : f.Tended) (hl : f.LiveOperands)
    (h : (removeBlocks doomed).run f = (.ok (), f')) : f'.LiveOperands := by
  refine (preserves_removeBlocks (P := fun f => f.Tended ∧ f.LiveOperands)
    (fun i => (tended_detachOperands i).and (liveOperands_detachOperands i)) attended_removeInst
    (fun b change _ => (tended_modifyBlock b change).and (liveOperands_modifyBlock b change)) (fun f layout hf => ?_)
    doomed ⟨ht, hl⟩ h).2
  have hf₁ := hf.1
  exact ⟨⟨hf₁.indexed, hf₁.owned, hf₁.marked, hf₁.buried, hf₁.detached, hf₁.valued⟩, hf.2⟩

/-- Removing a predecessor leaves live what is read. -/
theorem liveOperands_removePredAt (b : BlockId) (idx : Nat) : Preserves Function.LiveOperands (removePredAt b idx) :=
  preserves_removePredAt liveOperands_removeOperand (fun b change _ => liveOperands_modifyBlock b change) b idx

/-- Splicing out a block keeps the bookkeeping of a sound function, and it leaves live what is read. -/
theorem tended_elideBlock (hs : f.Sound) (ht : f.Tended) (h : (elideBlock entry b).run f = (.ok count, f')) :
    f'.Tended ∧ (f.LiveOperands → f'.LiveOperands) := by
  rcases elideBlock_eq_ok h with ⟨rfl, -⟩ | ⟨j, target, idx, carried, f₁, f₂, -, -, -, -, -, -, -, -, hfst, hslot, hremove,
    hmove, hblocks⟩
  · exact ⟨ht, id⟩
  obtain ⟨-, -, -, hbecomes, -⟩ := removePredAt_spec hs hremove
  have hplaced : ∀ e ∈ carried, f₁.blockOf? e.1 ≠ none := by
    intro e he
    have hin : e.1 ∈ f.phis target := hfst ▸ List.mem_map_of_mem he
    rw [Function.blockOf?, hbecomes.inst, withoutSlot, if_pos hin]
    change f.blockOf? e.1 ≠ none
    rw [(hs.placed target e.1).1 ((List.takeWhile_sublist _).subset hin)]
    exact Option.some_ne_none target
  have hmoved := Preserves.forM (fun p _ => tended_moveEdge b target p)
    ⟨tended_removePredAt target idx ht hremove, hplaced⟩ hmove
  refine ⟨tended_removeBlocks [b] hmoved.1 hblocks, fun hl => ?_⟩
  have hlive : ∀ e ∈ carried, (f₁.value e.2).live = true := by
    intro e he
    rw [(keepsMarks_removePredAt target idx).live_eq hremove]
    exact hl e.1 e.2 (List.mem_of_getElem? (hslot e he))
  have hmoved' := Preserves.forM (fun p _ => liveOperands_moveEdge b target p)
    ⟨liveOperands_removePredAt target idx hl hremove, hlive⟩ hmove
  exact liveOperands_removeBlocks hmoved.1 hmoved'.1 hblocks

/-- Replacing a phi by its operand leaves live what is read. -/
theorem liveOperands_removeSinglePhi (ht : f.Tended) (hl : f.LiveOperands)
    (h : (removeSinglePhi b phi).run f = (.ok (), f')) : f'.LiveOperands := by
  unfold removeSinglePhi at h
  have h₀ := of_get_bind h
  dsimp only at h₀
  split at h₀
  · rename_i incoming hincoming
    split at h₀
    · cases h₀
    · have hstep : ∀ {r : ValueId}, (do
          let _ ← replaceAllUses r incoming
          removeInst phi : Edit Unit).run f = (.ok (), f') → f'.LiveOperands := by
        intro r hrun
        obtain ⟨count, f₁, hreplace, hremove⟩ := bind_eq_ok hrun
        have hmem : incoming ∈ f.operands phi := by
          rw [hincoming]
          exact List.mem_singleton_self _
        have hl₁ := liveOperands_replaceAllUses ht hl (hl phi incoming hmem) hreplace
        exact liveOperands_removeInst (tended_replaceAllUses _ _ ht hreplace).indexed hl₁ hremove
      split at h₀
      · obtain ⟨⟨⟩, f₁, hthrow, -⟩ := bind_eq_ok h₀
        cases hthrow
      · exact hstep h₀
  · cases h₀

/-- No instruction stands in a removed block after a change that leaves the blocks as they were. -/
theorem emptied_of_block (he : f.Emptied) (h : ∀ b, f'.block b = f.block b) : f'.Emptied := by
  intro b hb
  rw [Function.instsOf, h]
  exact he b (h b ▸ hb)

/-- Removing an instruction puts none into a removed block. -/
theorem emptied_removeInst (he : f.Emptied) (h : (removeInst i).run f = (.ok (), f')) : f'.Emptied := by
  obtain ⟨-, -, -, hbecomes, -⟩ := removeInst_spec h
  intro b hb
  rw [Function.instsOf, hbecomes.block]
  rw [hbecomes.block] at hb
  unfold blocksWithout at hb ⊢
  split
  · rename_i hi
    rw [if_pos hi] at hb
    change (f.instsOf b).filter _ = []
    rw [he b hb]
    rfl
  · rename_i hi
    rw [if_neg hi] at hb
    exact he b hb

section

variable (hs : f.Sound) (he : f.Emptied)

include hs he

/-- Removing a predecessor puts no instruction into a removed block. -/
theorem emptied_removePredAt {idx : Nat} (h : (removePredAt b idx).run f = (.ok (), f')) : f'.Emptied := by
  obtain ⟨-, -, -, hbecomes, -⟩ := removePredAt_spec hs h
  intro c hc
  rw [Function.instsOf, hbecomes.block]
  rw [hbecomes.block] at hc
  by_cases hcb : c = b
  · subst hcb
    rw [Function.update_self] at hc ⊢
    exact he c hc
  · rw [Function.update_of_ne hcb] at hc ⊢
    exact he c hc

/-- Removing blocks leaves no instruction in them. -/
theorem emptied_removeBlocks (h : (removeBlocks doomed).run f = (.ok (), f')) : f'.Emptied := by
  obtain ⟨hbecomes, -⟩ := removeBlocks_spec hs h
  intro b hb
  rw [Function.instsOf, hbecomes.block]
  rw [hbecomes.block] at hb
  split
  · rfl
  · rename_i hmem
    rw [if_neg hmem] at hb
    exact he b hb

/-- Folding a branch puts its jump into a block that has a terminator. -/
theorem emptied_foldBranch (h : (foldBranch b).run f = (.ok count, f')) : f'.Emptied := by
  rcases foldBranch_spec hs h with ⟨rfl, -⟩ | ⟨-, -, old, n, taken, dropped, idx, hfolded⟩
  · exact he
  intro c hc
  rw [hfolded.removed] at hc
  rw [hfolded.instsOf_eq hs, he c hc]
  rfl

/-- Splicing out a block leaves no instruction in it. -/
theorem emptied_elideBlock (h : (elideBlock entry b).run f = (.ok count, f')) : f'.Emptied := by
  rcases moving_of_elideBlock hs h with rfl | ⟨target, idx, carried, f₁, f₂, hremove, hmoved, hblocks⟩
  · exact he
  refine emptied_removeBlocks hmoved.sound (fun c hc => ?_) hblocks
  have he₁ := emptied_removePredAt hs he hremove c
  rw [hmoved.instsOf_eq]
  rw [hmoved.becomes.block] at hc
  by_cases hct : c = target
  · subst hct
    rw [Function.update_self] at hc
    exact he₁ hc
  · rw [Function.update_of_ne hct] at hc
    exact he₁ hc

/-- Replacing uses leaves the blocks as they were. -/
theorem emptied_replaceAllUses (h : (replaceAllUses old new).run f = (.ok count, f')) :
    f'.Emptied := by
  by_cases hne : old = new
  · unfold replaceAllUses at h
    rw [if_pos hne] at h
    cases h
    exact he
  · obtain ⟨-, -, hbecomes, -⟩ := replaceAllUses_spec hne hs.indexed h
    exact emptied_of_block he hbecomes.block

end

/-- A phi is put into a block that holds instructions. -/
theorem emptied_newPhi (he : f.Emptied) (hb : f.instsOf b ≠ []) (h : (newPhi b operands).run f = (.ok phi, f')) :
    f'.Emptied := by
  obtain ⟨i, f₁, hcreate, h₁⟩ := bind_eq_ok h
  obtain ⟨⟨⟩, f₂, hinsert, hpure⟩ := bind_eq_ok h₁
  cases hpure
  obtain ⟨-, -, -, -, hbecomes, -⟩ := place_spec (place_of_insertPhi hinsert).2
  have hsame : ∀ c, f₁.block c = f.block c := (created_createInst hcreate).2.block
  intro c hc
  rw [Function.instsOf, hbecomes.block]
  rw [hbecomes.block] at hc
  by_cases hcb : c = b
  · subst hcb
    rw [Function.update_self, hsame] at hc
    exact absurd (he c hc) hb
  · rw [Function.update_of_ne hcb, hsame] at hc ⊢
    exact he c hc

/-- The edits of all passes keep functions tidy. -/
theorem stable_tidy : Stable Function.Tidy := by
  have hremove : ∀ i, Preserves Function.Tidy (removeInst i) := fun i _ _ _ h hrun =>
    ⟨sound_removeInst h.sound hrun, tended_removeInst i h.tended hrun, emptied_removeInst h.emptied hrun⟩
  have hreplace : ∀ old new, Preserves Function.Tidy (replaceAllUses old new) := fun old new _ _ _ h hrun =>
    ⟨sound_replaceAllUses h.sound hrun, tended_replaceAllUses old new h.tended hrun,
      emptied_replaceAllUses h.sound h.emptied hrun⟩
  refine ⟨⟨fun b f f' _ h hrun => ?_, fun entry b f f' _ h hrun => ?_, fun b idx f f' _ h hrun => ?_,
    fun doomed f f' _ h hrun => ?_, preserves_removeSinglePhi hreplace hremove⟩, hremove, hreplace,
    fun i slot v f f' _ h hrun => ?_, fun c f f' _ h hrun => ?_, fun b operands f f' phi h hb hrun => ?_⟩
  · refine ⟨sound_foldBranch b h.sound hrun, ?_, emptied_foldBranch h.sound h.emptied hrun⟩
    exact preserves_foldBranch (preserves_replaceTerminator tended_removeInst fun _ ht hcreate hplace =>
      tended_put ht (fun h => Bool.noConfusion h) hcreate hplace) tended_removePredAt b h.tended hrun
  · exact ⟨sound_elideBlock entry b h.sound hrun, (tended_elideBlock h.sound h.tended hrun).1,
      emptied_elideBlock h.sound h.emptied hrun⟩
  · exact ⟨sound_removePredAt h.sound hrun, tended_removePredAt b idx h.tended hrun,
      emptied_removePredAt h.sound h.emptied hrun⟩
  · exact ⟨sound_removeBlocks h.sound hrun, tended_removeBlocks doomed h.tended hrun,
      emptied_removeBlocks h.sound h.emptied hrun⟩
  · obtain ⟨-, -, -, hbecomes, -⟩ := setOperand_spec hrun
    exact ⟨sound_setOperand h.sound hrun, tended_setOperand i slot v h.tended hrun,
      emptied_of_block h.emptied hbecomes.block⟩
  · have hmore := (internValue_spec rfl hrun).1
    exact ⟨hmore.sound h.sound, h.tended.moreValues hmore, emptied_of_block h.emptied hmore.block⟩
  · refine ⟨stable_sound.newPhi b operands h.sound hb hrun, ?_, emptied_newPhi h.emptied hb hrun⟩
    obtain ⟨i, f₁, hcreate, h₁⟩ := bind_eq_ok hrun
    obtain ⟨⟨⟩, f₂, hinsert, hpure⟩ := bind_eq_ok h₁
    cases hpure
    exact tended_put h.tended (fun _ => rfl) hcreate (place_of_insertPhi hinsert).2

/-- The edits of simplification keep functions neat. -/
theorem simplified_neat : Simplified Function.Neat where
  foldBranch b f f' _ h hrun := by
    refine ⟨stable_tidy.foldBranch b h.toTidy hrun, ?_⟩
    refine (preserves_foldBranch (P := fun f => f.Tended ∧ f.LiveOperands) (preserves_replaceTerminator attended_removeInst
      fun t hf hcreate hplace => ⟨tended_put hf.1 (fun h => Bool.noConfusion h) hcreate hplace, ?_⟩)
      (fun c idx => (tended_removePredAt c idx).and (liveOperands_removePredAt c idx)) b ⟨h.tended, h.live⟩ hrun).2
    exact liveOperands_put hf.2 (fun v hv => absurd hv List.not_mem_nil) hcreate hplace
  elideBlock entry b f f' _ h hrun :=
    ⟨stable_tidy.elideBlock entry b h.toTidy hrun, (tended_elideBlock h.sound h.tended hrun).2 h.live⟩
  removePredAt b idx f f' _ h hrun :=
    ⟨stable_tidy.removePredAt b idx h.toTidy hrun, liveOperands_removePredAt b idx h.live hrun⟩
  removeBlocks doomed f f' _ h hrun :=
    ⟨stable_tidy.removeBlocks doomed h.toTidy hrun, liveOperands_removeBlocks h.tended h.live hrun⟩
  removeSinglePhi b phi f f' _ h hrun :=
    ⟨stable_tidy.removeSinglePhi b phi h.toTidy hrun, liveOperands_removeSinglePhi h.tended h.live hrun⟩

end Edit

end SsaCompiler
