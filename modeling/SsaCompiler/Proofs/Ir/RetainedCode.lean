import SsaCompiler.Proofs.Ir.SoundPasses

/-!
# What simplification keeps of the code

Simplification brings in no instruction but jumps. All other instructions that stand in blocks of the simplified
function stood in blocks before, with the same kinds and results.
-/

set_option autoImplicit false

namespace SsaCompiler

namespace InstKind

/-- Other arms make no terminator of what is none. -/
theorem isTerminator_retarget (σ : BlockId → BlockId) (kind : InstKind) :
    (kind.retarget σ).isTerminator = kind.isTerminator := by
  cases kind <;> rfl

/-- Kinds that differ in their arms alone are equal if they have none. -/
theorem eq_of_retarget {σ : BlockId → BlockId} {kind kind' : InstKind} (h : kind.retarget σ = kind'.retarget σ)
    (hterm : kind.isTerminator = false) : kind = kind' := by
  have hterm' : kind'.isTerminator = false := by rw [← isTerminator_retarget σ, ← h, isTerminator_retarget, hterm]
  rwa [retarget_of_not_isTerminator hterm, retarget_of_not_isTerminator hterm'] at h

end InstKind

namespace Function

/-- The instructions in blocks of the second function, terminators apart, stand in blocks of the first one, with the
same kinds and results. -/
def Retains (f f' : Function) : Prop :=
  ∀ i, f'.blockOf? i ≠ none → (f'.kind i).isTerminator = false →
    f.blockOf? i ≠ none ∧ f'.kind i = f.kind i ∧ f'.result? i = f.result? i

namespace Retains

variable {f f' f'' : Function}

theorem refl (f : Function) : f.Retains f := fun _ hplaced _ => ⟨hplaced, rfl, rfl⟩

theorem trans (h : f.Retains f') (h' : f'.Retains f'') : f.Retains f'' := by
  intro i hplaced hterm
  obtain ⟨hplaced', hkind, hresult⟩ := h' i hplaced hterm
  obtain ⟨hplaced'', hkind', hresult'⟩ := h i hplaced' (hkind ▸ hterm)
  exact ⟨hplaced'', hkind.trans hkind', hresult.trans hresult'⟩

/-- Records that are the same but for operands, or are out of their blocks. -/
theorem of_inst (h : ∀ i, f'.blockOf? i = none ∨ ∃ operands, f'.inst i = { f.inst i with operands }) :
    f.Retains f' := by
  intro i hplaced _
  obtain ⟨operands, hinst⟩ := (h i).resolve_left hplaced
  rw [blockOf?, hinst] at hplaced
  exact ⟨hplaced, by rw [kind, hinst]; rfl, by rw [result?, hinst]; rfl⟩

end Retains

end Function

namespace Edit

open Edits

variable {f f' : Function}

/-- Removing blocks. -/
theorem retains_removeBlocks {doomed : List BlockId} (hs : f.Sound) (h : (removeBlocks doomed).run f = (.ok (), f')) :
    f.Retains f' := by
  obtain ⟨hbecomes, -⟩ := removeBlocks_spec hs h
  refine .of_inst fun i => ?_
  have hinst := hbecomes.inst i
  split at hinst
  · exact .inl (by rw [Function.blockOf?, hinst]; rfl)
  · exact .inr ⟨f.operands i, hinst⟩

variable {b : BlockId} {count : Nat}

theorem retains_removePredAt {idx : Nat} (hs : f.Sound) (h : (removePredAt b idx).run f = (.ok (), f')) :
    f.Retains f' := by
  obtain ⟨-, -, -, hbecomes, -⟩ := removePredAt_spec hs h
  refine .of_inst fun i => .inr ?_
  have hinst := hbecomes.inst i
  unfold withoutSlot at hinst
  split at hinst
  · exact ⟨_, hinst⟩
  · exact ⟨f.operands i, hinst⟩

theorem retains_removeInst {i : InstId} (h : (removeInst i).run f = (.ok (), f')) : f.Retains f' := by
  obtain ⟨-, -, -, hbecomes, -⟩ := removeInst_spec h
  refine .of_inst fun j => ?_
  have hinst := hbecomes.inst j
  rw [Function.update_apply] at hinst
  split at hinst
  · exact .inl (by rw [Function.blockOf?, hinst]; rfl)
  · exact .inr ⟨f.operands j, hinst⟩

/-- Making slots that read one value read another one. -/
theorem retains_replaceAllUses {old new : ValueId} (hs : f.Sound)
    (h : (replaceAllUses old new).run f = (.ok count, f')) : f.Retains f' := by
  by_cases hne : old = new
  · unfold replaceAllUses at h
    rw [if_pos hne] at h
    cases h
    exact .refl f
  · obtain ⟨-, -, hbecomes, -⟩ := replaceAllUses_spec hne hs.indexed h
    exact .of_inst fun i => .inr ⟨_, hbecomes.inst i⟩

theorem retains_foldBranch (hs : f.Sound) (h : (foldBranch b).run f = (.ok count, f')) : f.Retains f' := by
  rcases foldBranch_spec hs h with ⟨rfl, -⟩ | ⟨-, hs', old, n, taken, dropped, idx, hfolded⟩
  · exact .refl f
  obtain ⟨before, hinsts, hinsts'⟩ := hfolded.insts
  -- The old terminator stands in no block: it was the last one of its block, and a new one took its place.
  have hout : f'.blockOf? old = none := by
    by_contra hplaced
    obtain ⟨c, hc⟩ := Option.ne_none_iff_exists'.1 hplaced
    have hin := (hs'.placed c old).2 hc
    have hb : old ∈ f.instsOf b := hfolded.mem_old
    by_cases hcb : c = b
    · subst hcb
      rw [hinsts', List.mem_append, List.mem_singleton] at hin
      rcases hin with hin | rfl
      · have hnodup := hs.nodup c
        rw [hinsts, List.nodup_append] at hnodup
        exact hnodup.2.2 old hin old List.mem_cons_self rfl
      · exact hfolded.fresh c hb
    · rw [hfolded.insts_of_ne c hcb] at hin
      have hsame := (hs.placed c old).1 hin
      rw [(hs.placed b old).1 hb] at hsame
      exact hcb (Option.some.inj hsame).symm
  intro i hplaced hterm
  have hold : i ≠ old := fun hi => hplaced (hi ▸ hout)
  have hnew : i ≠ n := by
    rintro rfl
    rw [Function.kind, hfolded.jump] at hterm
    cases hterm
  have hinst := hfolded.inst i hold hnew
  rw [Function.blockOf?, hinst] at hplaced
  rw [Function.kind, Function.result?, hinst]
  split at hplaced
  · rename_i hphi
    rw [if_pos hphi]
    exact ⟨hplaced, rfl, rfl⟩
  · rename_i hphi
    rw [if_neg hphi]
    exact ⟨hplaced, rfl, rfl⟩

theorem Moving.retains {target : BlockId} {carried : List (InstId × ValueId)} {done : List BlockId}
    (h : Moving f f' b target carried done) (hs : f.Sound) : f.Retains f' := by
  have hinsts : ∀ c, f'.instsOf c = f.instsOf c := by
    intro c
    rw [Function.instsOf, h.becomes.block]
    exact Function.proj_update (by rfl) _
  intro i hplaced hterm
  obtain ⟨c, hc⟩ := Option.ne_none_iff_exists'.1 hplaced
  have hin := (h.sound.placed c i).2 hc
  rw [hinsts] at hin
  refine ⟨?_, InstKind.eq_of_retarget (h.kind i) hterm, h.result i⟩
  rw [(hs.placed c i).1 hin]
  exact Option.some_ne_none c

theorem retains_elideBlock {entry : BlockId} (hs : f.Sound) (h : (elideBlock entry b).run f = (.ok count, f')) :
    f.Retains f' := by
  rcases moving_of_elideBlock hs h with rfl | ⟨target, idx, carried, f₁, f₂, hremove, hmoved, hblocks⟩
  · exact .refl f
  · exact ((retains_removePredAt hs hremove).trans (hmoved.retains (sound_removePredAt hs hremove))).trans
      (retains_removeBlocks hmoved.sound hblocks)

/-- An edit of sound functions that keeps the code, starting anywhere. -/
theorem preserves_retains {α : Type} {edit : Edit α} (f₀ : Function) (hsound : Preserves Function.Sound edit)
    (hretains : ∀ {f f' : Function} {a : α}, f.Sound → edit.run f = (.ok a, f') → f.Retains f') :
    Preserves (fun f => f.Sound ∧ f₀.Retains f) edit :=
  fun _ _ _ hf h => ⟨hsound hf.1 h, hf.2.trans (hretains hf.1 h)⟩

/-- The edits of simplification keep the code. -/
theorem simplified_retains (f₀ : Function) : Simplified fun f => f.Sound ∧ f₀.Retains f where
  foldBranch b := preserves_retains f₀ (stable_sound.foldBranch b) retains_foldBranch
  elideBlock entry b := preserves_retains f₀ (stable_sound.elideBlock entry b) retains_elideBlock
  removePredAt b idx := preserves_retains f₀ (stable_sound.removePredAt b idx) retains_removePredAt
  removeBlocks doomed := preserves_retains f₀ (stable_sound.removeBlocks doomed) retains_removeBlocks
  removeSinglePhi := preserves_removeSinglePhi
    (fun old new => preserves_retains f₀ (stable_sound.replaceAllUses old new) retains_replaceAllUses)
    fun i => preserves_retains f₀ (stable_sound.removeInst i) fun _ h => retains_removeInst h

/-- Simplification brings in no instruction but jumps. -/
theorem retains_simplify (hs : f.Sound) (h : simplify.run f = (.ok count, f')) : f.Retains f' :=
  ((simplified_retains f).simplify ⟨hs, .refl f⟩ h).2

end Edit

end SsaCompiler
