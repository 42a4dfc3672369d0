import SsaCompiler.Proofs.Ir.FoldedBranches
import SsaCompiler.Proofs.Ir.ForwardedPhis
import SsaCompiler.Proofs.Ir.PrunedBlocks
import SsaCompiler.Proofs.Ir.SplicedBlocks

/-!
# Runs of simplified functions

Each of the four steps of simplification keeps a function well formed and what its runs show. So do
the loops over the blocks, one repetition of the steps, and all repetitions.
-/

set_option autoImplicit false

namespace SsaCompiler

namespace Function

variable {f g h : Function}

theorem SameMeaning.refl (f : Function) : f.SameMeaning f := fun _ _ _ _ => .refl _ _

theorem SameMeaning.trans (hfg : f.SameMeaning g) (hgh : g.SameMeaning h) : f.SameMeaning h :=
  fun W env m w => (hfg W env m w).trans (hgh W env m w)

end Function

namespace Edit

open Edits

variable {f f' : Function}

/-- What was counted before is added to what is counted over the blocks. -/
theorem countOver_add (action : BlockId → Edit Nat) (blocks : List BlockId) (sofar : Nat) :
    (blocks.foldlM (fun count b => do return count + (← action b)) sofar : Edit Nat) =
      (do return sofar + (← countOver blocks action)) := by
  unfold countOver
  induction blocks generalizing sofar with
  | nil => simp
  | cons b rest ih =>
    simp only [List.foldlM_cons, bind_assoc, pure_bind, Nat.zero_add]
    refine bind_congr fun n => ?_
    rw [ih, ih n]
    simp [Nat.add_assoc]

/-- Counting over blocks is counting for the first one and then over the others. -/
theorem countOver_cons (action : BlockId → Edit Nat) (b : BlockId) (rest : List BlockId) :
    countOver (b :: rest) action = (do
      let n ← action b
      return n + (← countOver rest action)) := by
  unfold countOver
  simp only [List.foldlM_cons, bind_assoc, pure_bind, Nat.zero_add]
  exact bind_congr fun n => countOver_add action rest n

variable {count : Nat}

variable {action : BlockId → Edit Nat} {blocks : List BlockId}

/-- What an action keeps for each block, with what it counts, is kept by the loop over the blocks. -/
theorem countOver_counts {P : Nat → Function → Prop}
    (hstep : ∀ b ∈ blocks, ∀ m g g' n, P m g → (action b).run g = (.ok n, g') → P (m + n) g') {m : Nat} (hf : P m f)
    (h : (countOver blocks action).run f = (.ok count, f')) : P (m + count) f' := by
  induction blocks generalizing f m count with
  | nil =>
    cases h
    exact hf
  | cons b rest ih =>
    rw [countOver_cons] at h
    obtain ⟨n, g, hfirst, h⟩ := bind_eq_ok h
    obtain ⟨k, g', hrest, hpure⟩ := bind_eq_ok h
    cases hpure
    rw [← Nat.add_assoc]
    exact ih (fun c hc => hstep c (List.mem_cons_of_mem _ hc)) (hstep b List.mem_cons_self m f g n hf hfirst) hrest

/-- What an action keeps for each block is kept by the loop over the blocks. -/
theorem countOver_keeps {P : Function → Prop}
    (hstep : ∀ b ∈ blocks, ∀ g g' n, P g → (action b).run g = (.ok n, g') → P g') (hf : P f)
    (h : (countOver blocks action).run f = (.ok count, f')) : P f' :=
  countOver_counts (P := fun _ => P) (fun b hb _ => hstep b hb) (m := 0) hf h

/-- The entry that was asked for is the first block. -/
theorem head?_of_entry {e : BlockId} (h : f.entry = .ok e) : f.layout.head? = some e := by
  unfold Function.entry Outcome.ofOption at h
  split at h
  · rename_i e' he
    cases h
    exact he
  · cases h

/-- A well-formed function with the meaning of another one. -/
def Keeps (f g : Function) : Prop := g.WellFormed ∧ f.SameMeaning g

/-- Folding branches. -/
theorem foldBranches_keeps (hwf : f.WellFormed) (h : foldBranches.run f = (.ok count, f')) : Keeps f f' := by
  unfold foldBranches at h
  have h₁ := of_get_bind h
  have hend := countOver_keeps (P := fun g => Keeps f g ∧ g.layout = f.layout)
    (fun b hb g g' n hg hrun => by
      obtain ⟨⟨hgwf, hmeaning⟩, hlayout⟩ := hg
      obtain ⟨hwf', hmeaning', hlayout'⟩ := foldBranch_keeps hgwf (hlayout ▸ hb) hrun
      exact ⟨⟨hwf', hmeaning.trans hmeaning'⟩, hlayout'.trans hlayout⟩)
    ⟨⟨hwf, .refl f⟩, rfl⟩ h₁
  exact hend.1

/-- Splicing out empty blocks. -/
theorem elideEmptyBlocks_keeps (hwf : f.WellFormed) (h : elideEmptyBlocks.run f = (.ok count, f')) : Keeps f f' := by
  unfold elideEmptyBlocks at h
  obtain ⟨e, hentry, h₁⟩ := ask_bind_eq_ok h
  have h₂ := of_get_bind h₁
  have hhead := head?_of_entry hentry
  have hend := countOver_keeps
    (P := fun g => Keeps f g ∧ g.layout.head? = some e ∧ g.blocks.size = f.blocks.size)
    (fun b hb g g' n hg hrun => by
      obtain ⟨⟨hgwf, hmeaning⟩, hghead, hsize⟩ := hg
      obtain ⟨hwf', hmeaning', hhead', hsize'⟩ :=
        elideBlock_keeps hgwf hghead (hsize ▸ ((hwf.sound.mem_layout b).1 hb).1) hrun
      exact ⟨⟨hwf', hmeaning.trans hmeaning'⟩, hhead', hsize'.trans hsize⟩)
    ⟨⟨hwf, .refl f⟩, hhead, rfl⟩ h₂
  exact hend.1

/-- Exchanging phis with one slot. -/
theorem removeSinglePredPhis_keeps (hwf : f.WellFormed) (h : removeSinglePredPhis.run f = (.ok count, f')) :
    Keeps f f' := by
  unfold removeSinglePredPhis at h
  have h₁ := of_get_bind h
  have hend := countOver_keeps (P := fun g => Keeps f g ∧ g.layout = f.layout)
    (fun b hb g g' n hg hrun => by
      obtain ⟨⟨hgwf, hmeaning⟩, hlayout⟩ := hg
      have hrun₁ := of_get_bind hrun
      split at hrun₁
      · cases hrun₁
        exact ⟨⟨hgwf, hmeaning⟩, hlayout⟩
      · rename_i hone
        obtain ⟨p, hp⟩ := List.length_eq_one_iff.1 (not_not.1 hone)
        obtain ⟨⟨⟩, g₂, hall, hpure⟩ := bind_eq_ok hrun₁
        cases hpure
        obtain ⟨hwf', hmeaning', hlayout'⟩ := forM_removeSinglePhi_keeps hgwf (hlayout ▸ hb) hp hall
        exact ⟨⟨hwf', hmeaning.trans hmeaning'⟩, hlayout'.trans hlayout⟩)
    ⟨⟨hwf, .refl f⟩, rfl⟩ h₁
  exact hend.1

/-- One repetition of the steps. -/
theorem simplifyCycle_keeps (hwf : f.WellFormed) (h : simplifyCycle.run f = (.ok count, f')) : Keeps f f' := by
  unfold simplifyCycle at h
  obtain ⟨folded, f₁, hfold, h₁⟩ := bind_eq_ok h
  obtain ⟨elided, f₂, helide, h₂⟩ := bind_eq_ok h₁
  obtain ⟨pruned, f₃, hprune, h₃⟩ := bind_eq_ok h₂
  obtain ⟨removed, f₄, hremove, h₄⟩ := bind_eq_ok h₃
  cases h₄
  obtain ⟨hwf₁, hm₁⟩ := foldBranches_keeps hwf hfold
  obtain ⟨hwf₂, hm₂⟩ := elideEmptyBlocks_keeps hwf₁ helide
  obtain ⟨hwf₃, hm₃⟩ := pruneUnreachable_keeps hwf₂ hprune
  obtain ⟨hwf₄, hm₄⟩ := removeSinglePredPhis_keeps hwf₃ hremove
  exact ⟨hwf₄, ((hm₁.trans hm₂).trans hm₃).trans hm₄⟩

/-- Any number of repetitions. -/
theorem simplifyWithin_keeps {limit : Nat} : ∀ {f f' : Function} {count : Nat}, f.WellFormed →
    (simplifyWithin limit).run f = (.ok count, f') → Keeps f f' := by
  induction limit with
  | zero =>
    intro f f' count hwf h
    cases h
    exact ⟨hwf, .refl f⟩
  | succ limit ih =>
    intro f f' count hwf h
    unfold simplifyWithin at h
    obtain ⟨n, f₁, hcycle, h₁⟩ := bind_eq_ok h
    obtain ⟨hwf₁, hm₁⟩ := simplifyCycle_keeps hwf hcycle
    split at h₁
    · cases h₁
      exact ⟨hwf₁, hm₁⟩
    · obtain ⟨k, f₂, hmore, hpure⟩ := bind_eq_ok h₁
      cases hpure
      obtain ⟨hwf₂, hm₂⟩ := ih hwf₁ hmore
      exact ⟨hwf₂, hm₁.trans hm₂⟩

/-- Simplification keeps a function well formed and what its runs show. -/
theorem simplify_keeps (hwf : f.WellFormed) (h : simplify.run f = (.ok count, f')) : Keeps f f' := by
  unfold simplify at h
  have h₁ := of_get_bind h
  exact simplifyWithin_keeps hwf h₁

end Edit

end SsaCompiler
