import SsaCompiler.Proofs.Ir.SimplifiedRuns
import Mathlib.Data.List.Flatten

/-!
# Steps that make a function smaller

`simplifiable` counts the blocks, branches and phis of a function. A branch that is folded is no branch any more, a
block that is spliced out or pruned is not listed any more, and a phi that is exchanged for its operand is placed
nowhere any more; none of the steps brings in what it does not find. So each step lowers the number by at least what it
counts, and a step that counts nothing changes nothing. `Shrinks` says this, together with the strict form that the next
step asks for, and it composes.
-/

set_option autoImplicit false

namespace SsaCompiler

open Edit

/-! ## Counted instructions -/

variable {phi : InstId} {q : InstId → Bool} {ρ : InstId → InstId} {l : List InstId}

/-- As many entries satisfy the second test as the first one when it is the weaker one on them. -/
theorem countP_map_le {p : InstId → Bool} (h : ∀ i ∈ l, q (ρ i) = true → p i = true) :
    (l.map ρ).countP q ≤ l.countP p := by
  rw [List.countP_map]
  exact List.countP_mono_left h

/-- One entry that satisfies the first test only makes a difference. -/
theorem countP_map_lt {p : InstId → Bool} (h : ∀ i ∈ l, q (ρ i) = true → p i = true) {j : InstId} (hj : j ∈ l)
    (hp : p j = true) (hq : q (ρ j) = false) : (l.map ρ).countP q + 1 ≤ l.countP p := by
  obtain ⟨before, after, rfl⟩ := List.append_of_mem hj
  have hbefore := countP_map_le (ρ := ρ) fun i hi => h i (List.mem_append_left _ hi)
  have hafter := countP_map_le (ρ := ρ) fun i hi => h i (List.mem_append_right _ (List.mem_cons_of_mem _ hi))
  rw [List.map_append, List.map_cons, List.countP_append, List.countP_append, List.countP_cons_of_pos hp,
    List.countP_cons_of_neg (by simp [hq])]
  omega

namespace Function

variable {f f' : Function}

/-- Whether an instruction is one that simplification aims at. -/
def counted (f : Function) (i : InstId) : Bool := (f.kind i).isBranch || (f.kind i).isPhi

variable {b target : BlockId} {i : InstId} {idx : Nat}

/-- A jump is not counted. -/
theorem counted_of_jump (h : f.kind i = .jump target) : f.counted i = false := by
  unfold counted
  rw [h]
  rfl

/-- Other arms make no difference. -/
theorem counted_of_retarget {σ : BlockId → BlockId} (h : f'.kind i = (f.kind i).retarget σ) :
    f'.counted i = f.counted i := by
  unfold counted
  rw [h]
  cases f.kind i <;> rfl

/-- The blocks and the instructions that are counted. -/
theorem simplifiable_eq (f : Function) : simplifiable f = f.layout.length + f.placedInsts.countP f.counted := rfl

theorem Folded.simplifiable_lt {taken dropped : BlockId} {old n : InstId} (h : f.Folded f' b old n taken dropped idx)
    (hs : f.Sound) (hb : b ∈ f.layout) : simplifiable f' + 1 ≤ simplifiable f := by
  have hplaced : f'.placedInsts = f.placedInsts.map (Folded.place old n) := by
    unfold placedInsts
    rw [List.map_flatMap, h.layout]
    exact List.flatMap_congr fun c _ => h.instsOf_eq hs c
  have hnew : f'.counted n = false := counted_of_jump h.kind_new.1
  have hold : f.counted old = true := by
    unfold counted
    rcases h.arms with hk | hk <;> rw [hk] <;> rfl
  have hlt := countP_map_lt (l := f.placedInsts) (ρ := Folded.place old n) (p := f.counted) (q := f'.counted)
    (fun i hi hcounted => ?_) (List.mem_flatMap.2 ⟨b, hb, h.mem_old⟩) hold (by rw [Folded.place, if_pos rfl, hnew])
  · rw [simplifiable_eq, simplifiable_eq, hplaced, h.layout]
    omega
  · obtain ⟨c, -, hi⟩ := List.mem_flatMap.1 hi
    by_cases hio : i = old
    · rw [hio, hold]
    · obtain ⟨hplace, hkind, -, -⟩ := h.same hi hio
      rw [hplace] at hcounted
      rwa [counted, ← hkind]

theorem Spliced.simplifiable_lt (h : f.Spliced f' b target idx) : simplifiable f' + 1 ≤ simplifiable f := by
  have hplaced : f'.placedInsts = (f.layout.filter (· != b)).flatMap f.instsOf := by
    unfold placedInsts
    rw [h.layout]
    exact List.flatMap_congr fun c hc => h.insts c (bne_iff_ne.1 (List.mem_filter.1 hc).2)
  have hlayout : f'.layout.length < f.layout.length := by
    rw [h.layout]
    exact List.length_filter_lt_length_iff_exists.2 ⟨b, h.listed, by simp⟩
  have hle : f'.placedInsts.countP f'.counted ≤ f.placedInsts.countP f.counted := by
    refine le_trans (List.countP_mono_left (q := f.counted) fun i hi hcounted => ?_) ?_
    · rw [hplaced] at hi
      obtain ⟨c, hc, hi⟩ := List.mem_flatMap.1 hi
      obtain ⟨hlisted, hne⟩ := List.mem_filter.1 hc
      rwa [counted_of_retarget (h.kind c hlisted (bne_iff_ne.1 hne) i hi)] at hcounted
    · rw [hplaced]
      exact (List.filter_sublist.flatMap f.instsOf).countP_le
  rw [simplifiable_eq, simplifiable_eq]
  omega

/-- Pruning leaves as many blocks less as it counts. -/
theorem Pruned.simplifiable_le {count : Nat} (h : f.Pruned f') (hcount : f'.layout.length + count = f.layout.length) :
    simplifiable f' + count ≤ simplifiable f := by
  have hplaced : f'.placedInsts = f'.layout.flatMap f.instsOf :=
    List.flatMap_congr fun c hc => h.insts c ((h.mem_layout c).1 hc)
  have hsame : f'.counted = f.counted := funext fun i => by rw [counted, counted, h.kind]
  have hle : f'.placedInsts.countP f'.counted ≤ f.placedInsts.countP f.counted := by
    rw [hplaced, hsame]
    exact (h.sublist.flatMap f.instsOf).countP_le
  rw [simplifiable_eq, simplifiable_eq]
  omega

theorem Forwarded.simplifiable_lt {p : BlockId} {x v : ValueId} (h : f.Forwarded f' b p phi x v) :
    simplifiable f' + 1 ≤ simplifiable f := by
  have hplaced : f'.placedInsts = f.placedInsts.filter (· != phi) := by
    unfold placedInsts
    rw [List.filter_flatMap, h.layout]
    exact List.flatMap_congr fun c _ => h.insts c
  have hphi : f.counted phi = true := by
    unfold counted
    rw [h.kind_phi]
    rfl
  have hlt := countP_map_lt (l := f.placedInsts) (ρ := id) (p := f.counted)
    (q := fun i => f'.counted i && (i != phi)) (fun i _ hcounted => ?_) (List.mem_flatMap.2 ⟨b, h.listed, h.mem_insts⟩)
    hphi (by simp)
  · rw [simplifiable_eq, simplifiable_eq, hplaced, h.layout, List.countP_filter]
    rw [List.map_id] at hlt
    omega
  · obtain ⟨hcounted, hne⟩ := Bool.and_eq_true_iff.1 hcounted
    rw [id] at hcounted hne
    rwa [counted, (h.same (bne_iff_ne.1 hne)).1] at hcounted

end Function

/-! ## Steps -/

namespace Edit

open Edits

variable {f f' g : Function} {b p : BlockId} {n m : Nat}

/-- What a number of steps make of a function in strict form. -/
structure Shrinks (f : Function) (n : Nat) (g : Function) : Prop where
  strictForm : g.StrictForm
  bound : simplifiable g + n ≤ simplifiable f
  idle : n = 0 → g = f

namespace Shrinks

theorem refl (hf : f.StrictForm) : Shrinks f 0 f := ⟨hf, le_refl _, fun _ => rfl⟩

theorem trans (h : Shrinks f n f') (h' : Shrinks f' m g) : Shrinks f (n + m) g where
  strictForm := h'.strictForm
  bound := by
    have hbound := h.bound
    have hbound' := h'.bound
    omega
  idle hzero := (h'.idle (Nat.add_eq_zero_iff.1 hzero).2).trans (h.idle (Nat.add_eq_zero_iff.1 hzero).1)

theorem single (hg : g.StrictForm) (hlt : simplifiable g + 1 ≤ simplifiable f) : Shrinks f 1 g :=
  ⟨hg, hlt, fun h => by cases h⟩

end Shrinks

/-- Steps for each block are steps for all of them. -/
theorem shrinks_countOver {P : Function → Prop} {action : BlockId → Edit Nat} {blocks : List BlockId}
    (hstep : ∀ b ∈ blocks, ∀ g g' n, g.StrictForm → P g → (action b).run g = (.ok n, g') → Shrinks g n g' ∧ P g')
    (hf : f.StrictForm) (hP : P f) (h : (countOver blocks action).run f = (.ok n, f')) : Shrinks f n f' ∧ P f' := by
  have hend := countOver_counts (P := fun n g => Shrinks f n g ∧ P g) (fun b hb m g g' k hg hrun => ?_) (m := 0)
    ⟨.refl hf, hP⟩ h
  · rwa [Nat.zero_add] at hend
  · obtain ⟨hshrinks, hP'⟩ := hstep b hb g g' k hg.1.strictForm hg.2 hrun
    exact ⟨hg.1.trans hshrinks, hP'⟩

section

variable (hf : f.StrictForm)

include hf

theorem shrinks_foldBranch (hb : b ∈ f.layout) (h : (foldBranch b).run f = (.ok n, f')) :
    Shrinks f n f' ∧ f'.layout = f.layout := by
  rcases foldBranch_spec hf.sound h with ⟨rfl, rfl⟩ | ⟨rfl, hs', old, new, taken, dropped, idx, hfolded⟩
  · exact ⟨.refl hf, rfl⟩
  · exact ⟨.single (hfolded.strictForm hf hb hs') (hfolded.simplifiable_lt hf.sound hb), hfolded.layout⟩

theorem shrinks_foldBranches (h : foldBranches.run f = (.ok n, f')) : Shrinks f n f' := by
  unfold foldBranches at h
  rw [run_get_bind] at h
  refine (shrinks_countOver (P := fun g => g.layout = f.layout) (fun b hb g g' n hg hlayout hrun => ?_) hf rfl h).1
  obtain ⟨hshrinks, hlayout'⟩ := shrinks_foldBranch hg (hlayout ▸ hb) hrun
  exact ⟨hshrinks, hlayout'.trans hlayout⟩

theorem shrinks_elideBlock {e : BlockId} (he : f.layout.head? = some e) (hb : b < f.blocks.size)
    (h : (elideBlock e b).run f = (.ok n, f')) :
    Shrinks f n f' ∧ f'.layout.head? = some e ∧ f'.blocks.size = f.blocks.size := by
  rcases elideBlock_spec hf.sound hf.regular he hb h with ⟨rfl, rfl⟩ | ⟨rfl, hs', target, idx, hspliced⟩
  · exact ⟨.refl hf, he, rfl⟩
  · exact ⟨.single (hspliced.strictForm hf hs') hspliced.simplifiable_lt,
      (hspliced.redirects hf.sound hf.regular).head.trans he, hspliced.blocks_size⟩

theorem shrinks_elideEmptyBlocks (h : elideEmptyBlocks.run f = (.ok n, f')) : Shrinks f n f' := by
  unfold elideEmptyBlocks at h
  obtain ⟨e, hentry, h₁⟩ := ask_bind_eq_ok h
  rw [run_get_bind] at h₁
  refine (shrinks_countOver (P := fun g => g.layout.head? = some e ∧ g.blocks.size = f.blocks.size)
    (fun b hb g g' n hg hP hrun => ?_) hf ⟨head?_of_entry hentry, rfl⟩ h₁).1
  obtain ⟨hhead, hsize⟩ := hP
  obtain ⟨hshrinks, hhead', hsize'⟩ :=
    shrinks_elideBlock hg hhead (hsize ▸ ((hf.sound.mem_layout b).1 hb).1) hrun
  exact ⟨hshrinks, hhead', hsize'.trans hsize⟩

/-- Pruning, after which all blocks are reachable. -/
theorem shrinks_pruneUnreachable (h : pruneUnreachable.run f = (.ok n, f')) : Shrinks f n f' ∧ f'.Connected := by
  rcases pruneUnreachable_spec hf.sound hf.regular h with ⟨rfl, rfl, hconnected⟩ | ⟨hs', hpruned, hpos, hcount⟩
  · exact ⟨.refl hf, hconnected⟩
  · exact ⟨⟨hpruned.strictForm hf hs', hpruned.simplifiable_le hcount, fun hzero => absurd hzero hpos.ne'⟩,
      fun b hb => hpruned.reached hf.sound hf.regular ((hpruned.mem_layout b).1 hb)⟩

theorem shrinks_removeSinglePhi (hb : b ∈ f.layout) (hpreds : f.preds b = [p]) (hphi : phi ∈ f.phis b)
    (h : (removeSinglePhi b phi).run f = (.ok (), f')) :
    Shrinks f 1 f' ∧ f'.layout = f.layout ∧ f'.preds b = [p] ∧ f'.phis b = (f.phis b).filter (· != phi) := by
  obtain ⟨hs', x, v, hforward⟩ := removeSinglePhi_spec hf.sound hb hpreds hphi h
  exact ⟨.single (hforward.strictForm hf hs') hforward.simplifiable_lt, hforward.layout,
    (hforward.preds b).trans hpreds, hforward.phis b⟩

end

end Edit

end SsaCompiler
