import SsaCompiler.Proofs.Pipeline.TotalPasses

/-!
# The normal form of control flow

Simplification comes to an end on every function in strict form, whatever its phis take from repeated predecessors: each
step makes the function smaller, so no more steps are counted than there are blocks, branches and phis, and the limit on
the number of repetitions is never what ends them. What a repetition that counts nothing has found is read off the four
steps: no branch has an arm that is certain, no block can be spliced out or pruned, and no phi has a single slot.
-/

set_option autoImplicit false

namespace SsaCompiler

namespace Function

/-- No step of simplification applies. A block that holds nothing but a jump may stay if it jumps to itself, or if its
target has phis that could not tell the edge from one that a predecessor of the block has already. -/
structure Simple (f : Function) : Prop where
  reachable : ∀ b ∈ f.layout, f.Reach b
  branches : ∀ b ∈ f.layout, ∀ t ∈ f.instsOf b, ∀ x y, f.kind t = .branch x y →
    x ≠ y ∧ ∀ cond ∈ f.operands t, f.const? cond = none
  phis : ∀ b ∈ f.layout, (f.preds b).length = 1 → ∀ i ∈ f.instsOf b, (f.kind i).isPhi = false
  jumps : ∀ b ∈ f.layout, f.layout.head? ≠ some b → ∀ j target, f.instsOf b = [j] → f.kind j = .jump target →
    target = b ∨ (∃ i ∈ f.instsOf target, (f.kind i).isPhi = true) ∧
      ∃ p ∈ f.preds b, ∃ t ∈ f.instsOf p, ∃ x y, f.kind t = .branch x y ∧ (x = target ∨ y = target)

end Function

namespace Edit

open Edits

variable {f f' g : Function} {b : BlockId}

/-! ## Steps that count nothing -/

variable {target : BlockId} {blocks : List BlockId}

/-- Where nothing is counted over blocks, nothing is counted for any of them. -/
theorem idle_of_countOver {action : BlockId → Edit Nat}
    (hidle : ∀ b ∈ blocks, ∀ n g, (action b).run f = (.ok n, g) → n = 0 → g = f)
    (h : (countOver blocks action).run f = (.ok 0, f')) : ∀ b ∈ blocks, (action b).run f = (.ok 0, f) := by
  induction blocks with
  | nil => exact fun b hb => absurd hb List.not_mem_nil
  | cons c rest ih =>
    rw [countOver_cons] at h
    obtain ⟨n, g, hfirst, h⟩ := bind_eq_ok h
    obtain ⟨k, f₁, hrest, hpure⟩ := bind_eq_ok h
    obtain rfl : f₁ = f' := congrArg Prod.snd hpure
    have hsum : n + k = 0 := Except.ok.inj (congrArg Prod.fst hpure)
    obtain ⟨rfl, rfl⟩ := Nat.add_eq_zero_iff.1 hsum
    obtain rfl := hidle c List.mem_cons_self 0 g hfirst rfl
    intro b hb
    rcases List.mem_cons.1 hb with rfl | hb
    · exact hfirst
    · exact ih (fun d hd => hidle d (List.mem_cons_of_mem _ hd)) hrest b hb

/-- A branch that is not folded. -/
theorem branch_of_idle (hf : f.StrictForm) (hb : b ∈ f.layout) (h : (foldBranch b).run f = (.ok 0, f)) {t : InstId}
    (ht : t ∈ f.instsOf b) {x y : BlockId} (hkind : f.kind t = .branch x y) :
    x ≠ y ∧ ∀ cond ∈ f.operands t, f.const? cond = none := by
  obtain ⟨before, last, hinsts, hterm, hbefore⟩ := hf.regular.ends b hb
  obtain rfl : t = last := by
    rw [hinsts, List.mem_append, List.mem_singleton] at ht
    refine ht.resolve_left fun hin => ?_
    have hnot := hbefore t hin
    rw [hkind] at hnot
    cases hnot
  have hlast : f.terminator b = .ok t := terminator_eq_ok.2 ⟨by rw [hinsts, List.getLast?_concat], hterm⟩
  have hfits := hf.sound.fits b t ht
  rw [hkind] at hfits
  obtain ⟨cond, hcond⟩ := List.length_eq_one_iff.1 (beq_iff_eq.1 hfits)
  have harm : fixedArm? f cond x y = none := by
    unfold foldBranch at h
    rw [run_ask_bind (·.terminator b) hlast, run_get_bind, hkind] at h
    dsimp only at h
    rw [run_ask_bind (·.operand t 0) (operand_of_getElem? (by rw [hcond]; rfl)), run_get_bind] at h
    split at h
    · assumption
    · -- A step that folds counts one.
      obtain ⟨n, f₁, -, h⟩ := bind_eq_ok h
      rw [run_get_bind] at h
      split at h
      · cases h
      · obtain ⟨⟨⟩, f₂, -, h⟩ := bind_eq_ok h
        cases h
  unfold fixedArm? at harm
  split at harm
  · split at harm <;> cases harm
  · rename_i hconst
    refine ⟨fun hxy => ?_, fun c hc => ?_⟩
    · rw [if_pos hxy] at harm
      cases harm
    · rw [hcond, List.mem_singleton] at hc
      rwa [hc]

/-- A branch to the target that was found. -/
theorem exists_of_sharesBranch (h : (sharesBranch blocks target).run f = (.ok true, g)) :
    ∃ p ∈ blocks, ∃ t ∈ f.instsOf p, ∃ x y, f.kind t = .branch x y ∧ (x = target ∨ y = target) := by
  induction blocks with
  | nil => cases h
  | cons p rest ih =>
    unfold sharesBranch at h
    obtain ⟨t, hterm, h⟩ := ask_bind_eq_ok h
    rw [run_get_bind] at h
    have hmore : (sharesBranch rest target).run f = (.ok true, g) →
        ∃ q ∈ p :: rest, ∃ t ∈ f.instsOf q, ∃ x y, f.kind t = .branch x y ∧ (x = target ∨ y = target) := by
      intro hrest
      obtain ⟨q, hq, hfound⟩ := ih hrest
      exact ⟨q, List.mem_cons_of_mem _ hq, hfound⟩
    split at h
    · rename_i x y hkind
      split at h
      · rename_i hshares
        exact ⟨p, List.mem_cons_self, t, List.mem_of_getLast? (terminator_eq_ok.1 hterm).1, x, y, hkind,
          by simpa using hshares⟩
      · exact hmore h
    · exact hmore h

/-- A block that holds nothing but a jump and is not spliced out. -/
theorem jump_of_idle {e : BlockId} (hf : f.StrictForm) (hreach : f.Reach b) (he : f.layout.head? = some e)
    (hne : b ≠ e) (h : (elideBlock e b).run f = (.ok 0, f)) {j : InstId} (hinsts : f.instsOf b = [j])
    (hkind : f.kind j = .jump target) : target = b ∨ (∃ i ∈ f.instsOf target, (f.kind i).isPhi = true) ∧
      ∃ p ∈ f.preds b, ∃ t ∈ f.instsOf p, ∃ x y, f.kind t = .branch x y ∧ (x = target ∨ y = target) := by
  have hlisted := hf.regular.mem_layout_of_reach hf.sound hreach
  have hremoved := ((hf.sound.mem_layout b).1 hlisted).2
  have hpreds : f.preds b ≠ [] := by
    cases hreach with
    | entry he' => exact absurd (Option.some.inj (he'.symm.trans he)) hne
    | @step p _ hp hedge =>
      have hp' := hf.regular.mem_layout_of_reach hf.sound hp
      exact List.ne_nil_of_mem ((hf.regular.mem_preds_iff hlisted).2 ⟨hp', (hf.regular.edge_iff hp').1 hedge⟩)
  by_cases htarget : target = b
  · exact .inl htarget
  right
  unfold elideBlock at h
  rw [run_get_bind, if_neg (by simp [hne, hremoved]), hinsts] at h
  dsimp -zeta only at h
  rw [hkind] at h
  dsimp -zeta only at h
  extract_lets preds phis splice at h
  -- A step that splices a block out counts one.
  have hkept : (splice ()).run f ≠ (.ok 0, f) := by
    intro hrun
    dsimp only [splice] at hrun
    split at hrun
    · cases hrun
    · obtain ⟨carried, f₁, -, hrun⟩ := bind_eq_ok hrun
      obtain ⟨⟨⟩, f₂, -, hrun⟩ := bind_eq_ok hrun
      obtain ⟨⟨⟩, f₃, -, hrun⟩ := bind_eq_ok hrun
      obtain ⟨⟨⟩, f₄, -, hrun⟩ := bind_eq_ok hrun
      cases hrun
  rw [if_neg (by simp [htarget, preds, hpreds])] at h
  split at h
  · rename_i hphis
    obtain ⟨found, f₁, hshares, h⟩ := bind_eq_ok h
    obtain ⟨rfl, -⟩ := sharesBranch_spec hshares
    cases found with
    | true =>
      refine ⟨?_, exists_of_sharesBranch hshares⟩
      obtain ⟨i, hi⟩ := List.exists_mem_of_ne_nil phis (by simpa using hphis)
      exact ⟨i, (List.takeWhile_sublist _).subset hi, f.isPhi_of_mem_phis hi⟩
    | false => exact absurd h hkept
  · exact absurd h hkept

/-- A block with one predecessor whose phis are not exchanged has none. -/
theorem phis_of_idle (hf : f.StrictForm) (hb : b ∈ f.layout) (hone : (f.preds b).length = 1)
    (h : (exchangePhis b).run f = (.ok 0, f)) {i : InstId} (hi : i ∈ f.instsOf b) : (f.kind i).isPhi = false := by
  unfold exchangePhis at h
  rw [run_get_bind, if_neg (not_not.2 hone)] at h
  obtain ⟨⟨⟩, f₁, -, hpure⟩ := bind_eq_ok h
  have hnone : f.phis b = [] := List.length_eq_zero_iff.1 (Except.ok.inj (congrArg Prod.fst hpure))
  by_contra hphi
  have hin := (hf.regular.mem_phis hb).2 ⟨hi, by simpa using hphi⟩
  rw [hnone] at hin
  cases hin

/-- A repetition that counts nothing has found nothing to do. -/
theorem simple_of_idle (h : Trim f) (hidle : simplifyCycle.run f = (.ok 0, f)) : f.Simple := by
  have hf := h.strictForm
  unfold simplifyCycle at hidle
  obtain ⟨folded, f₁, hfold, hrun⟩ := bind_eq_ok hidle
  obtain ⟨elided, f₂, helide, hrun⟩ := bind_eq_ok hrun
  obtain ⟨pruned, f₃, hprune, hrun⟩ := bind_eq_ok hrun
  obtain ⟨removed, f₄, hremove, hpure⟩ := bind_eq_ok hrun
  have hsum : folded + elided + pruned + removed = 0 := Except.ok.inj (congrArg Prod.fst hpure)
  obtain ⟨rfl, rfl, rfl, rfl⟩ : folded = 0 ∧ elided = 0 ∧ pruned = 0 ∧ removed = 0 := by omega
  obtain rfl := (shrinks_foldBranches hf hfold).idle rfl
  obtain rfl := (shrinks_elideEmptyBlocks hf helide).idle rfl
  obtain rfl := (shrinks_pruneUnreachable hf hprune).1.idle rfl
  have hfolds : ∀ b ∈ f₃.layout, (foldBranch b).run f₃ = (.ok 0, f₃) := by
    unfold foldBranches at hfold
    rw [run_get_bind] at hfold
    exact idle_of_countOver (fun b hb n g hrun => (shrinks_foldBranch hf hb hrun).1.idle) hfold
  obtain ⟨e, he, helides⟩ : ∃ e, f₃.layout.head? = some e ∧ ∀ b ∈ f₃.layout, (elideBlock e b).run f₃ = (.ok 0, f₃) := by
    unfold elideEmptyBlocks at helide
    obtain ⟨e, hentry, helide⟩ := ask_bind_eq_ok helide
    rw [run_get_bind] at helide
    have he := head?_of_entry hentry
    exact ⟨e, he, idle_of_countOver (fun b hb n g hrun =>
      (shrinks_elideBlock hf he ((hf.sound.mem_layout b).1 hb).1 hrun).1.idle) helide⟩
  have hexchanges : ∀ b ∈ f₃.layout, (exchangePhis b).run f₃ = (.ok 0, f₃) := by
    rw [removeSinglePredPhis_eq, run_get_bind] at hremove
    exact idle_of_countOver (fun b hb n g hrun => ((succeeds_exchangePhis h hb).2 n g hrun).1.idle) hremove
  refine ⟨h.connected, fun b hb t ht x y hkind => branch_of_idle hf hb (hfolds b hb) ht hkind,
    fun b hb hone i hi => phis_of_idle hf hb hone (hexchanges b hb) hi, fun b hb hne j target hinsts hkind => ?_⟩
  refine jump_of_idle hf (h.connected b hb) he (fun heq => hne (heq ▸ he)) (helides b hb) hinsts hkind

/-- A function that a repetition finds nothing to do in is left as it is. -/
theorem simplify_of_idle (h : simplifyCycle.run f = (.ok 0, f)) : simplify.run f = (.ok 0, f) := by
  unfold simplify
  rw [run_get_bind]
  unfold simplifyWithin
  rw [run_bind, h]
  rfl

end Edit

namespace Function

variable {f : Function}

/-- **Simplification ends in a normal form.** On every function in strict form that is read from text, possibly after
other passes, and that verification accepts, the repetitions of the steps end by themselves, after no more steps than
there were blocks, branches and phis. No step applies to what they leave: simplifying it again counts nothing and
changes nothing. -/
theorem normalForm_simplify (hf : f.Produced) (hv : f.verify = .ok ()) (hstrict : f.Strict) :
    ∃ n g, Edit.simplify.run f = (.ok n, g) ∧ Edit.Settles f n g ∧ n ≤ Edit.simplifiable f ∧ g.Simple ∧
      Edit.simplify.run g = (.ok 0, g) := by
  obtain ⟨n, g, hrun, hsettles, hshrinks, htrim, hidle⟩ :=
    Edit.simplify_settles ⟨hf.sound, regular_of_verify hf.sound hv, hstrict⟩ hf.tidy
  have hbound := hshrinks.bound
  exact ⟨n, g, hrun, hsettles, by omega, Edit.simple_of_idle htrim hidle, Edit.simplify_of_idle hidle⟩

/-- Of four blocks, a branch and a phi, two blocks, the branch and the phi are gone, and one block is left. -/
theorem normalForm_simplify_constantBranch : ∃ g, Edit.simplify.run constantBranch = (.ok 4, g) ∧
    4 ≤ Edit.simplifiable constantBranch ∧ g.Simple ∧ Edit.simplify.run g = (.ok 0, g) := by
  obtain ⟨n, g, hrun, -, hbound, hsimple, hagain⟩ :=
    normalForm_simplify produced_constantBranch verify_constantBranch strict_constantBranch
  obtain rfl : n = 4 := Except.ok.inj (congrArg Prod.fst (hrun.symm.trans simplify_constantBranch))
  exact ⟨g, hrun, hbound, hsimple, hagain⟩

end Function

end SsaCompiler
