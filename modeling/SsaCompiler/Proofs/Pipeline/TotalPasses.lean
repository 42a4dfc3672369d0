import SsaCompiler.Proofs.Ir.PromotedForm
import SsaCompiler.Proofs.Pipeline.KeptMeaning
import SsaCompiler.Proofs.Text.FinishedBodies

/-!
# Passes succeed on well-formed functions

A function that comes from text, that verification accepts, whose uses are dominated by their definitions and whose
phis agree is one on which every pass succeeds, and what the pass leaves is such a function again. Phis of blocks with
one predecessor are exchanged only where all blocks are reachable: a phi that is not may be its own operand.
-/

set_option autoImplicit false

namespace SsaCompiler

open Edits

namespace Function

variable {f f' : Function}

/-- Functions that come from text have tidy records. -/
theorem Produced.tidy (h : f.Produced) : f.Tidy := by
  induction h with
  | read hread hmem => exact (Module.finished_parse hread hmem).neat.toTidy
  | pass pass _ hrun ih => exact pass.preserves Edit.stable_tidy ih hrun

/-- A function that passes verification reads live values only. -/
theorem Tidy.neat_of_verify (h : f.Tidy) (hv : f.verify = .ok ()) : f.Neat := by
  refine ⟨h, fun i v hv' => ?_⟩
  obtain ⟨b, hb⟩ := Option.ne_none_iff_exists'.1 (h.tended.placed_of_mem hv')
  have hin := (h.sound.placed b i).2 hb
  obtain ⟨succs, -, hall, -⟩ := checked_of_verify hv (Edit.mem_layout_of_mem_insts h hin)
  obtain ⟨pos, hpos⟩ := List.mem_iff_getElem?.1 hin
  obtain ⟨slot, hslot⟩ := List.mem_iff_getElem?.1 hv'
  have hchecked := hall i pos (List.mk_mem_zipIdx_iff_getElem?.2 hpos)
  exact (hchecked.operands v slot (List.mk_mem_zipIdx_iff_getElem?.2 hslot)).1

/-- Where all blocks are reachable, only live values are read: what is read was computed in a block. -/
theorem liveOperands_of_connected (hwf : f.WellFormed) (ht : f.Tidy) (hc : f.Connected) : f.LiveOperands := by
  intro i v hv
  have hplaced : ∀ {b before}, (∀ j ∈ before, j ∈ f.instsOf b) → f.Available b before v → (f.value v).live = true := by
    intro b before hbefore havail
    by_contra hdead
    obtain ⟨j, hj⟩ := ht.tended.buried v (Bool.not_eq_true _ ▸ hdead)
    refine hdead ((ht.tended.marked j v hj).2 ?_)
    rcases havail j (ht.sound.kind_of_result j v hj).2 with hin | ⟨d, hd, -⟩
    · rw [(ht.sound.placed b j).1 (hbefore j hin)]
      exact Option.some_ne_none b
    · rw [hd]
      exact Option.some_ne_none d
  obtain ⟨b, hb⟩ := Option.ne_none_iff_exists'.1 (ht.tended.placed_of_mem hv)
  have hin := (ht.sound.placed b i).2 hb
  have hlisted := Edit.mem_layout_of_mem_insts ht hin
  cases hphi : (f.kind i).isPhi with
  | false =>
    obtain ⟨before, after, hinsts⟩ := List.append_of_mem hin
    refine hplaced (fun j hj => ?_) (hwf.strict.operand b before i after (hc b hlisted) hinsts hphi v hv)
    rw [hinsts]
    exact List.mem_append_left _ hj
  | true =>
    obtain ⟨slot, hslot⟩ := List.mem_iff_getElem?.1 hv
    obtain ⟨hlt, -⟩ := List.getElem?_eq_some_iff.1 hslot
    rw [hwf.regular.slots b hlisted i hin hphi] at hlt
    have hfeeds : f.Feeds b i (f.preds b)[slot] v :=
      List.mem_of_getElem? (i := slot) (List.getElem?_zip_eq_some.2 ⟨List.getElem?_eq_getElem hlt, hslot⟩)
    have hp := hc _ ((hwf.regular.mem_preds_iff hlisted).1 (List.getElem_mem hlt)).1
    exact hplaced (fun j hj => List.dropLast_subset _ hj)
      (hwf.strict.incoming b i (hc b hlisted) hin hphi _ v hp hfeeds)

/-- A function that comes from text, perhaps with passes made over it, that verification accepts, whose uses are
dominated by their definitions and whose phis give equal values to repeated predecessors. -/
structure Accepted (f : Function) : Prop where
  produced : f.Produced
  verified : f.verify = .ok ()
  strict : f.Strict
  agreeing : f.AgreeingPhis

end Function

namespace Pass

variable {f : Function}

/-- A pass can be made over a function. Only one pass asks for something, namely that all blocks are reachable. -/
def AppliesTo (pass : Pass) (f : Function) : Prop := pass = .removeSinglePredPhis → f.Connected

/-- Passes can be made over a function one after the other. -/
inductive Apply : List Pass → Function → Prop
  | nil (f : Function) : Apply [] f
  | cons {pass : Pass} {rest : List Pass} {f : Function} (happlies : pass.AppliesTo f)
    (hrest : ∀ f', pass.edit.run f = (.ok (), f') → Apply rest f') : Apply (pass :: rest) f

/-- A pass succeeds on a well-formed function and leaves a well-formed one. -/
theorem total (pass : Pass) (hwf : f.WellFormed) (hn : f.Neat) (happlies : pass.AppliesTo f) :
    Succeeds pass.edit f ∧ ∀ f', pass.edit.run f = (.ok (), f') → f'.WellFormed ∧ f'.Neat := by
  have hneat := Edit.simplified_neat
  have hdiscard : ∀ {edit : Edit Nat}, Succeeds edit f →
      (∀ n f', edit.run f = (.ok n, f') → f'.WellFormed) → Preserves Function.Neat edit →
      Succeeds (discard edit) f ∧ ∀ f', (discard edit).run f = (.ok (), f') → f'.WellFormed ∧ f'.Neat := by
    intro edit hsucceeds hkeeps hpreserves
    refine ⟨.bind hsucceeds fun _ _ _ => .pure _ _, fun f' hrun => ?_⟩
    obtain ⟨n, f₁, hrun, hpure⟩ := bind_eq_ok hrun
    cases hpure
    exact ⟨hkeeps n _ hrun, hpreserves hn hrun⟩
  cases pass with
  | foldBranches =>
    exact hdiscard (Edit.succeeds_foldBranches hwf.strictForm) (fun _ _ hrun => (Edit.foldBranches_keeps hwf hrun).1)
      hneat.foldBranches
  | elideEmptyBlocks =>
    exact hdiscard (Edit.succeeds_elideEmptyBlocks hwf.strictForm) (fun _ _ hrun => (Edit.elideEmptyBlocks_keeps hwf hrun).1)
      hneat.elideEmptyBlocks
  | pruneUnreachable =>
    exact hdiscard (Edit.succeeds_pruneUnreachable hwf.strictForm hn.toTidy)
      (fun _ _ hrun => (Edit.pruneUnreachable_keeps hwf hrun).1) hneat.pruneUnreachable
  | removeSinglePredPhis =>
    exact hdiscard (Edit.succeeds_removeSinglePredPhis ⟨hwf.strictForm, hn.toTidy, happlies rfl⟩).1
      (fun _ _ hrun => (Edit.removeSinglePredPhis_keeps hwf hrun).1) hneat.removeSinglePredPhis
  | simplify =>
    exact hdiscard (Edit.succeeds_simplify hwf hn.toTidy).1 (fun _ _ hrun => (Edit.simplify_keeps hwf hrun).1)
      hneat.simplify
  | promote =>
    refine ⟨.bind (Edit.succeeds_promote hwf hn.toTidy) fun _ _ _ => .pure _ _, fun f' hrun => ?_⟩
    obtain ⟨stats, f₁, hrun, hpure⟩ := bind_eq_ok hrun
    cases hpure
    obtain ⟨hwf', ht', hc'⟩ := Edit.exchangeable_promote hwf hn.toTidy hrun
    exact ⟨hwf', ht', Function.liveOperands_of_connected hwf' ht' hc'⟩

/-- A pass over an accepted function succeeds, and its result is accepted. -/
theorem accepted_of_pass (pass : Pass) (h : f.Accepted) (happlies : pass.AppliesTo f) :
    ∃ f', pass.edit.run f = (.ok (), f') ∧ f'.Accepted := by
  have hwf := h.produced.wellFormed h.verified h.strict h.agreeing
  obtain ⟨⟨⟨⟩, f', hrun⟩, hkeeps⟩ := pass.total hwf (h.produced.tidy.neat_of_verify h.verified) happlies
  obtain ⟨⟨hs', hr', hstrict', hagree'⟩, hn'⟩ := hkeeps f' hrun
  exact ⟨f', hrun, .pass pass h.produced hrun, Function.verify_of_regular hs' hr' hn'.closed, hstrict', hagree'⟩

/-- Every pass over an accepted function succeeds and leaves an accepted function, and so do any number of passes one
after the other. -/
theorem accepted_of_passes (h : f.Accepted) :
    (∀ pass : Pass, pass.AppliesTo f → ∃ f', pass.edit.run f = (.ok (), f') ∧ f'.Accepted) ∧
      ∀ passes, Apply passes f → ∃ f', (passes.forM Pass.edit).run f = (.ok (), f') ∧ f'.Accepted := by
  refine ⟨fun pass happlies => pass.accepted_of_pass h happlies, fun passes happly => ?_⟩
  induction happly with
  | nil f => exact ⟨f, rfl, h⟩
  | @cons pass rest f happlies hrest ih =>
    obtain ⟨f₁, hfirst, h₁⟩ := pass.accepted_of_pass h happlies
    obtain ⟨f', hlater, h'⟩ := ih f₁ hfirst h₁
    refine ⟨f', ?_, h'⟩
    change (pass.edit >>= fun _ => rest.forM Pass.edit).run f = _
    rw [run_bind, hfirst]
    exact hlater

/-- A function with an arm that is never taken: pruning leaves its blocks reachable, so phis can be exchanged then. -/
theorem accepted_of_passes_constantBranch : ∃ f', ([Pass.foldBranches, .pruneUnreachable, .removeSinglePredPhis,
    .promote].forM Pass.edit).run Function.constantBranch = (.ok (), f') ∧ f'.Accepted := by
  have haccepted : Function.constantBranch.Accepted :=
    ⟨Function.produced_constantBranch, Function.verify_constantBranch, Function.strict_constantBranch, Function.agreeing_constantBranch⟩
  refine (accepted_of_passes haccepted).2 _ (.cons (fun h => by cases h) fun f₁ hfold => ?_)
  obtain ⟨f₁', hrun, haccepted₁⟩ := foldBranches.accepted_of_pass haccepted fun h => by cases h
  cases hfold.symm.trans hrun
  refine .cons (fun h => by cases h) fun f₂ hprune => .cons (fun _ => ?_) fun f₃ _ => .cons (fun h => by cases h)
    fun f₄ _ => .nil f₄
  obtain ⟨n, f₂', hpruned, hpure⟩ := bind_eq_ok hprune
  cases hpure
  exact Edit.connected_pruneUnreachable
    (haccepted₁.produced.wellFormed haccepted₁.verified haccepted₁.strict haccepted₁.agreeing) hpruned

end Pass

end SsaCompiler
