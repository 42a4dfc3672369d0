import SsaCompiler.Proofs.Machine.FinishedAllocation
import SsaCompiler.Proofs.Machine.SelectedFunction

/-!
# Selection comes to an end

Selection of a function that can be selected fails for one reason only: the words of its slots, of its parameters or of the
arguments of a call leave the word range (`Function.SelectionOverflow`). When it succeeds, the virtual registers of its
code are counted and the transfers stay inside, which is what allocation needs.
-/

set_option autoImplicit false

namespace SsaCompiler

open Stateful

namespace Function

/-- What the selection of a function computes leaves the word range. -/
inductive SelectionOverflow (f : Function) (loops : LoopForest) : Prop
  /-- The number of bytes of a slot does, or the frame with these bytes. -/
  | slot {before after : List InstId} {i : InstId} {s : Selection} {words : Nat}
      (hlist : f.placedInsts = before ++ i :: after)
      (hbefore : (before.forM (Select.assignSlot f)).run (f.selectionStart loops) = .ok ((), s))
      (hkind : f.kind i = .alloca words)
      (h : (Word.mul? 4 (Int32.ofNat words)).bind (Word.add? s.code.frameSize) = none)
  | param (h : Select.ParamOverflow f.params.length)
  | call {b : BlockId} {i : InstId} {callee : Callee} (hb : b ∈ f.layout) (hi : i ∈ f.instsOf b)
      (hkind : f.kind i = .call callee) (h : Select.CallOverflow (f.operands i).length)

variable {m : Module} {f : Function} {loops : LoopForest}

/-- Reserving words for all slots. -/
theorem meets_assignSlots (hf : f.Selectable m) : Meets (fun e => e = .crash none ∧ f.SelectionOverflow loops)
    (f.placedInsts.forM (Select.assignSlot f)) (f.selectionStart loops) fun _ _ => True := by
  refine .forM_run (I := fun _ _ => True) _ (fun done i rest s hlist hrun _ => ?_) trivial
  unfold Select.assignSlot
  split
  · rename_i words hkind
    obtain ⟨b, -, hi⟩ : ∃ b ∈ f.layout, i ∈ f.instsOf b :=
      List.mem_flatMap.1 (hlist ▸ List.mem_append_right _ List.mem_cons_self : i ∈ f.placedInsts)
    have hplaced : f.blockOf? i ≠ none := by
      rw [(hf.sound.placed b i).1 hi]
      exact Option.some_ne_none b
    obtain ⟨v, hv⟩ := Option.ne_none_iff_exists'.1 (hf.valued i hplaced (by rw [hkind]; rfl))
    have hresult : f.resultOf i = .ok v := by
      unfold resultOf
      rw [hv]
    refine .bind (.lift (.of_exists ⟨v, hresult⟩) fun _ _ => .bind (.lift (.ofOption fun hmul => ?_) fun bytes hbytes =>
      .bind (.get (.bind (.lift (.bind (.ofOption fun hadd => ?_) fun _ _ => .ok _) fun _ _ => .modify trivial)))))
    · exact ⟨rfl, .slot hlist hrun hkind (by rw [hmul]; rfl)⟩
    · refine ⟨rfl, .slot hlist hrun hkind ?_⟩
      rw [Outcome.ofOption_eq_ok.1 hbytes]
      exact hadd
  · exact .pure trivial

/-- Looking for comparisons to fuse. -/
theorem exists_fusedCompares (hf : f.Selectable m) : ∃ fused, f.fusedCompares = .ok fused := by
  refine Outcome.exists_bind (Outcome.exists_mapM fun b hb => ?_) fun _ _ => ⟨_, rfl⟩
  unfold fusableCompare?
  dsimp only
  split
  · exact ⟨_, rfl⟩
  · obtain ⟨before, t, hinsts, hterm, -⟩ := hf.shaped.ends b hb
    have hlast : f.terminator b = .ok t := Edit.terminator_eq_ok.2 ⟨by rw [hinsts, List.getLast?_concat], hterm⟩
    refine Outcome.exists_bind ⟨t, hlast⟩ fun t' ht' => ?_
    cases hlast.symm.trans ht'
    split
    · exact ⟨_, rfl⟩
    · rename_i hbranch
      have hin : t ∈ f.instsOf b := hinsts ▸ List.mem_append_right _ (List.mem_singleton.2 rfl)
      have hfits := hf.sound.fits b t hin
      have hslot : ∃ v, f.operand t 0 = .ok v := by
        cases hkind : f.kind t with
        | branch thenBlock elseBlock =>
          rw [hkind] at hfits
          obtain ⟨v, hv⟩ := List.length_eq_one_iff.1 (beq_iff_eq.1 hfits)
          exact ⟨v, Edit.operand_of_getElem? (by rw [hv]; rfl)⟩
        | _ =>
          rw [hkind] at hbranch
          exact absurd rfl hbranch
      refine Outcome.exists_bind hslot fun v _ => ?_
      split
      · exact ⟨_, rfl⟩
      · split <;> exact ⟨_, rfl⟩

/-- Selection up to the links fails only because words leave their range. -/
theorem selection_total (m : Module) (loops : LoopForest) (hf : f.Selectable m) :
    (f.selection m loops).FailsOnly fun e => e = .crash none ∧ f.SelectionOverflow loops := by
  refine .bind (meets_assignSlots hf).failsOnly fun ⟨⟨⟩, s₀⟩ hslots => ?_
  refine .bind (.of_exists (exists_fusedCompares hf)) fun fused hfused => ?_
  have hctx : ({ module := m, func := f, fused } : SelectionContext).Selectable
      fun e => e = .crash none ∧ f.SelectionOverflow loops :=
    ⟨hf.orderly, fun i hi => exists_fusable hfused hi, .inl hf.linked, .inl hf.agreeing⟩
  have hstart := fresh_selectionStart { module := m, func := f, fused } loops
  refine .bind (Select.meets_selectAll hctx (fresh_assignSlots hstart hslots) (fun h => ⟨rfl, .param h⟩)
    fun b hb i hi callee hkind h => ⟨rfl, .call hb hi hkind h⟩).failsOnly fun _ _ => .ok _

end Function

namespace Selection

variable {ctx : SelectionContext} {s s' : Selection}

/-- The code that selection ends with: its virtual registers are counted, and its transfers go to its blocks. -/
theorem Ended.code (hs : s.Ended ctx s') {k : Nat} {i : Instr} (hi : i ∈ s'.code.instsOf k) :
    (∀ op ∈ i.sources ++ i.defs, op.Within s'.code.vregCount) ∧ ∀ t, i.target? = some t → t < s'.code.blocks.size := by
  obtain ⟨⟨entry, -, hselected⟩, hext, taken, sent, hlowered⟩ := hs
  have hk : k < ctx.func.layout.length := by
    by_contra hge
    rw [← hlowered.size] at hge
    exact hge (MachineFunction.lt_size_of_instsOf (List.ne_nil_of_mem hi))
  obtain ⟨top, mid, copies, hcode, -, -, -, hcalm⟩ := hlowered.parts hk
  rw [hcode] at hi
  rcases List.mem_append.1 hi with hi | hi
  · refine ⟨(hcalm i hi).2, fun t ht => ?_⟩
    have hstays := (hcalm i hi).1
    rw [MachineFunction.isTransfer_of_target ht] at hstays
    cases hstays
  · obtain ⟨-, hwithin, htarget⟩ := hselected.exit hk hi
    exact ⟨fun op hop n hn => (hwithin op hop n hn).trans_le hext.count, fun t ht => hlowered.size ▸ htarget t ht⟩

/-- It is what allocation needs. -/
theorem Ended.allotted (hs : s.Ended ctx s') (h : ctx.func.Orderly) : s'.code.Allotted := by
  refine ⟨⟨?_, fun b i hi t ht => (hs.code hi).2 t ht⟩, fun i hi n hn => ?_⟩
  · obtain ⟨-, -, taken, sent, hlowered⟩ := hs
    rw [hlowered.size]
    exact List.length_pos_of_ne_nil h.shaped.nonempty
  · obtain ⟨b, hb⟩ := MachineFunction.mem_placedInsts.1 hi
    exact (hs.code hb).1 _ (List.mem_append.2 hn) n rfl

end Selection

/-- Linking the blocks of code whose transfers stay inside. -/
theorem MachineFunction.Allotted.link {mf : MachineFunction} (h : mf.Allotted) :
    ∃ mf', mf.linkBlocks = .ok mf' ∧ mf'.Allotted := by
  have hinside : (mf.blockIds.all fun b => (mf.successors b).all (· < mf.blocks.size)) = true := by
    exact List.all_eq_true.2 fun b _ => List.all_eq_true.2 fun t ht => decide_eq_true (h.lt_of_mem_successors ht)
  have hlink : ∃ mf', mf.linkBlocks = .ok mf' ∧ mf'.vregCount = mf.vregCount ∧ mf'.blocks.size = mf.blocks.size := by
    unfold linkBlocks
    rw [if_pos hinside]
    exact ⟨_, rfl, rfl, Array.size_mapIdx⟩
  obtain ⟨mf', hlink, hcount, hsize⟩ := hlink
  have hinsts := MachineFunction.instsOf_linkBlocks hlink
  refine ⟨mf', hlink, ⟨hsize ▸ h.nonempty, fun b i hi t ht => ?_⟩, fun i hi n hn => ?_⟩
  · rw [hsize]
    exact h.targets b i (hinsts b ▸ hi) t ht
  · obtain ⟨b, hb⟩ := MachineFunction.mem_placedInsts.1 hi
    rw [hcount]
    exact h.counted i (MachineFunction.mem_placedInsts.2 ⟨b, hinsts b ▸ hb⟩) n hn

/-- **Selection** fails only because words leave their range, and it ends with code that can be allocated. -/
theorem Function.select_total (m : Module) {f : Function} (loops : LoopForest) (hf : f.Selectable m) :
    (f.select m loops).FailsOnly (fun e => e = .crash none ∧ f.SelectionOverflow loops) ∧
      ∀ mf, f.select m loops = .ok mf → mf.Allotted := by
  have hended : ∀ s, f.selection m loops = .ok s → s.code.Allotted := by
    intro s hs
    obtain ⟨fused, s₁, -, hended⟩ := ended_of_selection hf.orderly hs
    exact hended.allotted hf.orderly
  rw [select_eq]
  refine ⟨.bind (selection_total m loops hf) fun s hs => .of_exists ?_, fun mf h => ?_⟩
  · obtain ⟨mf, hmf, -⟩ := (hended s hs).link
    exact ⟨mf, hmf⟩
  · obtain ⟨s, hs, hlink⟩ := Outcome.bind_eq_ok.1 h
    obtain ⟨mf', hmf', hallotted⟩ := (hended s hs).link
    cases hmf'.symm.trans hlink
    exact hallotted

end SsaCompiler
