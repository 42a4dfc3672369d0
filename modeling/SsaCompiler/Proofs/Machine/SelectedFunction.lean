import SsaCompiler.Proofs.Machine.LoweredPhis
import SsaCompiler.Proofs.Text.FinishedBodies

/-!
# Selecting a function

The selection of a function in three parts: words of the frame for its slots, code for its blocks, and code for its phis.
At the end it only links the blocks (`Function.select_eq`). When it succeeds, the state that it ends in is made from one
without phi code (`Function.ended_of_selection`).
-/

set_option autoImplicit false

namespace SsaCompiler

variable {m : Module}

namespace Function

/-- The comparisons that become part of their branch. -/
def fusedCompares (f : Function) : Outcome NatSet := do
  let fused ← f.layout.mapM f.fusableCompare?
  return .ofList (fused.filterMap id)

/-- The selection of a function up to the links between its blocks. -/
def selection (m : Module) (f : Function) (loops : LoopForest) : Outcome Selection := do
  let (_, s) ← (f.placedInsts.forM (Select.assignSlot f)).run (f.selectionStart loops)
  let fused ← f.fusedCompares
  let (_, s) ← (Select.selectAll { module := m, func := f, fused }).run s
  return s

/-- Linking the blocks comes last. -/
theorem select_eq (m : Module) (f : Function) (loops : LoopForest) :
    f.select m loops = f.selection m loops >>= fun s => s.code.linkBlocks := by
  unfold select selection fusedCompares
  simp only [bind_assoc, pure_bind]
  rfl

variable {f : Function}

/-- The set of fused comparisons has nothing but such comparisons. -/
theorem exists_fusable {fused : NatSet} (h : f.fusedCompares = .ok fused) {i : InstId} (hi : fused.contains i = true) :
    ∃ b ∈ f.layout, f.fusableCompare? b = .ok (some i) := by
  obtain ⟨found, hfound, hset⟩ := Outcome.bind_eq_ok.1 h
  cases hset
  obtain ⟨answer, hanswer, hid⟩ := List.mem_filterMap.1 ((NatSet.contains_ofList _ _).1 hi)
  cases hid
  exact Outcome.exists_of_mem_mapM hfound hanswer

/-- Selection starts afresh. -/
theorem fresh_selectionStart (ctx : SelectionContext) (loops : LoopForest) :
    (ctx.func.selectionStart loops).Fresh ctx := by
  obtain ⟨-, -, -, hsize, hblank⟩ := blank_spec ctx.func loops.blockDepth ctx.func.layout
  exact ⟨hsize, hblank, rfl, rfl, rfl, rfl⟩

variable {s : Selection}

/-- Reserving words of the frame is all that happens before the blocks are selected. -/
theorem fresh_assignSlots {ctx : SelectionContext} {insts : List InstId} {s' : Selection} (hs : s.Fresh ctx)
    (h : (insts.forM (Select.assignSlot ctx.func)).run s = .ok ((), s')) : s'.Fresh ctx := by
  have hmeets : Stateful.Meets (fun _ => True) (insts.forM (Select.assignSlot ctx.func)) s fun _ s' => s'.Fresh ctx := by
    refine .forM (I := fun _ (s' : Selection) => s'.Fresh ctx) insts (fun done i rest s₁ _ hs₁ => ?_) hs
    unfold Select.assignSlot
    split
    · refine .bind (.lift (fun _ _ => trivial) fun v _ => .bind (.lift (fun _ _ => trivial) fun bytes _ =>
        .bind (.get (.bind (.lift (fun _ _ => trivial) fun found hfound => .modify ?_)))))
      obtain ⟨size, -, hpair⟩ := Outcome.bind_eq_ok.1 hfound
      cases hpair
      exact ⟨hs₁.size, hs₁.blank, hs₁.registers, hs₁.addresses, hs₁.entryFront, hs₁.current⟩
    · exact .pure hs₁
  exact hmeets.of_run h

variable {loops : LoopForest}

/-- When selection succeeds, it ends with phi code on top of code without, and the slots are those of the start. -/
theorem stages_of_selection (hf : f.Orderly) (h : f.selection m loops = .ok s) :
    ∃ fused, ∃ s₀ s₁ : Selection, f.fusedCompares = .ok fused ∧
      (f.placedInsts.forM (Select.assignSlot f)).run (f.selectionStart loops) = .ok ((), s₀) ∧ s.slots = s₀.slots ∧
      s₁.Ended { module := m, func := f, fused } s := by
  obtain ⟨⟨⟨⟩, s₀⟩, hslots, h₁⟩ := Outcome.bind_eq_ok.1 h
  obtain ⟨fused, hfused, h₂⟩ := Outcome.bind_eq_ok.1 h₁
  obtain ⟨⟨⟨⟩, s'⟩, hall, hpure⟩ := Outcome.bind_eq_ok.1 h₂
  cases hpure
  have hctx : ({ module := m, func := f, fused } : SelectionContext).Selectable fun _ => True :=
    ⟨hf, fun i hi => exists_fusable hfused hi, .inr trivial, .inr fun _ => trivial⟩
  have hstart := fresh_selectionStart { module := m, func := f, fused } loops
  have hmeets : Stateful.Meets (fun _ => True) (Select.selectAll _) s₀ _ := Select.meets_selectAll hctx
    (fresh_assignSlots hstart hslots) (fun _ => trivial) fun _ _ _ _ _ _ _ => trivial
  obtain ⟨hsame, s₁, hended⟩ := hmeets.of_run hall
  exact ⟨fused, s₀, s₁, hfused, hslots, hsame, hended⟩

/-- When selection succeeds, it ends with phi code on top of code without. -/
theorem ended_of_selection (hf : f.Orderly) (h : f.selection m loops = .ok s) :
    ∃ fused, ∃ s₁ : Selection, f.fusedCompares = .ok fused ∧
      s₁.Ended { module := m, func := f, fused } s := by
  obtain ⟨fused, -, s₁, hfused, -, -, hended⟩ := stages_of_selection hf h
  exact ⟨fused, s₁, hfused, hended⟩

end Function

/-- Functions that were read can be selected. -/
theorem Module.selectable_parse {text : String} (h : Module.parse text = .ok m) {f : Function} (hf : f ∈ m.functions) :
    f.Selectable m := by
  have hfinished := Module.finished_parse h hf
  refine ⟨hfinished.sound, hfinished.shaped, hfinished.agreeing, hfinished.neat.tended.valued, ?_⟩
  obtain ⟨id, hid, rfl⟩ := Array.mem_iff_getElem.1 hf
  have hlinked := Module.linked_parse h id
  unfold Module.function at hlinked
  rwa [Array.getD_eq_getD_getElem?, Array.getElem?_eq_getElem hid] at hlinked

end SsaCompiler
