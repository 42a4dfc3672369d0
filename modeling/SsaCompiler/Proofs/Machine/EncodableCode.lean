import SsaCompiler.Proofs.Machine.SelectionFlaws

/-!
# Selected immediates

All selected code is encodable exactly if the numbers whose range selection does not look at are in range
(`Function.encodable_select_iff`).
-/

set_option autoImplicit false

namespace SsaCompiler

open Stateful

/-- A word that stands for a number has it as its value. -/
theorem Word.toInt_of_ofInt? {n : Int} {w : Word} (h : Word.ofInt? n = some w) : w.toInt = n := by
  unfold Word.ofInt? Word.inRange Word.minInt Word.maxInt at h
  split at h
  · rename_i hrange
    cases h
    rw [Bool.and_eq_true, decide_eq_true_iff, decide_eq_true_iff] at hrange
    exact Int32.toInt_ofInt_of_le (by omega) (by omega)
  · cases h

namespace Function

/-- The bytes that an instruction reserves in the frame. -/
def slotBytes (f : Function) (i : InstId) : Int :=
  match f.kind i with
  | .alloca words => 4 * (Int32.ofNat words).toInt
  | _ => 0

/-- The offset of the slot of an instruction: the bytes that the instructions before it reserve. -/
def slotOffset (f : Function) (i : InstId) : Int := ((f.placedInsts.takeWhile (· ≠ i)).map f.slotBytes).sum

/-- A value is the address of a slot whose offset does not fit. -/
def FarSlot (f : Function) (v : ValueId) : Prop :=
  ∃ i ∈ f.placedInsts, (∃ words, f.kind i = .alloca words) ∧ f.result? i = some v ∧
    (f.slotOffset i < -32768 ∨ 32767 < f.slotOffset i)

variable {m : Module} {f : Function} {loops : LoopForest}

/-- The bytes that have been reserved, and the offsets of the slots among some instructions. -/
structure Reserved (f : Function) (loops : LoopForest) (done : List InstId) (s : Selection) : Prop where
  blank : s.code.blocks = (f.selectionStart loops).code.blocks ∧ s.current = 0
  bytes : s.code.frameSize.toInt = (done.map f.slotBytes).sum
  only : ∀ v offset, s.slots.lookup v = some offset → ∃ before i after, done = before ++ i :: after ∧
    (∃ words, f.kind i = .alloca words) ∧ f.result? i = some v ∧ offset.toInt = (before.map f.slotBytes).sum
  all : ∀ i ∈ done, (∃ words, f.kind i = .alloca words) → ∀ v, f.result? i = some v → s.slots.lookup v ≠ none

/-- Nothing is reserved at the start. -/
theorem reserved_nil (f : Function) (loops : LoopForest) : f.Reserved loops [] (f.selectionStart loops) := by
  have hframe : ∀ (layout : List BlockId) (mf : MachineFunction),
      (layout.foldl (fun mf b => mf.addBlock (loops.blockDepth b)) mf).frameSize = mf.frameSize := by
    intro layout
    induction layout with
    | nil => exact fun _ => rfl
    | cons b layout ih => exact fun mf => ih _
  refine ⟨⟨rfl, rfl⟩, ?_, fun v offset hlookup => ?_, fun i hi => absurd hi List.not_mem_nil⟩
  · rw [selectionStart, hframe]
    rfl
  · cases hlookup

variable {s : Selection}

/-- Reserving the bytes of an instruction. -/
theorem Reserved.step {done : List InstId} {i : InstId} (h : f.Reserved loops done s) :
    Meets (fun _ => True) (Select.assignSlot f i) s fun _ s' => f.Reserved loops (done ++ [i]) s' := by
  have hold : ∀ {v offset}, s.slots.lookup v = some offset → ∃ before j after, done ++ [i] = before ++ j :: after ∧
      (∃ words, f.kind j = .alloca words) ∧ f.result? j = some v ∧ offset.toInt = (before.map f.slotBytes).sum := by
    intro v offset hlookup
    obtain ⟨before, j, after, rfl, hj⟩ := h.only v offset hlookup
    exact ⟨before, j, after ++ [i], by simp, hj⟩
  unfold Select.assignSlot
  split
  · rename_i words hkind
    refine .bind (.lift (fun _ _ => trivial) fun v hv => .bind (.lift (fun _ _ => trivial) fun bytes hbytes =>
      .bind (.get (.bind (.lift (fun _ _ => trivial) fun ⟨offset, code⟩ halloc => .modify ?_)))))
    obtain ⟨size, hsize, hpair⟩ := Outcome.bind_eq_ok.1 halloc
    cases hpair
    have hresult := result_of_resultOf hv
    have hbytes := Word.toInt_of_ofInt? (Outcome.ofOption_eq_ok.1 hbytes)
    have hsize := Word.toInt_of_ofInt? (Outcome.ofOption_eq_ok.1 hsize)
    have hslot : f.slotBytes i = bytes.toInt := by
      unfold slotBytes
      rw [hkind, hbytes]
      rfl
    have hlookup : ∀ w, List.lookup w ((v, s.code.frameSize) :: s.slots) =
        if w = v then some s.code.frameSize else s.slots.lookup w := by
      intro w
      rw [List.lookup_cons]
      split <;> simp_all
    refine ⟨h.blank, ?_, fun w offset hw => ?_, fun j hj halloc w hw => ?_⟩
    · rw [List.map_append, List.sum_append, ← h.bytes]
      simpa [hslot] using hsize
    · dsimp only at hw
      rw [hlookup] at hw
      split at hw
      · rename_i heq
        cases hw
        exact ⟨done, i, [], rfl, ⟨words, hkind⟩, heq ▸ hresult, h.bytes⟩
      · exact hold hw
    · dsimp only
      rw [hlookup]
      split
      · exact Option.some_ne_none _
      · rename_i hne
        rcases List.mem_append.1 hj with hj | hj
        · exact h.all j hj halloc w hw
        · obtain rfl := List.mem_singleton.1 hj
          exact absurd (Option.some.inj (hw.symm.trans hresult)) hne
  · rename_i hkind
    refine .pure ⟨h.blank, ?_, fun w offset hw => hold hw, fun j hj halloc w hw => ?_⟩
    · have hnone : f.slotBytes i = 0 := by
        unfold slotBytes
        split
        · rename_i words hwords
          exact absurd hwords (hkind words)
        · rfl
      rw [List.map_append, List.sum_append, ← h.bytes]
      simp [hnone]
    · rcases List.mem_append.1 hj with hj | hj
      · exact h.all j hj halloc w hw
      · obtain rfl := List.mem_singleton.1 hj
        obtain ⟨words, hwords⟩ := halloc
        exact absurd hwords (hkind words)

/-- Reserving the bytes of all instructions. -/
theorem reserved_of_run (h : (f.placedInsts.forM (Select.assignSlot f)).run (f.selectionStart loops) = .ok ((), s)) :
    f.Reserved loops f.placedInsts s := by
  have hmeets : Meets (fun _ => True) (f.placedInsts.forM (Select.assignSlot f)) (f.selectionStart loops)
      fun _ s => f.Reserved loops f.placedInsts s :=
    .forM (I := fun done s => f.Reserved loops done s) f.placedInsts (fun _ _ _ _ _ hs => hs.step) (reserved_nil f loops)
  exact hmeets.of_run h

/-- A slot is at the offset of its instruction. -/
theorem Reserved.offset {s : Selection} (h : f.Reserved loops f.placedInsts s) (hs : f.Sound) {v : ValueId} {offset : Word}
    {i : InstId} (hlookup : s.slots.lookup v = some offset) (hresult : f.result? i = some v) :
    offset.toInt = f.slotOffset i := by
  obtain ⟨before, j, after, hinsts, -, hresult', hvalue⟩ := h.only v offset hlookup
  obtain rfl : j = i := ValueKind.inst.inj ((hs.kind_of_result j v hresult').2.symm.trans (hs.kind_of_result i v hresult).2)
  have hnot : ∀ k ∈ before, (decide (k ≠ j)) = true := by
    intro k hk
    have hnodup := Edit.nodup_placedInsts hs
    rw [hinsts, List.nodup_append] at hnodup
    exact decide_eq_true (hnodup.2.2 k hk j List.mem_cons_self)
  rw [hvalue, slotOffset, hinsts, List.takeWhile_append_of_pos hnot, List.takeWhile_cons_of_neg (by simp), List.append_nil]

/-- The slots that are out of reach. -/
theorem Reserved.farSlot_iff (h : f.Reserved loops f.placedInsts s) (hs : f.Sound) (v : ValueId) :
    Select.FarSlot s.slots v ↔ f.FarSlot v := by
  constructor
  · rintro ⟨offset, hlookup, hfar⟩
    obtain ⟨before, i, after, hinsts, halloc, hresult, -⟩ := h.only v offset hlookup
    refine ⟨i, hinsts ▸ List.mem_append_right _ List.mem_cons_self, halloc, hresult, ?_⟩
    rw [← h.offset hs hlookup hresult]
    exact (Select.fitsSigned16_eq_false_iff offset).1 hfar
  · rintro ⟨i, hi, halloc, hresult, hfar⟩
    obtain ⟨offset, hlookup⟩ := Option.ne_none_iff_exists'.1 (h.all i hi halloc v hresult)
    rw [← h.offset hs hlookup hresult] at hfar
    exact ⟨offset, hlookup, (Select.fitsSigned16_eq_false_iff offset).2 hfar⟩

/-- **Which immediates are encodable.** All immediates and offsets of the selected code of a function fit their fields
exactly if it has no parameter and no argument of a call in a stack word out of reach, and no phi takes the address of a
slot out of reach. -/
theorem encodable_select_iff {mf : MachineFunction} (hs : f.Sound) (hv : f.verify = .ok ())
    (h : f.select m loops = .ok mf) :
    (∀ k, ∀ i ∈ mf.instsOf k, i.encodable = true) ↔
      f.params.length ≤ 8196 ∧
      (∀ b ∈ f.layout, ∀ i ∈ f.instsOf b, ∀ callee, f.kind i = .call callee → (f.operands i).length ≤ 8196) ∧
      ∀ b ∈ f.layout, ∀ phi ∈ f.phis b, ∀ v ∈ f.operands phi, ¬ f.FarSlot v := by
  rw [select_eq] at h
  obtain ⟨s, hselection, hlink⟩ := Outcome.bind_eq_ok.1 h
  obtain ⟨⟨⟨⟩, s₁⟩, hslots, h₁⟩ := Outcome.bind_eq_ok.1 hselection
  obtain ⟨fused, hfused, h₂⟩ := Outcome.bind_eq_ok.1 h₁
  obtain ⟨⟨⟨⟩, s₂⟩, hall, hpure⟩ := Outcome.bind_eq_ok.1 h₂
  cases hpure
  obtain ⟨hlabelled, hname, hmain, hsize, hblank⟩ := blank_spec f loops.blockDepth f.layout
  have hreserved := reserved_of_run hslots
  have hinsts : ∀ k, s₁.code.instsOf k = [] := fun k => by
    rw [← hblank k]
    unfold MachineFunction.instsOf MachineFunction.block
    rw [hreserved.blank.1]
    rfl
  have hcurrent : s₁.current < f.layout.length := by
    rw [hreserved.blank.2]
    obtain ⟨e, rest, hlayout, -⟩ := (regular_of_verify hs hv).entry
    rw [hlayout]
    exact Nat.succ_pos _
  have hgrows := ((Select.flaws_selectAll { module := m, func := f, fused } s₁ rfl).of_run hall).1
  obtain ⟨-, hflawed⟩ := hgrows.flawed (hreserved.blank.1 ▸ hsize) hcurrent
  have hclean : (∀ k, ∀ i ∈ mf.instsOf k, i.encodable = true) ↔ ¬ s.Flawed := by
    unfold Selection.Flawed
    simp only [MachineFunction.instsOf_linkBlocks hlink, not_exists, not_and, Bool.not_eq_false]
  have hblankFlaw : ¬ s₁.Flawed := by
    rintro ⟨k, i, hi, -⟩
    rw [hinsts] at hi
    exact absurd hi List.not_mem_nil
  -- A call is no comparison, so it is not fused into a branch.
  have hselected : ∀ b i callee, f.kind i = .call callee →
      (i ∈ (f.instsOf b).filter (fun i => !fused.contains i) ↔ i ∈ f.instsOf b) := by
    intro b i callee hkind
    rw [List.mem_filter, Bool.not_eq_true', and_iff_left_iff_imp]
    intro _
    by_contra hin
    obtain ⟨c, -, hcompare⟩ := exists_fusable hfused (by simpa using hin)
    obtain ⟨before, t, op, -, hbinary, -⟩ := fusableCompare?_eq_some hcompare
    cases hkind.symm.trans hbinary
  rw [hclean, hflawed, or_iff_right hblankFlaw, not_or, not_or, Nat.not_lt]
  refine and_congr_right fun _ => and_congr ?_ ?_
  · constructor
    · intro hfar b hb i hi callee hkind
      by_contra hlt
      exact hfar ⟨b, hb, i, (hselected b i callee hkind).2 hi, ⟨callee, hkind⟩, Nat.not_le.1 hlt⟩
    · rintro hnear ⟨b, hb, i, hi, ⟨callee, hkind⟩, hlt⟩
      exact absurd (hnear b hb i ((hselected b i callee hkind).1 hi) callee hkind) (Nat.not_le.2 hlt)
  · simp only [hreserved.farSlot_iff hs, not_exists, not_and]

/-- A computation that succeeds has a result. -/
theorem exists_of_toBool {ε α : Type} {act : Except ε α} (h : act.toBool = true) : ∃ a, act = .ok a := by
  cases act with
  | ok a => exact ⟨a, rfl⟩
  | error e => cases h

/-- A phi takes the address of a slot behind a large one. -/
def slotInPhi : Function where
  name := "main"
  returnsValue := true
  values := #[
    { kind := .inst 0, name := some "p", uses := [⟨4, 0⟩] },
    { kind := .inst 1, name := some "b" },
    { kind := .inst 2, name := some "x", uses := [⟨0, 0⟩] },
    { kind := .const 0, uses := [⟨4, 1⟩] },
    { kind := .inst 4, name := some "v", uses := [⟨5, 0⟩] }]
  insts := #[
    { kind := .phi, operands := [2], result := some 0, block := some 1 },
    { kind := .alloca 9000, operands := [], result := some 1, block := some 0 },
    { kind := .alloca 1, operands := [], result := some 2, block := some 0 },
    { kind := .jump 1, operands := [], result := none, block := some 0 },
    { kind := .load, operands := [0, 3], result := some 4, block := some 1 },
    { kind := .ret, operands := [4], result := none, block := some 1 }]
  blocks := #[
    { name := "entry", insts := [1, 2, 3] },
    { name := "m", insts := [0, 4, 5], preds := [0] }]
  layout := [0, 1]

/-- It is read from text. -/
theorem produced_slotInPhi : slotInPhi.Produced := by
  have hread : Module.parse ("func @main() -> int \x7b\nentry:\n %b = alloca [9000]\n %x = alloca [1]\n jump ^m\nm:\n" ++
      " %p = phi [^entry, %x]\n %v = load %p, 0\n ret %v\n\x7d") = .ok { functions := #[slotInPhi] } := by cbv
  exact .read hread (Array.mem_singleton.2 rfl)

/-- The copy into the register of its phi adds 36000 to the stack pointer in one instruction. -/
theorem encodable_select_iff_slotInPhi : slotInPhi.Sound ∧ slotInPhi.verify = .ok () ∧
    ∃ tree mf, DominatorTree.ofCfg slotInPhi.cfg = .ok tree ∧
      slotInPhi.select { functions := #[slotInPhi] } (LoopForest.ofCfg slotInPhi.cfg tree) = .ok mf ∧
      ¬ ∀ k, ∀ i ∈ mf.instsOf k, i.encodable = true := by
  have hverify : slotInPhi.verify = .ok () := by cbv
  obtain ⟨mf, hmf⟩ : ∃ mf, (DominatorTree.ofCfg slotInPhi.cfg >>= fun tree =>
      slotInPhi.select { functions := #[slotInPhi] } (LoopForest.ofCfg slotInPhi.cfg tree)) = .ok mf :=
    exists_of_toBool (by cbv)
  obtain ⟨tree, htree, hselect⟩ := Outcome.bind_eq_ok.1 hmf
  refine ⟨produced_slotInPhi.sound, hverify, tree, mf, htree, hselect, fun hall => ?_⟩
  obtain ⟨-, -, hnear⟩ := (encodable_select_iff produced_slotInPhi.sound hverify hselect).1 hall
  refine hnear 1 (by decide) 0 (by decide) 2 (by decide) ⟨2, by decide, ⟨1, rfl⟩, rfl, .inr ?_⟩
  decide

end Function

end SsaCompiler
