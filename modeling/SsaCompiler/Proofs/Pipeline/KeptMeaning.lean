import SsaCompiler.Proofs.Ir.PromotedSlots
import SsaCompiler.Proofs.Text.ReadModules
import Mathlib

/-!
# Passes keep the meaning of functions

The passes over functions that come from text: what a function shows when it runs is the same before and
after a pass that succeeds.
-/

set_option autoImplicit false

namespace SsaCompiler

namespace Function

variable {f : Function}

/-- A function that comes from text and passes verification is well-formed if its uses are dominated by
their definitions and its phis agree. -/
theorem Produced.wellFormed (hf : f.Produced) (hv : f.verify = .ok ()) (hstrict : f.Strict) (hagree : f.AgreeingPhis) :
    f.WellFormed :=
  ⟨hf.sound, regular_of_verify hf.sound hv, hstrict, hagree⟩

/-- Whether a value is computed by one of the given instructions or, in a block other than the entry, by one of the
entry, if it is computed at all. -/
def isGiven (f : Function) (b : BlockId) (before : List InstId) (v : ValueId) : Bool :=
  match (f.value v).kind with
  | .inst i => before.contains i || (f.layout.head? != some b && f.blockOf? i == f.layout.head?)
  | _ => true

/-- Whether every instruction reads only what its own block computes before it or what the entry computes, and every
phi only what the predecessor or the entry computes. -/
def readsLocally (f : Function) : Bool :=
  !f.layout.isEmpty && (List.range f.blocks.size).all fun b => (f.instsOf b).zipIdx.all fun (i, k) =>
    if (f.kind i).isPhi then
      ((f.preds b).zip (f.operands i)).all fun (p, v) => f.isGiven p (f.instsOf p).dropLast v
    else (f.operands i).all (f.isGiven b ((f.instsOf b).take k))

variable {b : BlockId}

/-- A given value is available. -/
theorem available_of_isGiven (hentry : f.layout ≠ []) {before : List InstId} {v : ValueId}
    (h : f.isGiven b before v = true) : f.Available b before v := by
  intro i hi
  unfold isGiven at h
  rw [hi] at h
  obtain ⟨e, rest, hlayout⟩ := List.exists_cons_of_ne_nil hentry
  have he : f.layout.head? = some e := by rw [hlayout]; rfl
  rcases Bool.or_eq_true_iff.1 h with hin | hin
  · exact .inl (List.contains_iff_mem.1 hin)
  · obtain ⟨hne, hblock⟩ := Bool.and_eq_true_iff.1 hin
    rw [he] at hne hblock
    refine .inr ⟨e, eq_of_beq hblock, ?_, .of_entry he b⟩
    rintro rfl
    exact bne_iff_ne.1 hne rfl

/-- Instructions of blocks that do not exist. -/
theorem instsOf_of_size_le (h : f.blocks.size ≤ b) : f.instsOf b = [] := by
  unfold instsOf block
  rw [Array.getD_eq_getD_getElem?, Array.getElem?_eq_none h]
  rfl

/-- Reading locally is strict. -/
theorem strict_of_readsLocally (h : f.readsLocally = true) : f.Strict := by
  obtain ⟨hlayout, h⟩ := Bool.and_eq_true_iff.1 h
  have hentry : f.layout ≠ [] := by
    intro hnil
    rw [hnil] at hlayout
    cases hlayout
  have hat : ∀ b before i after, f.instsOf b = before ++ i :: after →
      (if (f.kind i).isPhi then
        ((f.preds b).zip (f.operands i)).all fun (p, v) => f.isGiven p (f.instsOf p).dropLast v
      else (f.operands i).all (f.isGiven b before)) = true := by
    intro b before i after hinsts
    have hlt : b < f.blocks.size := by
      by_contra hge
      rw [instsOf_of_size_le (Nat.le_of_not_lt hge)] at hinsts
      simp at hinsts
    have hone := List.all_eq_true.1 (List.all_eq_true.1 h b (List.mem_range.2 hlt)) (i, before.length) (by
      rw [List.mem_zipIdx_iff_getElem?, hinsts]
      simp)
    simpa [hinsts] using hone
  constructor
  · intro b before i after _ hinsts hphi v hv
    have hall := hat b before i after hinsts
    rw [if_neg (by simp [hphi])] at hall
    exact available_of_isGiven hentry (List.all_eq_true.1 hall v hv)
  · intro b i _ hi hphi p v _ hfeeds
    obtain ⟨before, after, hinsts⟩ := List.append_of_mem hi
    have hall := hat b before i after hinsts
    rw [if_pos hphi] at hall
    exact available_of_isGiven hentry (List.all_eq_true.1 hall (p, v) hfeeds)

/-- Agreement of phis, slot by slot. -/
theorem agreeing_iff : f.AgreeingPhis ↔ ∀ b ∈ f.layout, ∀ i ∈ f.instsOf b, (f.kind i).isPhi = true →
    ∀ e ∈ (f.preds b).zip (f.operands i), ∀ e' ∈ (f.preds b).zip (f.operands i), e.1 = e'.1 → e.2 = e'.2 := by
  constructor
  · intro h b hb i hi hphi e he e' he' heq
    exact h b hb i hi hphi e.1 e.2 e'.2 he (heq ▸ he')
  · intro h b hb i hi hphi p v v' hv hv'
    exact h b hb i hi hphi (p, v) hv (p, v') hv' rfl

/-- Simplifying control flow keeps what a function shows. -/
theorem sameMeaning_simplify {f f' : Function} {count : Nat} (hf : f.Produced) (hv : f.verify = .ok ())
    (hstrict : f.Strict) (hagree : f.AgreeingPhis) (h : Edit.simplify.run f = (.ok count, f')) :
    f.SameMeaning f' :=
  (Edit.simplify_keeps (hf.wellFormed hv hstrict hagree) h).2

/-- A branch on a constant whose arms meet in a phi. -/
def constantBranch : Function where
  name := "main"
  returnsValue := true
  values := #[
    { kind := .inst 0, name := some "p", uses := [⟨4, 0⟩] },
    { kind := .const 1, uses := [⟨1, 0⟩] },
    { kind := .const 7, uses := [⟨0, 0⟩] },
    { kind := .const 8, uses := [⟨0, 1⟩] }]
  insts := #[
    { kind := .phi, operands := [2, 3], result := some 0, block := some 3 },
    { kind := .branch 1 2, operands := [1], result := none, block := some 0 },
    { kind := .jump 3, operands := [], result := none, block := some 1 },
    { kind := .jump 3, operands := [], result := none, block := some 2 },
    { kind := .ret, operands := [0], result := none, block := some 3 }]
  blocks := #[
    { name := "entry", insts := [1] },
    { name := "a", insts := [2], preds := [0] },
    { name := "b", insts := [3], preds := [0] },
    { name := "c", insts := [0, 4], preds := [1, 2] }]
  layout := [0, 1, 2, 3]

/-- Its text. -/
def constantBranchText : ReadText where
  text := "func @main() -> int \x7b\nentry:\n" ++ " br 1, ^a, ^b\na:\n jump ^c\nb:\n jump ^c\n" ++
    "c:\n %p = phi [^a, 7], [^b, 8]\n" ++ " ret %p\n\x7d"
  module := { functions := #[constantBranch] }
  parse := by
    simp only [Module.parse, Source.tokenLines, Text.lines, String.toList_append]
    cbv

theorem produced_constantBranch : constantBranch.Produced := constantBranchText.produced (Array.mem_singleton.2 rfl)

/-- Verification accepts it. -/
theorem verify_constantBranch : constantBranch.verify = .ok () := by cbv

/-- Its phi is read behind it, in its own block. -/
theorem strict_constantBranch : constantBranch.Strict := strict_of_readsLocally (by decide)

/-- Its phi takes one value from each arm. -/
theorem agreeing_constantBranch : constantBranch.AgreeingPhis := agreeing_iff.2 (by decide)

/-- Four steps simplify it. -/
theorem simplify_constantBranch : Edit.simplify.run constantBranch = (.ok 4, (Edit.simplify.run constantBranch).2) := by
  have hrun : (Edit.simplify.run constantBranch).1 = .ok 4 := by cbv
  exact Prod.ext hrun rfl

/-- The branch is folded, and the return gives the number of the arm that is taken. -/
theorem sameMeaning_simplify_constantBranch :
    ∃ f', Edit.simplify.run constantBranch = (.ok 4, f') ∧ constantBranch.SameMeaning f' :=
  ⟨_, simplify_constantBranch, sameMeaning_simplify produced_constantBranch verify_constantBranch strict_constantBranch
    agreeing_constantBranch simplify_constantBranch⟩

/-- Promoting slots keeps what a function shows but for the words of the slots, wherever those words are, as long as
they are different words that are zero at the start, callees leave them alone, and the function accesses them as the
slots alone. The slots are those of the simplified function. -/
theorem sameRuns_promote {f f' : Function} {stats : PromotionStats} (hf : f.Produced) (hv : f.verify = .ok ())
    (hstrict : f.Strict) (hagree : f.AgreeingPhis) (h : Edit.promote.run f = (.ok stats, f')) :
    ∃ steps g slots, Edit.simplify.run f = (.ok steps, g) ∧ Edit.promotableSlots g = .ok slots ∧
      ∀ (W : Type) (env : IrEnv W) (m : Memory) (w : W), SlotPlan.Promoted.Apart slots g env m w →
        Runs.SameRuns (Runs.observe (IrEvent.isOutside (slots.map fun e => env.slot e.1)) (f.step env)) (f.start m w)
          (Runs.observe (IrEvent.isOutside (slots.map fun e => env.slot e.1)) (f'.step env)) (f'.start m w) :=
  Edit.promote_keeps (hf.wellFormed hv hstrict hagree) h

/-- Both arms of a branch store to a slot that is loaded where they meet. -/
def storedInArms : Function where
  name := "main"
  returnsValue := true
  params := [0]
  values := #[
    { kind := .param 0, name := some "c", uses := [⟨1, 0⟩] },
    { kind := .inst 0, name := some "a", uses := [⟨2, 0⟩, ⟨4, 0⟩, ⟨6, 0⟩] },
    { kind := .const 0, uses := [⟨2, 1⟩, ⟨4, 1⟩, ⟨6, 1⟩] },
    { kind := .const 7, uses := [⟨2, 2⟩] },
    { kind := .const 8, uses := [⟨4, 2⟩] },
    { kind := .inst 6, name := some "x", uses := [⟨7, 0⟩] }]
  insts := #[
    { kind := .alloca 1, operands := [], result := some 1, block := some 0 },
    { kind := .branch 1 2, operands := [0], result := none, block := some 0 },
    { kind := .store, operands := [1, 2, 3], result := none, block := some 1 },
    { kind := .jump 3, operands := [], result := none, block := some 1 },
    { kind := .store, operands := [1, 2, 4], result := none, block := some 2 },
    { kind := .jump 3, operands := [], result := none, block := some 2 },
    { kind := .load, operands := [1, 2], result := some 5, block := some 3 },
    { kind := .ret, operands := [5], result := none, block := some 3 }]
  blocks := #[
    { name := "entry", insts := [0, 1] },
    { name := "l", insts := [2, 3], preds := [0] },
    { name := "r", insts := [4, 5], preds := [0] },
    { name := "m", insts := [6, 7], preds := [1, 2] }]
  layout := [0, 1, 2, 3]

/-- Its text. -/
def storedInArmsText : ReadText where
  text := "func @main(%c) -> int \x7b\nentry:\n" ++ " %a = alloca [1]\n br %c, ^l, ^r\nl:\n" ++
    " store %a, 0, 7\n jump ^m\nr:\n" ++ " store %a, 0, 8\n jump ^m\nm:\n" ++ " %x = load %a, 0\n ret %x\n\x7d"
  module := { functions := #[storedInArms] }
  parse := by
    simp only [Module.parse, Source.tokenLines, Text.lines, String.toList_append]
    cbv

theorem produced_storedInArms : storedInArms.Produced := storedInArmsText.produced (Array.mem_singleton.2 rfl)

/-- Verification accepts it. -/
theorem verify_storedInArms : storedInArms.verify = .ok () := by cbv

/-- The address of its slot comes from the entry, and what is loaded is read in the same block. -/
theorem strict_storedInArms : storedInArms.Strict := strict_of_readsLocally (by decide)

/-- It has no phis. -/
theorem agreeing_storedInArms : storedInArms.AgreeingPhis := agreeing_iff.2 (by decide)

/-- Nothing in it is simplified. -/
theorem simplify_storedInArms : Edit.simplify.run storedInArms = (.ok 0, storedInArms) := by cbv

/-- Its slot is promoted, with one phi. -/
theorem promote_storedInArms : Edit.promote.run storedInArms =
    (.ok { promoted := 1, phisInserted := 1 }, (Edit.promote.run storedInArms).2) := by
  have hrun : (Edit.promote.run storedInArms).1 = .ok { promoted := 1, phisInserted := 1 } := by cbv
  exact Prod.ext hrun rfl

/-- Surroundings with the argument one and the slot at a fixed address; there are no callees. -/
def oneArgument : IrEnv Unit where
  arg _ := 1
  global _ := 0
  str _ := 0
  slot _ := 400
  call _ _ _ _ := none
  print _ _ _ := ()

/-- The slot is apart: all its loads and stores have its address as their base. -/
theorem apart_storedInArms : SlotPlan.Promoted.Apart [(0, 1)] storedInArms oneArgument (fun _ => 0) () :=
  ⟨by decide, fun _ _ => rfl, fun _ _ _ _ _ _ => rfl,
    SlotPlan.Promoted.accessedAsSlots_of_passes (n := 10) rfl⟩

/-- The slot gives way to a phi, and the function still returns the number that was stored in the arm taken. -/
theorem sameRuns_promote_storedInArms :
    ∃ f', Edit.promote.run storedInArms = (.ok { promoted := 1, phisInserted := 1 }, f') ∧
      Runs.SameRuns (Runs.observe (IrEvent.isOutside [400]) (storedInArms.step oneArgument))
        (storedInArms.start (fun _ => 0) ())
        (Runs.observe (IrEvent.isOutside [400]) (f'.step oneArgument)) (f'.start (fun _ => 0) ()) := by
  obtain ⟨steps, g, slots, hsimplify, hslots, hsame⟩ := sameRuns_promote produced_storedInArms verify_storedInArms
    strict_storedInArms agreeing_storedInArms promote_storedInArms
  rw [simplify_storedInArms] at hsimplify
  obtain ⟨-, rfl⟩ := Prod.mk.inj hsimplify
  have hslot : Edit.promotableSlots storedInArms = .ok [(0, 1)] := by cbv
  rw [hslot] at hslots
  cases hslots
  exact ⟨_, promote_storedInArms, hsame Unit oneArgument (fun _ => 0) () apart_storedInArms⟩

/-- A function with two slots of one word, which stores behind the end of a third slot between storing to the first one
and loading from it. -/
def straySlots : Function where
  name := "main"
  returnsValue := true
  values := #[
    { kind := .inst 0, name := some "x", uses := [⟨3, 0⟩, ⟨7, 0⟩] },
    { kind := .inst 1, name := some "y", uses := [⟨5, 0⟩] },
    { kind := .inst 2, name := some "z", uses := [⟨4, 0⟩] },
    { kind := .const 0, uses := [⟨3, 1⟩, ⟨4, 1⟩, ⟨7, 1⟩] },
    { kind := .const 1, uses := [⟨3, 2⟩, ⟨5, 1⟩] },
    { kind := .const 2, uses := [⟨4, 2⟩] },
    { kind := .const 5, uses := [⟨5, 2⟩] },
    { kind := .const 7, uses := [⟨6, 0⟩] },
    { kind := .inst 7, name := some "v", uses := [⟨8, 0⟩] }]
  insts := #[
    { kind := .alloca 1, operands := [], result := some 0, block := some 0 },
    { kind := .alloca 1, operands := [], result := some 1, block := some 0 },
    { kind := .alloca 1, operands := [], result := some 2, block := some 0 },
    { kind := .store, operands := [0, 3, 4], result := none, block := some 0 },
    { kind := .store, operands := [2, 3, 5], result := none, block := some 0 },
    { kind := .store, operands := [1, 4, 6], result := none, block := some 0 },
    { kind := .call (.builtin .putInt), operands := [7], result := none, block := some 0 },
    { kind := .load, operands := [0, 3], result := some 8, block := some 0 },
    { kind := .ret, operands := [8], result := none, block := some 0 }]
  blocks := #[{ name := "entry", insts := [0, 1, 2, 3, 4, 5, 6, 7, 8] }]
  layout := [0]

/-- Its text. -/
def straySlotsText : ReadText where
  text := "func @main() -> int \x7b\nentry:\n" ++ " %x = alloca [1]\n %y = alloca [1]\n" ++
    " %z = alloca [1]\n store %x, 0, 1\n" ++ " store %z, 0, 2\n store %y, 1, 5\n" ++
    " call @putint(7)\n %v = load %x, 0\n" ++ " ret %v\n\x7d"
  module := { functions := #[straySlots] }
  parse := by
    simp only [Module.parse, Source.tokenLines, Text.lines, String.toList_append]
    cbv

theorem produced_straySlots : straySlots.Produced := straySlotsText.produced (Array.mem_singleton.2 rfl)

/-- The function with its first and third slot promoted: it returns the number that it stored to the first one. -/
def straySlotsPromoted : Function :=
  { straySlots with
    values := #[
      { kind := .inst 0, name := some "x", live := false },
      { kind := .inst 1, name := some "y", uses := [⟨5, 0⟩] },
      { kind := .inst 2, name := some "z", live := false },
      { kind := .const 0 },
      { kind := .const 1, uses := [⟨5, 1⟩, ⟨8, 0⟩] },
      { kind := .const 2 },
      { kind := .const 5, uses := [⟨5, 2⟩] },
      { kind := .const 7, uses := [⟨6, 0⟩] },
      { kind := .inst 7, name := some "v", live := false }]
    insts := #[
      { kind := .alloca 1, operands := [], result := some 0 },
      { kind := .alloca 1, operands := [], result := some 1, block := some 0 },
      { kind := .alloca 1, operands := [], result := some 2 },
      { kind := .store, operands := [], result := none },
      { kind := .store, operands := [], result := none },
      { kind := .store, operands := [1, 4, 6], result := none, block := some 0 },
      { kind := .call (.builtin .putInt), operands := [7], result := none, block := some 0 },
      { kind := .load, operands := [], result := some 8 },
      { kind := .ret, operands := [4], result := none, block := some 0 }]
    blocks := #[{ name := "entry", insts := [1, 5, 6, 8] }] }

/-- Both slots are promoted. -/
theorem promote_straySlots : Edit.promote.run straySlots = (.ok { promoted := 2 }, straySlotsPromoted) := by
  cbv

/-- Surroundings with the three slots at fixed addresses, and what a callee makes of memory. -/
def slotsAt (x y z : Word) (change : Memory → Memory) : IrEnv Unit :=
  { oneArgument with
    slot := fun i => if i = 0 then x else if i = 1 then y else z
    call := fun _ _ m _ => some (change m, 0, ()) }

/-- Promotion changes what the function shows apart from the words of the promoted slots. -/
def PromotionAlters (env : IrEnv Unit) : Prop :=
  ¬ Runs.SameRuns (Runs.observe (IrEvent.isOutside [env.slot 0, env.slot 2]) (straySlots.step env))
    (straySlots.start (fun _ => 0) ())
    (Runs.observe (IrEvent.isOutside [env.slot 0, env.slot 2]) (straySlotsPromoted.step env))
    (straySlotsPromoted.start (fun _ => 0) ())

/-- Callees that leave memory alone respect all words. -/
theorem respects_slotsAt (x y z : Word) (words : List Word) : (slotsAt x y z id).Respects words :=
  fun _ _ _ _ _ hoff => ⟨fun _ _ => rfl, _, rfl, hoff⟩

/-- Three surroundings in which the function returns something else than the number that it stored to the first slot:
the word behind the second slot is that of the first one; a callee overwrites it; or the third slot is at the same
address. In each of them the slots are kept apart in the other ways. -/
theorem not_sameRuns_promote : straySlots.Produced ∧ straySlots.verify = .ok () ∧ straySlots.Strict ∧
    straySlots.AgreeingPhis ∧ Edit.promote.run straySlots = (.ok { promoted := 2 }, straySlotsPromoted) ∧
    (PromotionAlters (slotsAt 1004 1000 2000 id) ∧ ([1004, 2000] : List Word).Nodup ∧
      (slotsAt 1004 1000 2000 id).Respects [1004, 2000]) ∧
    (PromotionAlters (slotsAt 1004 3000 2000 fun _ _ => 77) ∧ ([1004, 2000] : List Word).Nodup ∧
      SlotPlan.Promoted.AccessedAsSlots [(0, 0), (2, 2)] straySlots (slotsAt 1004 3000 2000 fun _ _ => 77) (fun _ => 0) ()) ∧
    (PromotionAlters (slotsAt 1004 3000 1004 id) ∧ (slotsAt 1004 3000 1004 id).Respects [1004, 1004] ∧
      SlotPlan.Promoted.AccessedAsSlots [(0, 0), (2, 2)] straySlots (slotsAt 1004 3000 1004 id) (fun _ => 0) ()) := by
  have hverify : straySlots.verify = .ok () := by cbv
  refine ⟨produced_straySlots, hverify, strict_of_readsLocally (by decide), agreeing_iff.2 (by decide), promote_straySlots,
    ⟨?_, by decide, respects_slotsAt _ _ _ _⟩, ⟨?_, by decide, ?_⟩, ?_, respects_slotsAt _ _ _ _, ?_⟩
  · exact Runs.not_sameRuns_of_outcomes (n := 10) (m := 10) (o := .returned (some 5)) rfl
      (by rfl : _ = some (.returned (some 1))) (by decide)
  · exact Runs.not_sameRuns_of_outcomes (n := 10) (m := 10) (o := .returned (some 77)) rfl
      (by rfl : _ = some (.returned (some 1))) (by decide)
  · exact SlotPlan.Promoted.accessedAsSlots_of_passes (n := 10) rfl
  · exact Runs.not_sameRuns_of_outcomes (n := 10) (m := 10) (o := .returned (some 2)) rfl
      (by rfl : _ = some (.returned (some 1))) (by decide)
  · exact SlotPlan.Promoted.accessedAsSlots_of_passes (n := 10) rfl

end Function

end SsaCompiler
