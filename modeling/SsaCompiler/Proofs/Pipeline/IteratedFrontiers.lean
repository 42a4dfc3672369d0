import SsaCompiler.Proofs.Pipeline.TotalPasses

/-!
# Phis on iterated frontiers

A slot gets one phi in every block of the least set that has the dominance frontiers of the blocks with stores to it
and is closed under dominance frontiers, and no phi elsewhere. The blocks of the function that promotion has listed are
all reachable, but nothing here depends on that: a block that no path reaches has no frontier and is on none.
-/

set_option autoImplicit false

namespace SsaCompiler

namespace Function

/-- A block is on the dominance frontier of another one, which dominates a predecessor of it but does not strictly
dominate the block itself. -/
def InFrontier (f : Function) (x y : BlockId) : Prop :=
  f.Reach x ∧ ∃ p, f.Reach p ∧ f.Edge p y ∧ f.Dominates x p ∧ ¬ (x ≠ y ∧ f.Dominates x y)

/-- The blocks that need a phi for a slot: the iterated dominance frontier of the blocks with a store to it. -/
def NeedsPhi (f : Function) (address : ValueId) : BlockId → Prop :=
  IteratedFrontier f.InFrontier (Edit.StoresTo f · address)

/-- The instructions of a block that were placed for a slot. -/
def placedFor (f : Function) (entries : List (InstId × Nat)) (b : BlockId) (k : Nat) : List InstId :=
  (f.instsOf b).filter fun i => entries.contains (i, k)

/-- The second function is the first one with phis for some slots. -/
structure PhisPlaced (f f' : Function) (slots : List ValueId) (entries : List (InstId × Nat)) : Prop where
  /-- A block that needs a phi for a slot has got exactly one. -/
  one : ∀ k address, slots[k]? = some address → ∀ b, f.NeedsPhi address b →
    ∃ phi, f'.placedFor entries b k = [phi]
  /-- Other blocks have got none. -/
  none : ∀ k address, slots[k]? = some address → ∀ b, ¬ f.NeedsPhi address b → f'.placedFor entries b k = []
  /-- What was placed is a phi at the head of a block, with one operand for each predecessor. -/
  phi : ∀ e ∈ entries, e.2 < slots.length ∧ ∃ b ∈ f'.layout, e.1 ∈ f'.phis b ∧
    (f'.operands e.1).length = (f'.preds b).length
  /-- The instructions that were made are the placed ones, each for one slot. -/
  made : ∀ i, i ∈ entries.map Prod.fst ↔ f.insts.size ≤ i ∧ i < f'.insts.size
  nodup : (entries.map Prod.fst).Nodup
  /-- The other instructions of a block stand as before, in the same graph. -/
  kept : ∀ b, (f'.instsOf b).filter (· < f.insts.size) = f.instsOf b
  graph : f'.layout = f.layout ∧ ∀ b, f'.preds b = f.preds b
  /-- There are as many phis as blocks need, over all slots. -/
  count : entries.length = (slots.map fun address => {b | f.NeedsPhi address b}.ncard).sum

end Function

namespace Grown

variable {f c f' : Function} {zero : ValueId} {new : BlockId → List InstId} {entries : List (InstId × Nat)}

section

variable (h : Grown f c f' zero (fun _ => []) new entries)

include h

/-- An added phi stands in the block that lists it. -/
theorem blockOf? {b : BlockId} {i : InstId} (hi : i ∈ new b) : f'.blockOf? i = some b :=
  (h.reshaped.sound.placed b i).1 (by
    rw [h.reshaped.insts]
    exact List.mem_append_left _ (List.mem_append_right _ hi))

/-- There is one phi of a slot for each block that has got one. -/
theorem ncard_slotPhi (k : Nat) :
    {b | SlotPhi new entries b k}.ncard = (entries.toFinset.filter fun e => e.2 = k).card := by
  have hset : {b | SlotPhi new entries b k} =
      ((entries.toFinset.filter fun e => e.2 = k).image fun e => (f'.blockOf? e.1).getD 0 : Finset BlockId) := by
    ext b
    simp only [Set.mem_setOf_eq, Finset.coe_image, Finset.coe_filter, List.mem_toFinset, Set.mem_image, Prod.exists]
    constructor
    · rintro ⟨phi, hin, hb⟩
      exact ⟨phi, k, ⟨hin, rfl⟩, by rw [h.blockOf? hb]; rfl⟩
    · rintro ⟨phi, _, ⟨hin, rfl⟩, hb⟩
      obtain ⟨d, -, hd⟩ := h.site _ hin
      rw [h.blockOf? hd] at hb
      obtain rfl : d = b := hb
      exact ⟨phi, hin, hd⟩
  rw [hset, Set.ncard_coe_finset]
  refine Finset.card_image_of_injOn ?_
  rintro ⟨phi, k₁⟩ hphi ⟨phi', k₂⟩ hphi' heq
  rw [Finset.mem_coe, Finset.mem_filter, List.mem_toFinset] at hphi hphi'
  obtain ⟨hin, rfl⟩ := hphi
  obtain ⟨hin', hk⟩ := hphi'
  obtain rfl : k₂ = k₁ := hk
  obtain ⟨b, -, hb⟩ := h.site _ hin
  obtain ⟨b', -, hb'⟩ := h.site _ hin'
  dsimp only at heq hb hb'
  rw [h.blockOf? hb, h.blockOf? hb'] at heq
  obtain rfl : b = b' := heq
  rw [h.one b _ phi phi' hin hin' hb hb']

/-- The added phis counted slot by slot. -/
theorem length_entries {n : Nat} (hn : ∀ e ∈ entries, e.2 < n) :
    entries.length = ∑ k : Fin n, {b | SlotPhi new entries b k}.ncard := by
  have hmaps : (entries.toFinset : Set (InstId × Nat)).MapsTo Prod.snd (Finset.range n) := fun e he =>
    Finset.mem_coe.2 (Finset.mem_range.2 (hn e (List.mem_toFinset.1 (Finset.mem_coe.1 he))))
  calc entries.length = entries.toFinset.card := (List.toFinset_card_of_nodup (h.nodup.of_map _)).symm
    _ = ∑ k ∈ Finset.range n, (entries.toFinset.filter fun e => e.2 = k).card :=
      Finset.card_eq_sum_card_fiberwise hmaps
    _ = ∑ k : Fin n, {b | SlotPhi new entries b k}.ncard := by
      rw [Finset.sum_range]
      exact Finset.sum_congr rfl fun k _ => (h.ncard_slotPhi k).symm

end

end Grown

namespace Edit

open Edits

variable {f f' : Function}

variable {tree : DominatorTree}

/-- The frontiers of the tree are those of the paths. -/
theorem mem_frontierOf_iff_inFrontier (hw : f.Wired) (htree : DominatorTree.ofCfg f.cfg = .ok tree) (x y : BlockId) :
    y ∈ tree.frontierOf x ↔ f.InFrontier x y := by
  refine ((mem_frontierOf_iff hw htree x).2 y).trans (and_congr_right fun _ => exists_congr fun p => ?_)
  rw [not_and', not_ne_iff]

/-- Placing the phis of some slots. -/
theorem phisPlaced_of_run (hs : f.Sound) (hw : f.Wired) (htree : DominatorTree.ofCfg f.cfg = .ok tree)
    {slots : List ValueId} {entries : List (InstId × Nat)}
    (hrun : (placeAllPhis tree slots).run f = (.ok entries, f')) : f.PhisPlaced f' slots entries := by
  obtain ⟨c, zero, new, hmore, -, -, h, hlabels, hiterated⟩ :=
    placeAllPhis_spec (frontierBounds hw htree) hs hw.phis_first hrun
  have hneeds : ∀ k address, slots[k]? = some address → ∀ b, SlotPhi new entries b k ↔ f.NeedsPhi address b :=
    fun k address hk b => (hiterated k address hk b).trans
      (IteratedFrontier.congr (mem_frontierOf_iff_inFrontier hw htree) fun _ => Iff.rfl)
  have hfresh : ∀ e ∈ entries, f.insts.size ≤ e.1 := fun e he => hmore.insts_size ▸ (h.keys e he).1
  have hplaced : ∀ b k i, i ∈ f'.placedFor entries b k ↔ (i, k) ∈ entries ∧ i ∈ new b := by
    intro b k i
    rw [Function.placedFor, List.mem_filter, List.contains_iff_mem, and_comm]
    refine and_congr_right fun hin => ⟨fun hi => ?_, fun hi => (h.reshaped.sound.placed b i).2 (h.blockOf? hi)⟩
    rw [h.reshaped.insts] at hi
    -- The old instructions of the block have smaller numbers.
    have hold : i ∉ f.instsOf b := fun hi => Nat.not_lt.2 (hfresh _ hin) (hs.lt_insts_size hi)
    rcases List.mem_append.1 hi with hi | hi
    · exact (List.mem_append.1 hi).resolve_left fun hi => hold ((List.takeWhile_sublist _).subset hi)
    · exact absurd ((List.dropWhile_sublist _).subset (List.mem_of_mem_filter hi)) hold
  refine ⟨fun k address hk b hb => ?_, fun k address hk b hb => ?_, fun e he => ⟨hlabels e he, ?_⟩, fun i => ?_, h.nodup,
    fun b => ?_, ⟨h.reshaped.layout, h.reshaped.preds⟩, ?_⟩
  · obtain ⟨phi, hin, hphi⟩ := (hneeds k address hk b).2 hb
    refine ⟨phi, List.perm_singleton.1 ((List.perm_ext_iff_of_nodup ?_ (List.nodup_singleton phi)).2 fun i => ?_)⟩
    · exact (h.reshaped.sound.nodup b).filter _
    · rw [hplaced, List.mem_singleton]
      constructor
      · exact fun hi => h.one b k i phi hi.1 hin hi.2 hphi
      · rintro rfl
        exact ⟨hin, hphi⟩
  · refine List.eq_nil_iff_forall_not_mem.2 fun i hi => hb ((hneeds k address hk b).1 ?_)
    exact ⟨i, (hplaced b k i).1 hi⟩
  · obtain ⟨b, hlisted, hb⟩ := h.site e he
    refine ⟨b, h.reshaped.layout ▸ hlisted, ?_, ?_⟩
    · rw [(h.reshaped.phis_eq hs hw.phis_first hlisted).1]
      exact List.mem_append_right _ hb
    · rw [(h.filled e he b hb).1, List.length_replicate, h.reshaped.preds]
  · rw [← hmore.insts_size]
    refine ⟨fun hi => ?_, fun hi => h.cover i hi.1 hi.2⟩
    obtain ⟨e, he, rfl⟩ := List.mem_map.1 hi
    exact h.keys e he
  · have hold : ∀ i ∈ f.instsOf b, decide (i < f.insts.size) = true := fun i hi => decide_eq_true (hs.lt_insts_size hi)
    have hnew : (new b).filter (· < f.insts.size) = [] := List.filter_eq_nil_iff.2 fun i hi => by
      rw [decide_eq_true_iff, Nat.not_lt]
      exact (h.reshaped.fresh b i hi).1
    rw [h.reshaped.insts, Bool.not_false, List.filter_true, List.filter_append, List.filter_append, hnew, List.append_nil,
      ← List.filter_append, f.phis_append, List.filter_eq_self.2 hold]
  · rw [h.length_entries hlabels, ← Fin.sum_univ_fun_getElem]
    refine Finset.sum_congr rfl fun k _ => ?_
    congr 1
    ext b
    exact hneeds k _ (List.getElem?_eq_getElem k.2) b

/-- The phis that promotion counts are those of the slots of the simplified function. -/
theorem placed_of_promote {origin r : Function} {stats : PromotionStats} {steps : Nat}
    {slots : List (InstId × ValueId)} (hsimplify : simplify.run origin = (.ok steps, f))
    (hslots : promotableSlots f = .ok slots) (hrun : promote.run origin = (.ok stats, r)) :
    (slots = [] ∧ stats.phisInserted = 0) ∨ ∃ tree entries f', DominatorTree.ofCfg f.cfg = .ok tree ∧
      (placeAllPhis tree (slots.map (·.2))).run f = (.ok entries, f') ∧ stats.phisInserted = entries.length := by
  obtain ⟨n, g, found, hsteps, hfound, -, -, hcase⟩ := promote_eq_ok hrun
  rw [hsimplify] at hsteps
  obtain ⟨-, rfl⟩ := Prod.mk.inj hsteps
  obtain rfl := Except.ok.inj (hslots.symm.trans hfound)
  rcases hcase with ⟨hnil, hnone, -⟩ | ⟨-, tree, entries, zero, e, f₁, f₂, c₃, c₄, count, hwalks, hcount, -⟩
  · exact .inl ⟨hnil, hnone⟩
  · exact .inr ⟨tree, entries, f₁, hwalks.dominators, hwalks.placed, hcount⟩

/-- **Phis go exactly on iterated dominance frontiers.** Placing the phis of some slots in a function whose graph can be
walked succeeds. For each slot, every block of the iterated dominance frontier of the blocks with a store to it gets
exactly one phi, other blocks get none, and nothing else is made: the phis stand at the head of their blocks and have
one operand for each predecessor, and all other instructions stand as before. The number of phis that promotion reports
is the sum of the sizes of these iterated frontiers in the simplified function. -/
theorem placeAllPhis_exactly (hs : f.Sound) (hw : f.Wired) :
    (∀ slots, ∃ tree entries f', DominatorTree.ofCfg f.cfg = .ok tree ∧
      (placeAllPhis tree slots).run f = (.ok entries, f') ∧ f.PhisPlaced f' slots entries) ∧
    ∀ origin steps slots stats r, simplify.run origin = (.ok steps, f) → promotableSlots f = .ok slots →
      promote.run origin = (.ok stats, r) →
        stats.phisInserted = (slots.map fun e => {b | f.NeedsPhi e.2 b}.ncard).sum := by
  obtain ⟨tree, htree, -⟩ := DominatorTree.ofCfg_total (explorable_cfg hs hw) (consistent_cfg hw)
  refine ⟨fun slots => ?_, fun origin steps slots stats r hsimplify hslots hrun => ?_⟩
  · obtain ⟨entries, f', hplace⟩ :=
      @succeeds_placeAllPhis _ _ slots (frontierBounds hw htree) hs hw.phis_first
    exact ⟨tree, entries, f', htree, hplace, phisPlaced_of_run hs hw htree hplace⟩
  · rcases placed_of_promote hsimplify hslots hrun with ⟨rfl, hnone⟩ | ⟨tree, entries, f', htree, hplace, hcount⟩
    · exact hnone
    · rw [hcount, (phisPlaced_of_run hs hw htree hplace).count, List.map_map]
      rfl

/-- A block that is its own successor stores to a slot, in a loop around it. -/
def storedInLoop : Function where
  name := "main"
  returnsValue := true
  params := [0]
  values := #[
    { kind := .param 0, name := some "n", uses := [⟨2, 0⟩, ⟨4, 0⟩] },
    { kind := .inst 0, name := some "a", uses := [⟨3, 0⟩, ⟨5, 0⟩] },
    { kind := .const 0, uses := [⟨3, 1⟩, ⟨5, 1⟩] },
    { kind := .const 7, uses := [⟨3, 2⟩] },
    { kind := .inst 5, name := some "x", uses := [⟨6, 0⟩] }]
  insts := #[
    { kind := .alloca 1, operands := [], result := some 1, block := some 0 },
    { kind := .jump 1, operands := [], result := none, block := some 0 },
    { kind := .branch 2 3, operands := [0], result := none, block := some 1 },
    { kind := .store, operands := [1, 2, 3], result := none, block := some 2 },
    { kind := .branch 2 1, operands := [0], result := none, block := some 2 },
    { kind := .load, operands := [1, 2], result := some 4, block := some 3 },
    { kind := .ret, operands := [4], result := none, block := some 3 }]
  blocks := #[
    { name := "entry", insts := [0, 1] },
    { name := "h", insts := [2], preds := [0, 2] },
    { name := "b", insts := [3, 4], preds := [1, 2] },
    { name := "d", insts := [5, 6], preds := [1] }]
  layout := [0, 1, 2, 3]

/-- Its text. -/
def storedInLoopText : ReadText where
  text := "func @main(%n) -> int \x7b\nentry:\n" ++ " %a = alloca [1]\n jump ^h\nh:\n" ++
    " br %n, ^b, ^d\nb:\n store %a, 0, 7\n" ++ " br %n, ^b, ^h\nd:\n" ++ " %x = load %a, 0\n ret %x\n\x7d"
  module := { functions := #[storedInLoop] }
  parse := by
    simp only [Module.parse, Source.tokenLines, Text.lines, String.toList_append]
    cbv

theorem produced_storedInLoop : storedInLoop.Produced := storedInLoopText.produced (Array.mem_singleton.2 rfl)

/-- Promotion places two phis: the block with the store is on its own frontier, and so is the head of the outer loop. -/
theorem placeAllPhis_exactly_storedInLoop : storedInLoop.Sound ∧ storedInLoop.Wired ∧
    ∃ stats r, promote.run storedInLoop = (.ok stats, r) ∧ stats.phisInserted = 2 ∧
      {b | storedInLoop.NeedsPhi 1 b}.ncard = 2 := by
  have hs := produced_storedInLoop.sound
  have hw := (Function.regular_of_verify hs (show storedInLoop.verify = .ok () by cbv)).wired hs
  have hsimplify : simplify.run storedInLoop = (.ok 0, storedInLoop) := by cbv
  have hslots : promotableSlots storedInLoop = .ok [(0, 1)] := by cbv
  have hrun : (promote.run storedInLoop).1 = .ok { promoted := 1, phisInserted := 2, phisRemoved := 1 } := by cbv
  have hpair := (Prod.ext hrun rfl : promote.run storedInLoop = (_, (promote.run storedInLoop).2))
  have hsum := (placeAllPhis_exactly hs hw).2 storedInLoop 0 _ _ _ hsimplify hslots hpair
  exact ⟨hs, hw, _, _, hpair, rfl, by simpa using hsum.symm⟩

end Edit

end SsaCompiler
