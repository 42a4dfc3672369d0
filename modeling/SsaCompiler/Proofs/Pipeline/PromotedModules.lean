import SsaCompiler.Proofs.Ir.CompletePromotion
import SsaCompiler.Proofs.Pipeline.TotalPasses

/-!
# Promotion of functions that come from text

Promotion of a function that comes from text, that verification accepts and whose uses are dominated by their
definitions takes out all promotable slots and nothing else. A second run promotes only what the first one kept, but it
may do so: an index that was loaded from a slot can have become zero, and an address that was stored in a slot is read
no more.
-/

set_option autoImplicit false

namespace SsaCompiler

variable {text : String} {m : Module} {f : Function}

namespace Module

/-- A function of a module that was read, in strict form, is well formed. -/
theorem wellFormed_of_parse (hread : Module.parse text = .ok m) (hmem : f ∈ m.functions) (hv : f.verify = .ok ())
    (hstrict : f.Strict) : f.WellFormed ∧ f.Tidy :=
  have hfinished := Module.finished_parse hread hmem
  have hproduced : f.Produced := .read hread hmem
  ⟨hproduced.wellFormed hv hstrict hfinished.agreeing, hfinished.neat.toTidy⟩

/-- **Promotion is complete and touches nothing else.** It succeeds on every function of a module that was read, in
strict form. Then exactly the slots that are promotable in the simplified function are gone with all their loads and
stores, they are counted, nothing reads their addresses, and every other instruction stands in its block, in order and
with its kind, among added phis. -/
theorem promotion_of_parse (hread : Module.parse text = .ok m) (hmem : f ∈ m.functions) (hv : f.verify = .ok ())
    (hstrict : f.Strict) : ∃ g f' s slots, PromotionRun f g f' s slots := by
  obtain ⟨hwf, ht⟩ := wellFormed_of_parse hread hmem hv hstrict
  obtain ⟨g, f', s, slots, h, -⟩ := PromotionRun.exists_of_wellFormed hwf ht
  exact ⟨g, f', s, slots, h⟩

/-- The slot that both arms store to is promoted. -/
theorem promotion_of_parse_storedInArms : Function.storedInArms.verify = .ok () ∧ Function.storedInArms.Strict ∧
    ∃ g f' s slots, PromotionRun Function.storedInArms g f' s slots ∧ s.promoted = 1 ∧ slots.length = 1 := by
  obtain ⟨g, f', s, slots, h⟩ := promotion_of_parse Function.storedInArmsText.parse (Array.mem_singleton.2 rfl)
    Function.verify_storedInArms Function.strict_storedInArms
  have hone : s.promoted = 1 := by
    have hrun := h.succeeds
    rw [Function.promote_storedInArms] at hrun
    cases hrun
    rfl
  exact ⟨Function.verify_storedInArms, Function.strict_storedInArms, g, f', s, slots, h, hone, h.promoted ▸ hone⟩

end Module

namespace Function

/-- A slot holds the index at which another one is stored to. -/
def indexedBySlot : Function where
  name := "main"
  returnsValue := true
  values := #[
    { kind := .inst 0, name := some "x", uses := [⟨4, 0⟩, ⟨5, 0⟩] },
    { kind := .inst 1, name := some "i", uses := [⟨2, 0⟩, ⟨3, 0⟩] },
    { kind := .const 0, uses := [⟨2, 1⟩, ⟨2, 2⟩, ⟨3, 1⟩, ⟨5, 1⟩] },
    { kind := .inst 3, name := some "k", uses := [⟨4, 1⟩] },
    { kind := .const 5, uses := [⟨4, 2⟩] },
    { kind := .inst 5, name := some "v", uses := [⟨6, 0⟩] }]
  insts := #[
    { kind := .alloca 1, operands := [], result := some 0, block := some 0 },
    { kind := .alloca 1, operands := [], result := some 1, block := some 0 },
    { kind := .store, operands := [1, 2, 2], result := none, block := some 0 },
    { kind := .load, operands := [1, 2], result := some 3, block := some 0 },
    { kind := .store, operands := [0, 3, 4], result := none, block := some 0 },
    { kind := .load, operands := [0, 2], result := some 5, block := some 0 },
    { kind := .ret, operands := [5], result := none, block := some 0 }]
  blocks := #[{ name := "entry", insts := [0, 1, 2, 3, 4, 5, 6] }]
  layout := [0]

/-- It is read from text. -/
theorem parse_indexedBySlot :
    Module.parse ("func @main() -> int \x7b\nentry:\n %x = alloca [1]\n %i = alloca [1]\n store %i, 0, 0\n" ++
      " %k = load %i, 0\n store %x, %k, 5\n %v = load %x, 0\n ret %v\n\x7d") =
      .ok { functions := #[indexedBySlot] } := by cbv

/-- Verification accepts it. -/
theorem verify_indexedBySlot : indexedBySlot.verify = .ok () := by cbv

/-- All its values come from its only block, in order. -/
theorem strict_indexedBySlot : indexedBySlot.Strict := strict_of_readsLocally (by decide)

/-- Its first promotion takes out the slot with the index. -/
theorem promote_indexedBySlot : (Edit.promote.run indexedBySlot).1 = .ok { promoted := 1 } := by cbv

/-- Its second promotion takes out the other slot. -/
theorem promote_promote_indexedBySlot :
    (Edit.promote.run (Edit.promote.run indexedBySlot).2).1 = .ok { promoted := 1 } := by cbv

end Function

namespace Module

/-- **What a second run promotes.** A second run succeeds as well. It reports no promoted slot and no added phi if and
only if no slot of the simplified function is promotable. What it promotes was kept by the first run, so that together
they promote no more slots than there are. A slot that is promotable right behind the first run was held back only by
uses that the promotion of other slots has changed. -/
theorem promotions_of_parse (hread : Module.parse text = .ok m) (hmem : f ∈ m.functions) (hv : f.verify = .ok ())
    (hstrict : f.Strict) : ∃ g f' s slots g' f'' s' slots',
      PromotionRun f g f' s slots ∧ PromotionRun f' g' f'' s' slots' ∧
      (s'.promoted = 0 ∧ s'.phisInserted = 0 ↔ ∀ i address, ¬ g'.Promotable i address) ∧
      (∀ i address, g'.Promotable i address → g.WordSlot i address ∧ ¬ g.Promotable i address) ∧
      s.promoted + s'.promoted ≤ (g.placedInsts.filter fun i => g.kind i = .alloca 1).length ∧
      ∀ i address, f'.Promotable i address → g.HeldBack i address := by
  obtain ⟨hwf, ht⟩ := wellFormed_of_parse hread hmem hv hstrict
  obtain ⟨g, f', s, slots, h, -, ⟨hwf', ht', -⟩, hheld⟩ := PromotionRun.exists_of_wellFormed hwf ht
  obtain ⟨g', f'', s', slots', h', hs', -, -⟩ := PromotionRun.exists_of_wellFormed hwf' ht'
  refine ⟨g, f', s, slots, g', f'', s', slots', h, h', h'.idle_iff, fun i address hi => ?_,
    h.promoted_le h' ht' hs', hheld⟩
  obtain ⟨hslot, hserves⟩ := h.wordSlot_of_again h' ht' hs' hi.toWordSlot
  exact ⟨hslot, fun hbefore => hserves ⟨(i, address), (h.complete i address).2 hbefore, .inl rfl⟩⟩

/-- Once the slot with the index is promoted, the index is zero, and a second run promotes the other slot. -/
theorem promotions_of_parse_indexedBySlot : Function.indexedBySlot.verify = .ok () ∧ Function.indexedBySlot.Strict ∧
    ∃ g f' s slots g' f'' s' slots', PromotionRun Function.indexedBySlot g f' s slots ∧
      PromotionRun f' g' f'' s' slots' ∧ s.promoted = 1 ∧ s'.promoted = 1 ∧
      ∃ i address, g'.Promotable i address ∧ g.WordSlot i address ∧ ¬ g.Promotable i address := by
  obtain ⟨g, f', s, slots, g', f'', s', slots', h, h', hidle, hkept, -⟩ := promotions_of_parse
    Function.parse_indexedBySlot (Array.mem_singleton.2 rfl) Function.verify_indexedBySlot Function.strict_indexedBySlot
  have hfirst : s = { promoted := 1 } ∧ f' = (Edit.promote.run Function.indexedBySlot).2 := by
    have hrun := h.succeeds
    refine ⟨?_, by rw [hrun]⟩
    have hstats := Function.promote_indexedBySlot
    rw [hrun] at hstats
    exact Except.ok.inj hstats
  obtain ⟨rfl, rfl⟩ := hfirst
  have hsecond : s' = { promoted := 1 } := by
    have hstats := Function.promote_promote_indexedBySlot
    rw [h'.succeeds] at hstats
    exact Except.ok.inj hstats
  subst hsecond
  have hfound : ∃ i address, g'.Promotable i address := by
    by_contra hnone
    exact absurd (hidle.2 fun i address hi => hnone ⟨i, address, hi⟩).1 Nat.one_ne_zero
  obtain ⟨i, address, hi⟩ := hfound
  exact ⟨Function.verify_indexedBySlot, Function.strict_indexedBySlot, g, _, _, slots, g', f'', _, slots', h, h', rfl,
    rfl, i, address, hi, hkept i address hi⟩

end Module

end SsaCompiler
