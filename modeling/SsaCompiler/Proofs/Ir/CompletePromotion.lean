import SsaCompiler.Proofs.Ir.PromotedForm
import SsaCompiler.Proofs.Ir.RetainedCode

/-!
# Promotion is complete and leaves the rest alone

Promotion finds every slot that can be promoted in the simplified function. It takes out the instructions that reserve
these slots, load them or store them; all other instructions stay in their blocks, in order and with their kinds, and
only phis are added.

A second run may find more to promote, since the first one replaces operands. A slot that it kept has a use that is
not plain. Such a use is gone, or has become plain, only where it stored the address of the slot into a promoted slot,
or where its index was loaded from one: in the place of the load stands what was stored, which may be zero.
-/

set_option autoImplicit false

namespace SsaCompiler

variable {address : ValueId}

variable {b : BlockId}

namespace Function

variable {f f' : Function} {slots : List (InstId × ValueId)} {i : InstId}

/-- An instruction that reserves one of some slots, or loads or stores it. -/
def ServesSlot (f : Function) (slots : List (InstId × ValueId)) (i : InstId) : Prop :=
  ∃ e ∈ slots, e.1 = i ∨ (f.kind i = .load ∨ f.kind i = .store) ∧ (f.operands i)[0]? = some e.2

instance (f : Function) (slots : List (InstId × ValueId)) (i : InstId) : Decidable (f.ServesSlot slots i) :=
  inferInstanceAs (Decidable (∃ e ∈ slots, _))

/-- A function without some slots: what served them is in no block, nothing reads their addresses, and the other
instructions are as they were, except that phis were added. -/
structure WithoutSlots (slots : List (InstId × ValueId)) (f f' : Function) : Prop where
  layout : f'.layout = f.layout
  gone : ∀ i, f.ServesSlot slots i → ∀ b, i ∉ f'.instsOf b
  unread : ∀ e ∈ slots, ∀ i, e.2 ∉ f'.operands i
  /-- In each block, the other instructions stand in the order that they had, with added phis in one place. -/
  insts : ∀ b, ∃ front added back, f'.instsOf b = front ++ added ++ back ∧
    front ++ back = (f.instsOf b).filter (fun i => ¬ f.ServesSlot slots i) ∧
    ∀ i ∈ added, f.insts.size ≤ i ∧ f'.kind i = .phi
  kept : ∀ b, ∀ i ∈ f.instsOf b, ¬ f.ServesSlot slots i → f'.kind i = f.kind i ∧ f'.result? i = f.result? i

namespace WithoutSlots

theorem refl (f : Function) : WithoutSlots [] f f := by
  have hnone : ∀ i, ¬ f.ServesSlot [] i := fun i ⟨e, he, _⟩ => List.not_mem_nil he
  refine ⟨rfl, fun i hi => absurd hi (hnone i), fun e he => absurd he List.not_mem_nil,
    fun b => ⟨f.instsOf b, [], [], by simp, ?_, fun i hi => absurd hi List.not_mem_nil⟩, fun _ _ _ _ => ⟨rfl, rfl⟩⟩
  rw [List.append_nil, List.filter_eq_self.2 fun i _ => decide_eq_true (hnone i)]

/-- The slots that are left were there, and serve none that were taken out. -/
theorem wordSlot (h : WithoutSlots slots f f') (hslot : f'.WordSlot i address) :
    f.WordSlot i address ∧ ¬ f.ServesSlot slots i := by
  obtain ⟨b, hb, hi⟩ := List.mem_flatMap.1 hslot.placed
  obtain ⟨front, added, back, hinsts, hkept, hadded⟩ := h.insts b
  have hin : i ∈ front ++ back := by
    rw [hinsts, List.mem_append, List.mem_append] at hi
    rw [List.mem_append]
    refine hi.imp_left fun hi => hi.resolve_right fun hnew => ?_
    -- An added instruction is a phi.
    have hkind := (hadded i hnew).2
    rw [hslot.kind] at hkind
    cases hkind
  rw [hkept, List.mem_filter, decide_eq_true_iff] at hin
  obtain ⟨hkind, hresult⟩ := h.kept b i hin.1 hin.2
  exact ⟨⟨List.mem_flatMap.2 ⟨b, h.layout ▸ hb, hin.1⟩, hkind.symm.trans hslot.kind, hresult.symm.trans hslot.result⟩,
    hin.2⟩

end WithoutSlots

/-- Only blocks of the layout hold instructions. -/
theorem Tidy.instsOf_eq_nil (ht : f.Tidy) (hb : b ∉ f.layout) : f.instsOf b = [] :=
  List.eq_nil_iff_forall_not_mem.2 fun _ hi => hb (Edit.mem_layout_of_mem_insts ht hi)

/-- A slot of one word that is not promotable, for two reasons only: its address is stored into a promotable slot, or it
is loaded or stored at an index that is loaded from one. -/
structure HeldBack (f : Function) (i : InstId) (address : ValueId) : Prop extends WordSlot f i address where
  kept : ¬ f.Promotable i address
  uses : ∀ u, f.reads u = some address → f.PlainUse u ∨
    (f.kind u.user = .store ∧ u.slot = 2 ∧ ∃ j slot, f.Promotable j slot ∧ (f.operands u.user)[0]? = some slot) ∨
    ((f.kind u.user = .load ∨ f.kind u.user = .store) ∧ u.slot = 0 ∧ ∃ x l j slot, (f.operands u.user)[1]? = some x ∧
      f.result? l = some x ∧ f.kind l = .load ∧ f.Promotable j slot ∧ (f.operands l)[0]? = some slot)

end Function

namespace SlotPlan

variable {plan : SlotPlan} {f f' : Function} {new : BlockId → List InstId} {i : InstId}

/-- What goes away is what serves the slots. -/
theorem isGone_iff : plan.isGone f i = true ↔ f.ServesSlot plan.slots i := by
  unfold isGone
  rw [Bool.or_eq_true, List.any_eq_true, Option.isSome_iff_exists]
  constructor
  · rintro (⟨e, he, hi⟩ | ⟨k, hk⟩)
    · exact ⟨e, he, .inl (eq_of_beq hi)⟩
    · obtain ⟨hkind, v, hv, hidx⟩ := accessOf?_eq_some_iff.1 hk
      obtain ⟨e, he, rfl⟩ := List.mem_map.1 (List.isSome_idxOf?.1 (Option.isSome_iff_exists.2 ⟨k, hidx⟩))
      exact ⟨e, he, .inr ⟨hkind, hv⟩⟩
  · rintro ⟨e, he, rfl | ⟨hkind, hv⟩⟩
    · exact .inl ⟨e, he, beq_self_eq_true _⟩
    · obtain ⟨k, hk⟩ := Option.isSome_iff_exists.1 (List.isSome_idxOf?.2 (List.mem_map_of_mem (f := Prod.snd) he))
      exact .inr ⟨k, accessOf?_eq_some_iff.2 ⟨hkind, e.2, hv, hk⟩⟩

namespace Completed

variable (h : plan.Completed f f' new) (ht : f.Tidy) (ht' : f'.Tidy) (hc : f.Connected)

include h ht ht' hc

omit ht in
/-- Blocks with instructions are reachable. -/
theorem reach_of_mem (hi : i ∈ f'.instsOf b) : f.Reach b :=
  hc b (h.layout ▸ Edit.mem_layout_of_mem_insts ht' hi)

/-- Promotion according to a plan takes out what serves the slots, and nothing else. -/
theorem withoutSlots : f.WithoutSlots plan.slots f' := by
  have hold : ∀ {i}, f.ServesSlot plan.slots i → i < f.insts.size := by
    rintro i ⟨e, he, rfl | ⟨-, hbase⟩⟩
    · by_contra hge
      have hresult := (h.reserve e he).2
      rw [Function.result?, Edit.inst_of_size_le (Nat.le_of_not_lt hge)] at hresult
      cases hresult
    · by_contra hge
      rw [Function.operands, Edit.inst_of_size_le (Nat.le_of_not_lt hge)] at hbase
      cases hbase
  have hstays : ∀ i, (!plan.isGone f i) = decide (¬ f.ServesSlot plan.slots i) := fun i => by
    rw [Bool.eq_iff_iff, decide_eq_true_iff, ← isGone_iff, Bool.not_eq_true', Bool.not_eq_true]
  refine ⟨h.layout, fun i hserves b hi => ?_, fun e he i hv => ?_, fun b => ?_, fun b i hi hserves => ?_⟩
  · rcases (h.mem_insts_iff (h.reach_of_mem ht' hc hi)).1 hi with hnew | ⟨-, hkept⟩
    · exact absurd (hold hserves) (Nat.not_lt.2 (h.fresh b i hnew))
    · rw [isGone_iff.2 hserves] at hkept
      cases hkept
  · obtain ⟨b, hb⟩ := Option.ne_none_iff_exists'.1 (ht'.tended.placed_of_mem hv)
    have hi := (ht'.sound.placed b i).2 hb
    exact (h.clean b i _ (h.reach_of_mem ht' hc hi) hi hv).1 (List.mem_map_of_mem he)
  · by_cases hb : b ∈ f.layout
    · refine ⟨f.phis b, new b, _, h.insts b (hc b hb), ?_, fun i hi => ⟨h.fresh b i hi, (h.planned b i hi).1⟩⟩
      have hphis : (f.phis b).filter (fun i => !plan.isGone f i) = f.phis b := List.filter_eq_self.2 fun i hi => by
        rw [h.toPromoted.isGone_of_isPhi (f.isPhi_of_mem_phis hi)]
        rfl
      have hsplit := congrArg (List.filter fun i => !plan.isGone f i) (f.phis_append b)
      rw [List.filter_append, hphis] at hsplit
      rw [← List.filter_congr fun i _ => hstays i, ← hsplit]
    · have hb' : b ∉ f'.layout := by rwa [h.layout]
      refine ⟨[], [], [], ht'.instsOf_eq_nil hb', ?_, fun i hi => absurd hi List.not_mem_nil⟩
      rw [ht.instsOf_eq_nil hb]
      rfl
  · have hreach := hc b (Edit.mem_layout_of_mem_insts ht hi)
    have hkept : plan.isGone f i = false := by
      rw [← Bool.not_eq_true, isGone_iff]
      exact hserves
    exact ⟨(h.kept b i hreach hi hkept).1, (h.kept b i hreach hi hkept).2.1⟩

omit h ht ht' hc in
/-- The address of a slot that is no promotable one is read by a load or store of a promotable slot only where it is
stored there. -/
theorem stored_of_access (hs : f.Sound) {slot : ValueId} {j : InstId} {u : Use} (hslot : f.Promotable j slot)
    (hbase : (f.operands u.user)[0]? = some slot) (hreads : f.reads u = some address) (hne : address ≠ slot)
    (hinst : ∀ w, (f.value address).kind ≠ .const w) : f.kind u.user = .store ∧ u.slot = 2 := by
  obtain ⟨hkind, -, hplaced, x, hx, hconst⟩ := hslot.plain ⟨u.user, 0⟩ hbase
  obtain ⟨b, hb⟩ := Option.ne_none_iff_exists'.1 hplaced
  have hfits := hs.fits b u.user ((hs.placed b _).2 hb)
  have hlt : u.slot < (f.operands u.user).length := (List.getElem?_eq_some_iff.1 hreads).1
  match hat : u.slot with
  | 0 =>
    rw [Function.reads, hat, hbase] at hreads
    exact absurd (Option.some.inj hreads).symm hne
  | 1 =>
    rw [Function.reads, hat, hx] at hreads
    rw [Option.some.inj hreads] at hconst
    exact absurd hconst (hinst 0)
  | n + 2 =>
    rcases hkind with hkind | hkind
    · rw [hkind] at hfits
      have hlength : (f.operands u.user).length = 2 := by simpa [InstKind.fits] using hfits
      omega
    · rw [hkind] at hfits
      have hlength : (f.operands u.user).length = 3 := by simpa [InstKind.fits] using hfits
      exact ⟨hkind, by omega⟩

/-- A slot that is promotable after promotion was held back. -/
theorem heldBack (hslots : ∀ e, e ∈ plan.slots ↔ f.Promotable e.1 e.2) (hnow : f'.Promotable i address) :
    f.HeldBack i address := by
  have hs := ht.sound
  obtain ⟨hold, hserves⟩ := (h.withoutSlots ht ht' hc).wordSlot hnow.toWordSlot
  have hkept : ¬ f.Promotable i address := fun hbefore => hserves ⟨(i, address), (hslots _).2 hbefore, .inl rfl⟩
  have haddress := (hs.kind_of_result i address hold.result).2
  have hstand : plan.stand address = address := h.coherent.stand_of_not_load address fun j k hj hload _ => by
    obtain rfl := ValueKind.inst.inj (haddress.symm.trans hj)
    rw [hold.kind] at hload
    cases hload
  refine ⟨hold, hkept, fun u hu => ?_⟩
  obtain ⟨d, hd⟩ := Option.ne_none_iff_exists'.1 (ht.tended.placed_of_mem (List.mem_of_getElem? hu))
  have hin := (hs.placed d u.user).2 hd
  have hreach := hc d (Edit.mem_layout_of_mem_insts ht hin)
  cases hgone : plan.isGone f u.user with
  | true =>
    -- The use is gone: it is in a load or store of a promoted slot, as a reserving instruction reads nothing.
    obtain ⟨e, he, hreserves | ⟨-, hbase⟩⟩ := isGone_iff.1 hgone
    · have hfits := hs.fits d u.user hin
      rw [← hreserves, (h.reserve e he).1] at hfits
      have hnil : f.operands u.user = [] := by
        rw [← hreserves]
        simpa [InstKind.fits] using hfits
      rw [Function.reads, hnil] at hu
      cases hu
    · have hslot := (hslots e).1 he
      have hne : address ≠ e.2 := by
        intro heq
        have hsame := (hs.kind_of_result e.1 e.2 hslot.result).2
        rw [← heq, haddress] at hsame
        exact hkept (heq ▸ ValueKind.inst.inj hsame ▸ hslot)
      have hinst : ∀ w, (f.value address).kind ≠ .const w := fun w => by
        rw [haddress]
        exact ValueKind.noConfusion
      obtain ⟨hstore, hplace⟩ := stored_of_access hs hslot hbase hu hne hinst
      exact .inr (.inl ⟨hstore, hplace, e.1, e.2, hslot, hbase⟩)
  | false =>
    -- The use stayed, and is plain now. Only its index can have been replaced.
    obtain ⟨hkind', -, hoperands⟩ := h.kept d u.user hreach hin hgone
    have hnow' : f'.PlainUse u := hnow.plain u (by
      rw [Function.reads, hoperands, List.getElem?_map, ← Function.reads, hu, Option.map_some, hstand])
    obtain ⟨haccess, hslot, -, x', hx', hconst⟩ := hnow'
    rw [hkind'] at haccess
    rw [hoperands, List.getElem?_map, Option.map_eq_some_iff] at hx'
    obtain ⟨x, hx, rfl⟩ := hx'
    have hlt := Edit.lt_size_of_mem_operands hs.indexed (List.mem_of_getElem? hx)
    by_cases hplain : (f.value x).kind = .const 0
    · exact .inl ⟨haccess, hslot, by rw [hd]; exact Option.some_ne_none d, x, hx, hplain⟩
    · refine .inr (.inr ⟨haccess, hslot, ?_⟩)
      by_contra hnone
      refine hplain ?_
      rw [← h.kinds x hlt]
      rwa [h.coherent.stand_of_not_load x fun l k hl hload hk => ?_] at hconst
      obtain ⟨-, v, hv, hidx⟩ := accessOf?_eq_some_iff.1 hk
      obtain ⟨e, he, rfl⟩ := List.mem_map.1 (List.isSome_idxOf?.1 (Option.isSome_iff_exists.2 ⟨k, hidx⟩))
      exact hnone ⟨x, l, e.1, e.2, hx, hs.result_of_kind l x hlt hl, hload, (hslots e).1 he, hv⟩

end Completed

end SlotPlan

/-! ## Runs of promotion -/

/-- A run of promotion: the control flow is simplified first, and then the promotable slots are taken out, all of them
and nothing else. -/
structure PromotionRun (f g f' : Function) (stats : PromotionStats) (slots : List (InstId × ValueId)) : Prop where
  simplified : Edit.simplify.run f = (.ok stats.cfgSteps, g)
  succeeds : Edit.promote.run f = (.ok stats, f')
  complete : ∀ i address, (i, address) ∈ slots ↔ g.Promotable i address
  nodup : (slots.map Prod.fst).Nodup
  promoted : stats.promoted = slots.length
  inserted : slots = [] → stats.phisInserted = 0
  rest : g.WithoutSlots slots f'

namespace PromotionRun

variable {f g f' g' f'' : Function} {s s' : PromotionStats} {slots slots' : List (InstId × ValueId)}

/-- On a well-formed function there is a run. What it leaves is well formed, and a slot that is promotable then was held
back. -/
theorem exists_of_wellFormed (hwf : f.WellFormed) (ht : f.Tidy) : ∃ g f' s slots, PromotionRun f g f' s slots ∧
    g.Sound ∧ Edit.Exchangeable f' ∧ ∀ i address, f'.Promotable i address → g.HeldBack i address := by
  obtain ⟨s, f', hrun⟩ := Edit.succeeds_promote hwf ht
  have hf' := Edit.exchangeable_promote hwf ht hrun
  obtain ⟨steps, g, slots, hsimplify, hg, hslots, rfl, hpromoted, hcase⟩ := Edit.promote_cases hwf ht hrun
  have hcomplete : ∀ e, e ∈ slots ↔ g.Promotable e.1 e.2 := fun e => Edit.mem_promotableSlots_iff hg.tidy.sound hslots
  have hnodup := (Edit.promotableSlots_spec hslots).1.nodup (Edit.nodup_placedInsts hg.tidy.sound)
  have hpart : g.WithoutSlots slots f' ∧ (slots = [] → s.phisInserted = 0) ∧
      ∀ i address, f'.Promotable i address → g.HeldBack i address := by
    rcases hcase with ⟨rfl, hphis, rfl⟩ | ⟨hsome, plan, new, rfl, h⟩
    · exact ⟨.refl f', fun _ => hphis, fun i address hi => absurd ((hcomplete (i, address)).2 hi) List.not_mem_nil⟩
    · exact ⟨h.withoutSlots hg.tidy hf'.tidy hg.connected, fun hnil => absurd hnil hsome, fun i address hi =>
        h.heldBack hg.tidy hf'.tidy hg.connected hcomplete hi⟩
  obtain ⟨hrest, hidle, hheld⟩ := hpart
  exact ⟨g, f', s, slots, ⟨hsimplify, hrun, fun i address => hcomplete (i, address), hnodup, hpromoted, hidle, hrest⟩,
    hg.tidy.sound, hf', hheld⟩

/-- A run that finds no promotable slot reports so, and only such a run does. -/
theorem idle_iff (h : PromotionRun f g f' s slots) :
    s.promoted = 0 ∧ s.phisInserted = 0 ↔ ∀ i address, ¬ g.Promotable i address := by
  have hnone : slots = [] ↔ ∀ i address, ¬ g.Promotable i address := by
    rw [List.eq_nil_iff_forall_not_mem, Prod.forall]
    exact forall₂_congr fun i address => not_congr (h.complete i address)
  rw [← hnone, h.promoted, List.length_eq_zero_iff]
  exact and_iff_left_of_imp h.inserted

section

variable (h : PromotionRun f g f' s slots) (h' : PromotionRun f' g' f'' s' slots') (ht' : f'.Tidy) (hs' : g'.Sound)

include h h' ht' hs'

/-- The slots of one word that a second run finds were left by the first one. -/
theorem wordSlot_of_again {i : InstId} (hslot : g'.WordSlot i address) :
    g.WordSlot i address ∧ ¬ g.ServesSlot slots i := by
  obtain ⟨b, -, hi⟩ := List.mem_flatMap.1 hslot.placed
  have hplaced : g'.blockOf? i ≠ none := by
    rw [(hs'.placed b i).1 hi]
    exact Option.some_ne_none b
  obtain ⟨hplaced', hkind, hresult⟩ := Edit.retains_simplify ht'.sound h'.simplified i hplaced (by rw [hslot.kind]; rfl)
  obtain ⟨c, hc⟩ := Option.ne_none_iff_exists'.1 hplaced'
  have hin := (ht'.sound.placed c i).2 hc
  exact h.rest.wordSlot ⟨List.mem_flatMap.2 ⟨c, Edit.mem_layout_of_mem_insts ht' hin, hin⟩, hkind.symm.trans hslot.kind,
    hresult.symm.trans hslot.result⟩

/-- Together two runs promote no more slots than there are. -/
theorem promoted_le : s.promoted + s'.promoted ≤ (g.placedInsts.filter fun i => g.kind i = .alloca 1).length := by
  have hlength : s.promoted + s'.promoted = (slots.map Prod.fst ++ slots'.map Prod.fst).length := by
    rw [h.promoted, h'.promoted, List.length_append, List.length_map, List.length_map]
  rw [hlength]
  refine (List.subperm_of_subset ?_ fun i hi => ?_).length_le
  · refine List.nodup_append.2 ⟨h.nodup, h'.nodup, ?_⟩
    rintro i hi j hj rfl
    obtain ⟨e, he, rfl⟩ := List.mem_map.1 hi
    obtain ⟨e', he', heq⟩ := List.mem_map.1 hj
    have hleft := (h.wordSlot_of_again h' ht' hs' ((h'.complete e'.1 e'.2).1 he').toWordSlot).2
    exact hleft ⟨e, he, .inl heq.symm⟩
  · have hslot : ∃ address, g.WordSlot i address := by
      rcases List.mem_append.1 hi with hi | hi
      · obtain ⟨e, he, rfl⟩ := List.mem_map.1 hi
        exact ⟨e.2, ((h.complete e.1 e.2).1 he).toWordSlot⟩
      · obtain ⟨e, he, rfl⟩ := List.mem_map.1 hi
        exact ⟨e.2, (h.wordSlot_of_again h' ht' hs' ((h'.complete e.1 e.2).1 he).toWordSlot).1⟩
    obtain ⟨address, hslot⟩ := hslot
    exact List.mem_filter.2 ⟨hslot.placed, decide_eq_true hslot.kind⟩

end

end PromotionRun

end SsaCompiler
