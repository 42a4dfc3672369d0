import SsaCompiler.Proofs.Ir.SlotValues

/-!
# Walks that carry the values of slots

The values of the slots are carried from block to block along edges, each block is entered once, with the values at
the end of whichever block the walk came from. `Carried` is about single instructions: what stands for the loads that
were passed. `Visited` is about blocks: where the values at the start of each of them come from.

The values at the start of a block do not depend on the block from which the walk came. Among the blocks that set a
slot and dominate a block there is one that all others dominate, and it alone decides the value at the end of the
block (`Visited.nearest`). It strictly dominates a successor without a phi, as the phis are closed under frontiers,
so it is the same for all predecessors.
-/

set_option autoImplicit false

namespace SsaCompiler

variable {e p : BlockId}

/-- The entry dominates every block: every path starts there. -/
theorem Function.Dominates.of_entry {f : Function} (he : f.layout.head? = some e) (b : BlockId) :
    f.Dominates e b := by
  intro hb
  induction hb with
  | entry he' hne => exact hne (Option.some.inj (he'.symm.trans he))
  | step _ _ _ ih => exact ih

/-- No edge leads to the entry. -/
theorem Function.Regular.not_edge_entry {f : Function} (hr : f.Regular) (hs : f.Sound) (he : f.layout.head? = some e)
    (hp : f.Reach p) : ¬ f.Edge p e := by
  intro hedge
  obtain ⟨e', rest, hlayout, hpreds⟩ := hr.entry
  have hee : e' = e := by
    rw [hlayout] at he
    exact Option.some.inj he
  subst hee
  have hlisted := hr.mem_layout_of_reach hs hp
  have hin := (hr.mem_preds_iff (List.mem_of_mem_head? he)).2 ⟨hlisted, (hr.edge_iff hlisted).1 hedge⟩
  rw [hpreds] at hin
  cases hin

variable {b : BlockId} {i : InstId} {after before : List InstId}

/-- An instruction stands in one place. -/
theorem Function.Sound.place_unique {f : Function} (hs : f.Sound) {b' : BlockId} {before' after' : List InstId}
    (h : f.instsOf b = before ++ i :: after) (h' : f.instsOf b' = before' ++ i :: after') :
    b = b' ∧ before = before' ∧ after = after' := by
  obtain rfl : b = b' := by
    have hb := (hs.placed b i).1 (by rw [h]; simp)
    rw [(hs.placed b' i).1 (by rw [h']; simp)] at hb
    exact (Option.some.inj hb).symm
  have hnodup := hs.nodup b
  rw [h, List.nodup_append, List.nodup_cons] at hnodup
  obtain ⟨-, ⟨hafter, -⟩, hbefore⟩ := hnodup
  have hnot : i ∉ before := fun hin => hbefore i hin i List.mem_cons_self rfl
  obtain ⟨hfirst, -, hlast⟩ := (List.append_cons_inj_of_notMem hnot hafter).1 (h.symm.trans h')
  exact ⟨rfl, hfirst, hlast⟩

namespace SlotPlan

variable {plan : SlotPlan} {f : Function} {done : List InstId}

/-- A load of a slot gives the value. -/
def Loads (plan : SlotPlan) (f : Function) (i : InstId) (v : ValueId) : Prop :=
  f.kind i = .load ∧ (∃ k, plan.accessOf? f i = some k) ∧ f.result? i = some v

/-- A value that is neither the address of a slot nor given by a load of one. -/
def Clean (plan : SlotPlan) (f : Function) (v : ValueId) : Prop := v ∉ plan.addresses ∧ ∀ i, ¬ plan.Loads f i v

/-- What is known of the slots: they are reserved, and their addresses are read by loads and stores at index zero
alone. -/
structure Plain (slots : List (InstId × ValueId)) (f : Function) : Prop where
  reserve : ∀ e ∈ slots, f.kind e.1 = .alloca 1 ∧ f.result? e.1 = some e.2
  distinct : (slots.map Prod.snd).Nodup
  index : ∀ b i, f.Reach b → i ∈ f.instsOf b → f.kind i = .load ∨ f.kind i = .store →
    ∀ v, (f.operands i)[0]? = some v → v ∈ slots.map Prod.snd →
      ∃ x, (f.operands i)[1]? = some x ∧ (f.value x).kind = .const 0
  only : ∀ b i (slot : Nat) v, f.Reach b → i ∈ f.instsOf b → (f.operands i)[slot]? = some v →
    v ∈ slots.map Prod.snd → slot = 0 ∧ (f.kind i = .load ∨ f.kind i = .store)

variable {k : Nat}

/-- An instruction that accesses a slot is a load or a store whose base is the address of the slot. -/
theorem accessOf?_eq_some_iff : plan.accessOf? f i = some k ↔ (f.kind i = .load ∨ f.kind i = .store) ∧
      ∃ v, (f.operands i)[0]? = some v ∧ plan.addresses.idxOf? v = some k := by
  unfold accessOf?
  split
  · rename_i hkind
    rw [Option.bind_eq_some_iff]
    exact ⟨fun h => ⟨.inl hkind, h⟩, fun h => h.2⟩
  · rename_i hkind
    rw [Option.bind_eq_some_iff]
    exact ⟨fun h => ⟨.inr hkind, h⟩, fun h => h.2⟩
  · rename_i hload hstore
    exact ⟨fun h => (by cases h), fun h => absurd h.1 (not_or.2 ⟨hload, hstore⟩)⟩

/-- The value of one slot behind an instruction. -/
theorem carry_apply (plan : SlotPlan) (f : Function) (values : Nat → ValueId) (i : InstId) (k : Nat) :
    plan.carry f values i k = match (f.operands i)[2]? with
      | some data => if f.kind i = .store ∧ plan.accessOf? f i = some k then plan.stand data else values k
      | none => values k := by
  cases hdata : (f.operands i)[2]? with
  | none =>
    rcases plan.carry_cases f values i with hsame | ⟨k', data, -, -, hdata', -⟩
    · rw [hsame]
    · rw [hdata] at hdata'
      cases hdata'
  | some data =>
    dsimp only
    split
    · rename_i hi
      rw [carry, hi.1, hi.2, hdata]
      exact Function.update_self ..
    · rename_i hi
      rcases plan.carry_cases f values i with hsame | ⟨k', data', hkind, haccess, -, hset⟩
      · rw [hsame]
      · rw [hset]
        refine Function.update_of_ne ?_ _ _
        rintro rfl
        exact hi ⟨hkind, haccess⟩

/-- The current value of a slot depends on the start of the block and on what stands for the values that are stored
to the slot. -/
theorem current_congr {stand : ValueId → ValueId} {inn : BlockId → Nat → ValueId} (hinn : inn b k = plan.inn b k)
    (hstand : ∀ j ∈ before, f.kind j = .store → plan.accessOf? f j = some k → ∀ data, (f.operands j)[2]? = some data →
      stand data = plan.stand data) :
    SlotPlan.current { plan with stand := stand, inn := inn } f b before k = plan.current f b before k := by
  induction before using List.reverseRecOn with
  | nil => exact hinn
  | append_singleton before j ih =>
    have ih := ih fun i hi => hstand i (List.mem_append_left _ hi)
    unfold current at ih ⊢
    rw [List.foldl_append, List.foldl_append, List.foldl_cons, List.foldl_cons, List.foldl_nil, List.foldl_nil]
    generalize before.foldl (SlotPlan.carry { plan with stand := stand, inn := inn } f) (inn b) = values' at ih ⊢
    generalize before.foldl (plan.carry f) (plan.inn b) = values at ih ⊢
    rw [carry_apply, carry_apply]
    cases hdata : (f.operands j)[2]? with
    | none => exact ih
    | some data =>
      refine ite_congr rfl (fun hj => ?_) fun _ => ih
      exact hstand j (List.mem_append_right _ (List.mem_singleton_self j)) hj.1 hj.2 data hdata

/-- A slot to which a block does not store keeps its value. -/
theorem current_of_no_store (h : ∀ j ∈ before, f.kind j = .store → plan.accessOf? f j ≠ some k) :
    plan.current f b before k = plan.inn b k := by
  rcases current_cases (rfl : plan.current f b before k = plan.current f b before k) with
    hinn | ⟨l, j, l', data, rfl, hkind, haccess, -⟩
  · exact hinn.symm
  · exact absurd haccess (h j (by simp) hkind)

/-! ## Instructions -/

/-- What stands for the loads among the instructions that the walk has passed. -/
structure Carried (plan : SlotPlan) (f : Function) (done : List InstId) : Prop where
  prior : ∀ b before i after, i ∈ done → f.instsOf b = before ++ i :: after → ∀ j ∈ before, j ∈ done
  stand_eq : ∀ v, (∀ i ∈ done, ¬ plan.Loads f i v) → plan.stand v = v
  stand_clean : ∀ i ∈ done, ∀ v, plan.Loads f i v → plan.Clean f (plan.stand v)
  load : ∀ b before i after k r, i ∈ done → f.instsOf b = before ++ i :: after → f.kind i = .load →
    plan.accessOf? f i = some k → f.result? i = some r → plan.stand r = plan.current f b before k
  /-- What was stored and comes from a load comes from one that was passed. -/
  settled : ∀ i ∈ done, f.kind i = .store → ∀ k, plan.accessOf? f i = some k → ∀ data,
    (f.operands i)[2]? = some data → ∀ j, plan.Loads f j data → j ∈ done

namespace Carried

variable (h : plan.Carried f done)

include h

/-- The instructions before those that were passed, when one more is passed. -/
theorem prior_cons (hs : f.Sound) (hinsts : f.instsOf b = before ++ i :: after) (hbefore : ∀ j ∈ before, j ∈ done) :
    ∀ b before j after, j ∈ i :: done → f.instsOf b = before ++ j :: after → ∀ l ∈ before, l ∈ i :: done := by
  intro b' before' j after' hj hinsts' l hl
  refine List.mem_cons_of_mem _ ?_
  rcases List.mem_cons.1 hj with rfl | hj
  · obtain ⟨rfl, rfl, -⟩ := hs.place_unique hinsts hinsts'
    exact hbefore l hl
  · exact h.prior b' before' j after' hj hinsts' l hl

/-- What stands for a value is the value itself or is clean. -/
theorem stand_cases (v : ValueId) : plan.stand v = v ∨ plan.Clean f (plan.stand v) := by
  by_cases hloaded : ∃ i ∈ done, plan.Loads f i v
  · obtain ⟨i, hi, hv⟩ := hloaded
    exact .inr (h.stand_clean i hi v hv)
  · exact .inl (h.stand_eq v fun i hi hv => hloaded ⟨i, hi, hv⟩)

/-- What stands for a value is clean when it comes from no load or from one that was passed. -/
theorem clean_stand {v : ValueId} (haddress : v ∉ plan.addresses)
    (hloaded : ∀ j, plan.Loads f j v → j ∈ done) : plan.Clean f (plan.stand v) := by
  by_cases hload : ∃ j, plan.Loads f j v
  · obtain ⟨j, hj⟩ := hload
    exact h.stand_clean j (hloaded j hj) v hj
  · have hnone : ∀ i, ¬ plan.Loads f i v := fun i hi => hload ⟨i, hi⟩
    rw [h.stand_eq v fun i _ => hnone i]
    exact ⟨haddress, hnone⟩

/-- Current values are clean. -/
theorem clean_current (hplain : Plain plan.slots f) (hreach : f.Reach b)
    {rest : List InstId} (hinsts : f.instsOf b = before ++ rest) (hbefore : ∀ i ∈ before, i ∈ done)
    (hinn : plan.Clean f (plan.inn b k)) : plan.Clean f (plan.current f b before k) := by
  rcases current_cases (rfl : plan.current f b before k = plan.current f b before k) with
    hsame | ⟨l, j, l', data, rfl, hkind, haccess, hdata, hstand⟩
  · rwa [← hsame]
  · rw [← hstand]
    have hj : j ∈ l ++ j :: l' := by simp
    refine h.clean_stand (fun hin => ?_) (h.settled j (hbefore j hj) hkind k haccess data hdata)
    have hslot := hplain.only b j 2 data hreach (by rw [hinsts]; exact List.mem_append_left _ hj) hdata hin
    exact absurd hslot.1 (by decide)

/-- Passing an instruction that loads no slot, when what it stores comes from no load or from one that was passed. -/
theorem passOther (hs : f.Sound) (hinsts : f.instsOf b = before ++ i :: after) (hbefore : ∀ j ∈ before, j ∈ done)
    (hload : f.kind i = .load → plan.accessOf? f i = none)
    (hloaded : f.kind i = .store → ∀ k, plan.accessOf? f i = some k → ∀ data, (f.operands i)[2]? = some data →
      ∀ j, plan.Loads f j data → j ∈ done) : plan.Carried f (i :: done) where
  prior := h.prior_cons hs hinsts hbefore
  stand_eq v hv := h.stand_eq v fun j hj => hv j (List.mem_cons_of_mem _ hj)
  stand_clean j hj v hv := by
    rcases List.mem_cons.1 hj with rfl | hj
    · obtain ⟨hkind, ⟨k, hk⟩, -⟩ := hv
      rw [hload hkind] at hk
      cases hk
    · exact h.stand_clean j hj v hv
  load b before j after k r hj hinsts hkind haccess hr := by
    rcases List.mem_cons.1 hj with rfl | hj
    · rw [hload hkind] at haccess
      cases haccess
    · exact h.load b before j after k r hj hinsts hkind haccess hr
  settled j hj hkind k haccess data hdata l hl := by
    rcases List.mem_cons.1 hj with rfl | hj
    · exact List.mem_cons_of_mem _ (hloaded hkind k haccess data hdata l hl)
    · exact List.mem_cons_of_mem _ (h.settled j hj hkind k haccess data hdata l hl)

variable {r : ValueId}

/-- What stands for a load that was not passed has no part in the current values so far. -/
theorem current_update (hi : plan.Loads f i r) (hnot : i ∉ done) (w : ValueId) (hbefore : ∀ j ∈ before, j ∈ done)
    (k : Nat) :
    SlotPlan.current { plan with stand := Function.update plan.stand r w } f b before k = plan.current f b before k := by
  refine current_congr rfl fun j hj hkind haccess data hdata => Function.update_of_ne ?_ w plan.stand
  rintro rfl
  exact hnot (h.settled j (hbefore j hj) hkind k haccess data hdata i hi)

/-- Passing a load of a slot: the current value stands for what it gives. -/
theorem passLoad (hs : f.Sound) (hinsts : f.instsOf b = before ++ i :: after) (hbefore : ∀ j ∈ before, j ∈ done)
    (hnot : i ∉ done) (hkind : f.kind i = .load) (haccess : plan.accessOf? f i = some k) (hr : f.result? i = some r)
    (hclean : plan.Clean f (plan.current f b before k)) :
    SlotPlan.Carried { plan with stand := Function.update plan.stand r (plan.current f b before k) } f (i :: done) := by
  have hloads : plan.Loads f i r := ⟨hkind, ⟨k, haccess⟩, hr⟩
  -- The value is given by this load alone.
  have honly : ∀ j, plan.Loads f j r → j = i := by
    intro j hj
    have hkind' := (hs.kind_of_result j r hj.2.2).2
    rw [(hs.kind_of_result i r hr).2] at hkind'
    exact (ValueKind.inst.inj hkind').symm
  have hother : ∀ j ∈ done, ∀ v, plan.Loads f j v → v ≠ r := by
    rintro j hj v hv rfl
    exact hnot (honly j hv ▸ hj)
  refine ⟨h.prior_cons hs hinsts hbefore, fun v hv => ?_, fun j hj v hv => ?_,
    fun b' before' j after' k' r' hj hinsts' hkind' haccess' hr' => ?_, fun j hj hstore k' haccess' data hdata l hl => ?_⟩
  · have hvr : v ≠ r := by
      rintro rfl
      exact hv i List.mem_cons_self hloads
    exact (Function.update_of_ne hvr _ _).trans (h.stand_eq v fun j hj => hv j (List.mem_cons_of_mem _ hj))
  · change plan.Clean f (Function.update plan.stand r _ v)
    rcases List.mem_cons.1 hj with rfl | hj
    · obtain rfl := Option.some.inj (hr.symm.trans hv.2.2)
      rwa [Function.update_self]
    · rw [Function.update_of_ne (hother j hj v hv)]
      exact h.stand_clean j hj v hv
  · change Function.update plan.stand r _ r' = _
    rcases List.mem_cons.1 hj with rfl | hj
    · obtain rfl := Option.some.inj (hr.symm.trans hr')
      obtain rfl := Option.some.inj (haccess.symm.trans haccess')
      obtain ⟨rfl, rfl, -⟩ := hs.place_unique hinsts hinsts'
      rw [Function.update_self, h.current_update hloads hnot _ hbefore]
    · rw [Function.update_of_ne (hother j hj r' ⟨hkind', ⟨k', haccess'⟩, hr'⟩),
        h.load b' before' j after' k' r' hj hinsts' hkind' haccess' hr',
        h.current_update hloads hnot _ (h.prior b' before' j after' hj hinsts')]
  · change plan.Loads f l data at hl
    rcases List.mem_cons.1 hj with rfl | hj
    · rw [hkind] at hstore
      cases hstore
    · exact List.mem_cons_of_mem _ (h.settled j hj hstore k' haccess' data hdata l hl)

end Carried

/-! ## Blocks -/

/-- Where the values at the start of a block come from, phis apart: they are zero at the entry, else they are those at
the end of one of some other blocks. -/
def Origin (plan : SlotPlan) (f : Function) (earlier : List BlockId) (b : BlockId) (values : Nat → ValueId) : Prop :=
  (f.layout.head? = some b ∧ ∀ k, k < plan.slots.length → plan.phi? b k = none → values k = plan.zero) ∨
    ∃ p ∈ earlier, f.Edge p b ∧ ∀ k, k < plan.slots.length → plan.phi? b k = none →
      values k = plan.current f p (f.instsOf p) k

/-- The blocks that a walk has visited, the latest first. -/
structure Visited (plan : SlotPlan) (f : Function) (done : List InstId) (blocks : List BlockId) : Prop where
  carried : plan.Carried f done
  passed : ∀ i, i ∈ done ↔ ∃ b ∈ blocks, i ∈ f.instsOf b
  phi : ∀ b ∈ blocks, ∀ k phi r, plan.phi? b k = some (phi, r) → plan.inn b k = r
  origin : ∀ later b earlier, blocks = later ++ b :: earlier → plan.Origin f earlier b (plan.inn b)

/-- What is known of the phis of a plan: they are closed under frontiers, and none is in the entry. -/
structure Phis (plan : SlotPlan) (f : Function) : Prop where
  reach : ∀ b k e, plan.phi? b k = some e → f.Reach b
  fresh : ∀ b k phi r, plan.phi? b k = some (phi, r) → f.values.size ≤ r
  entry : ∀ e k, f.layout.head? = some e → plan.phi? e k = none
  inj : ∀ b b' k k' phi phi' r, plan.phi? b k = some (phi, r) → plan.phi? b' k' = some (phi', r) → b = b' ∧ k = k'
  zero_const : plan.zero < f.values.size → (f.value plan.zero).kind = .const 0
  zero_not_phi : ∀ b k phi, plan.phi? b k ≠ some (phi, plan.zero)
  closed : ∀ k, k < plan.slots.length → ∀ a p b,
    (plan.phi? a k).isSome = true ∨ (∃ i ∈ f.instsOf a, f.kind i = .store ∧ plan.accessOf? f i = some k) →
    f.Reach p → f.Edge p b → f.Dominates a p → (f.Dominates a b → a = b) → (plan.phi? b k).isSome = true

/-- A block sets a slot: at the entry, by a phi or by a store. -/
def Sets (plan : SlotPlan) (f : Function) (k : Nat) (b : BlockId) : Prop :=
  f.layout.head? = some b ∨ (plan.phi? b k).isSome = true ∨
    ∃ i ∈ f.instsOf b, f.kind i = .store ∧ plan.accessOf? f i = some k

variable {a : BlockId}

/-- A block that sets a slot and dominates a predecessor of a block without a phi strictly dominates that block. -/
theorem Phis.dominates_of_sets (hphis : plan.Phis f) (hs : f.Sound) (hr : f.Regular) (hk : k < plan.slots.length)
    (ha : plan.Sets f k a) (hp : f.Reach p) (hedge : f.Edge p b) (hdom : f.Dominates a p) (hb : plan.phi? b k = none) :
    f.Dominates a b ∧ a ≠ b := by
  rcases ha with hentry | ha
  · refine ⟨Function.Dominates.of_entry hentry b, ?_⟩
    rintro rfl
    exact hr.not_edge_entry hs hentry hp hedge
  · by_contra hnot
    have hphi := hphis.closed k hk a p b ha hp hedge hdom fun hdom' => by
      by_contra hne
      exact hnot ⟨hdom', hne⟩
    rw [hb] at hphi
    cases hphi

namespace Visited

variable {blocks : List BlockId}

section

variable (h : plan.Visited f done blocks)

include h

/-- What dominates a visited block is visited. -/
theorem mem_of_dominates (hb : b ∈ blocks) (hdom : f.Dominates a b) : a ∈ blocks := by
  have hsuffix : ∀ earlier later, blocks = later ++ earlier → ∀ c ∈ earlier, f.Dominates a c → a ∈ earlier := by
    intro earlier
    induction earlier with
    | nil => exact fun _ _ c hc => absurd hc List.not_mem_nil
    | cons d earlier ih =>
      intro later hblocks c hc hdom
      have hmore : blocks = (later ++ [d]) ++ earlier := by simp [hblocks]
      rcases List.mem_cons.1 hc with rfl | hc
      · by_cases hac : a = c
        · exact hac ▸ List.mem_cons_self
        · rcases h.origin later c earlier hblocks with ⟨hentry, -⟩ | ⟨p, hp, hedge, -⟩
          · exact absurd (.entry hentry (Ne.symm hac)) hdom
          · exact List.mem_cons_of_mem _ (ih _ hmore p hp (hdom.of_edge hac hedge))
      · exact List.mem_cons_of_mem _ (ih _ hmore c hc hdom)
  exact hsuffix blocks [] rfl b hb hdom

/-- Among the blocks that set a slot and dominate a block, one is dominated by all others, and it has the value that
the block has. -/
theorem nearest (hphis : plan.Phis f) (hs : f.Sound) (hr : f.Regular) (hk : k < plan.slots.length)
    (hreach : ∀ b ∈ blocks, f.Reach b) (hb : b ∈ blocks) :
    ∃ x, plan.Sets f k x ∧ f.Dominates x b ∧
      plan.current f b (f.instsOf b) k = plan.current f x (f.instsOf x) k ∧
      ∀ y, plan.Sets f k y → f.Dominates y b → f.Dominates y x := by
  have hsuffix : ∀ earlier later, blocks = later ++ earlier → ∀ c ∈ earlier, ∃ x, plan.Sets f k x ∧ f.Dominates x c ∧
      plan.current f c (f.instsOf c) k = plan.current f x (f.instsOf x) k ∧
      ∀ y, plan.Sets f k y → f.Dominates y c → f.Dominates y x := by
    intro earlier
    induction earlier with
    | nil => exact fun _ _ c hc => absurd hc List.not_mem_nil
    | cons d earlier ih =>
      intro later hblocks c hc
      have hmore : blocks = (later ++ [d]) ++ earlier := by simp [hblocks]
      rcases List.mem_cons.1 hc with rfl | hc
      · by_cases hsets : plan.Sets f k c
        · exact ⟨c, hsets, .refl f c, rfl, fun y _ hy => hy⟩
        · -- The slot has the value that it has at the end of the block from which the walk came.
          obtain ⟨hentry, hnot⟩ := not_or.1 hsets
          obtain ⟨hphi, hstore⟩ := not_or.1 hnot
          have hphi : plan.phi? c k = none := by simpa using hphi
          have hcur : plan.current f c (f.instsOf c) k = plan.inn c k :=
            current_of_no_store fun j hj hkind haccess => hstore ⟨j, hj, hkind, haccess⟩
          rcases h.origin later c earlier hblocks with ⟨he, -⟩ | ⟨p, hp, hedge, hvalues⟩
          · exact absurd he hentry
          · obtain ⟨x, hx, hdom, hsame, hnearest⟩ := ih _ hmore p hp
            have hpin : p ∈ blocks := by rw [hmore]; exact List.mem_append_right _ hp
            obtain ⟨hdom', -⟩ := hphis.dominates_of_sets hs hr hk hx (hreach p hpin) hedge hdom hphi
            refine ⟨x, hx, hdom', ?_, fun y hy hyc => hnearest y hy (hyc.of_edge ?_ hedge)⟩
            · rw [hcur, hvalues k hk hphi, hsame]
            · rintro rfl
              exact hsets hy
      · exact ih _ hmore c hc
  exact hsuffix blocks [] rfl b hb

/-- The values at the start of a block are those at the end of every predecessor, phis apart. -/
theorem inn_eq (hphis : plan.Phis f) (hs : f.Sound) (hr : f.Regular) (hblocks : ∀ b, b ∈ blocks ↔ f.Reach b)
    (hk : k < plan.slots.length) (hp : f.Reach p) (hedge : f.Edge p b) (hphi : plan.phi? b k = none) :
    plan.inn b k = plan.current f p (f.instsOf p) k := by
  have hreach : ∀ c ∈ blocks, f.Reach c := fun c hc => (hblocks c).1 hc
  obtain ⟨later, earlier, hsplit⟩ := List.append_of_mem ((hblocks b).2 (hp.step hedge))
  obtain ⟨x, hx, hxp, hsame, hnearest⟩ := h.nearest hphis hs hr hk hreach ((hblocks p).2 hp)
  obtain ⟨hxb, hxne⟩ := hphis.dominates_of_sets hs hr hk hx hp hedge hxp hphi
  rcases h.origin later b earlier hsplit with ⟨hentry, -⟩ | ⟨q, hq, hedge', hvalues⟩
  · exact absurd (.entry hentry (Ne.symm hxne)) hxb
  · have hqin : q ∈ blocks := by
      rw [hsplit]
      exact List.mem_append_right _ (List.mem_cons_of_mem _ hq)
    obtain ⟨y, hy, hyq, hsame', hnearest'⟩ := h.nearest hphis hs hr hk hreach hqin
    obtain ⟨hyb, hyne⟩ := hphis.dominates_of_sets hs hr hk hy (hreach q hqin) hedge' hyq hphi
    -- Both blocks dominate both predecessors.
    have hxy := hnearest' x hx (hxb.of_edge hxne hedge')
    have hyx := hnearest y hy (hyb.of_edge hyne hedge)
    obtain rfl := hxy.antisymm hyx (hxp.reach hp)
    rw [hvalues k hk hphi, hsame', hsame]

/-- A plan that a walk through all blocks has made is coherent. -/
theorem coherent (hphis : plan.Phis f) (hs : f.Sound) (hr : f.Regular) (hblocks : ∀ b, b ∈ blocks ↔ f.Reach b) :
    plan.Coherent f where
  stand_of_not_load v hv := h.carried.stand_eq v fun i _ hi => by
    obtain ⟨k, hk⟩ := hi.2.1
    exact hv i k (hs.kind_of_result i v hi.2.2).2 hi.1 hk
  load b before i after k r hreach hinsts := by
    refine h.carried.load b before i after k r ((h.passed i).2 ⟨b, (hblocks b).2 hreach, ?_⟩) hinsts
    rw [hinsts]
    simp
  entry e k he hk := by
    refine ⟨hphis.entry e k he, ?_⟩
    obtain ⟨later, earlier, hsplit⟩ := List.append_of_mem ((hblocks e).2 (.entry he))
    rcases h.origin later e earlier hsplit with ⟨-, hzero⟩ | ⟨p, hp, hedge, -⟩
    · exact hzero k hk (hphis.entry e k he)
    · have hreach : f.Reach p := (hblocks p).1 (by rw [hsplit]; exact List.mem_append_right _ (List.mem_cons_of_mem _ hp))
      exact absurd hedge (hr.not_edge_entry hs he hreach)
  phi b k phi r hphi := ⟨h.phi b ((hblocks b).2 (hphis.reach b k _ hphi)) k phi r hphi, hphis.fresh b k phi r hphi⟩
  edge p b k hp hedge hk hphi := h.inn_eq hphis hs hr hblocks hk hp hedge hphi
  phi_inj := hphis.inj
  zero_const := hphis.zero_const
  zero_not_phi := hphis.zero_not_phi

end

end Visited

end SlotPlan

end SsaCompiler
