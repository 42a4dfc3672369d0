import SsaCompiler.Proofs.Ir.PlacedPhis
import SsaCompiler.Proofs.Ir.SlotWalk

/-!
# Renaming slots

The walk that renames slots edits the function as it goes. `Renaming` says at each point what the function has
become: the instructions that were passed and access slots are gone, the loads among them have given way to the
values that stand for them, and the added phis read the values at the ends of the blocks that were visited.
-/

set_option autoImplicit false

namespace SsaCompiler

variable {list : Edit.SlotValues} {n : Nat} {α : Type}

/-- Setting several places of a list to one element. -/
theorem getElem?_foldl_set (places : List Nat) (a : α) (l : List α) (n : Nat) :
    (places.foldl (fun l i => l.set i a) l)[n]? = if n ∈ places then l[n]?.map fun _ => a else l[n]? := by
  induction places generalizing l with
  | nil => simp
  | cons i places ih =>
    rw [List.foldl_cons, ih]
    by_cases hni : n = i
    · subst hni
      have hset : (l.set n a)[n]? = l[n]?.map fun _ => a := by
        rw [List.getElem?_set]
        by_cases hlt : n < l.length
        · simp [hlt]
        · simp [hlt]
      simp [hset, Function.comp_def]
    · have hset : (l.set i a)[n]? = l[n]? := List.getElem?_set_ne (Ne.symm hni)
      simp [hset, hni]

/-- Setting the places of one predecessor. -/
theorem foldl_set_map (preds : List BlockId) (g : BlockId → α) (p : BlockId) (a : α) :
    (((preds.zipIdx.filter fun e => e.1 == p).map (·.2)).foldl (fun l i => l.set i a) (preds.map g)) =
      preds.map (Function.update g p a) := by
  refine List.ext_getElem? fun n => ?_
  rw [getElem?_foldl_set, List.getElem?_map, List.getElem?_map]
  have hmem : n ∈ (preds.zipIdx.filter fun e => e.1 == p).map (·.2) ↔ preds[n]? = some p := by
    rw [List.mem_map]
    constructor
    · rintro ⟨⟨c, m⟩, hin, rfl⟩
      obtain ⟨hin, hc⟩ := List.mem_filter.1 hin
      rw [← (eq_of_beq hc : c = p)]
      exact List.mem_zipIdx_iff_getElem?.1 hin
    · intro hn
      exact ⟨(p, n), List.mem_filter.2 ⟨List.mem_zipIdx_iff_getElem?.2 hn, beq_self_eq_true p⟩, rfl⟩
  split
  · rename_i hn
    rw [hmem.1 hn]
    simp
  · rename_i hn
    cases hc : preds[n]? with
    | none => rfl
    | some c =>
      have hcp : c ≠ p := by
        rintro rfl
        exact hn (hmem.2 hc)
      simp [Function.update_of_ne hcp]

/-- A list of values has the values of the slots. -/
def Holds (n : Nat) (list : Edit.SlotValues) (values : Nat → ValueId) : Prop :=
  list.length = n ∧ ∀ k, k < n → list.getD k 0 = values k

variable {values : Nat → ValueId} {r : ValueId}

/-- Setting the value of one slot. -/
theorem Holds.set (h : Holds n list values) (k : Nat) (v : ValueId) :
    Holds n (list.set k v) (Function.update values k v) := by
  refine ⟨by rw [List.length_set]; exact h.1, fun j hj => ?_⟩
  rw [List.getD_eq_getElem?_getD]
  by_cases hjk : j = k
  · subst hjk
    rw [List.getElem?_set_self (h.1.symm ▸ hj), Function.update_self]
    rfl
  · rw [List.getElem?_set_ne (Ne.symm hjk), Function.update_of_ne hjk, ← List.getD_eq_getElem?_getD]
    exact h.2 j hj

theorem Holds.congr {values' : Nat → ValueId} (h : Holds n list values) (hsame : ∀ k, k < n → values' k = values k) :
    Holds n list values' :=
  ⟨h.1, fun k hk => (h.2 k hk).trans (hsame k hk).symm⟩

/-- A result that was asked for is the result. -/
theorem Function.result_of_resultOf {f : Function} {i : InstId} (h : f.resultOf i = .ok r) : f.result? i = some r := by
  unfold resultOf at h
  split at h
  · rename_i v hv
    cases h
    exact hv
  · cases h

namespace SlotPlan

open Edits
open SsaCompiler.Function (result_of_resultOf)

variable {plan : SlotPlan} {f f₁ c c' : Function} {new : BlockId → List InstId} {entries : List (InstId × Nat)}

/-- What the walk starts from: a function with plain slots, and the same with phis for them. -/
structure Prepared (plan : SlotPlan) (f f₁ : Function) (new : BlockId → List InstId) (entries : List (InstId × Nat)) :
    Prop where
  sound : f.Sound
  regular : f.Regular
  strict : f.Strict
  plain : Plain plan.slots f
  phis : plan.Phis f
  keys : ∀ e ∈ entries, f.insts.size ≤ e.1
  nodup : (entries.map Prod.fst).Nodup
  labels : ∀ e ∈ entries, e.2 < plan.slots.length
  listed : ∀ b phi, phi ∈ new b → ∃ k r, plan.phi? b k = some (phi, r)
  phi : ∀ b k phi r, plan.phi? b k = some (phi, r) → phi ∈ new b ∧ (phi, k) ∈ entries ∧ f₁.result? phi = some r

/-- What the function has become at a point of the walk. `fill` are the values that the added phis read, by
predecessor and slot. -/
structure Renaming (plan : SlotPlan) (f f₁ c : Function) (new : BlockId → List InstId) (done : List InstId)
    (fill : BlockId → Nat → ValueId) : Prop where
  carried : plan.Carried f done
  reshaped : f.Reshaped c new (fun i => done.contains i && (plan.accessOf? f i).isSome) plan.stand
  alike : f₁.Alike c
  filled : ∀ b k phi r, plan.phi? b k = some (phi, r) → c.operands phi = (f.preds b).map (fill · k)
  clean : ∀ p k, k < plan.slots.length → plan.Clean f (fill p k)

/-- What the walk starts from does not depend on what it finds. -/
theorem Prepared.withValues (hp : plan.Prepared f f₁ new entries) (stand : ValueId → ValueId)
    (inn : BlockId → Nat → ValueId) : SlotPlan.Prepared { plan with stand := stand, inn := inn } f f₁ new entries :=
  ⟨hp.sound, hp.regular, hp.strict, hp.plain, ⟨hp.phis.reach, hp.phis.fresh, hp.phis.entry, hp.phis.inj,
    hp.phis.zero_const, hp.phis.zero_not_phi, hp.phis.closed⟩, hp.keys, hp.nodup, hp.labels, hp.listed, hp.phi⟩

/-- Only added phis have slots. -/
theorem Prepared.lookup_eq_none (hp : plan.Prepared f f₁ new entries) {i : InstId} (hi : i < f.insts.size) :
    entries.lookup i = none :=
  List.lookup_eq_none_iff.2 fun e he => bne_iff_ne.2 fun hie => absurd (hie ▸ hi) (Nat.not_lt.2 (hp.keys e he))

/-- The address of a slot is no load. -/
theorem Plain.not_loads {i : InstId} {v : ValueId} (h : Plain plan.slots f) (hs : f.Sound) (hv : v ∈ plan.addresses) :
    ¬ plan.Loads f i v := by
  rintro ⟨hkind, -, hr⟩
  obtain ⟨e, he, rfl⟩ := List.mem_map.1 hv
  obtain ⟨hkind', hr'⟩ := h.reserve e he
  have hsame := (hs.kind_of_result i e.2 hr).2
  rw [(hs.kind_of_result e.1 e.2 hr').2] at hsame
  rw [← ValueKind.inst.inj hsame, hkind'] at hkind
  cases hkind

/-- Exactly the addresses stand for addresses. -/
theorem Carried.idxOf?_stand {done : List InstId} (h : plan.Carried f done) (hplain : Plain plan.slots f)
    (hs : f.Sound) (v : ValueId) : plan.addresses.idxOf? (plan.stand v) = plan.addresses.idxOf? v := by
  by_cases hloaded : ∃ i ∈ done, plan.Loads f i v
  · obtain ⟨i, hi, hv⟩ := hloaded
    rw [List.idxOf?_eq_none_iff.2 (h.stand_clean i hi v hv).1,
      List.idxOf?_eq_none_iff.2 fun hin => hplain.not_loads hs hin hv]
  · rw [h.stand_eq v fun i hi hv => hloaded ⟨i, hi, hv⟩]

/-! ## Instructions -/

variable {cur' last : Edit.SlotValues} {l : List InstId} {k : Nat} {stand : ValueId → ValueId}

variable {p : BlockId} {inn : BlockId → Nat → ValueId} {c₀ : Function} {phi : InstId} {gone : InstId → Bool}

namespace Renaming

variable {done : List InstId} {fill : BlockId → Nat → ValueId} {b : BlockId} {before after : List InstId} {i : InstId}

/-- Passing an instruction that accesses no slot. -/
theorem skip (h : plan.Renaming f f₁ c new done fill) (hs : f.Sound) (hinsts : f.instsOf b = before ++ i :: after)
    (hbefore : ∀ j ∈ before, j ∈ done) (hi : plan.accessOf? f i = none) :
    plan.Renaming f f₁ c new (i :: done) fill := by
  refine ⟨h.carried.passOther hs hinsts hbefore (fun _ => hi) (fun _ k hk => by rw [hi] at hk; cases hk),
    h.reshaped.congr (fun j => ?_) fun _ => rfl, h.alike, h.filled, h.clean⟩
  by_cases hj : j = i
  · rw [hj, hi]
    simp
  · simp [hj]

/-- What an access of a slot still reads before it is passed. -/
theorem operands_eq (h : plan.Renaming f f₁ c new done fill) (hi : i < f.insts.size) (hnot : i ∉ done) :
    c.operands i = (f.operands i).map plan.stand :=
  h.reshaped.operands i hi (by simp [hnot])

/-- The instructions that are gone when one more access is passed. -/
theorem gone_cons (hi : plan.accessOf? f i = some k) (j : InstId) :
    ((i :: done).contains j && (plan.accessOf? f j).isSome) =
      ((done.contains j && (plan.accessOf? f j).isSome) || j == i) := by
  by_cases hj : j = i
  · subst hj
    simp [hi]
  · simp [hj]

section

variable (h : plan.Renaming f f₁ c new done fill) (hp : plan.Prepared f f₁ new entries)

include h hp

/-- Passing a store to a slot. -/
theorem passStore (hreach : f.Reach b) (hinsts : f.instsOf b = before ++ i :: after) (hbefore : ∀ j ∈ before, j ∈ done)
    (hcomplete : ∀ d, f.Dominates d b → d ≠ b → ∀ j ∈ f.instsOf d, j ∈ done) (hkind : f.kind i = .store)
    (haccess : plan.accessOf? f i = some k) (hrun : (Edit.removeInst i).run c = (.ok (), c')) :
    plan.Renaming f f₁ c' new (i :: done) fill := by
  have hin : i ∈ f.instsOf b := by rw [hinsts]; simp
  have hlt := hp.sound.lt_insts_size hin
  obtain ⟨-, halike, -, -, -, hoperands, -⟩ := h.reshaped.removed hrun
  refine ⟨h.carried.passOther hp.sound hinsts hbefore (fun hload => by rw [hkind] at hload; cases hload)
      fun _ _ _ data hdata j hj => ?_,
    (h.reshaped.removeOld hlt (by rw [hkind]; rfl) hrun).congr (gone_cons haccess) fun _ => rfl, h.alike.trans halike,
    fun d k phi r hphi => ?_, h.clean⟩
  · -- A load of what is stored stands before the store, or in a block that was visited.
    have havail := hp.strict.operand b before i after hreach hinsts (by rw [hkind]; rfl) data (List.mem_of_getElem? hdata)
    rcases havail j (hp.sound.kind_of_result j data hj.2.2).2 with hj | ⟨d, hd, hdb, hdom⟩
    · exact hbefore j hj
    · exact hcomplete d hdom hdb j ((hp.sound.placed d j).2 hd)
  · rw [hoperands phi, h.filled d k phi r hphi]
    rintro rfl
    exact absurd hlt (Nat.not_lt.2 (hp.keys _ (hp.phi d k phi r hphi).2.1))

/-- Passing a load of a slot. -/
theorem passLoad (hinsts : f.instsOf b = before ++ i :: after) (hbefore : ∀ j ∈ before, j ∈ done) (hnot : i ∉ done)
    (hkind : f.kind i = .load) (haccess : plan.accessOf? f i = some k) (hr : f.result? i = some r)
    (hclean : plan.Clean f (plan.current f b before k)) {count : Nat}
    (hreplace : (Edit.replaceAllUses r (plan.current f b before k)).run c = (.ok count, c₀))
    (hremove : (Edit.removeInst i).run c₀ = (.ok (), c')) :
    SlotPlan.Renaming { plan with stand := Function.update plan.stand r (plan.current f b before k) } f f₁ c' new
      (i :: done) fill := by
  have hin : i ∈ f.instsOf b := by rw [hinsts]; simp
  have hlt := hp.sound.lt_insts_size hin
  have hloads : plan.Loads f i r := ⟨hkind, ⟨k, haccess⟩, hr⟩
  have hne : ∀ {v}, plan.Clean f v → v ≠ r := by
    rintro v hv rfl
    exact hv.2 i hloads
  obtain ⟨hreshaped, halike, hmap⟩ := h.reshaped.replaceAllUses (hne hclean).symm hreplace
  obtain ⟨-, halike', -, -, -, hoperands, -⟩ := hreshaped.removed hremove
  -- Only the value itself was read in its place.
  have hstand : ∀ v, Function.update plan.stand r (plan.current f b before k) v =
      Edit.substituted r (plan.current f b before k) (plan.stand v) := by
    intro v
    unfold Edit.substituted
    by_cases hv : v = r
    · subst hv
      have hself : plan.stand v = v := h.carried.stand_eq v fun j hj hj' => by
        have hsame := (hp.sound.kind_of_result j v hj'.2.2).2
        rw [(hp.sound.kind_of_result i v hr).2] at hsame
        exact hnot (ValueKind.inst.inj hsame ▸ hj)
      rw [Function.update_self, if_pos hself]
    · have hother : plan.stand v ≠ r := by
        rcases h.carried.stand_cases v with hself | hclean'
        · rwa [hself]
        · exact hne hclean'
      rw [Function.update_of_ne hv, if_neg hother]
  refine ⟨h.carried.passLoad hp.sound hinsts hbefore hnot hkind haccess hr hclean,
    (hreshaped.removeOld hlt (by rw [hkind]; rfl) hremove).congr (gone_cons haccess) hstand,
    (h.alike.trans halike).trans halike', fun d k' phi r' hphi => ?_, h.clean⟩
  change plan.phi? d k' = some (phi, r') at hphi
  obtain ⟨-, hentry, -⟩ := hp.phi d k' phi r' hphi
  have hphi' : phi ≠ i := by
    rintro rfl
    exact absurd hlt (Nat.not_lt.2 (hp.keys _ hentry))
  rw [hoperands phi hphi', hmap, h.filled d k' phi r' hphi, List.map_map]
  refine List.map_congr_left fun p _ => ?_
  exact if_neg (hne (h.clean p k' (hp.labels _ hentry)))

/-- Passing an instruction behind the phis. -/
theorem inst (hreach : f.Reach b) (hinsts : f.instsOf b = before ++ i :: after) (hbefore : ∀ j ∈ before, j ∈ done)
    (hnot : i ∉ done) (hcomplete : ∀ d, f.Dominates d b → d ≠ b → ∀ j ∈ f.instsOf d, j ∈ done)
    (hinn : ∀ k, k < plan.slots.length → plan.Clean f (plan.inn b k)) (hphi : (f.kind i).isPhi = false)
    {cur : Edit.SlotValues} (hcur : Holds plan.slots.length cur (plan.current f b before))
    (hrun : (Edit.renameInst plan.addresses entries cur i).run c = (.ok cur', c')) :
    ∃ stand, SlotPlan.Renaming { plan with stand := stand } f f₁ c' new (i :: done) fill ∧
      Holds plan.slots.length cur' (SlotPlan.current { plan with stand := stand } f b (before ++ [i])) ∧
      ∀ d l, (∀ j ∈ l, j ∈ done) → ∀ k,
        SlotPlan.current { plan with stand := stand } f d l k = plan.current f d l k := by
  have hin : i ∈ f.instsOf b := by rw [hinsts]; simp
  have hlt := hp.sound.lt_insts_size hin
  unfold Edit.renameInst at hrun
  have hrun := of_get_bind hrun
  rw [h.reshaped.kind i hlt] at hrun
  -- An instruction that accesses no slot is left alone.
  have hleft : plan.accessOf? f i = none → cur' = cur ∧ c' = c → ∃ stand,
      SlotPlan.Renaming { plan with stand := stand } f f₁ c' new (i :: done) fill ∧
      Holds plan.slots.length cur' (SlotPlan.current { plan with stand := stand } f b (before ++ [i])) ∧
      ∀ d l, (∀ j ∈ l, j ∈ done) → ∀ k,
        SlotPlan.current { plan with stand := stand } f d l k = plan.current f d l k := by
    rintro hnone ⟨rfl, rfl⟩
    refine ⟨plan.stand, h.skip hp.sound hinsts hbefore hnone, ?_, fun _ _ _ _ => rfl⟩
    exact hcur.congr fun k _ => congrFun (current_append fun j hj _ => List.mem_singleton.1 hj ▸ hnone) k
  -- What the walk finds as the slot of an access is the slot of the access in the function as it was.
  have haccess : ∀ {base}, c.operand i 0 = .ok base → f.kind i = .load ∨ f.kind i = .store →
      plan.accessOf? f i = plan.addresses.idxOf? base := by
    intro base hbase hkind
    have hfirst := Edit.operand_eq_ok hbase
    rw [h.operands_eq hlt hnot, List.getElem?_map, Option.map_eq_some_iff] at hfirst
    obtain ⟨v, hv, rfl⟩ := hfirst
    rw [h.carried.idxOf?_stand hp.plain hp.sound]
    unfold accessOf?
    rcases hkind with hkind | hkind
    · rw [hkind, hv]
      rfl
    · rw [hkind, hv]
      rfl
  split at hrun
  · rename_i hkind
    rw [hkind] at hphi
    cases hphi
  · rename_i hkind
    obtain ⟨base, hbase, hrun⟩ := Edit.ask_bind_eq_ok hrun
    have hslot := haccess hbase (.inl hkind)
    split at hrun
    · rename_i k hk
      obtain ⟨r, hresult, hrun⟩ := Edit.ask_bind_eq_ok hrun
      obtain ⟨count, c₁, hreplace, hrun⟩ := bind_eq_ok hrun
      obtain ⟨⟨⟩, c₂, hremove, hrun⟩ := bind_eq_ok hrun
      cases hrun
      have haccess := hslot.trans hk
      have hklt := lt_of_accessOf? haccess
      have hr := result_of_resultOf hresult
      rw [h.reshaped.result i hlt] at hr
      rw [hcur.2 k hklt] at hreplace
      have hclean := h.carried.clean_current hp.plain hreach hinsts hbefore (hinn k hklt)
      have hloads : plan.Loads f i r := ⟨hkind, ⟨k, haccess⟩, hr⟩
      refine ⟨_, h.passLoad hp hinsts hbefore hnot hkind haccess hr hclean hreplace hremove, ?_,
        fun d l hl k' => h.carried.current_update hloads hnot _ hl k'⟩
      refine hcur.congr fun k' _ => ?_
      rw [current_append fun j hj hstore => ?_, h.carried.current_update hloads hnot _ hbefore]
      rw [List.mem_singleton.1 hj, hkind] at hstore
      cases hstore
    · rename_i hk
      cases hrun
      exact hleft (hslot.trans hk) ⟨rfl, rfl⟩
  · rename_i hkind
    obtain ⟨base, hbase, hrun⟩ := Edit.ask_bind_eq_ok hrun
    have hslot := haccess hbase (.inr hkind)
    split at hrun
    · rename_i k hk
      obtain ⟨data, hdata, hrun⟩ := Edit.ask_bind_eq_ok hrun
      obtain ⟨⟨⟩, c₁, hremove, hrun⟩ := bind_eq_ok hrun
      cases hrun
      have haccess := hslot.trans hk
      have hthird := Edit.operand_eq_ok hdata
      rw [h.operands_eq hlt hnot, List.getElem?_map, Option.map_eq_some_iff] at hthird
      obtain ⟨v, hv, rfl⟩ := hthird
      refine ⟨plan.stand, h.passStore hp hreach hinsts hbefore hcomplete hkind haccess hremove, ?_, fun _ _ _ _ => rfl⟩
      have hstored : plan.current f b (before ++ [i]) =
          Function.update (plan.current f b before) k (plan.stand v) := current_store hkind haccess hv
      exact (hcur.set k _).congr fun k' _ => congrFun hstored k'
    · rename_i hk
      cases hrun
      exact hleft (hslot.trans hk) ⟨rfl, rfl⟩
  · rename_i hload hstore
    cases hrun
    exact hleft (accessOf?_eq_none hload hstore) ⟨rfl, rfl⟩

end

/-- What is still to be passed after an instruction of a block. -/
theorem step_insts (hs : f.Sound) (hinsts : f.instsOf b = before ++ i :: l) (hbefore : ∀ j ∈ before, j ∈ done)
    (hl : ∀ j ∈ i :: l, j ∉ done ∧ (f.kind j).isPhi = false) :
    f.instsOf b = (before ++ [i]) ++ l ∧ (∀ j ∈ before ++ [i], j ∈ i :: done) ∧
      ∀ j ∈ l, j ∉ i :: done ∧ (f.kind j).isPhi = false := by
  refine ⟨by rw [hinsts]; simp, fun j hj => ?_, fun j hj => ?_⟩
  · rcases List.mem_append.1 hj with hj | hj
    · exact List.mem_cons_of_mem _ (hbefore j hj)
    · exact List.mem_singleton.1 hj ▸ List.mem_cons_self
  · obtain ⟨hj₁, hj₂⟩ := hl j (List.mem_cons_of_mem _ hj)
    refine ⟨fun hin => ?_, hj₂⟩
    rcases List.mem_cons.1 hin with rfl | hin
    · have hnodup := hs.nodup b
      rw [hinsts, List.nodup_append, List.nodup_cons] at hnodup
      exact hnodup.2.1.1 hj
    · exact hj₁ hin

/-- Passing the instructions of a block behind the phis. -/
theorem insts (hp : plan.Prepared f f₁ new entries) (hreach : f.Reach b) :
    ∀ {stand : ValueId → ValueId} {c c' : Function} {done before : List InstId} {cur cur' : Edit.SlotValues},
      SlotPlan.Renaming { plan with stand := stand } f f₁ c new done fill →
      f.instsOf b = before ++ l → (∀ j ∈ before, j ∈ done) → (∀ j ∈ l, j ∉ done ∧ (f.kind j).isPhi = false) →
      (∀ d, f.Dominates d b → d ≠ b → ∀ j ∈ f.instsOf d, j ∈ done) →
      (∀ k, k < plan.slots.length → plan.Clean f (plan.inn b k)) →
      Holds plan.slots.length cur (SlotPlan.current { plan with stand := stand } f b before) →
      (l.foldlM (Edit.renameInst plan.addresses entries) cur).run c = (.ok cur', c') →
      ∃ stand', SlotPlan.Renaming { plan with stand := stand' } f f₁ c' new (l.reverse ++ done) fill ∧
        Holds plan.slots.length cur' (SlotPlan.current { plan with stand := stand' } f b (before ++ l)) ∧
        ∀ d l, (∀ j ∈ l, j ∈ done) → ∀ k, SlotPlan.current { plan with stand := stand' } f d l k =
          SlotPlan.current { plan with stand := stand } f d l k := by
  induction l with
  | nil =>
    intro stand c c' done before cur cur' h hinsts hbefore _ _ _ hcur hrun
    cases hrun
    refine ⟨stand, h, ?_, fun _ _ _ _ => rfl⟩
    rwa [List.append_nil]
  | cons i l ih =>
    intro stand c c' done before cur cur' h hinsts hbefore hl hcomplete hinn hcur hrun
    rw [List.foldlM_cons] at hrun
    obtain ⟨cur₁, c₁, hfirst, hrest⟩ := bind_eq_ok hrun
    obtain ⟨hnot, hphi⟩ := hl i List.mem_cons_self
    have hp' : SlotPlan.Prepared { plan with stand := stand } f f₁ new entries := hp.withValues stand plan.inn
    obtain ⟨stand₁, h₁, hcur₁, hsame₁⟩ := h.inst hp' hreach hinsts hbefore hnot hcomplete hinn hphi hcur hfirst
    obtain ⟨hinsts₁, hbefore₁, hl₁⟩ := step_insts hp.sound hinsts hbefore hl
    obtain ⟨stand₂, h₂, hcur₂, hsame₂⟩ := ih h₁ hinsts₁ hbefore₁ hl₁
      (fun d hd hdb j hj => List.mem_cons_of_mem _ (hcomplete d hd hdb j hj)) hinn hcur₁ hrest
    refine ⟨stand₂, ?_, ?_, fun d l' hl' k => ?_⟩
    · rw [List.reverse_cons, List.append_assoc]
      exact h₂
    · rw [List.append_assoc] at hcur₂
      exact hcur₂
    · exact (hsame₂ d l' (fun j hj => List.mem_cons_of_mem _ (hl' j hj)) k).trans (hsame₁ d l' hl' k)

/-- Passing the phis that were there before. -/
theorem skipAll (hs : f.Sound) : ∀ {done before : List InstId},
    plan.Renaming f f₁ c new done fill → f.instsOf b = before ++ (l ++ after) → (∀ j ∈ before, j ∈ done) →
      (∀ j ∈ l, plan.accessOf? f j = none) → plan.Renaming f f₁ c new (l.reverse ++ done) fill := by
  induction l with
  | nil => exact fun h _ _ _ => h
  | cons i l ih =>
    intro done before h hinsts hbefore hl
    have hsplit : f.instsOf b = before ++ i :: (l ++ after) := hinsts
    have hmore : f.instsOf b = (before ++ [i]) ++ (l ++ after) := by rw [hinsts]; simp
    have hnext := h.skip hs hsplit hbefore (hl i List.mem_cons_self)
    rw [List.reverse_cons, List.append_assoc]
    refine ih hnext hmore (fun j hj => ?_) fun j hj => hl j (List.mem_cons_of_mem _ hj)
    rcases List.mem_append.1 hj with hj | hj
    · exact List.mem_cons_of_mem _ (hbefore j hj)
    · exact List.mem_singleton.1 hj ▸ List.mem_cons_self

/-- Entering a block with values of the slots. -/
theorem enter (h : plan.Renaming f f₁ c new done fill) (hb : ∀ i ∈ f.instsOf b, i ∉ done) (values : Nat → ValueId) :
    SlotPlan.Renaming { plan with inn := Function.update plan.inn b values } f f₁ c new done fill where
  carried :=
    { prior := h.carried.prior
      stand_eq := h.carried.stand_eq
      stand_clean := h.carried.stand_clean
      settled := h.carried.settled
      load := fun d before i after k r hi hinsts hkind haccess hr => by
        have hdb : d ≠ b := by
          rintro rfl
          exact hb i (by rw [hinsts]; simp) hi
        refine (h.carried.load d before i after k r hi hinsts hkind haccess hr).trans (Eq.symm ?_)
        exact current_congr (by rw [Function.update_of_ne hdb]) fun _ _ _ _ _ _ => rfl }
  reshaped := h.reshaped
  alike := h.alike
  filled := h.filled
  clean := h.clean

end Renaming

/-! ## Blocks -/

/-- The phis that were there before do nothing. -/
theorem Prepared.run_phis (hp : plan.Prepared f f₁ new entries) {b : BlockId} {c : Function}
    (hkind : ∀ i, i < f.insts.size → c.kind i = f.kind i) {cur : Edit.SlotValues} (hl : ∀ i ∈ l, i ∈ f.phis b) :
    (l.foldlM (Edit.renameInst plan.addresses entries) cur).run c = (.ok cur, c) := by
  induction l with
  | nil => rfl
  | cons i l ih =>
    have hi := hl i List.mem_cons_self
    have hlt := hp.sound.lt_insts_size ((List.takeWhile_sublist _).subset hi)
    have hfirst : (Edit.renameInst plan.addresses entries cur i).run c = (.ok cur, c) := by
      rw [Edit.renameInst, run_get_bind, hkind i hlt, InstKind.isPhi_eq_true.1 (f.isPhi_of_mem_phis hi), hp.lookup_eq_none hlt]
      rfl
    rw [List.foldlM_cons, run_bind, hfirst]
    exact ih fun j hj => hl j (List.mem_cons_of_mem _ hj)

/-- The added phis set the values of their slots. -/
theorem Prepared.run_new (hp : plan.Prepared f f₁ new entries) (halike : f₁.Alike c) {b : BlockId}
    (hkind : ∀ phi ∈ new b, c.kind phi = .phi) : ∀ {cur cur' : Edit.SlotValues},
      (∀ phi ∈ l, phi ∈ new b) → cur.length = plan.slots.length →
      (l.foldlM (Edit.renameInst plan.addresses entries) cur).run c = (.ok cur', c') →
      c = c' ∧ Holds plan.slots.length cur' fun k => match plan.phi? b k with
        | some (phi, r) => if phi ∈ l then r else cur.getD k 0
        | none => cur.getD k 0 := by
  induction l with
  | nil =>
    intro cur cur' _ hlength hrun
    cases hrun
    refine ⟨rfl, hlength, fun k _ => ?_⟩
    dsimp only
    split
    · rfl
    · rfl
  | cons phi l ih =>
    intro cur cur' hl hlength hrun
    rw [List.foldlM_cons] at hrun
    obtain ⟨cur₁, c₁, hfirst, hrest⟩ := bind_eq_ok hrun
    have hphi := hl phi List.mem_cons_self
    obtain ⟨k, r, hk⟩ := hp.listed b phi hphi
    obtain ⟨-, hentry, hresult⟩ := hp.phi b k phi r hk
    unfold Edit.renameInst at hfirst
    have hfirst := of_get_bind hfirst
    rw [hkind phi hphi, lookup_eq_some_of_mem hp.nodup hentry] at hfirst
    obtain ⟨r', hr', hfirst⟩ := Edit.ask_bind_eq_ok hfirst
    cases hfirst
    obtain rfl : r' = r := by
      have hr' := result_of_resultOf hr'
      rw [halike.result, hresult] at hr'
      exact (Option.some.inj hr').symm
    obtain ⟨hsame, hholds⟩ := ih (fun p hq => hl p (List.mem_cons_of_mem _ hq)) (by rwa [List.length_set]) hrest
    refine ⟨hsame, hholds.congr fun k' hk' => ?_⟩
    have hset := (Holds.set (n := plan.slots.length) ⟨hlength, fun j _ => rfl⟩ k r').2 k' hk'
    rw [hset]
    by_cases hkk : k' = k
    · subst hkk
      rw [hk]
      simp
    · rw [Function.update_of_ne hkk]
      cases hphi' : plan.phi? b k' with
      | none => rfl
      | some e =>
        have hne : e.1 ≠ phi := by
          intro he
          have hentry' := lookup_eq_some_of_mem hp.nodup (hp.phi b k' e.1 e.2 hphi').2.1
          rw [he, lookup_eq_some_of_mem hp.nodup hentry] at hentry'
          exact hkk (Option.some.inj hentry').symm
        simp [hne]

/-- What a phi of the plan gives is clean. -/
theorem Prepared.clean_phi (hp : plan.Prepared f f₁ new entries) {b : BlockId} (hphi : plan.phi? b k = some (phi, r)) :
    plan.Clean f r := by
  have hsize := hp.phis.fresh b k phi r hphi
  refine ⟨fun hin => ?_, fun i hi => ?_⟩
  · obtain ⟨e, he, rfl⟩ := List.mem_map.1 hin
    exact absurd (hp.sound.kind_of_result e.1 e.2 (hp.plain.reserve e he).2).1 (Nat.not_lt.2 hsize)
  · exact absurd (hp.sound.kind_of_result i r hi.2.2).1 (Nat.not_lt.2 hsize)

/-- The values of the slots behind the phis of a block. -/
def entering (plan : SlotPlan) (b : BlockId) (cur : Edit.SlotValues) (k : Nat) : ValueId :=
  match plan.phi? b k with
  | some (_, r) => r
  | none => cur.getD k 0

/-- The phis of a block access no slot. -/
theorem accessOf?_phi {b : BlockId} {i : InstId} (hi : i ∈ f.phis b) : plan.accessOf? f i = none := by
  have hkind := InstKind.isPhi_eq_true.1 (f.isPhi_of_mem_phis hi)
  exact accessOf?_eq_none (by rw [hkind]; exact InstKind.noConfusion) (by rw [hkind]; exact InstKind.noConfusion)

/-- The values behind the phis are clean if those that the walk brings are. -/
theorem Prepared.clean_entering (hp : plan.Prepared f f₁ new entries) {b : BlockId} {cur : Edit.SlotValues}
    (hclean : ∀ k, k < plan.slots.length → plan.phi? b k = none → plan.Clean f (cur.getD k 0))
    (hk : k < plan.slots.length) : plan.Clean f (plan.entering b cur k) := by
  unfold entering
  split
  · rename_i phi r hphi
    exact hp.clean_phi hphi
  · exact hclean k hk ‹_›

/-- The instructions behind the phis of a block that was not visited. -/
theorem Prepared.behind_phis (hp : plan.Prepared f f₁ new entries) {b : BlockId} (hlisted : b ∈ f.layout)
    {done : List InstId} (hb : ∀ i ∈ f.instsOf b, i ∉ done) {j : InstId}
    (hj : j ∈ (f.instsOf b).dropWhile fun i => (f.kind i).isPhi) :
    j ∉ (f.phis b).reverse ++ done ∧ (f.kind j).isPhi = false := by
  have hin := (List.dropWhile_sublist _).subset hj
  have hnodup := hp.sound.nodup b
  rw [← f.phis_append b, List.nodup_append] at hnodup
  have hphis : j ∉ f.phis b := fun hphi => hnodup.2.2 j hphi j hj rfl
  refine ⟨fun hor => ?_, ?_⟩
  · rcases List.mem_append.1 hor with hor | hor
    · exact hphis (List.mem_reverse.1 hor)
    · exact hb j hin hor
  · rw [← Bool.not_eq_true]
    exact fun hphi => hphis ((hp.regular.mem_phis hlisted).2 ⟨hin, hphi⟩)

namespace Renaming

variable {done : List InstId} {fill : BlockId → Nat → ValueId} {b : BlockId} {cur : Edit.SlotValues}

/-- The instructions of a block that was not visited. -/
theorem instsOf_eq (h : plan.Renaming f f₁ c new done fill) (hb : ∀ i ∈ f.instsOf b, i ∉ done) :
    c.instsOf b = f.phis b ++ new b ++ (f.instsOf b).dropWhile fun i => (f.kind i).isPhi := by
  rw [h.reshaped.insts, List.filter_eq_self.2]
  intro i hi
  simp [hb i ((List.dropWhile_sublist _).subset hi)]

/-- The walk is behind the phis of a block. -/
theorem behindPhis (h : plan.Renaming f f₁ c new done fill) (hs : f.Sound) (hb : ∀ i ∈ f.instsOf b, i ∉ done) :
    SlotPlan.Renaming { plan with inn := Function.update plan.inn b (plan.entering b cur) } f f₁ c new
      ((f.phis b).reverse ++ done) fill := by
  have hsplit : f.instsOf b = [] ++ (f.phis b ++ (f.instsOf b).dropWhile fun i => (f.kind i).isPhi) :=
    (f.phis_append b).symm
  exact skipAll hs (h.enter hb (plan.entering b cur)) hsplit (fun j hj => absurd hj List.not_mem_nil) fun _ => accessOf?_phi

end Renaming

/-- Behind the phis the slots have the values with which the walk enters. -/
theorem holds_behindPhis {b : BlockId} {cur : Edit.SlotValues}
    (h : Holds plan.slots.length cur' (plan.entering b cur)) : Holds plan.slots.length cur' (SlotPlan.current
      { plan with inn := Function.update plan.inn b (plan.entering b cur) } f b (f.phis b)) := by
  refine h.congr fun k _ => ?_
  have hcur : SlotPlan.current { plan with inn := Function.update plan.inn b (plan.entering b cur) } f b
      ([] ++ f.phis b) = SlotPlan.current
        { plan with inn := Function.update plan.inn b (plan.entering b cur) } f b [] :=
    current_append fun j hj _ => accessOf?_phi hj
  refine (congrFun hcur k).trans ?_
  exact congrFun (Function.update_self ..) k

/-- All added phis of a block. -/
theorem Prepared.run_added (hp : plan.Prepared f f₁ new entries) (halike : f₁.Alike c) {b : BlockId}
    (hkind : ∀ phi ∈ new b, c.kind phi = .phi) {cur : Edit.SlotValues} (hlength : cur.length = plan.slots.length)
    (hrun : ((new b).foldlM (Edit.renameInst plan.addresses entries) cur).run c = (.ok cur', c')) :
    c = c' ∧ Holds plan.slots.length cur' (plan.entering b cur) := by
  obtain ⟨hsame, hcur⟩ := hp.run_new halike hkind (fun _ hi => hi) hlength hrun
  refine ⟨hsame, hcur.congr fun k _ => ?_⟩
  unfold entering
  split
  · rename_i phi r hphi
    rw [if_pos (hp.phi b k phi r hphi).1]
  · rfl

/-- Passing all instructions of a block. -/
theorem Renaming.block {done : List InstId} {fill : BlockId → Nat → ValueId} (h : plan.Renaming f f₁ c new done fill)
    (hp : plan.Prepared f f₁ new entries) {b : BlockId} (hreach : f.Reach b) (hb : ∀ i ∈ f.instsOf b, i ∉ done)
    (hcomplete : ∀ d, f.Dominates d b → d ≠ b → ∀ j ∈ f.instsOf d, j ∈ done) {cur : Edit.SlotValues}
    (hlength : cur.length = plan.slots.length)
    (hclean : ∀ k, k < plan.slots.length → plan.phi? b k = none → plan.Clean f (cur.getD k 0))
    (hrun : ((c.instsOf b).foldlM (Edit.renameInst plan.addresses entries) cur).run c = (.ok last, c')) :
    ∃ stand inn, (∀ d, d ≠ b → inn d = plan.inn d) ∧ (∀ k, inn b k = plan.entering b cur k) ∧
      SlotPlan.Renaming { plan with stand := stand, inn := inn } f f₁ c' new ((f.instsOf b).reverse ++ done) fill ∧
      Holds plan.slots.length last (SlotPlan.current { plan with stand := stand, inn := inn } f b (f.instsOf b)) ∧
      ∀ d l, d ≠ b → (∀ j ∈ l, j ∈ done) → ∀ k,
        SlotPlan.current { plan with stand := stand, inn := inn } f d l k = plan.current f d l k := by
  have hlisted := hp.regular.mem_layout_of_reach hp.sound hreach
  rw [h.instsOf_eq hb, List.foldlM_append, List.foldlM_append] at hrun
  obtain ⟨cur₂, c₂, hfront, hrest⟩ := bind_eq_ok hrun
  rw [run_bind, hp.run_phis h.reshaped.kind fun _ hi => hi] at hfront
  obtain ⟨rfl, hcur₂⟩ := hp.run_added h.alike (fun phi hphi => (h.reshaped.fresh b phi hphi).2) hlength hfront
  have hclean' : ∀ k, k < plan.slots.length → plan.Clean f (Function.update plan.inn b (plan.entering b cur) b k) := by
    intro k hk
    rw [Function.update_self]
    exact hp.clean_entering hclean hk
  obtain ⟨stand, hdone, hholds, hsame⟩ := Renaming.insts
    (hp.withValues plan.stand (Function.update plan.inn b (plan.entering b cur))) hreach (h.behindPhis hp.sound hb)
    (f.phis_append b).symm (fun j hj => List.mem_append_left _ (List.mem_reverse.2 hj))
    (fun _ => hp.behind_phis hlisted hb) (fun d hd hdb j hj => List.mem_append_right _ (hcomplete d hd hdb j hj)) hclean'
    (holds_behindPhis hcur₂) hrest
  refine ⟨stand, Function.update plan.inn b (plan.entering b cur), fun d hd => Function.update_of_ne hd _ _,
    fun k => congrFun (Function.update_self ..) k, ?_, ?_, fun d l hd hl k => ?_⟩
  · rw [← List.append_assoc, ← List.reverse_append, f.phis_append b] at hdone
    exact hdone
  · rw [f.phis_append b] at hholds
    exact hholds
  · refine (hsame d l (fun j hj => List.mem_append_right _ (hl j hj)) k).trans ?_
    have hinn' : Function.update plan.inn b (plan.entering b cur) d k = plan.inn d k :=
      congrFun (Function.update_of_ne hd _ _) k
    exact current_congr hinn' fun _ _ _ _ _ _ => rfl

/-! ## Values of phis -/

/-- Making some slots of an added phi read a value. -/
theorem setOperands_spec (hphi : f.insts.size ≤ phi) (v : ValueId) {slots : List Nat} :
    ∀ {c c' : Function}, f.Reshaped c new gone stand →
      (slots.forM fun slot => Edit.setOperand phi slot v).run c = (.ok (), c') →
      f.Reshaped c' new gone stand ∧ c.Alike c' ∧
        c'.operands phi = slots.foldl (fun l i => l.set i v) (c.operands phi) ∧
        ∀ j, j ≠ phi → c'.operands j = c.operands j := by
  induction slots with
  | nil =>
    intro c c' h hrun
    cases hrun
    exact ⟨h, .refl c, rfl, fun _ _ => rfl⟩
  | cons slot slots ih =>
    intro c c' h hrun
    obtain ⟨⟨⟩, c₁, hfirst, hrest⟩ := bind_eq_ok hrun
    obtain ⟨h₁, halike, hset, hother, -⟩ := h.setOperand hphi hfirst
    obtain ⟨h₂, halike', hsets, hother'⟩ := ih h₁ hrest
    refine ⟨h₂, halike.trans halike', by rw [hsets, hset]; rfl, fun j hj => ?_⟩
    rw [hother' j hj, hother j hj]

/-- Entering the values at the end of a block into the phis of a successor. -/
theorem Prepared.fillPhis_spec (hp : plan.Prepared f f₁ new entries) (h : f.Reshaped c new gone stand) {b : BlockId}
    (hb : b ∈ f.layout) {g : Nat → BlockId → ValueId}
    (hfilled : ∀ k phi r, plan.phi? b k = some (phi, r) → c.operands phi = (f.preds b).map (g k))
    (hrun : (Edit.fillPhis entries last p b).run c = (.ok (), c')) : f.Reshaped c' new gone stand ∧ c.Alike c' ∧
      (∀ k phi r, plan.phi? b k = some (phi, r) →
        c'.operands phi = (f.preds b).map (Function.update (g k) p (last.getD k 0))) ∧
      ∀ i, i ∉ new b → c'.operands i = c.operands i := by
  unfold Edit.fillPhis at hrun
  have hrun := of_get_bind hrun
  rw [(h.phis_eq hp.sound hp.regular.phis_first hb).1, h.preds] at hrun
  -- The phis that are still to come read what they read before.
  have hkeeps := forM_keeps (P := fun rest c₁ => f.Reshaped c₁ new gone stand ∧ c.Alike c₁ ∧
    (∀ k phi r, plan.phi? b k = some (phi, r) → c₁.operands phi = (f.preds b).map
      (if phi ∈ rest then g k else Function.update (g k) p (last.getD k 0))) ∧
    ∀ i, i ∉ new b → c₁.operands i = c.operands i) ?_ ?_ hrun
  · obtain ⟨h₁, halike, hphis, hother⟩ := hkeeps
    refine ⟨h₁, halike, fun k phi r hphi => ?_, hother⟩
    rw [hphis k phi r hphi, if_neg List.not_mem_nil]
  · rintro phi rest c₁ c₂ hsuffix ⟨h₁, halike, hphis, hother⟩ hstep
    have hmem : phi ∈ f.phis b ++ new b := hsuffix.subset List.mem_cons_self
    have hnodup : (phi :: rest).Nodup := by
      refine hsuffix.sublist.nodup ?_
      rw [← (h.phis_eq hp.sound hp.regular.phis_first hb).1]
      exact (List.takeWhile_sublist _).nodup (h.sound.nodup b)
    -- A phi other than this one is still to come when it was before.
    have hrest : ∀ {k phi' r}, plan.phi? b k = some (phi', r) → phi' ≠ phi → c₁.operands phi' = (f.preds b).map
        (if phi' ∈ rest then g k else Function.update (g k) p (last.getD k 0)) := by
      intro k phi' r hphi' hne
      rw [hphis k phi' r hphi']
      simp [hne]
    rcases List.mem_append.1 hmem with hold | hnew
    · have hlt := hp.sound.lt_insts_size ((List.takeWhile_sublist _).subset hold)
      have hlookup : entries.lookup phi = none := hp.lookup_eq_none hlt
      rw [hlookup] at hstep
      cases hstep
      refine ⟨h₁, halike, fun k phi' r hphi' => hrest hphi' ?_, hother⟩
      rintro rfl
      exact absurd hlt (Nat.not_lt.2 (hp.keys _ (hp.phi b k phi' r hphi').2.1))
    · obtain ⟨k, r, hphi⟩ := hp.listed b phi hnew
      obtain ⟨-, hentry, -⟩ := hp.phi b k phi r hphi
      rw [lookup_eq_some_of_mem hp.nodup hentry] at hstep
      obtain ⟨h₂, halike', hset, hother'⟩ := setOperands_spec (hp.keys _ hentry) _ h₁ hstep
      refine ⟨h₂, halike.trans halike', fun k' phi' r' hphi' => ?_, fun i hi => ?_⟩
      · by_cases hne : phi' = phi
        · subst hne
          obtain rfl : k' = k := by
            have hlookup := lookup_eq_some_of_mem hp.nodup (hp.phi b k' phi' r' hphi').2.1
            rw [lookup_eq_some_of_mem hp.nodup hentry] at hlookup
            exact (Option.some.inj hlookup).symm
          rw [hset, hphis k' phi' r' hphi', if_pos List.mem_cons_self, if_neg (List.nodup_cons.1 hnodup).1]
          exact foldl_set_map (f.preds b) (g k') p _
        · rw [hother' phi' hne]
          exact hrest hphi' hne
      · rw [hother' i (by rintro rfl; exact hi hnew), hother i hi]
  · refine ⟨h, .refl c, fun k phi r hphi => ?_, fun _ _ => rfl⟩
    rw [if_pos (List.mem_append_right _ (hp.phi b k phi r hphi).1), hfilled k phi r hphi]

/-! ## The walk -/

/-- The state of the walk between two blocks. -/
structure Walking (plan : SlotPlan) (f f₁ c : Function) (new : BlockId → List InstId) (done : List InstId)
    (fill : BlockId → Nat → ValueId) (blocks : List BlockId) : Prop where
  state : plan.Renaming f f₁ c new done fill
  visited : plan.Visited f done blocks
  reach : ∀ b ∈ blocks, f.Reach b
  ends : ∀ p ∈ blocks, ∀ k, k < plan.slots.length → fill p k = plan.current f p (f.instsOf p) k

theorem Prepared.clean_zero (hp : plan.Prepared f f₁ new entries) : plan.Clean f plan.zero := by
  have hkind : ∀ i, f.result? i ≠ some plan.zero := by
    intro i hi
    obtain ⟨hlt, hinst⟩ := hp.sound.kind_of_result i plan.zero hi
    rw [hp.phis.zero_const hlt] at hinst
    cases hinst
  refine ⟨fun hin => ?_, fun i hi => hkind i hi.2.2⟩
  obtain ⟨e, he, hzero⟩ := List.mem_map.1 hin
  exact hkind e.1 (hzero ▸ (hp.plain.reserve e he).2)

theorem Origin.mono {earlier earlier' : List BlockId} {b : BlockId} (h : plan.Origin f earlier b values)
    (hsub : ∀ p ∈ earlier, p ∈ earlier')
    (hsame : ∀ p ∈ earlier, ∀ k, SlotPlan.current { plan with stand := stand, inn := inn } f p (f.instsOf p) k =
      plan.current f p (f.instsOf p) k) :
    SlotPlan.Origin { plan with stand := stand, inn := inn } f earlier' b values := by
  rcases h with hentry | ⟨p, hp, hedge, hvalues⟩
  · exact .inl hentry
  · exact .inr ⟨p, hsub p hp, hedge, fun k hk hphi => (hvalues k hk hphi).trans (hsame p hp k).symm⟩

/-- The edges of a block stay. -/
theorem Renaming.successors {done : List InstId} {fill : BlockId → Nat → ValueId}
    (h : plan.Renaming f f₁ c new done fill) (hp : plan.Prepared f f₁ new entries) {b : BlockId} (hb : b ∈ f.layout) :
    c.successors b = .ok (f.arms b) := by
  obtain ⟨before, t, hinsts, hterm, -⟩ := hp.regular.ends b hb
  -- The terminator stands behind the phis and accesses no slot.
  have hdrop : ∃ front, (f.instsOf b).dropWhile (fun i => (f.kind i).isPhi) = front ++ [t] := by
    rw [hinsts, List.dropWhile_append]
    split
    · exact ⟨[], by simp [InstKind.not_isPhi hterm]⟩
    · exact ⟨_, rfl⟩
  obtain ⟨front, hfront⟩ := hdrop
  have hnone : plan.accessOf? f t = none := by
    refine accessOf?_eq_none ?_ ?_
    all_goals
      intro hkind
      rw [hkind] at hterm
      cases hterm
  have hlast : (c.instsOf b).getLast? = some t := by
    rw [h.reshaped.insts, hfront, List.filter_append, ← List.append_assoc]
    simp [hnone]
  have hlast' : (f.instsOf b).getLast? = some t := by rw [hinsts]; simp
  have hkind := h.reshaped.kind t (hp.sound.lt_insts_size (List.mem_of_getLast? hlast'))
  have hasked : c.terminator b = .ok t := Edit.terminator_eq_ok.2 ⟨hlast, by rw [hkind]; exact hterm⟩
  unfold Function.successors Function.arms
  rw [hasked, hlast']
  dsimp only
  rw [← hkind]
  rfl

/-- Entering the values at the end of a block into the phis of all successors. -/
theorem Renaming.fillAll {done : List InstId} {fill : BlockId → Nat → ValueId}
    (h : plan.Renaming f f₁ c new done fill) (hp : plan.Prepared f f₁ new entries) (hreach : f.Reach p)
    (hlast : Holds plan.slots.length last values) (hclean : ∀ k, k < plan.slots.length → plan.Clean f (values k))
    (hrun : ((f.arms p).forM (Edit.fillPhis entries last p)).run c = (.ok (), c')) :
    plan.Renaming f f₁ c' new done (Function.update fill p values) := by
  have hlisted := hp.regular.mem_layout_of_reach hp.sound hreach
  have hupdate : ∀ k q, Function.update fill p values q k = Function.update (fill · k) p (values k) q := by
    intro k q
    rw [Function.update_apply, Function.update_apply]
    split
    · rfl
    · rfl
  -- A block that is still to come has the old values, and so has a block that is no successor.
  have hkeeps := forM_keeps (P := fun rest c₁ => f.Reshaped c₁ new
      (fun i => done.contains i && (plan.accessOf? f i).isSome) plan.stand ∧ c.Alike c₁ ∧
    ∀ b k phi r, plan.phi? b k = some (phi, r) →
      c₁.operands phi = (f.preds b).map (Function.update (fill · k) p (values k)) ∨
      (b ∈ f.arms p → b ∈ rest) ∧ c₁.operands phi = (f.preds b).map (fill · k)) ?_ ?_ hrun
  · obtain ⟨hreshaped, halike, hphis⟩ := hkeeps
    refine ⟨h.carried, hreshaped, h.alike.trans halike, fun b k phi r hphi => ?_, fun q k hk => ?_⟩
    · have hnew : (f.preds b).map (Function.update fill p values · k) =
          (f.preds b).map (Function.update (fill · k) p (values k)) := List.map_congr_left fun q _ => hupdate k q
      rw [hnew]
      rcases hphis b k phi r hphi with hfilled | ⟨hnot, hold⟩
      · exact hfilled
      · rw [hold]
        refine List.map_congr_left fun q hq => ?_
        rw [Function.update_of_ne]
        rintro rfl
        have hb := hp.regular.mem_layout_of_reach hp.sound (hp.phis.reach b k _ hphi)
        exact List.not_mem_nil (hnot ((hp.regular.mem_preds_iff hb).1 hq).2)
    · rw [hupdate, Function.update_apply]
      split
      · exact hclean k hk
      · exact h.clean q k hk
  · rintro b rest c₁ c₂ hsuffix ⟨hreshaped, halike, hphis⟩ hstep
    have hb : b ∈ f.layout :=
      hp.regular.mem_layout_of_mem_arms hp.sound hlisted (hsuffix.subset List.mem_cons_self)
    -- The phis of the block read the old values or the new ones, and then all of them read the new ones.
    have hsome : ∀ k, ∃ g : BlockId → ValueId, (∀ phi r, plan.phi? b k = some (phi, r) →
        c₁.operands phi = (f.preds b).map g) ∧
          Function.update g p (values k) = Function.update (fill · k) p (values k) := by
      intro k
      cases hphi : plan.phi? b k with
      | none => exact ⟨(fill · k), fun phi r h => (nomatch h), rfl⟩
      | some e =>
        rcases hphis b k e.1 e.2 hphi with hread | ⟨-, hread⟩
        · refine ⟨Function.update (fill · k) p (values k), fun phi r h => ?_, Function.update_idem ..⟩
          cases h
          exact hread
        · refine ⟨(fill · k), fun phi r h => ?_, rfl⟩
          cases h
          exact hread
    choose g hg hupdated using hsome
    obtain ⟨hreshaped', halike', hnow, hother⟩ := hp.fillPhis_spec hreshaped hb (fun k phi r => hg k phi r) hstep
    refine ⟨hreshaped', halike.trans halike', fun d k phi r hphi => ?_⟩
    obtain ⟨hin, hentry, -⟩ := hp.phi d k phi r hphi
    by_cases hdb : d = b
    · subst hdb
      refine .inl ?_
      rw [hnow k phi r hphi, hlast.2 k (hp.labels _ hentry), hupdated]
    · have hnot : phi ∉ new b := by
        intro hin'
        obtain ⟨k', r', hphi'⟩ := hp.listed b phi hin'
        obtain rfl : r' = r := by
          have hr := (hp.phi b k' phi r' hphi').2.2
          rw [(hp.phi d k phi r hphi).2.2] at hr
          exact (Option.some.inj hr).symm
        exact hdb (hp.phis.inj d b k k' phi phi r' hphi hphi').1
      rw [hother phi hnot]
      refine (hphis d k phi r hphi).imp_right fun hold => ⟨fun hd => ?_, hold.2⟩
      exact (List.mem_cons.1 (hold.1 hd)).resolve_left hdb
  · exact ⟨h.reshaped, .refl c, fun b k phi r hphi => .inr ⟨id, h.filled b k phi r hphi⟩⟩

namespace Walking

variable {done : List InstId} {fill : BlockId → Nat → ValueId} {blocks : List BlockId} {b : BlockId}

section

variable (h : plan.Walking f f₁ c new done fill blocks)

include h

/-- No instruction of a block that was not visited was passed. -/
theorem fresh (hs : f.Sound) (hnot : b ∉ blocks) : ∀ i ∈ f.instsOf b, i ∉ done := by
  intro i hi hdone
  obtain ⟨d, hd, hin⟩ := (h.visited.passed i).1 hdone
  have hdb := (hs.placed b i).1 hi
  rw [(hs.placed d i).1 hin] at hdb
  exact hnot (Option.some.inj hdb ▸ hd)

/-- The blocks that strictly dominate a block were visited before it, as the walk came over an edge from one of them. -/
theorem complete (horigin : plan.Origin f blocks b values) :
    ∀ d, f.Dominates d b → d ≠ b → ∀ j ∈ f.instsOf d, j ∈ done := by
  intro d hdom hdb j hj
  refine (h.visited.passed j).2 ⟨d, ?_, hj⟩
  rcases horigin with ⟨hentry, -⟩ | ⟨p, hpin, hedge, -⟩
  · exact absurd (.entry hentry (Ne.symm hdb)) hdom
  · exact h.visited.mem_of_dominates hpin (hdom.of_edge hdb hedge)

/-- The values that the walk brings to a block are clean. -/
theorem clean_origin (hp : plan.Prepared f f₁ new entries) {cur : Edit.SlotValues}
    (horigin : plan.Origin f blocks b (cur.getD · 0)) (hk : k < plan.slots.length) (hphi : plan.phi? b k = none) :
    plan.Clean f (cur.getD k 0) := by
  rcases horigin with ⟨-, hzero⟩ | ⟨p, hpin, -, hvalues⟩
  · have hvalue : cur.getD k 0 = plan.zero := hzero k hk hphi
    rw [hvalue]
    exact hp.clean_zero
  · have hvalue : cur.getD k 0 = plan.current f p (f.instsOf p) k := hvalues k hk hphi
    rw [hvalue, ← h.ends p hpin k hk]
    exact h.state.clean p k hk

end

end Walking

/-- Visiting a block. -/
theorem Walking.block {done : List InstId} {fill : BlockId → Nat → ValueId} {blocks : List BlockId}
    (h : plan.Walking f f₁ c new done fill blocks) (hp : plan.Prepared f f₁ new entries) {b : BlockId}
    (hreach : f.Reach b) (hnot : b ∉ blocks) {cur : Edit.SlotValues} (hlength : cur.length = plan.slots.length)
    (horigin : plan.Origin f blocks b (cur.getD · 0)) {succs : List BlockId}
    (hinsts : ((c.instsOf b).foldlM (Edit.renameInst plan.addresses entries) cur).run c = (.ok last, c₀))
    (hsuccs : c₀.successors b = .ok succs) (hfill : (succs.forM (Edit.fillPhis entries last b)).run c₀ = (.ok (), c')) :
    succs = f.arms b ∧ ∃ stand inn, SlotPlan.Walking { plan with stand := stand, inn := inn } f f₁ c' new
        ((f.instsOf b).reverse ++ done)
        (Function.update fill b (SlotPlan.current { plan with stand := stand, inn := inn } f b (f.instsOf b)))
        (b :: blocks) ∧
      Holds plan.slots.length last (SlotPlan.current { plan with stand := stand, inn := inn } f b (f.instsOf b)) ∧
      ∀ p ∈ blocks, ∀ k, SlotPlan.current { plan with stand := stand, inn := inn } f p (f.instsOf p) k =
        plan.current f p (f.instsOf p) k := by
  have hlisted := hp.regular.mem_layout_of_reach hp.sound hreach
  have hclean := fun k => h.clean_origin hp horigin (k := k)
  obtain ⟨stand, inn, hinn, hinnb, hstate, hlast, hsame⟩ :=
    h.state.block hp hreach (h.fresh hp.sound hnot) (h.complete horigin) hlength hclean hinsts
  have hp' := hp.withValues stand inn
  have hblocks : ∀ p ∈ blocks, ∀ k, SlotPlan.current { plan with stand := stand, inn := inn } f p (f.instsOf p) k =
      plan.current f p (f.instsOf p) k := fun p hpin k =>
    hsame p (f.instsOf p) (by rintro rfl; exact hnot hpin) (fun j hj => (h.visited.passed j).2 ⟨p, hpin, hj⟩) k
  have hinnclean : ∀ k, k < plan.slots.length → plan.Clean f (inn b k) := by
    intro k hk
    rw [hinnb]
    exact hp.clean_entering hclean hk
  have hends : ∀ k, k < plan.slots.length →
      plan.Clean f (SlotPlan.current { plan with stand := stand, inn := inn } f b (f.instsOf b) k) := fun k hk =>
    hstate.carried.clean_current hp.plain hreach (List.append_nil _).symm
      (fun i hi => List.mem_append_left _ (List.mem_reverse.2 hi)) (hinnclean k hk)
  obtain rfl : f.arms b = succs := Except.ok.inj ((hstate.successors hp' hlisted).symm.trans hsuccs)
  refine ⟨rfl, stand, inn, ⟨hstate.fillAll hp' hreach hlast hends hfill, ⟨hstate.carried, fun i => ?_, ?_, ?_⟩, ?_, ?_⟩,
    hlast, hblocks⟩
  · rw [List.mem_append, List.mem_reverse, h.visited.passed]
    simp
  · intro d hd k phi r hphi
    rcases List.mem_cons.1 hd with rfl | hd
    · change inn d k = r
      rw [hinnb, entering, show plan.phi? d k = some (phi, r) from hphi]
    · change inn d k = r
      have hdb : d ≠ b := fun hdb => hnot (hdb ▸ hd)
      rw [hinn d hdb]
      exact h.visited.phi d hd k phi r hphi
  · intro later d earlier hsplit
    change SlotPlan.Origin _ f earlier d (inn d)
    cases later with
    | nil =>
      obtain ⟨rfl, rfl⟩ := List.cons.inj hsplit
      have hvalues : ∀ k, plan.phi? b k = none → inn b k = cur.getD k 0 := by
        intro k hphi
        rw [hinnb, entering, hphi]
      rcases horigin with ⟨hentry, hzero⟩ | ⟨p, hpin, hedge, hsource⟩
      · exact .inl ⟨hentry, fun k hk hphi => (hvalues k hphi).trans (hzero k hk hphi)⟩
      · refine .inr ⟨p, hpin, hedge, fun k hk hphi => ?_⟩
        exact (hvalues k hphi).trans ((hsource k hk hphi).trans (hblocks p hpin k).symm)
    | cons d' later =>
      obtain ⟨rfl, hblocks'⟩ := List.cons.inj hsplit
      have hearlier : ∀ p ∈ earlier, p ∈ blocks := by
        intro p hp
        rw [hblocks']
        exact List.mem_append_right _ (List.mem_cons_of_mem _ hp)
      have hd : d ≠ b := by
        rintro rfl
        exact hnot (by rw [hblocks']; simp)
      rw [hinn d hd]
      exact (h.visited.origin later d earlier hblocks').mono (fun _ hp => hp) fun p hp => hblocks p (hearlier p hp)
  · intro d hd
    rcases List.mem_cons.1 hd with rfl | hd
    · exact hreach
    · exact h.reach d hd
  · intro p hpin k hk
    rcases List.mem_cons.1 hpin with rfl | hpin
    · rw [Function.update_self]
    · have hpb : p ≠ b := fun hpb => hnot (hpb ▸ hpin)
      rw [Function.update_of_ne hpb, hblocks p hpin]
      exact h.ends p hpin k hk

/-- The blocks that are still to be visited, with the values that the walk brings there. -/
structure Pending (plan : SlotPlan) (f : Function) (blocks : List BlockId)
    (pending : List (BlockId × Edit.SlotValues)) : Prop where
  reach : ∀ e ∈ pending, f.Reach e.1
  length : ∀ e ∈ pending, e.2.length = plan.slots.length
  origin : ∀ e ∈ pending, plan.Origin f blocks e.1 (e.2.getD · 0)
  entry : ∀ e, f.layout.head? = some e → e ∈ blocks ∨ e ∈ pending.map Prod.fst
  edges : ∀ p ∈ blocks, ∀ s, f.Edge p s → s ∈ blocks ∨ s ∈ pending.map Prod.fst

namespace Pending

variable {blocks : List BlockId} {b : BlockId} {cur : Edit.SlotValues} {rest : List (BlockId × Edit.SlotValues)}

/-- A block that was visited is passed by. -/
theorem passBy (h : plan.Pending f blocks ((b, cur) :: rest)) (hb : b ∈ blocks) : plan.Pending f blocks rest := by
  have hmem : ∀ {s}, s ∈ blocks ∨ s ∈ ((b, cur) :: rest).map Prod.fst → s ∈ blocks ∨ s ∈ rest.map Prod.fst := by
    intro s hs
    rw [List.map_cons, List.mem_cons] at hs
    exact hs.elim .inl fun hs => hs.elim (fun hsb => .inl (hsb ▸ hb)) .inr
  exact ⟨fun e he => h.reach e (List.mem_cons_of_mem _ he), fun e he => h.length e (List.mem_cons_of_mem _ he),
    fun e he => h.origin e (List.mem_cons_of_mem _ he), fun e he => hmem (h.entry e he),
    fun p hpin s hs => hmem (h.edges p hpin s hs)⟩

/-- What is to be visited after the arms of a block were added. -/
theorem mem_next {arms : List BlockId} (e : BlockId × Edit.SlotValues) :
    e ∈ (arms.map fun succ => (succ, last)).reverse ++ rest ↔ (e.1 ∈ arms ∧ e.2 = last) ∨ e ∈ rest := by
  rw [List.mem_append, List.mem_reverse, List.mem_map]
  refine or_congr_left ⟨?_, fun he => ⟨e.1, he.1, by rw [← he.2]⟩⟩
  rintro ⟨s, hs, rfl⟩
  exact ⟨hs, rfl⟩

/-- Visiting a block adds the blocks at which it can be left. -/
theorem visit (h : plan.Pending f blocks ((b, cur) :: rest)) (hs : f.Sound) (hr : f.Regular)
    (hlast : Holds plan.slots.length last (SlotPlan.current { plan with stand := stand, inn := inn } f b (f.instsOf b)))
    (hsame : ∀ p ∈ blocks, ∀ k, SlotPlan.current { plan with stand := stand, inn := inn } f p (f.instsOf p) k =
      plan.current f p (f.instsOf p) k) : SlotPlan.Pending { plan with stand := stand, inn := inn } f (b :: blocks)
      (((f.arms b).map fun succ => (succ, last)).reverse ++ rest) := by
  have hreach := h.reach _ List.mem_cons_self
  have hlisted := hr.mem_layout_of_reach hs hreach
  have hfst : ∀ s, s ∈ (((f.arms b).map fun succ => (succ, last)).reverse ++ rest).map Prod.fst ↔
      s ∈ f.arms b ∨ s ∈ rest.map Prod.fst := by
    intro s
    rw [List.map_append, List.mem_append, List.map_reverse, List.mem_reverse, List.map_map]
    simp
  refine ⟨fun e he => ?_, fun e he => ?_, fun e he => ?_, fun e he => ?_, fun p hpin s hs => ?_⟩
  · rcases (mem_next e).1 he with ⟨he, -⟩ | he
    · exact hreach.step ((hr.edge_iff hlisted).2 he)
    · exact h.reach e (List.mem_cons_of_mem _ he)
  · rcases (mem_next e).1 he with ⟨-, he⟩ | he
    · rw [he]
      exact hlast.1
    · exact h.length e (List.mem_cons_of_mem _ he)
  · rcases (mem_next e).1 he with ⟨hs, he⟩ | he
    · refine .inr ⟨b, List.mem_cons_self, (hr.edge_iff hlisted).2 hs, fun k hk _ => ?_⟩
      rw [he]
      exact hlast.2 k hk
    · exact (h.origin e (List.mem_cons_of_mem _ he)).mono (fun _ hp => List.mem_cons_of_mem _ hp) hsame
  · rcases h.entry e he with he | he
    · exact .inl (List.mem_cons_of_mem _ he)
    · rcases List.mem_cons.1 he with rfl | he
      · exact .inl List.mem_cons_self
      · exact .inr ((hfst e).2 (.inr he))
  · rcases List.mem_cons.1 hpin with rfl | hpin
    · exact .inr ((hfst s).2 (.inl ((hr.edge_iff hlisted).1 hs)))
    · rcases h.edges p hpin s hs with hs | hs
      · exact .inl (List.mem_cons_of_mem _ hs)
      · rcases List.mem_cons.1 hs with rfl | hs
        · exact .inl List.mem_cons_self
        · exact .inr ((hfst s).2 (.inr hs))

end Pending

/-- The marks of the blocks that were visited. -/
theorem visited_set {visited : Array Bool} {blocks : List BlockId} {b : BlockId} {hlt : b < visited.size}
    (h : ∀ d, visited[d]? = some true ↔ d ∈ blocks) (d : BlockId) :
    (visited.set b true hlt)[d]? = some true ↔ d ∈ b :: blocks := by
  rw [List.mem_cons, ← h, Array.getElem?_set]
  split
  · rename_i hbd
    simp [hbd]
  · rename_i hbd
    simp [Ne.symm hbd]

/-- The walk visits all blocks, and at the end the phis read the values at the ends of the predecessors. -/
theorem renameFrom_spec (visited : Array Bool) (pending : List (BlockId × Edit.SlotValues)) :
    ∀ {plan : SlotPlan} {c c' : Function} {done : List InstId} {fill : BlockId → Nat → ValueId} {blocks : List BlockId},
      plan.Prepared f f₁ new entries → plan.Walking f f₁ c new done fill blocks → plan.Pending f blocks pending →
      (∀ b, visited[b]? = some true ↔ b ∈ blocks) →
      (Edit.renameFrom plan.addresses entries visited pending).run c = (.ok (), c') →
      ∃ stand inn done' fill' blocks', (∀ b, b ∈ blocks' ↔ f.Reach b) ∧
        SlotPlan.Walking { plan with stand := stand, inn := inn } f f₁ c' new done' fill' blocks' := by
  induction visited, pending using Edit.renameFrom.induct with
  | case1 visited =>
    intro plan c c' done fill blocks hp h hpending _ hrun
    rw [Edit.renameFrom] at hrun
    cases hrun
    refine ⟨plan.stand, plan.inn, done, fill, blocks, fun b => ⟨h.reach b, fun hb => ?_⟩, h⟩
    induction hb with
    | entry he => exact (hpending.entry _ he).resolve_right List.not_mem_nil
    | step _ hedge ih => exact (hpending.edges _ ih _ hedge).resolve_right List.not_mem_nil
  | case2 visited b cur rest hlt hv ih =>
    intro plan c c' done fill blocks hp h hpending hvisited hrun
    rw [Edit.renameFrom, dif_pos hlt, dif_pos hv] at hrun
    have hb : b ∈ blocks := (hvisited b).1 (by rw [Array.getElem?_eq_getElem hlt, hv])
    exact ih hp h (hpending.passBy hb) hvisited hrun
  | case3 visited b cur rest hlt hv ih =>
    intro plan c c' done fill blocks hp h hpending hvisited hrun
    rw [Edit.renameFrom, dif_pos hlt, dif_neg hv] at hrun
    have hrun := of_get_bind hrun
    obtain ⟨last, c₁, hinsts, hrun⟩ := bind_eq_ok hrun
    obtain ⟨succs, hsuccs, hrun⟩ := Edit.ask_bind_eq_ok hrun
    obtain ⟨⟨⟩, c₃, hfill, hrun⟩ := bind_eq_ok hrun
    have hfirst : (b, cur) ∈ (b, cur) :: rest := List.mem_cons_self
    have hreach := hpending.reach _ hfirst
    have hnot : b ∉ blocks := by
      intro hb
      have hat := (hvisited b).2 hb
      rw [Array.getElem?_eq_getElem hlt] at hat
      exact hv (Option.some.inj hat)
    obtain ⟨rfl, stand, inn, h', hlast, hsame⟩ := h.block hp hreach hnot (hpending.length _ hfirst)
      (hpending.origin _ hfirst) hinsts hsuccs hfill
    have hrest := ih last (f.arms b) (hp.withValues stand inn) h' (hpending.visit hp.sound hp.regular hlast hsame)
      (visited_set hvisited) hrun
    exact hrest
  | case4 visited b cur rest hlt =>
    intro plan c c' done fill blocks _ _ _ _ hrun
    rw [Edit.renameFrom, dif_neg hlt] at hrun
    cases hrun

end SlotPlan

end SsaCompiler
