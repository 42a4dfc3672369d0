import SsaCompiler.Proofs.Ir.RemovedBlocks
import SsaCompiler.Proofs.Ir.RenamedSlots

/-!
# Needed phis

Of the phis that promotion has put into a function, it takes out those that nothing else needs. A phi is needed if an
instruction that is none of them reads its result, or if one of them that is needed itself does: `Function.Needed` is
the least such set. The search for live phis finds exactly these (`contains_livePhis_iff`).

Phis that are not needed may read one another, along chains and around loops. All their slots are made to read zero
before the first of them goes, so by then nothing reads any of them and no removal is refused. Of the function that is
left every record is known (`Function.Stripped`).
-/

set_option autoImplicit false

namespace SsaCompiler

variable {v : ValueId}

namespace Function

/-- The phis of a list on which something else depends: an instruction that is not in the list reads the result, or a
needed phi of the list does. -/
inductive Needed (f : Function) (phis : List InstId) : InstId → Prop
  | outside {phi i : InstId} {v : ValueId} (hphi : phi ∈ phis) (hresult : f.result? phi = some v) (hi : i ∉ phis)
    (hread : v ∈ f.operands i) : Needed f phis phi
  | inside {phi i : InstId} {v : ValueId} (hphi : phi ∈ phis) (hresult : f.result? phi = some v)
    (hi : Needed f phis i) (hread : v ∈ f.operands i) : Needed f phis phi

/-- A function without some of its instructions, and maybe with the constant zero as one more value. -/
structure Stripped (f : Function) (gone : List InstId) (f' : Function) : Prop where
  heading : f'.heading = f.heading
  layout : f'.layout = f.layout
  insts_size : f'.insts.size = f.insts.size
  blocks_size : f'.blocks.size = f.blocks.size
  block : ∀ b, f'.block b = { f.block b with insts := (f.instsOf b).filter fun i => decide (i ∉ gone) }
  detached : ∀ i ∈ gone, f'.inst i = { f.inst i with operands := [], block := none }
  inst : ∀ i, i ∉ gone → f'.inst i = f.inst i
  values_size : f.values.size ≤ f'.values.size
  kind : ∀ v, v < f.values.size → (f'.value v).kind = (f.value v).kind
  new : ∀ v, f.values.size ≤ v → v < f'.values.size → (f'.value v).kind = .const 0
  name : ∀ v, (f'.value v).name = (f.value v).name
  /-- The results of the instructions that went are dead. -/
  dead : ∀ i ∈ gone, ∀ v, f.result? i = some v → (f'.value v).live = false
  live : ∀ v, (∀ i ∈ gone, f.result? i ≠ some v) → (f'.value v).live = (f.value v).live
  /-- The use index has lost the slots of the instructions that went, and nothing else. -/
  uses : ∀ v, (f'.uses v).Perm ((f.uses v).filter fun u => decide (u.user ∉ gone))

/-- What a sound function knows of instructions and results. -/
theorem Sound.matched {f : Function} (hs : f.Sound) : f.Matched := ⟨hs.kind_of_result, hs.result_of_kind⟩

/-- Instructions with the same result are the same. -/
theorem Matched.eq_of_result {f : Function} (hm : f.Matched) {i j : InstId} (hi : f.result? i = some v)
    (hj : f.result? j = some v) : i = j := by
  have hkind := (hm.kind_of_result i v hi).2
  rw [(hm.kind_of_result j v hj).2] at hkind
  exact (ValueKind.inst.inj hkind).symm

end Function

namespace Edit

open Edits

variable {f f' : Function} {phis : List InstId}

/-! ## The search for live phis -/

/-- The phis among some phis whose results a phi reads. -/
def feeding (f : Function) (phis : List InstId) (phi : InstId) : List InstId :=
  (f.operands phi).filterMap fun v => phis.find? fun p => f.result? p == some v

/-- What feeds a phi are the phis of the list whose results it reads. -/
theorem mem_feeding_iff (hm : f.Matched) {phi q : InstId} :
    q ∈ feeding f phis phi ↔ q ∈ phis ∧ ∃ v ∈ f.operands phi, f.result? q = some v := by
  unfold feeding
  rw [List.mem_filterMap]
  constructor
  · rintro ⟨v, hv, hq⟩
    have hresult := List.find?_some (p := fun p => f.result? p == some v) hq
    exact ⟨List.mem_of_find?_eq_some hq, v, hv, eq_of_beq hresult⟩
  · rintro ⟨hq, v, hv, hresult⟩
    obtain ⟨p, hp⟩ : ∃ p, phis.find? (fun p => f.result? p == some v) = some p :=
      Option.isSome_iff_exists.1 (List.find?_isSome.2 ⟨q, hq, by rw [hresult]; exact beq_self_eq_true _⟩)
    have hpresult : (f.result? p == some v) = true := List.find?_some (p := fun p => f.result? p == some v) hp
    rw [hm.eq_of_result hresult (eq_of_beq hpresult)]
    exact ⟨v, hv, hp⟩

/-- Whatever is found to be live was so at the start or feeds what is: it has every property that the start has and
that goes from a phi to what feeds it. -/
theorem spreadLive_least {P : InstId → Prop} (hfeeds : ∀ p, P p → ∀ q ∈ feeding f phis p, P q) {limit : Nat} :
    ∀ {live : NatSet} {work : List InstId}, (∀ p, live.contains p = true → P p) → (∀ p ∈ work, P p) →
      ∀ p, (spreadLive f phis limit live work).contains p = true → P p := by
  induction limit with
  | zero =>
    intro live work hlive _
    unfold spreadLive
    exact hlive
  | succ limit ih =>
    intro live work hlive hwork
    cases work with
    | nil =>
      unfold spreadLive
      exact hlive
    | cons phi rest =>
      unfold spreadLive
      dsimp only
      obtain ⟨-, hmem⟩ := foldl_fresh live.contains (feeding f phis phi) List.nodup_nil
      unfold feeding at hmem
      generalize ((f.operands phi).filterMap fun v => phis.find? fun p => f.result? p == some v).foldl
        (fun found p => if live.contains p || found.contains p then found else found ++ [p]) [] = fresh at hmem ⊢
      have hfresh : ∀ q ∈ fresh, P q := by
        intro q hq
        have hin := ((hmem q).1 hq).resolve_left List.not_mem_nil
        exact hfeeds phi (hwork phi List.mem_cons_self) q hin.1
      refine ih (fun p hp => ?_) fun p hp => ?_
      · rcases (NatSet.contains_foldl_insert fresh live p).1 hp with hold | hnew
        · exact hlive p hold
        · exact hfresh p hnew
      · rcases List.mem_append.1 hp with hnew | hold
        · exact hfresh p (List.mem_reverse.1 hnew)
        · exact hwork p (List.mem_cons_of_mem _ hold)

/-- What is found live is closed: a live phi reads only live ones among the phis. -/
theorem spreadLive_closed (hnodup : phis.Nodup) {limit : Nat} : ∀ {live : NatSet} {work : List InstId},
    work.length + (phis.filter fun p => !live.contains p).length ≤ limit →
    (∀ p, live.contains p = true → p ∈ work ∨ ∀ q ∈ feeding f phis p, live.contains q = true) →
    (∀ p, live.contains p = true → (spreadLive f phis limit live work).contains p = true) ∧
      ∀ p, (spreadLive f phis limit live work).contains p = true → ∀ q ∈ feeding f phis p,
        (spreadLive f phis limit live work).contains q = true := by
  induction limit with
  | zero =>
    intro live work hlimit hclosed
    have hwork : work = [] := List.length_eq_zero_iff.1 (by omega)
    unfold spreadLive
    exact ⟨fun _ hp => hp, fun p hp => (hclosed p hp).resolve_left (by rw [hwork]; exact List.not_mem_nil)⟩
  | succ limit ih =>
    intro live work hlimit hclosed
    cases work with
    | nil =>
      unfold spreadLive
      exact ⟨fun _ hp => hp, fun p hp => (hclosed p hp).resolve_left List.not_mem_nil⟩
    | cons phi rest =>
      unfold spreadLive
      dsimp only
      obtain ⟨hfresh, hmem⟩ := foldl_fresh live.contains (feeding f phis phi) List.nodup_nil
      unfold feeding at hfresh hmem
      generalize ((f.operands phi).filterMap fun v => phis.find? fun p => f.result? p == some v).foldl
        (fun found p => if live.contains p || found.contains p then found else found ++ [p]) [] = fresh at hfresh hmem ⊢
      have hmem' : ∀ q, q ∈ fresh ↔ q ∈ feeding f phis phi ∧ live.contains q = false :=
        fun q => (hmem q).trans (or_iff_right List.not_mem_nil)
      have hfeeding : ∀ q ∈ feeding f phis phi, q ∈ phis := by
        intro q hq
        obtain ⟨v, -, hv⟩ := List.mem_filterMap.1 hq
        exact List.mem_of_find?_eq_some hv
      have hcontains : ∀ q, (fresh.foldl .insert live).contains q = true ↔ live.contains q = true ∨ q ∈ fresh :=
        NatSet.contains_foldl_insert fresh live
      have hshrinks := length_filter_foldl_insert hnodup hfresh
        fun q hq => ⟨hfeeding q ((hmem' q).1 hq).1, ((hmem' q).1 hq).2⟩
      obtain ⟨hgrows, hdone⟩ := @ih (fresh.foldl .insert live) (fresh.reverse ++ rest) (by
        rw [List.length_append, List.length_reverse]
        rw [List.length_cons] at hlimit
        omega) (fun p hp => by
        rcases (hcontains p).1 hp with hlive | hin
        · rcases hclosed p hlive with hin | hall
          · rcases List.mem_cons.1 hin with rfl | hin
            · refine .inr fun q hq => (hcontains q).2 ?_
              cases hq' : live.contains q with
              | true => exact .inl rfl
              | false => exact .inr ((hmem' q).2 ⟨hq, hq'⟩)
            · exact .inl (List.mem_append_right _ hin)
          · exact .inr fun q hq => (hcontains q).2 (.inl (hall q hq))
        · exact .inl (List.mem_append_left _ (List.mem_reverse.2 hin)))
      exact ⟨fun p hp => hgrows p ((hcontains p).2 (.inl hp)), hdone⟩

/-- The search finds the needed phis and no others. -/
theorem contains_livePhis_iff {live : NatSet} (hindexed : Indexed f) (hm : f.Matched) (hnodup : phis.Nodup)
    (h : livePhis f phis = .ok live) (phi : InstId) : live.contains phi = true ↔ f.Needed phis phi := by
  unfold livePhis at h
  obtain ⟨results, hresults, hpure⟩ := Outcome.bind_eq_ok.1 h
  extract_lets start at hpure
  cases hpure
  have hresult : ∀ p ∈ phis, f.result? p = some ((f.result? p).getD 0) := by
    intro p hp
    obtain ⟨e, -, he⟩ := Outcome.exists_of_mapM hresults p hp
    obtain ⟨v, hv, -⟩ := Outcome.bind_eq_ok.1 he
    rw [Function.result_of_resultOf hv]
    rfl
  obtain rfl : results = phis.map fun p => (p, (f.result? p).getD 0) := by
    refine Outcome.mapM_of_answers _ (fun p e he => ?_) hresults
    obtain ⟨v, hv, hpure⟩ := Outcome.bind_eq_ok.1 he
    cases hpure
    rw [Function.result_of_resultOf hv]
    rfl
  -- The search begins with the phis that are read from outside.
  have hstart : ∀ p, p ∈ start ↔ p ∈ phis ∧ ∃ v i, f.result? p = some v ∧ i ∉ phis ∧ v ∈ f.operands i := by
    intro p
    simp only [start, List.mem_map, List.mem_filter]
    constructor
    · rintro ⟨e, ⟨⟨q, hq, rfl⟩, huses⟩, rfl⟩
      obtain ⟨u, hu, hout⟩ := List.any_eq_true.1 huses
      refine ⟨hq, _, u.user, hresult q hq, by simpa using hout, ?_⟩
      rw [← List.count_pos_iff, hindexed] at hu
      split at hu
      · rename_i hread
        exact List.mem_of_getElem? hread
      · cases hu
    · rintro ⟨hp, v, i, hv, hi, hread⟩
      obtain ⟨slot, hslot⟩ := List.mem_iff_getElem?.1 hread
      obtain ⟨huse, -⟩ := mem_uses_of_indexed (u := ⟨i, slot⟩) hindexed hslot
      refine ⟨_, ⟨⟨p, hp, rfl⟩, List.any_eq_true.2 ⟨⟨i, slot⟩, ?_, by simpa using hi⟩⟩, rfl⟩
      rw [hv]
      exact huse
  have hnodup' : start.Nodup := by
    refine List.Nodup.sublist (List.filter_sublist.map _) ?_
    rw [List.map_map]
    exact hnodup.map_on fun _ _ _ _ hxy => hxy
  have hneeded : ∀ p ∈ start, f.Needed phis p := by
    intro p hp
    obtain ⟨hin, v, i, hv, hi, hread⟩ := (hstart p).1 hp
    exact .outside hin hv hi hread
  constructor
  · refine spreadLive_least (fun p hp q hq => ?_) (fun p hp => ?_) (fun p hp => ?_) phi
    · obtain ⟨hin, v, hread, hv⟩ := (mem_feeding_iff hm).1 hq
      exact .inside hin hv hp hread
    · exact hneeded p ((NatSet.contains_ofList start p).1 hp)
    · exact hneeded p (List.mem_reverse.1 hp)
  · obtain ⟨hgrows, hclosed⟩ := @spreadLive_closed f phis hnodup phis.length (.ofList start) start.reverse (by
      have hle := length_filter_foldl_insert (s := .empty) hnodup hnodup' fun p hp =>
        ⟨((hstart p).1 hp).1, NatSet.contains_empty p⟩
      rw [List.length_reverse]
      exact hle.trans (List.length_filter_le _ _)) fun p hp =>
        .inl (List.mem_reverse.2 ((NatSet.contains_ofList start p).1 hp))
    intro hphi
    induction hphi with
    | outside hin hv hi hread =>
      exact hgrows _ ((NatSet.contains_ofList start _).2 ((hstart _).2 ⟨hin, _, _, hv, hi, hread⟩))
    | inside hin hv hi hread ih => exact hclosed _ ih _ ((mem_feeding_iff hm).2 ⟨hin, _, hread, hv⟩)

/-- The live phis can be asked for. -/
theorem exists_livePhis (h : ∀ phi ∈ phis, ∃ r, f.result? phi = some r) : ∃ live, livePhis f phis = .ok live := by
  refine Outcome.exists_bind (Outcome.exists_mapM fun phi hphi => ?_) fun _ _ => ⟨_, rfl⟩
  obtain ⟨r, hr⟩ := h phi hphi
  exact Outcome.exists_bind ⟨r, resultOf_of_result hr⟩ fun _ _ => ⟨_, rfl⟩

/-! ## Taking them out -/

/-- Making some slots of an instruction read a value. -/
theorem exists_setSlots (i : InstId) (slots : List Nat) : ∀ {f : Function}, Indexed f →
    v < f.values.size → (∀ slot ∈ slots, slot < (f.operands i).length) →
      ∃ f', (slots.forM fun slot => setOperand i slot v).run f = (.ok (), f') ∧
        f.Becomes f' (Function.update f.inst i { f.inst i with
          operands := slots.foldl (fun l slot => l.set slot v) (f.operands i) }) f.block f.layout ∧
        f'.insts.size = f.insts.size ∧ Indexed f' := by
  induction slots with
  | nil =>
    intro f hindexed _ _
    refine ⟨f, rfl, ⟨fun j => ?_, fun _ => rfl, rfl, rfl, rfl, fun _ => rfl⟩, rfl, hindexed⟩
    exact (congrFun (Function.update_eq_self i f.inst) j).symm
  | cons slot slots ih =>
    intro f hindexed hv hslots
    obtain ⟨⟨⟩, f₁, hfirst⟩ := succeeds_setOperand hindexed (hslots slot List.mem_cons_self) hv
    obtain ⟨-, -, hsize, hbecomes, hindex⟩ := setOperand_spec hfirst
    have hoperands : f₁.operands i = (f.operands i).set slot v := by
      rw [Function.operands, hbecomes.inst, Function.update_self]
    obtain ⟨f₂, hrest, hbecomes', hsize', hindexed'⟩ := ih (hindex hindexed) (hbecomes.values_size ▸ hv) fun s hs => by
      rw [hoperands, List.length_set]
      exact hslots s (List.mem_cons_of_mem _ hs)
    refine ⟨f₂, ?_, ?_, hsize'.trans hsize, hindexed'⟩
    · change (setOperand i slot v >>= fun _ => slots.forM fun slot => setOperand i slot v).run f = _
      rw [run_bind, hfirst]
      exact hrest
    · refine hbecomes.trans ⟨fun j => ?_, fun b => (hbecomes'.block b).trans (hbecomes.block b),
        hbecomes'.layout.trans hbecomes.layout, hbecomes'.blocks_size, hbecomes'.values_size, hbecomes'.kinds⟩
      rw [hbecomes'.inst, hoperands, List.foldl_cons]
      by_cases hj : j = i
      · rw [hj, Function.update_self, Function.update_self, hbecomes.inst, Function.update_self]
      · rw [Function.update_of_ne hj, Function.update_of_ne hj, hbecomes.inst, Function.update_of_ne hj]

/-- Setting all places of a list to one element. -/
theorem foldl_set_range {α : Type} (l : List α) (a : α) :
    (List.range l.length).foldl (fun l slot => l.set slot a) l = l.map fun _ => a := by
  refine List.ext_getElem? fun n => ?_
  rw [getElem?_foldl_set, List.getElem?_map]
  split
  · rfl
  · rename_i hn
    rw [List.mem_range, Nat.not_lt] at hn
    rw [List.getElem?_eq_none hn]
    rfl

/-- The record of an instruction whose slots all read one value. -/
def level (d : InstData) (v : ValueId) : InstData := { d with operands := d.operands.map fun _ => v }

/-- Making all slots of some instructions read a value. -/
theorem exists_levelAll (insts : List InstId) : ∀ {f : Function}, Indexed f → v < f.values.size →
    ∃ f', (insts.forM fun i => (do
        (List.range ((← get).operands i).length).forM fun slot => setOperand i slot v : Edit Unit)).run f =
          (.ok (), f') ∧
      f.Becomes f' (fun i => if i ∈ insts then level (f.inst i) v else f.inst i) f.block f.layout ∧
      f'.insts.size = f.insts.size ∧ Indexed f' := by
  induction insts with
  | nil =>
    intro f hindexed _
    exact ⟨f, rfl, ⟨fun _ => rfl, fun _ => rfl, rfl, rfl, rfl, fun _ => rfl⟩, rfl, hindexed⟩
  | cons i insts ih =>
    intro f hindexed hv
    obtain ⟨f₁, hfirst, hbecomes, hsize, hindexed₁⟩ :=
      exists_setSlots i (List.range (f.operands i).length) hindexed hv fun slot hslot => List.mem_range.1 hslot
    rw [foldl_set_range] at hbecomes
    obtain ⟨f₂, hrest, hbecomes', hsize', hindexed₂⟩ := ih hindexed₁ (hbecomes.values_size ▸ hv)
    refine ⟨f₂, ?_, ?_, hsize'.trans hsize, hindexed₂⟩
    · change ((get >>= fun g => (List.range (g.operands i).length).forM fun slot => setOperand i slot v) >>=
        fun _ => insts.forM _).run f = _
      rw [run_bind, run_get_bind, hfirst]
      exact hrest
    · refine hbecomes.trans ⟨fun j => ?_, fun b => (hbecomes'.block b).trans (hbecomes.block b),
        hbecomes'.layout.trans hbecomes.layout, hbecomes'.blocks_size, hbecomes'.values_size, hbecomes'.kinds⟩
      rw [hbecomes'.inst]
      by_cases hj : j = i
      · -- An instruction that comes twice has been levelled by the time that it comes again.
        have hlevel : f₁.inst j = level (f.inst j) v := by
          rw [hbecomes.inst, hj, Function.update_self]
          rfl
        have hin : j ∈ i :: insts := by simp [hj]
        rw [hlevel, if_pos hin]
        split
        · simp [level]
        · rfl
      · rw [hbecomes.inst, Function.update_of_ne hj]
        simp [hj]

/-- The constant zero is a value that was there, or the only new one. -/
theorem exists_constZero (f : Function) : ∃ zeroId f', (constValue 0).run f = (.ok zeroId, f') ∧ f.MoreValues f' ∧
    zeroId < f'.values.size ∧ (f'.value zeroId).kind = .const 0 ∧
    (∀ v, f.values.size ≤ v → v < f'.values.size → (f'.value v).kind = .const 0) ∧
    ∀ v, (f'.value v).name = (f.value v).name := by
  obtain ⟨zeroId, f', hrun⟩ := succeeds_internValue (f := f) (.const 0)
  obtain ⟨hmore, hlt, hkind⟩ := internValue_spec rfl hrun
  refine ⟨zeroId, f', hrun, hmore, hlt, hkind, fun v hge hv => ?_, (keepsMarks_internValue _).name_eq hrun⟩
  unfold internValue at hrun
  have h₁ := of_get_bind hrun
  split at h₁
  · cases h₁
    exact absurd hv (Nat.not_lt.2 hge)
  · obtain ⟨rfl, rfl⟩ := newValue_eq_ok h₁
    have hv' : v < (f.values.push { kind := ValueKind.const 0 }).size := hv
    rw [Array.size_push] at hv'
    rw [Nat.le_antisymm (Nat.le_of_lt_succ hv') hge]
    exact hkind

/-- A function in which all slots of some instructions read the constant zero, maybe as a new value. -/
structure Leveled (f : Function) (insts : List InstId) (zeroId : ValueId) (g : Function) : Prop where
  indexed : Indexed g
  heading : g.heading = f.heading
  layout : g.layout = f.layout
  insts_size : g.insts.size = f.insts.size
  blocks_size : g.blocks.size = f.blocks.size
  block : ∀ b, g.block b = f.block b
  inst : ∀ i, g.inst i = if i ∈ insts then level (f.inst i) zeroId else f.inst i
  values_size : f.values.size ≤ g.values.size
  kind : ∀ v, v < f.values.size → (g.value v).kind = (f.value v).kind
  new : ∀ v, f.values.size ≤ v → v < g.values.size → (g.value v).kind = .const 0
  zero : (g.value zeroId).kind = .const 0
  name : ∀ v, (g.value v).name = (f.value v).name
  live : ∀ v, (g.value v).live = (f.value v).live

theorem exists_leveled (hindexed : Indexed f) (insts : List InstId) :
    ∃ zeroId f₁ g, (constValue 0).run f = (.ok zeroId, f₁) ∧
      (insts.forM fun i => (do
        (List.range ((← get).operands i).length).forM fun slot => setOperand i slot zeroId : Edit Unit)).run f₁ =
          (.ok (), g) ∧ Leveled f insts zeroId g := by
  obtain ⟨zeroId, f₁, hzero, hmore, hlt, hkind, hnew, hname⟩ := exists_constZero f
  have hindexed₁ : Indexed f₁ := by
    intro v u
    rw [hmore.uses, Function.reads, Function.operands, hmore.inst]
    exact hindexed v u
  obtain ⟨g, hlevel, hbecomes, hsize, hindexed₂⟩ := exists_levelAll insts hindexed₁ hlt
  have hkeeps : KeepsMarks (insts.forM fun i => (do
      (List.range ((← get).operands i).length).forM fun slot => setOperand i slot zeroId : Edit Unit)) :=
    keepsMarks_forM fun i => keepsMarks_bind keepsMarks_get fun g => keepsMarks_forM fun slot =>
      keepsMarks_setOperand i slot zeroId
  have hbrings : Brings (fun _ => False) (fun _ => False) (insts.forM fun i => (do
      (List.range ((← get).operands i).length).forM fun slot => setOperand i slot zeroId : Edit Unit)) :=
    fun f₀ => .forM fun i _ => .bind .get fun g => .forM fun slot _ => brings_setOperand i slot zeroId f₀
  refine ⟨zeroId, f₁, g, hzero, hlevel, hindexed₂, (hbrings.outlines hlevel).heading.trans hmore.heading,
    hbecomes.layout.trans hmore.layout, hsize.trans hmore.insts_size, hbecomes.blocks_size.trans hmore.blocks_size,
    fun b => (hbecomes.block b).trans (hmore.block b), fun i => ?_, hbecomes.values_size ▸ hmore.values_size,
    fun v hv => (hbecomes.kinds v).trans (hmore.kinds v hv),
    fun v hge hv => (hbecomes.kinds v).trans (hnew v hge (hbecomes.values_size ▸ hv)),
    (hbecomes.kinds zeroId).trans hkind, fun v => (hkeeps.name_eq hlevel v).trans (hname v),
    fun v => (hkeeps.live_eq hlevel v).trans (hmore.live v)⟩
  rw [hbecomes.inst, hmore.inst]

namespace Leveled

variable {gone : List InstId} {zeroId : ValueId} {g : Function} (h : Leveled f gone zeroId g)

include h

/-- Instructions keep their results. -/
theorem result (i : InstId) : g.result? i = f.result? i := by
  rw [Function.result?, h.inst]
  split <;> rfl

/-- Instructions keep their places. -/
theorem blockOf (i : InstId) : g.blockOf? i = f.blockOf? i := by
  rw [Function.blockOf?, h.inst]
  split <;> rfl

/-- Instructions are still listed where they stand. -/
theorem placed (hplaced : ∀ b i, i ∈ f.instsOf b ↔ f.blockOf? i = some b) (b : BlockId) (i : InstId) :
    i ∈ g.instsOf b ↔ g.blockOf? i = some b := by
  rw [Function.instsOf, h.block, h.blockOf]
  exact hplaced b i

/-- Nothing reads the results any more if only the instructions themselves did: their slots read zero, and that is no
result. -/
theorem unread (hm : f.Matched) (hread : ∀ i ∈ gone, ∀ v, f.result? i = some v → ∀ j, v ∈ f.operands j → j ∈ gone)
    {i : InstId} (hi : i ∈ gone) (hv : f.result? i = some v) (j : InstId) : v ∉ g.operands j := by
  intro hj
  rw [Function.operands, h.inst] at hj
  split at hj
  · obtain ⟨-, -, hzero⟩ := List.mem_map.1 hj
    obtain ⟨hlt, hkind⟩ := hm.kind_of_result i v hv
    rw [← h.kind v hlt, ← hzero, h.zero] at hkind
    cases hkind
  · rename_i hout
    exact hout (hread i hi v hv j hj)

/-- The instructions can be removed. -/
theorem succeeds_forM_removeInst (hm : f.Matched) (hplaced : ∀ b i, i ∈ f.instsOf b ↔ f.blockOf? i = some b)
    (hgone : ∀ i ∈ gone, i < f.insts.size)
    (hread : ∀ i ∈ gone, ∀ v, f.result? i = some v → ∀ j, v ∈ f.operands j → j ∈ gone) :
    Succeeds (gone.forM removeInst) g := by
  refine .forM_of_keeps (P := Thinned g) (fun i hi c hc => ⟨?_, fun c' hrun => thinned_removeInst i hc hrun⟩)
    (.refl h.indexed)
  have hresult : ∀ v, c.result? i = some v → f.result? i = some v := by
    intro v hv
    rw [← h.result, ← hc.result]
    exact hv
  refine succeeds_removeInst hc.indexed ?_ (fun v hv => ⟨?_, fun j hj => ?_⟩) fun b hb => ?_
  · rw [hc.insts_size, h.insts_size]
    exact hgone i hi
  · rw [hc.values_size]
    exact Nat.lt_of_lt_of_le (hm.kind_of_result i v (hresult v hv)).1 h.values_size
  · obtain ⟨slot, hslot⟩ := List.getElem?_of_mem hj
    have hreads : g.reads ⟨j, slot⟩ = some v := hc.reads ⟨j, slot⟩ v hslot
    exact h.unread hm hread hi (hresult v hv) j (List.mem_of_getElem? hreads)
  · rw [hc.blocks_size, h.blocks_size]
    exact Function.lt_blocks_size ((hplaced b i).2 (h.blockOf i ▸ hc.places i b hb))

/-- What is left when they have been removed. -/
theorem stripped (hindexed : Indexed f) (hplaced : ∀ b i, i ∈ f.instsOf b ↔ f.blockOf? i = some b)
    (hrun : (gone.forM removeInst).run g = (.ok (), f')) : f.Stripped gone f' := by
  obtain ⟨hbecomes, hindex⟩ := forM_removeInst_spec hrun (h.placed hplaced)
  have hremoving : Removing g gone [] f' := removing_forM
    ⟨.refl h.indexed, fun i hi hnot => absurd hi hnot, fun i hi hnot => absurd hi hnot, fun _ _ => rfl⟩ hrun
  refine ⟨hremoving.thinned.heading.trans h.heading, hbecomes.layout.trans h.layout,
    hremoving.thinned.insts_size.trans h.insts_size, hbecomes.blocks_size.trans h.blocks_size, fun b => ?_,
    fun i hi => ?_, fun i hi => ?_, hbecomes.values_size ▸ h.values_size,
    fun v hv => (hbecomes.kinds v).trans (h.kind v hv),
    fun v hge hv => (hbecomes.kinds v).trans (h.new v hge (hbecomes.values_size ▸ hv)),
    fun v => (hremoving.thinned.names v).trans (h.name v),
    fun i hi v hv => hremoving.dead i hi List.not_mem_nil v ((h.result i).trans hv), fun v hv => ?_,
    fun v => List.perm_iff_count.2 fun u => ?_⟩
  · rw [hbecomes.block, Function.instsOf, h.block]
    rfl
  · rw [hbecomes.inst, if_pos hi, h.inst, if_pos hi]
    rfl
  · rw [hbecomes.inst, if_neg hi, h.inst, if_neg hi]
  · rw [hremoving.live v fun i hi => by rw [h.result]; exact hv i hi]
    exact h.live v
  · have hreads : f'.reads u = if u.user ∈ gone then none else f.reads u := by
      rw [reads_eq hbecomes]
      split
      · rfl
      · rename_i hu
        rw [h.inst, if_neg hu]
        rfl
    rw [hindex h.indexed v u, hreads]
    by_cases hu : u.user ∈ gone
    · have hnot : u ∉ (f.uses v).filter fun u => decide (u.user ∉ gone) :=
        fun hmem => of_decide_eq_true (List.mem_filter.1 hmem).2 hu
      rw [if_pos hu, List.count_eq_zero.2 hnot]
      rfl
    · rw [if_neg hu, List.count_filter (by simpa using hu)]
      exact (hindexed v u).symm

end Leveled

/-- What reads a phi that is not needed is one itself. -/
theorem mem_of_reads {gone : List InstId} (hgone : ∀ phi, phi ∈ gone ↔ phi ∈ phis ∧ ¬ f.Needed phis phi)
    {phi i : InstId} (hphi : phi ∈ gone) (hv : f.result? phi = some v) (hread : v ∈ f.operands i) : i ∈ gone := by
  obtain ⟨hin, hnot⟩ := (hgone phi).1 hphi
  have hi : i ∈ phis := by
    by_contra hout
    exact hnot (.outside hin hv hout hread)
  exact (hgone i).2 ⟨hi, fun hneeds => hnot (.inside hin hv hneeds hread)⟩

/-- The phis of a list that are not needed go, and what is left is known. -/
theorem exists_removeDeadPhis (hindexed : Indexed f) (hm : f.Matched)
    (hplaced : ∀ b i, i ∈ f.instsOf b ↔ f.blockOf? i = some b) (hnodup : phis.Nodup)
    (hresults : ∀ phi ∈ phis, ∃ r, f.result? phi = some r) :
    ∃ gone f', (removeDeadPhis phis).run f = (.ok gone.length, f') ∧ gone.Nodup ∧
      (∀ phi, phi ∈ gone ↔ phi ∈ phis ∧ ¬ f.Needed phis phi) ∧ f.Stripped gone f' := by
  obtain ⟨live, hlive⟩ := exists_livePhis hresults
  have hneeded := contains_livePhis_iff hindexed hm hnodup hlive
  obtain ⟨gone, hgone⟩ : ∃ gone, gone = phis.filter fun phi => !live.contains phi := ⟨_, rfl⟩
  have hmem : ∀ phi, phi ∈ gone ↔ phi ∈ phis ∧ ¬ f.Needed phis phi := by
    intro phi
    rw [hgone, List.mem_filter, Bool.not_eq_true', ← Bool.not_eq_true, hneeded]
  have hlt : ∀ phi ∈ gone, phi < f.insts.size := by
    intro phi hphi
    obtain ⟨r, hr⟩ := hresults phi ((hmem phi).1 hphi).1
    by_contra hge
    rw [Function.result?, inst_of_size_le (Nat.le_of_not_lt hge)] at hr
    cases hr
  obtain ⟨zeroId, f₁, g, hzero, hlevel, hleveled⟩ := exists_leveled hindexed gone
  obtain ⟨⟨⟩, f', hremove⟩ := hleveled.succeeds_forM_removeInst hm hplaced hlt
    fun phi hphi v hv i hread => mem_of_reads hmem hphi hv hread
  refine ⟨gone, f', ?_, hgone ▸ hnodup.filter _, hmem, hleveled.stripped hindexed hplaced hremove⟩
  unfold removeDeadPhis
  rw [run_ask_bind _ hlive]
  dsimp only
  rw [← hgone, run_bind, hzero]
  dsimp only
  rw [run_bind, hlevel]
  dsimp only
  rw [run_bind, hremove]
  rfl

/-- Asking for the live phis fails only because one has no result. -/
theorem failsOnly_livePhis (f : Function) (phis : List InstId) :
    (livePhis f phis).FailsOnly fun e => ∃ phi ∈ phis, f.result? phi = none ∧
      e = .error (.invariant f.name (.noResult phi)) := by
  refine .bind (.mapM fun phi hphi => .bind (fun e he => ?_) fun _ _ => .ok _) fun _ _ => .ok _
  unfold Function.resultOf at he
  split at he
  · cases he
  · rename_i hnone
    cases he
    exact ⟨phi, hphi, hnone, rfl⟩

/-- Of some phis of a function, those that are not needed are removed and counted: a phi stays if an instruction that
is none of them reads its result or if one of them that stays does. All instructions that stay keep their operands, and
none of them reads a phi that went. It never turns out that a phi which is to go is still read. -/
theorem removeDeadPhis_exactly (h : Reached f) (hnodup : phis.Nodup) :
    ((∀ phi ∈ phis, f.result? phi ≠ none) → ∃ gone f', (removeDeadPhis phis).run f = (.ok gone.length, f') ∧
      gone.Nodup ∧ (∀ phi, phi ∈ gone ↔ phi ∈ phis ∧ ¬ f.Needed phis phi) ∧ f.Stripped gone f' ∧
      ∀ phi ∈ gone, ∀ v, f.result? phi = some v → ∀ i, v ∉ f'.operands i) ∧
    ∀ name value user f', (removeDeadPhis phis).run f ≠ (.error (.error (.danglingUse name value user)), f') := by
  have hremoves : (∀ phi ∈ phis, f.result? phi ≠ none) → ∃ gone f', (removeDeadPhis phis).run f = (.ok gone.length, f') ∧
      gone.Nodup ∧ (∀ phi, phi ∈ gone ↔ phi ∈ phis ∧ ¬ f.Needed phis phi) ∧ f.Stripped gone f' := fun hresults =>
    exists_removeDeadPhis h.indexed h.matched h.structured.listed.placed hnodup fun phi hphi =>
      Option.ne_none_iff_exists'.1 (hresults phi hphi)
  refine ⟨fun hresults => ?_, fun name value user f' hrun => ?_⟩
  · obtain ⟨gone, f', hrun, hgone, hmem, hstripped⟩ := hremoves hresults
    refine ⟨gone, f', hrun, hgone, hmem, hstripped, fun phi hphi v hv i hread => ?_⟩
    rw [Function.operands] at hread
    by_cases hi : i ∈ gone
    · rw [hstripped.detached i hi] at hread
      cases hread
    · rw [hstripped.inst i hi] at hread
      exact hi (mem_of_reads hmem hphi hv hread)
  · cases hlive : livePhis f phis with
    | error e =>
      obtain ⟨phi, -, -, rfl⟩ := failsOnly_livePhis f phis e hlive
      unfold removeDeadPhis at hrun
      rw [run_bind, run_ask, hlive] at hrun
      cases hrun
    | ok live =>
      obtain ⟨gone, f'', hdone, -⟩ := hremoves fun phi hphi => by
        obtain ⟨results, hresults, -⟩ := Outcome.bind_eq_ok.1 hlive
        obtain ⟨e, -, he⟩ := Outcome.exists_of_mapM hresults phi hphi
        obtain ⟨v, hv, -⟩ := Outcome.bind_eq_ok.1 he
        rw [Function.result_of_resultOf hv]
        exact Option.some_ne_none v
      rw [hdone] at hrun
      cases hrun

/-- A function with a loop of four phis. The first two read each other, and so do the last two, of which the very last
one is returned. -/
def twoCycles : Function where
  name := "f"
  returnsValue := true
  params := [0]
  values := #[{ kind := .param 0, uses := [⟨0, 0⟩, ⟨3, 0⟩, ⟨1, 0⟩, ⟨2, 0⟩, ⟨5, 0⟩] },
    { kind := .inst 0, uses := [⟨1, 1⟩] }, { kind := .inst 1, uses := [⟨0, 1⟩] },
    { kind := .inst 2, uses := [⟨3, 1⟩] }, { kind := .inst 3, uses := [⟨2, 1⟩, ⟨6, 0⟩] }]
  insts := #[
    { kind := .phi, operands := [0, 2], result := some 1, block := some 1 },
    { kind := .phi, operands := [0, 1], result := some 2, block := some 1 },
    { kind := .phi, operands := [0, 4], result := some 3, block := some 1 },
    { kind := .phi, operands := [0, 3], result := some 4, block := some 1 },
    { kind := .jump 1, operands := [], result := none, block := some 0 },
    { kind := .branch 1 2, operands := [0], result := none, block := some 1 },
    { kind := .ret, operands := [4], result := none, block := some 2 }]
  blocks := #[{ name := "entry", insts := [4] }, { name := "loop", insts := [0, 1, 2, 3, 5], preds := [0, 1] },
    { name := "out", insts := [6], preds := [1] }]
  layout := [0, 1, 2]

/-- Of two cycles of phis, the one stays from which a phi is returned. -/
theorem removeDeadPhis_exactly_twoCycles : Reached twoCycles ∧ (∀ phi ∈ [0, 1, 2, 3], twoCycles.result? phi ≠ none) ∧
    twoCycles.Needed [0, 1, 2, 3] 2 ∧ ((removeDeadPhis [0, 1, 2, 3]).run twoCycles).1 = .ok 2 ∧
    ∃ gone f', (removeDeadPhis [0, 1, 2, 3]).run twoCycles = (.ok gone.length, f') ∧ gone.Nodup ∧
      (∀ phi, phi ∈ gone ↔ phi ∈ [0, 1, 2, 3] ∧ ¬ twoCycles.Needed [0, 1, 2, 3] phi) ∧ twoCycles.Stripped gone f' ∧
      ∀ phi ∈ gone, ∀ v, twoCycles.result? phi = some v → ∀ i, v ∉ f'.operands i := by
  have hreached : Reached twoCycles := @Reached.calls [.createBlock "entry", .createBlock "loop",
    .createBlock "out", .createInst .phi [0, 0] true, .createInst .phi [0, 1] true, .createInst .phi [0, 0] true,
    .createInst .phi [0, 3] true, .setOperand 0 1 2, .setOperand 2 1 4, .insertPhi 1 0, .insertPhi 1 1, .insertPhi 1 2,
    .insertPhi 1 3, .createInst (.jump 1) [] false, .pushBack 0 4, .addPred 1 0, .createInst (.branch 1 2) [0] false,
    .pushBack 1 5, .addPred 1 1, .addPred 2 1, .createInst .ret [4] false, .pushBack 2 6] _ _ (.new "f" 1 true) (by cbv)
  have hresults : ∀ phi ∈ [0, 1, 2, 3], twoCycles.result? phi ≠ none := by decide
  have hlast : twoCycles.Needed [0, 1, 2, 3] 3 :=
    .outside (i := 6) (v := 4) (by decide) rfl (by decide) (by decide)
  exact ⟨hreached, hresults, .inside (v := 3) (by decide) rfl hlast (by decide), by cbv,
    (removeDeadPhis_exactly hreached (by decide)).1 hresults⟩

end Edit

end SsaCompiler
