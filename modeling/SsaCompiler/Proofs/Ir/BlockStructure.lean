import SsaCompiler.Proofs.Ir.ExactUses

/-!
# The structure of blocks

Four rules hold in every state of the editing interface. An instruction is listed at most once, in the block
that it names. A block has its phis first and its terminator last. The layout lists the blocks that are not
removed. No constant has two values.

The second rule is a relation between any two instructions of a block, of which one stands before the other
(`Function.MayPrecede`). So placing an instruction has to look at the instructions before its place and at
those behind it, and each of the placing actions gives its own reasons for both.
-/

set_option autoImplicit false

namespace SsaCompiler

variable {kind : InstKind}

namespace Function

/-- Each instruction is listed at most once, in the block that it names. -/
structure Listed (f : Function) : Prop where
  nodup : ∀ b, (f.instsOf b).Nodup
  placed : ∀ b i, i ∈ f.instsOf b ↔ f.blockOf? i = some b

/-- One instruction may stand before another one in a block: it is no terminator, and a phi if the other one
is a phi. -/
def MayPrecede (f : Function) (i j : InstId) : Prop :=
  (f.kind i).isTerminator = false ∧ ((f.kind j).isPhi = true → (f.kind i).isPhi = true)

/-- The phis of every block come first and its terminator last. -/
def Ordered (f : Function) : Prop := ∀ b, (f.instsOf b).Pairwise f.MayPrecede

/-- The layout lists the blocks that are not removed, each once. -/
structure LaidOut (f : Function) : Prop where
  nodup : f.layout.Nodup
  mem : ∀ b, b ∈ f.layout ↔ b < f.blocks.size ∧ (f.block b).removed = false

/-- No two values are the same constant. -/
def Interned (f : Function) : Prop :=
  ∀ v w c, (f.value v).kind = .const c → (f.value w).kind = .const c → v = w

/-- The rules for instructions, blocks, layout and constants. -/
structure Structured (f : Function) : Prop where
  listed : f.Listed
  ordered : f.Ordered
  laidOut : f.LaidOut
  interned : f.Interned

variable {f f' : Function} {inst : InstId → InstData} {block : BlockId → BlockData} {layout : List BlockId}

/-- A phi is no terminator. -/
theorem not_isTerminator_of_isPhi (h : kind.isPhi = true) : kind.isTerminator = false := by
  rw [InstKind.isPhi_eq_true.1 h]
  rfl

theorem Interned.congr (h : f.Interned) (hkinds : ∀ v, (f'.value v).kind = (f.value v).kind) : f'.Interned := by
  intro v w c hv hw
  rw [hkinds] at hv hw
  exact h v w c hv hw

theorem Structured.congr (h : f.Structured) (hb : f.Becomes f' inst block f.layout)
    (hinst : ∀ i, (inst i).block = f.blockOf? i ∧ (inst i).kind.isPhi = (f.kind i).isPhi ∧
      (inst i).kind.isTerminator = (f.kind i).isTerminator)
    (hblock : ∀ b, (block b).insts = f.instsOf b ∧ (block b).removed = (f.block b).removed) : f'.Structured := by
  have hinsts : ∀ b, f'.instsOf b = f.instsOf b := fun b => by rw [instsOf, hb.block, (hblock b).1]
  have hphi : ∀ i, (f'.kind i).isPhi = (f.kind i).isPhi := fun i => by rw [kind, hb.inst, (hinst i).2.1]
  have hterm : ∀ i, (f'.kind i).isTerminator = (f.kind i).isTerminator := fun i => by
    rw [kind, hb.inst, (hinst i).2.2]
  refine ⟨⟨fun b => ?_, fun b i => ?_⟩, fun b => ?_, ⟨?_, fun b => ?_⟩, h.interned.congr hb.kinds⟩
  · rw [hinsts]
    exact h.listed.nodup b
  · rw [hinsts, blockOf?, hb.inst, (hinst i).1]
    exact h.listed.placed b i
  · rw [hinsts]
    refine (h.ordered b).imp fun {i j} hij => ?_
    rw [MayPrecede, hphi, hphi, hterm]
    exact hij
  · rw [hb.layout]
    exact h.laidOut.nodup
  · rw [hb.layout, hb.blocks_size, hb.block, (hblock b).2]
    exact h.laidOut.mem b

/-- A change of one instruction that leaves its sort and place alone. -/
theorem Structured.congr_inst {i : InstId} {d : InstData} (h : f.Structured)
    (hb : f.Becomes f' (Function.update f.inst i d) f.block f.layout)
    (hd : d.block = f.blockOf? i ∧ d.kind.isPhi = (f.kind i).isPhi ∧
      d.kind.isTerminator = (f.kind i).isTerminator) : f'.Structured := by
  refine h.congr hb (fun j => ?_) fun b => ⟨rfl, rfl⟩
  by_cases hj : j = i
  · rw [hj, Function.update_self]
    exact hd
  · rw [Function.update_of_ne hj]
    exact ⟨rfl, rfl, rfl⟩

/-- A change of one block that leaves its list alone. -/
theorem Structured.congr_block {b : BlockId} {d : BlockData} (h : f.Structured)
    (hb : f.Becomes f' f.inst (Function.update f.block b d) f.layout)
    (hd : d.insts = f.instsOf b ∧ d.removed = (f.block b).removed) : f'.Structured := by
  refine h.congr hb (fun j => ⟨rfl, rfl, rfl⟩) fun c => ?_
  by_cases hc : c = b
  · rw [hc, Function.update_self]
    exact hd
  · rw [Function.update_of_ne hc]
    exact ⟨rfl, rfl⟩

/-! ## The phis of an ordered block -/

section Ordered

variable {b : BlockId} {i j : InstId} {pos : Nat}

/-- What stands before the end of the phis is a phi. -/
theorem isPhi_of_mem_take (hpos : pos ≤ (f.phis b).length) (hj : j ∈ (f.instsOf b).take pos) :
    (f.kind j).isPhi = true := by
  have hinit : (f.instsOf b).take pos <+: f.phis b :=
    List.prefix_of_prefix_length_le (List.take_prefix ..) (List.takeWhile_prefix _) (by
      rw [List.length_take]
      exact Nat.le_trans (Nat.min_le_left ..) hpos)
  exact List.mem_takeWhile_imp (p := fun i => (f.kind i).isPhi) (hinit.subset hj)

/-- What stands behind an instruction that is no phi is none either. -/
theorem Ordered.not_isPhi (h : f.Ordered) {before after : List InstId} (hlist : f.instsOf b = before ++ i :: after)
    (hi : (f.kind i).isPhi = false) (hj : j ∈ i :: after) : (f.kind j).isPhi = false := by
  have hpair : (i :: after).Pairwise f.MayPrecede :=
    (h b).sublist (hlist ▸ List.sublist_append_right before (i :: after))
  rcases List.mem_cons.1 hj with rfl | hj
  · exact hi
  · by_contra hphi
    have hphi' := (List.rel_of_pairwise_cons hpair hj).2 (by simpa using hphi)
    rw [hi] at hphi'
    cases hphi'

/-- What is left of a block without its phis. -/
theorem drop_phis (f : Function) (b : BlockId) :
    (f.instsOf b).drop (f.phis b).length = (f.instsOf b).dropWhile fun i => (f.kind i).isPhi := by
  have hdrop := @List.drop_left _ (f.phis b) ((f.instsOf b).dropWhile fun i => (f.kind i).isPhi)
  rwa [phis, List.takeWhile_append_dropWhile] at hdrop

/-- What stands at the end of the phis or behind it is no phi. -/
theorem Ordered.not_isPhi_of_mem_drop (h : f.Ordered) (hpos : (f.phis b).length ≤ pos)
    (hj : j ∈ (f.instsOf b).drop pos) : (f.kind j).isPhi = false := by
  have hrest : j ∈ (f.instsOf b).dropWhile fun i => (f.kind i).isPhi := by
    have hsub : (f.instsOf b).drop pos ⊆ (f.instsOf b).drop (f.phis b).length :=
      (List.drop_sublist_drop_left _ hpos).subset
    have hin := hsub hj
    rwa [drop_phis] at hin
  cases hdrop : (f.instsOf b).dropWhile fun i => (f.kind i).isPhi with
  | nil =>
    rw [hdrop] at hrest
    cases hrest
  | cons i after =>
    have hlist : f.instsOf b = f.phis b ++ i :: after := by
      rw [← hdrop, phis, List.takeWhile_append_dropWhile]
    have hi : (f.kind i).isPhi = false := by
      have hnot := List.dropWhile_get_zero_not (fun i => (f.kind i).isPhi) (f.instsOf b) (by rw [hdrop]; simp)
      simpa [hdrop] using hnot
    exact h.not_isPhi hlist hi (hdrop ▸ hrest)

/-- An ordered block is made of phis, of other instructions that are no terminators, and of one terminator at
most. -/
theorem Ordered.split (h : f.Ordered) (b : BlockId) : ∃ phis body ends, f.instsOf b = phis ++ body ++ ends ∧
    (∀ i ∈ phis, (f.kind i).isPhi = true) ∧ (∀ i ∈ body, (f.kind i).isPhi = false ∧ (f.kind i).isTerminator = false) ∧
    ends.length ≤ 1 ∧ ∀ i ∈ ends, (f.kind i).isTerminator = true := by
  let rest := (f.instsOf b).dropWhile fun i => (f.kind i).isPhi
  have hall : f.instsOf b = f.phis b ++ rest := (List.takeWhile_append_dropWhile ..).symm
  have hnot : ∀ i ∈ rest, (f.kind i).isPhi = false := fun i hi =>
    h.not_isPhi_of_mem_drop (b := b) (Nat.le_refl _) (by rwa [drop_phis])
  have hphis : ∀ i ∈ f.phis b, (f.kind i).isPhi = true := fun i hi =>
    List.mem_takeWhile_imp (p := fun i => (f.kind i).isPhi) hi
  have hpair : rest.Pairwise f.MayPrecede := (h b).sublist (hall ▸ List.sublist_append_right ..)
  -- Only the last instruction of the rest can be a terminator.
  rcases List.eq_nil_or_concat rest with hnil | ⟨init, last, hlast⟩
  · exact ⟨f.phis b, [], [], by rw [hall, hnil]; simp, hphis, by simp, by simp, by simp⟩
  · rw [List.concat_eq_append] at hlast
    rw [hlast] at hpair hnot
    have hinit : ∀ i ∈ init, (f.kind i).isTerminator = false := fun i hi =>
      ((List.pairwise_append.1 hpair).2.2 i hi last (List.mem_singleton_self _)).1
    have hbody : ∀ i ∈ init, (f.kind i).isPhi = false ∧ (f.kind i).isTerminator = false := fun i hi =>
      ⟨hnot i (List.mem_append_left _ hi), hinit i hi⟩
    cases hterm : (f.kind last).isTerminator with
    | true =>
      refine ⟨f.phis b, init, [last], by rw [hall, hlast, List.append_assoc], hphis, hbody, Nat.le_refl _, ?_⟩
      rintro i hi
      rwa [List.mem_singleton.1 hi]
    | false =>
      refine ⟨f.phis b, init ++ [last], [], by rw [hall, hlast]; simp, hphis, fun i hi => ?_, by simp, by simp⟩
      rcases List.mem_append.1 hi with hi | hi
      · exact hbody i hi
      · rw [List.mem_singleton.1 hi]
        exact ⟨hnot last (by simp), hterm⟩

end Ordered

end Function

namespace Edit

open Edits

variable {f f' : Function}

/-! ## Placing -/

variable {b : BlockId} {i : InstId} {pos : Nat}

/-- Placing an instruction that may stand behind all instructions before its place and before all others. -/
theorem structured_place (hs : f.Structured) (hpos : pos ≤ (f.instsOf b).length)
    (hbefore : ∀ j ∈ (f.instsOf b).take pos, f.MayPrecede j i)
    (hafter : ∀ j ∈ (f.instsOf b).drop pos, f.MayPrecede i j) (h : (place b pos i).run f = (.ok (), f')) :
    f'.Structured := by
  obtain ⟨hfree, -, -, -, hbecomes, -⟩ := place_spec h
  have hlist : (f.instsOf b).insertIdx pos i = (f.instsOf b).take pos ++ i :: (f.instsOf b).drop pos := by
    have hinsert := insertIdx_append_length ((f.instsOf b).take pos) ((f.instsOf b).drop pos) i
    rwa [List.take_append_drop, List.length_take, Nat.min_eq_left hpos] at hinsert
  have hnot : ∀ c, i ∉ f.instsOf c := by
    intro c hin
    rw [(hs.listed.placed c i).1 hin] at hfree
    cases hfree
  have hperm : ((f.instsOf b).insertIdx pos i).Perm (i :: f.instsOf b) := List.perm_insertIdx _ _ hpos
  have hself : f'.instsOf b = (f.instsOf b).insertIdx pos i := by
    rw [Function.instsOf, hbecomes.block, Function.update_self]
  have hother : ∀ c, c ≠ b → f'.instsOf c = f.instsOf c := fun c hc => by
    rw [Function.instsOf, hbecomes.block, Function.update_of_ne hc]
    rfl
  have hkind : ∀ j, f'.kind j = f.kind j := by
    intro j
    rw [Function.kind, hbecomes.inst]
    exact Function.proj_update (by rfl) _
  have hblock : ∀ j, f'.blockOf? j = if j = i then some b else f.blockOf? j := by
    intro j
    rw [Function.blockOf?, hbecomes.inst]
    by_cases hj : j = i
    · rw [hj, Function.update_self, if_pos rfl]
    · rw [Function.update_of_ne hj, if_neg hj]
      rfl
  have hprecede : ∀ {j k}, f.MayPrecede j k → f'.MayPrecede j k := by
    intro j k hjk
    rw [Function.MayPrecede, hkind, hkind]
    exact hjk
  refine ⟨⟨fun c => ?_, fun c j => ?_⟩, fun c => ?_, ⟨?_, fun c => ?_⟩, hs.interned.congr hbecomes.kinds⟩
  · by_cases hc : c = b
    · rw [hc, hself, hperm.nodup_iff]
      exact List.nodup_cons.2 ⟨hnot b, hs.listed.nodup b⟩
    · rw [hother c hc]
      exact hs.listed.nodup c
  · rw [hblock]
    by_cases hc : c = b
    · rw [hc, hself, hperm.mem_iff, List.mem_cons, hs.listed.placed b j]
      by_cases hj : j = i
      · simp [hj]
      · simp [hj]
    · rw [hother c hc, hs.listed.placed c j]
      by_cases hj : j = i
      · rw [hj, hfree, if_pos rfl]
        exact iff_of_false (Option.some_ne_none c).symm fun heq => hc (Option.some.inj heq).symm
      · rw [if_neg hj]
  · by_cases hc : c = b
    · rw [hc, hself, hlist, List.pairwise_append]
      have hpair := hs.ordered b
      rw [← List.take_append_drop pos (f.instsOf b), List.pairwise_append] at hpair
      obtain ⟨hinit, htail, hacross⟩ := hpair
      refine ⟨hinit.imp hprecede, List.pairwise_cons.2 ⟨fun j hj => hprecede (hafter j hj), htail.imp hprecede⟩, ?_⟩
      intro j hj k hk
      rcases List.mem_cons.1 hk with rfl | hk
      · exact hprecede (hbefore j hj)
      · exact hprecede (hacross j hj k hk)
    · rw [hother c hc]
      exact (hs.ordered c).imp hprecede
  · rw [hbecomes.layout]
    exact hs.laidOut.nodup
  · rw [hbecomes.layout, hbecomes.blocks_size, hs.laidOut.mem c, hbecomes.block]
    by_cases hc : c = b
    · rw [hc, Function.update_self]
    · rw [Function.update_of_ne hc]

theorem structured_pushBack (b : BlockId) (i : InstId) : Preserves Function.Structured (pushBack b i) := by
  intro f f' _ hs h
  obtain ⟨hopen, hphis, hplace⟩ := place_of_pushBack h
  refine structured_place hs (Nat.le_refl _) (fun j hj => ?_) (fun j hj => ?_) hplace
  · rw [List.take_length] at hj
    refine ⟨?_, fun hi => Function.isPhi_of_mem_take (b := b) (Nat.le_refl _) ?_⟩
    · -- An instruction before the last one is no terminator, and the last one is none in an open block.
      rcases List.eq_nil_or_concat (f.instsOf b) with hnil | ⟨init, last, hlast⟩
      · rw [hnil] at hj
        cases hj
      · rw [List.concat_eq_append] at hlast
        have hpair := hs.ordered b
        rw [hlast] at hj hpair
        rcases List.mem_append.1 hj with hj | hj
        · exact ((List.pairwise_append.1 hpair).2.2 j hj last (List.mem_singleton_self _)).1
        · rw [isTerminated, hlast, List.getLast?_concat] at hopen
          rw [List.mem_singleton.1 hj]
          exact hopen
    · rw [hphis hi, List.take_length]
      exact hj
  · rw [List.drop_length] at hj
    cases hj

theorem structured_insertPhi (b : BlockId) (i : InstId) : Preserves Function.Structured (insertPhi b i) := by
  intro f f' _ hs h
  obtain ⟨hi, hplace⟩ := place_of_insertPhi h
  refine structured_place hs (List.takeWhile_sublist _).length_le (fun j hj => ?_) (fun j hj => ?_) hplace
  · have hphi := Function.isPhi_of_mem_take (Nat.le_refl _) hj
    exact ⟨Function.not_isTerminator_of_isPhi hphi, fun _ => hphi⟩
  · exact ⟨Function.not_isTerminator_of_isPhi hi, fun _ => hi⟩

/-- The place of an instruction. -/
theorem position_eq_ok (h : (position i).run f = (.ok (b, pos), f')) :
    f = f' ∧ pos < (f.instsOf b).length ∧ (f.instsOf b).take pos ++ i :: (f.instsOf b).drop (pos + 1) =
      f.instsOf b := by
  unfold position at h
  have h₀ := of_get_bind h
  split at h₀
  · obtain ⟨g, f₁, -, h₁⟩ := bind_eq_ok h₀
    cases h₁
  · have h₁ := of_get_bind h₀
    split at h₁
    · rename_i pos' hpos
      cases h₁
      obtain ⟨hlt, hat, -⟩ := List.idxOf?_eq_some_iff.1 hpos
      refine ⟨rfl, hlt, ?_⟩
      conv_rhs => rw [← List.take_append_drop pos (f.instsOf b), List.drop_eq_getElem_cons hlt, hat]
    · obtain ⟨g, f₂, -, h₂⟩ := bind_eq_ok h₁
      cases h₂

/-- What stands before a place of an ordered block may stand before the instruction there. -/
theorem mayPrecede_of_position {anchor j : InstId} (hs : f.Ordered)
    (hlist : (f.instsOf b).take pos ++ anchor :: (f.instsOf b).drop (pos + 1) = f.instsOf b)
    (hj : j ∈ (f.instsOf b).take pos) : f.MayPrecede j anchor := by
  have hpair := hs b
  rw [← hlist] at hpair
  exact (List.pairwise_append.1 hpair).2.2 j hj anchor List.mem_cons_self

theorem structured_insertBefore (anchor i : InstId) : Preserves Function.Structured (insertBefore anchor i) := by
  intro f f' _ hs h
  unfold insertBefore at h
  obtain ⟨⟨b, pos⟩, f₀, hposition, h₀⟩ := bind_eq_ok h
  obtain ⟨rfl, hlt, hlist⟩ := position_eq_ok hposition
  have h₁ := of_get_bind h₀
  obtain ⟨hterm, h₂⟩ := demand_bind_eq_ok h₁
  have hterm' : (f.kind i).isTerminator = false := by simpa using hterm
  split at h₂
  · rename_i hi
    obtain ⟨hpos, hplace⟩ := demand_bind_eq_ok h₂
    refine structured_place hs (Nat.le_of_lt hlt) (fun j hj => ?_) (fun j _ => ⟨hterm', fun _ => hi⟩) hplace
    have hphi := Function.isPhi_of_mem_take (of_decide_eq_true hpos) hj
    exact ⟨Function.not_isTerminator_of_isPhi hphi, fun _ => hphi⟩
  · rename_i hi
    obtain ⟨hanchor, hplace⟩ := demand_bind_eq_ok h₂
    refine structured_place hs (Nat.le_of_lt hlt) (fun j hj => ?_) (fun j hj => ⟨hterm', fun hphi => ?_⟩) hplace
    · exact ⟨(mayPrecede_of_position hs.ordered hlist hj).1, fun hphi => absurd hphi hi⟩
    · have hin : j ∈ anchor :: (f.instsOf b).drop (pos + 1) := by
        rw [← hlist, List.drop_append_of_le_length (by rw [List.length_take]; omega)] at hj
        simpa [Nat.min_eq_left (Nat.le_of_lt hlt)] using hj
      rw [hs.ordered.not_isPhi hlist.symm (by simpa using hanchor) hin] at hphi
      cases hphi

theorem structured_insertAfter (anchor i : InstId) : Preserves Function.Structured (insertAfter anchor i) := by
  intro f f' _ hs h
  unfold insertAfter at h
  obtain ⟨⟨b, pos⟩, f₀, hposition, h₀⟩ := bind_eq_ok h
  obtain ⟨rfl, hlt, hlist⟩ := position_eq_ok hposition
  have h₁ := of_get_bind h₀
  obtain ⟨hanchor, h₂⟩ := demand_bind_eq_ok h₁
  obtain ⟨hterm, h₃⟩ := demand_bind_eq_ok h₂
  have hterm' : (f.kind i).isTerminator = false := by simpa using hterm
  have hat : (f.instsOf b)[pos] = anchor := by
    have helem : ((f.instsOf b).take pos ++ anchor :: (f.instsOf b).drop (pos + 1))[pos]? = some anchor := by
      rw [List.getElem?_append_right (by rw [List.length_take]; omega), List.length_take,
        Nat.min_eq_left (Nat.le_of_lt hlt), Nat.sub_self, List.getElem?_cons_zero]
    rw [hlist, List.getElem?_eq_getElem hlt] at helem
    exact Option.some.inj helem
  have htake : ∀ j ∈ (f.instsOf b).take (pos + 1), j ∈ (f.instsOf b).take pos ∨ j = anchor := by
    intro j hj
    rw [List.take_succ_eq_append_getElem hlt, hat] at hj
    exact (List.mem_append.1 hj).imp_right List.mem_singleton.1
  split at h₃
  · rename_i hi
    obtain ⟨hphi, hplace⟩ := demand_bind_eq_ok h₃
    refine structured_place hs hlt (fun j hj => ?_) (fun j _ => ⟨hterm', fun _ => hi⟩) hplace
    rcases htake j hj with hj | rfl
    · have hbefore := mayPrecede_of_position hs.ordered hlist hj
      exact ⟨hbefore.1, fun _ => hbefore.2 hphi⟩
    · exact ⟨Function.not_isTerminator_of_isPhi hphi, fun _ => hphi⟩
  · rename_i hi
    obtain ⟨hpos, hplace⟩ := demand_bind_eq_ok h₃
    refine structured_place hs hlt (fun j hj => ?_) (fun j hj => ⟨hterm', fun hphi => ?_⟩) hplace
    · refine ⟨?_, fun hphi => absurd hphi hi⟩
      rcases htake j hj with hj | rfl
      · exact (mayPrecede_of_position hs.ordered hlist hj).1
      · simpa using hanchor
    · rw [hs.ordered.not_isPhi_of_mem_drop (of_decide_eq_true hpos) hj] at hphi
      cases hphi

/-! ## Actions that report nothing -/

/-- Asserting a condition. -/
theorem quiet_demand (condition : Bool) (text : String) : Quiet (demand condition text) := by
  unfold demand
  split
  · exact .pure _
  · exact .bind .get fun _ => .crash _

theorem quiet_modifyValue (v : ValueId) (change : ValueData → ValueData) : Quiet (modifyValue v change) := by
  refine .bind .get fun _ => ?_
  split
  · exact .modify _
  · exact .crash _

theorem quiet_modifyInst (i : InstId) (change : InstData → InstData) : Quiet (modifyInst i change) := by
  refine .bind .get fun _ => ?_
  split
  · exact .modify _
  · exact .crash _

theorem quiet_modifyBlock (b : BlockId) (change : BlockData → BlockData) : Quiet (modifyBlock b change) := by
  refine .bind .get fun _ => ?_
  split
  · exact .modify _
  · exact .crash _

theorem quiet_removeUse (v : ValueId) (u : Use) : Quiet (removeUse v u) := by
  refine .bind .get fun _ => ?_
  split
  · exact quiet_modifyValue _ _
  · exact .bind .get fun _ => .crash _

theorem quiet_removeUses (i : InstId) (slot : Nat) (l : List ValueId) : Quiet (removeUses i slot l) := by
  induction l generalizing slot with
  | nil => exact .pure _
  | cons v rest ih => exact (quiet_removeUse _ _).bind fun _ => ih _

theorem quiet_addUses (i : InstId) (slot : Nat) (l : List ValueId) : Quiet (addUses i slot l) := by
  induction l generalizing slot with
  | nil => exact .pure _
  | cons v rest ih => exact (quiet_modifyValue _ _).bind fun _ => ih _

theorem quiet_lowerUses (i : InstId) (slot : Nat) (l : List ValueId) : Quiet (lowerUses i slot l) := by
  induction l generalizing slot with
  | nil => exact .pure _
  | cons v rest ih => exact (quiet_modifyValue _ _).bind fun _ => ih _

theorem quiet_askOperand (i : InstId) (slot : Nat) : Quiet (ask (·.operand i slot)) := by
  intro f f' cause h
  rw [run_ask] at h
  unfold Function.operand Outcome.ofOption at h
  split at h <;> cases h

theorem quiet_internValue (kind : ValueKind) : Quiet (internValue kind) := by
  refine .bind .get fun _ => ?_
  split
  · exact .pure _
  · intro f f' cause h
    cases h

theorem quiet_createInst (kind : InstKind) (operands : List ValueId) (hasResult : Bool) :
    Quiet (createInst kind operands hasResult) := by
  have hrest : ∀ (i : InstId) result, Quiet (do
      addUses i 0 operands
      modify fun f => { f with insts := f.insts.push { kind, operands, result } }
      return i : Edit InstId) :=
    fun i result => (quiet_addUses _ _ _).bind fun _ => .bind (.modify _) fun _ => .pure _
  refine .bind .get fun g => ?_
  dsimp only
  split
  · exact .bind (fun _ _ _ h => nomatch h) (hrest _)
  · exact .bind (.pure _) (hrest _)

theorem quiet_setOperand (i : InstId) (slot : Nat) (v : ValueId) : Quiet (setOperand i slot v) := by
  refine (quiet_askOperand i slot).bind fun old => ?_
  split
  · exact (quiet_removeUse _ _).bind fun _ => (quiet_modifyValue _ _).bind fun _ => quiet_modifyInst _ _
  · exact .pure _

theorem quiet_pushOperand (i : InstId) (v : ValueId) : Quiet (pushOperand i v) :=
  .bind .get fun _ => (quiet_modifyInst _ _).bind fun _ => quiet_modifyValue _ _

theorem quiet_removeOperand (i : InstId) (slot : Nat) : Quiet (removeOperand i slot) :=
  (quiet_askOperand i slot).bind fun _ => (quiet_removeUse _ _).bind fun _ => .bind .get fun _ =>
    (quiet_lowerUses _ _ _).bind fun _ => quiet_modifyInst _ _

/-- Making every slot that reads one value read another one. -/
theorem quiet_replaceAllUses (old new : ValueId) : Quiet (replaceAllUses old new) := by
  unfold replaceAllUses
  split
  · exact .pure _
  · refine .bind .get fun _ => (quiet_modifyValue _ _).bind fun _ => ?_
    refine .bind (.forM fun _ _ => quiet_modifyInst _ _) fun _ => (quiet_modifyValue _ _).bind fun _ => .pure _

theorem quiet_detachOperands (i : InstId) : Quiet (detachOperands i) :=
  .bind .get fun _ => (quiet_modifyInst _ _).bind fun _ => quiet_removeUses _ _ _

theorem quiet_createBlock (name : String) : Quiet (createBlock name) := fun _ _ _ h => nomatch h

theorem quiet_place (b : BlockId) (pos : Nat) (i : InstId) : Quiet (place b pos i) :=
  .bind .get fun _ => (quiet_demand _ _).bind fun _ => (quiet_modifyBlock _ _).bind fun _ => quiet_modifyInst _ _

theorem quiet_position (i : InstId) : Quiet (position i) := by
  refine .bind .get fun _ => ?_
  split
  · exact .bind .get fun _ => .crash _
  · refine .bind .get fun _ => ?_
    split
    · exact .pure _
    · exact .bind .get fun _ => .crash _

theorem quiet_pushBack (b : BlockId) (i : InstId) : Quiet (pushBack b i) := by
  refine .bind .get fun _ => (quiet_demand _ _).bind fun _ => ?_
  dsimp only
  split
  · exact .bind (.crash _) fun _ => quiet_place _ _ _
  · exact quiet_place _ _ _

theorem quiet_insertPhi (b : BlockId) (i : InstId) : Quiet (insertPhi b i) := by
  refine .bind .get fun _ => ?_
  split
  · exact quiet_place _ _ _
  · exact .crash _

theorem quiet_insertBefore (anchor i : InstId) : Quiet (insertBefore anchor i) := by
  refine (quiet_position anchor).bind fun _ => .bind .get fun _ => (quiet_demand _ _).bind fun _ => ?_
  split
  · exact (quiet_demand _ _).bind fun _ => quiet_place _ _ _
  · exact (quiet_demand _ _).bind fun _ => quiet_place _ _ _

theorem quiet_insertAfter (anchor i : InstId) : Quiet (insertAfter anchor i) := by
  refine (quiet_position anchor).bind fun _ => .bind .get fun _ => (quiet_demand _ _).bind fun _ => ?_
  refine (quiet_demand _ _).bind fun _ => ?_
  split
  · exact (quiet_demand _ _).bind fun _ => quiet_place _ _ _
  · exact (quiet_demand _ _).bind fun _ => quiet_place _ _ _

theorem quiet_redirectTarget (i : InstId) (source target : BlockId) : Quiet (redirectTarget i source target) := by
  refine .bind .get fun _ => ?_
  split
  · exact (quiet_modifyInst _ _).bind fun _ => .pure _
  · exact .pure _

theorem quiet_removePredAt (b : BlockId) (idx : Nat) : Quiet (removePredAt b idx) := by
  refine .bind .get fun _ => .bind (.forM fun _ _ => quiet_removeOperand _ _) fun _ => .bind .get fun _ => ?_
  split
  · exact quiet_modifyBlock _ _
  · exact .crash _

/-! ## Values and operands -/

theorem structured_internValue {kind : ValueKind} (hkind : kind.isComputed = false) :
    Preserves Function.Structured (internValue kind) := by
  intro f f' v hs h
  obtain ⟨hmore, -, -⟩ := internValue_spec hkind h
  have hinsts : ∀ b, f'.instsOf b = f.instsOf b := fun b => congrArg BlockData.insts (hmore.block b)
  have hinterned : f'.Interned := by
    unfold internValue at h
    have h₁ := of_get_bind h
    split at h₁
    · cases h₁
      exact hs.interned
    · rename_i hnone
      obtain ⟨-, rfl⟩ := newValue_eq_ok h₁
      have hnew : ∀ w, (f.value w).kind = kind → f.values.size ≤ w := by
        intro w hw
        by_contra hlt
        have hsize : w < f.values.size := Nat.lt_of_not_le hlt
        have hbeq := Array.findIdx?_eq_none_iff.1 hnone (f.values[w]) (Array.getElem_mem hsize)
        rw [Function.value, Array.getD_eq_getD_getElem?, Array.getElem?_eq_getElem hsize, Option.getD_some] at hw
        rw [hw, beq_self_eq_true] at hbeq
        cases hbeq
      intro w x c hw hx
      rw [Function.value_push] at hw hx
      split at hw
      · rename_i hwnew
        split at hx
        · rename_i hxnew
          rw [hwnew, hxnew]
        · have hlarge := hnew x (hx.trans hw.symm)
          rw [Function.value_of_size_le hlarge] at hx
          cases hx
      · split at hx
        · have hlarge := hnew w (hw.trans hx.symm)
          rw [Function.value_of_size_le hlarge] at hw
          cases hw
        · exact hs.interned w x c hw hx
  refine ⟨⟨fun b => ?_, fun b i => ?_⟩, fun b => ?_, ⟨?_, fun b => ?_⟩, hinterned⟩
  · rw [hinsts]
    exact hs.listed.nodup b
  · rw [hinsts, Function.blockOf?, hmore.inst]
    exact hs.listed.placed b i
  · rw [hinsts]
    refine (hs.ordered b).imp fun {i j} hij => ?_
    rw [Function.MayPrecede, Function.kind, Function.kind, hmore.inst, hmore.inst]
    exact hij
  · rw [hmore.layout]
    exact hs.laidOut.nodup
  · rw [hmore.layout, hmore.blocks_size, hmore.block]
    exact hs.laidOut.mem b

theorem structured_createInst (kind : InstKind) (operands : List ValueId) (hasResult : Bool) :
    Preserves Function.Structured (createInst kind operands hasResult) := by
  intro f f' i hs h
  obtain ⟨-, hcreated⟩ := created_createInst h
  have hinsts : ∀ b, f'.instsOf b = f.instsOf b := fun b => congrArg BlockData.insts (hcreated.block b)
  have hfree : f.blockOf? f.insts.size = none := by
    rw [Function.blockOf?, inst_of_size_le (Nat.le_refl _)]
    rfl
  have hnew : ∀ b, f.insts.size ∉ f.instsOf b := by
    intro b hin
    rw [(hs.listed.placed b _).1 hin] at hfree
    cases hfree
  refine ⟨⟨fun b => ?_, fun b j => ?_⟩, fun b => ?_, ⟨?_, fun b => ?_⟩, fun v w c hv hw => ?_⟩
  · rw [hinsts]
    exact hs.listed.nodup b
  · rw [hinsts, hs.listed.placed b j, Function.blockOf?, Function.blockOf?, hcreated.inst]
    by_cases hj : j = f.insts.size
    · rw [hj, Function.update_self, inst_of_size_le (Nat.le_refl _)]
      exact Iff.rfl
    · rw [Function.update_of_ne hj]
  · rw [hinsts]
    have hkind : ∀ j ∈ f.instsOf b, f'.kind j = f.kind j := by
      intro j hj
      have hne : j ≠ f.insts.size := fun heq => hnew b (heq ▸ hj)
      rw [Function.kind, hcreated.inst, Function.update_of_ne hne]
      rfl
    refine (hs.ordered b).imp_of_mem fun {j k} hj hk hjk => ?_
    rw [Function.MayPrecede, hkind j hj, hkind k hk]
    exact hjk
  · rw [hcreated.layout]
    exact hs.laidOut.nodup
  · rw [hcreated.layout, hcreated.blocks_size, hcreated.block]
    exact hs.laidOut.mem b
  · have hold : ∀ v, (f'.value v).kind = .const c → (f.value v).kind = .const c := by
      intro v hv
      by_cases hlt : v < f'.values.size
      · rw [hcreated.kinds v hlt] at hv
        split at hv
        · cases hv
        · exact hv
      · rw [Function.value_of_size_le (Nat.le_of_not_lt hlt)] at hv
        cases hv
    exact hs.interned v w c (hold v hv) (hold w hw)

theorem structured_setOperand (i : InstId) (slot : Nat) (v : ValueId) :
    Preserves Function.Structured (setOperand i slot v) := by
  intro f f' _ hs h
  obtain ⟨old, -, -, hbecomes, -⟩ := setOperand_spec h
  exact hs.congr_inst hbecomes ⟨rfl, rfl, rfl⟩

theorem structured_pushOperand (i : InstId) (v : ValueId) : Preserves Function.Structured (pushOperand i v) :=
  fun _ _ _ hs h => hs.congr_inst (pushOperand_spec h).2.2.2.1 ⟨rfl, rfl, rfl⟩

theorem structured_removeOperand (i : InstId) (slot : Nat) : Preserves Function.Structured (removeOperand i slot) :=
  fun _ _ _ hs h => hs.congr_inst (removeOperand_spec h).2.2.2.1 ⟨rfl, rfl, rfl⟩

theorem structured_detachOperands (i : InstId) : Preserves Function.Structured (detachOperands i) :=
  fun _ _ _ hs h => hs.congr_inst (detachOperands_spec h).2.2.1 ⟨rfl, rfl, rfl⟩

/-- Making every slot that reads one value read another one. -/
theorem structured_replaceAllUses {old new : ValueId} {count : Nat} (hs : f.Structured) (hindexed : Indexed f)
    (h : (replaceAllUses old new).run f = (.ok count, f')) : f'.Structured := by
  by_cases hne : old = new
  · unfold replaceAllUses at h
    rw [if_pos hne] at h
    cases h
    exact hs
  · obtain ⟨-, -, hbecomes, -⟩ := replaceAllUses_spec hne hindexed h
    exact hs.congr hbecomes (fun _ => ⟨rfl, rfl, rfl⟩) fun _ => ⟨rfl, rfl⟩

theorem structured_setValueName (v : ValueId) (name : String) :
    Preserves Function.Structured (setValueName v name) := by
  intro f f' _ hs h
  obtain ⟨-, hsame, -, -⟩ := modifyUses_spec id h fun d => ⟨rfl, rfl⟩
  exact hs.congr hsame (fun _ => ⟨rfl, rfl, rfl⟩) fun _ => ⟨rfl, rfl⟩

theorem structured_addCallee (callee : FuncId) : Preserves Function.Structured (addCallee callee) := by
  intro f f' _ hs h
  cases h
  exact ⟨⟨hs.listed.nodup, hs.listed.placed⟩, hs.ordered, ⟨hs.laidOut.nodup, hs.laidOut.mem⟩, hs.interned⟩

/-! ## Blocks and removal -/

theorem structured_createBlock (name : String) : Preserves Function.Structured (createBlock name) := by
  intro f f' b hs h
  obtain ⟨-, hinsts, hnodup, hmem⟩ := createBlock_layout h hs.laidOut.nodup hs.laidOut.mem
  obtain ⟨rfl, rfl⟩ := createBlock_spec h
  refine ⟨⟨fun b => ?_, fun b i => ?_⟩, fun b => ?_, ⟨hnodup, hmem⟩, hs.interned⟩
  · rw [hinsts]
    exact hs.listed.nodup b
  · rw [hinsts]
    exact hs.listed.placed b i
  · rw [hinsts]
    exact hs.ordered b

theorem structured_removeInst (i : InstId) : Preserves Function.Structured (removeInst i) := by
  intro f f' _ hs h
  obtain ⟨-, -, -, hbecomes, -⟩ := removeInst_spec h
  have hinsts : ∀ b, f'.instsOf b = (f.instsOf b).filter (· != i) := by
    intro b
    rw [Function.instsOf, hbecomes.block, blocksWithout]
    split
    · rfl
    · rename_i hb
      refine (List.filter_eq_self.2 fun j hj => ?_).symm
      rw [bne_iff_ne]
      rintro rfl
      exact hb ((hs.listed.placed b j).1 hj)
  have hremoved : ∀ b, (f'.block b).removed = (f.block b).removed := by
    intro b
    rw [hbecomes.block, blocksWithout]
    split <;> rfl
  refine ⟨⟨fun b => ?_, fun b j => ?_⟩, fun b => ?_, ⟨?_, fun b => ?_⟩, hs.interned.congr hbecomes.kinds⟩
  · rw [hinsts]
    exact (hs.listed.nodup b).filter _
  · rw [hinsts, List.mem_filter, hs.listed.placed b j, bne_iff_ne, Function.blockOf?, Function.blockOf?,
      hbecomes.inst]
    by_cases hj : j = i
    · rw [hj, Function.update_self]
      exact iff_of_false (fun hin => hin.2 rfl) (Option.some_ne_none b).symm
    · rw [Function.update_of_ne hj]
      exact ⟨fun hin => hin.1, fun hin => ⟨hin, hj⟩⟩
  · rw [hinsts]
    have hkind : ∀ j, f'.kind j = f.kind j := by
      intro j
      rw [Function.kind, hbecomes.inst]
      exact Function.proj_update (by rfl) _
    refine ((hs.ordered b).filter _).imp fun {j k} hjk => ?_
    rw [Function.MayPrecede, hkind, hkind]
    exact hjk
  · rw [hbecomes.layout]
    exact hs.laidOut.nodup
  · rw [hbecomes.layout, hbecomes.blocks_size, hremoved]
    exact hs.laidOut.mem b

theorem quiet_unplace (i : InstId) : Quiet (unplace i) := by
  refine (quiet_detachOperands i).bind fun _ => .bind .get fun g => ?_
  split
  · exact (quiet_modifyInst _ _).bind fun _ => quiet_modifyBlock _ _
  · exact .pure _

/-- A removal that reports an error has changed nothing. -/
theorem removeInst_reports {cause : CompileError} (h : (removeInst i).run f = (.error (.error cause), f')) :
    f' = f := by
  unfold removeInst at h
  rcases bind_eq_error h with hget | ⟨g, f₀, hget, h₀⟩
  · cases hget
  · cases hget
    dsimp only at h₀
    split at h₀
    · split at h₀
      · rcases bind_eq_error h₀ with hreport | ⟨_, f₁, hreport, -⟩
        · cases hreport
          rfl
        · cases hreport
      · rcases bind_eq_error h₀ with hmark | ⟨_, f₁, -, hrest⟩
        · exact absurd hmark (quiet_modifyValue _ _ ·)
        · exact absurd hrest (quiet_unplace i ·)
    · exact absurd h₀ (quiet_unplace i ·)

/-- Removing blocks, also where a value of theirs turns out to be read from outside. -/
theorem upholds_removeBlocks (doomed : List BlockId) : Upholds Function.Structured (removeBlocks doomed) := by
  unfold removeBlocks
  refine .bind (.of_quiet .get .get) fun g => ?_
  refine .bind (.forM fun i _ => .of_quiet (structured_detachOperands i) (quiet_detachOperands i)) fun _ => ?_
  refine .bind (.forM fun i _ => .of_reports_eq (structured_removeInst i) fun _ _ _ => removeInst_reports) fun _ => ?_
  -- The marks and the layout change together.
  refine .of_quiet (fun f f' _ hs h => ?_) (.bind (.forM fun b _ => quiet_modifyBlock _ _) fun _ => .modify _)
  obtain ⟨⟨⟩, f₁, hmark, hfilter⟩ := bind_eq_ok h
  cases hfilter
  obtain ⟨hbecomes, -⟩ := forM_markRemoved_spec hmark
  have hinsts : ∀ b, f₁.instsOf b = f.instsOf b := by
    intro b
    rw [Function.instsOf, hbecomes.block]
    split <;> rfl
  refine ⟨⟨fun b => ?_, fun b i => ?_⟩, fun b => ?_, ⟨?_, fun b => ?_⟩, hs.interned.congr hbecomes.kinds⟩
  · change (f₁.instsOf b).Nodup
    rw [hinsts]
    exact hs.listed.nodup b
  · change i ∈ f₁.instsOf b ↔ (f₁.inst i).block = some b
    rw [hinsts, hbecomes.inst]
    exact hs.listed.placed b i
  · change (f₁.instsOf b).Pairwise f₁.MayPrecede
    rw [hinsts]
    refine (hs.ordered b).imp fun {i j} hij => ?_
    rw [Function.MayPrecede, Function.kind, Function.kind, hbecomes.inst, hbecomes.inst]
    exact hij
  · change (f₁.layout.filter _).Nodup
    rw [hbecomes.layout]
    exact hs.laidOut.nodup.filter _
  · change b ∈ f₁.layout.filter _ ↔ b < f₁.blocks.size ∧ (f₁.block b).removed = false
    rw [hbecomes.layout, hbecomes.blocks_size, hbecomes.block, List.mem_filter, hs.laidOut.mem b]
    by_cases hb : b ∈ doomed
    · simp [hb]
    · simp [hb]

/-- A kind with an arm redirected stays a terminator. -/
theorem redirect_isTerminator {kind' : InstKind} {source target : BlockId}
    (h : kind.redirect? source target = some kind') :
    kind'.isPhi = kind.isPhi ∧ kind'.isTerminator = kind.isTerminator := by
  cases kind with
  | jump t =>
    rw [InstKind.redirect?] at h
    split at h <;> cases h
    exact ⟨rfl, rfl⟩
  | branch t e =>
    rw [InstKind.redirect?] at h
    split at h
    · cases h
      exact ⟨rfl, rfl⟩
    · split at h <;> cases h
      exact ⟨rfl, rfl⟩
  | _ => cases h

theorem structured_redirectTarget (i : InstId) (source target : BlockId) :
    Preserves Function.Structured (redirectTarget i source target) := by
  intro f f' _ hs h
  rcases redirectTarget_spec h with ⟨-, rfl⟩ | ⟨kind, hkind, -, -, -, hbecomes, -⟩
  · exact hs
  · obtain ⟨hphi, hterm⟩ := redirect_isTerminator hkind
    exact hs.congr_inst hbecomes ⟨rfl, hphi, hterm⟩

theorem structured_removePredAt (b : BlockId) (idx : Nat) : Preserves Function.Structured (removePredAt b idx) := by
  refine .bind .get fun g => .bind (.forM fun phi _ => structured_removeOperand phi idx) fun _ => .bind .get fun g => ?_
  split
  · exact fun f f' _ hs h => hs.congr_block (modifyBlock_spec h).2.2.1 ⟨rfl, rfl⟩
  · exact .throw _

/-! ## The editing interface -/

/-- A property that the edits of single records and places keep where they succeed. -/
structure KeptByEdits (P : Function → Prop) : Prop where
  internValue : ∀ {kind : ValueKind}, kind.isComputed = false → Preserves P (internValue kind)
  setValueName : ∀ v name, Preserves P (setValueName v name)
  addCallee : ∀ callee, Preserves P (addCallee callee)
  createInst : ∀ kind operands hasResult, Preserves P (createInst kind operands hasResult)
  setOperand : ∀ i slot v, Preserves P (setOperand i slot v)
  pushOperand : ∀ i v, Preserves P (pushOperand i v)
  removeOperand : ∀ i slot, Preserves P (removeOperand i slot)
  createBlock : ∀ name, Preserves P (createBlock name)
  pushBack : ∀ b i, Preserves P (pushBack b i)
  insertPhi : ∀ b i, Preserves P (insertPhi b i)
  insertBefore : ∀ anchor i, Preserves P (insertBefore anchor i)
  insertAfter : ∀ anchor i, Preserves P (insertAfter anchor i)
  removeInst : ∀ i, Preserves P (removeInst i)
  redirectTarget : ∀ i source target, Preserves P (redirectTarget i source target)
  addPred : ∀ b pred, Preserves P (addPred b pred)
  removePredAt : ∀ b idx, Preserves P (removePredAt b idx)

/-- Exchanging a terminator, also where the old one turns out to be read. -/
theorem KeptByEdits.replaceTerminator {P : Function → Prop} (hP : KeptByEdits P) (b : BlockId) (kind : InstKind)
    (operands : List ValueId) : Upholds P (replaceTerminator b kind operands) := by
  refine .bind (.of_reports_eq (.of_run_eq fun f => ?_) fun f f' cause h => ?_) fun old => ?_
  · exact congrArg Prod.snd (run_ask _ f)
  · exact (congrArg Prod.snd ((run_ask _ f).symm.trans h)).symm
  · refine .bind (.of_reports_eq (hP.removeInst old) fun _ _ _ => removeInst_reports) fun _ => ?_
    refine .bind (.of_quiet (hP.createInst kind operands false) (quiet_createInst ..)) fun i => ?_
    exact .bind (.of_quiet (hP.pushBack b i) (quiet_pushBack b i)) fun _ => .of_quiet (.pure _) (.pure _)

/-- Such a property is kept by every call, also by one that reports an error, if the two edits of many places keep it. -/
theorem KeptByEdits.call {P : Function → Prop} (hP : KeptByEdits P) {call : Call} {r : Except Failure Unit} (hf : P f)
    (hreplace : ∀ {old new count}, (replaceAllUses old new).run f = (.ok count, f') → P f')
    (hremove : ∀ {doomed}, (removeBlocks doomed).run f = (r, f') → P f') (h : call.edit.run f = (r, f'))
    (hr : ∀ text, r ≠ .error (.crash text)) : P f' := by
  have huphold : ∀ {edit : Edit Unit}, Upholds P edit → edit.run f = (r, f') → P f' := by
    intro edit hedit hrun
    match r, hr with
    | .ok (), _ => exact hedit.preserves hf hrun
    | .error (.error cause), _ => exact hedit.reports hf hrun
    | .error (.crash text), hr => exact absurd rfl (hr text)
  cases call with
  | constValue c => exact huphold (.discard (.of_quiet (hP.internValue rfl) (quiet_internValue _))) h
  | globalValue g => exact huphold (.discard (.of_quiet (hP.internValue rfl) (quiet_internValue _))) h
  | stringValue s => exact huphold (.discard (.of_quiet (hP.internValue rfl) (quiet_internValue _))) h
  | setValueName v name => exact huphold (.of_quiet (hP.setValueName v name) (quiet_modifyValue _ _)) h
  | addCallee callee => exact huphold (.of_quiet (hP.addCallee callee) (.modify _)) h
  | createInst kind operands hasResult =>
    exact huphold (.discard (.of_quiet (hP.createInst kind operands hasResult) (quiet_createInst ..))) h
  | setOperand i slot v => exact huphold (.of_quiet (hP.setOperand i slot v) (quiet_setOperand i slot v)) h
  | pushOperand i v => exact huphold (.of_quiet (hP.pushOperand i v) (quiet_pushOperand i v)) h
  | removeOperand i slot => exact huphold (.of_quiet (hP.removeOperand i slot) (quiet_removeOperand i slot)) h
  | replaceAllUses old new =>
    match r, hr with
    | .ok (), _ =>
      obtain ⟨count, f₁, hrun, hpure⟩ := bind_eq_ok h
      cases hpure
      exact hreplace hrun
    | .error (.error cause), _ => exact absurd h ((quiet_replaceAllUses old new).bind (fun _ => .pure _) ·)
    | .error (.crash text), hr => exact absurd rfl (hr text)
  | createBlock name => exact huphold (.discard (.of_quiet (hP.createBlock name) (quiet_createBlock name))) h
  | pushBack b i => exact huphold (.of_quiet (hP.pushBack b i) (quiet_pushBack b i)) h
  | insertPhi b i => exact huphold (.of_quiet (hP.insertPhi b i) (quiet_insertPhi b i)) h
  | insertBefore anchor i => exact huphold (.of_quiet (hP.insertBefore anchor i) (quiet_insertBefore anchor i)) h
  | insertAfter anchor i => exact huphold (.of_quiet (hP.insertAfter anchor i) (quiet_insertAfter anchor i)) h
  | removeInst i => exact huphold (.of_reports_eq (hP.removeInst i) fun _ _ _ => removeInst_reports) h
  | removeBlocks doomed => exact hremove h
  | replaceTerminator b kind operands => exact huphold (.discard (hP.replaceTerminator b kind operands)) h
  | redirectTarget i source target =>
    exact huphold (.discard (.of_quiet (hP.redirectTarget i source target) (quiet_redirectTarget ..))) h
  | addPred b pred => exact huphold (.of_quiet (hP.addPred b pred) (quiet_modifyBlock _ _)) h
  | removePredAt b idx => exact huphold (.of_quiet (hP.removePredAt b idx) (quiet_removePredAt b idx)) h

/-- The rules are kept. -/
theorem kept_structured : KeptByEdits Function.Structured where
  internValue := structured_internValue
  setValueName := structured_setValueName
  addCallee := structured_addCallee
  createInst := structured_createInst
  setOperand := structured_setOperand
  pushOperand := structured_pushOperand
  removeOperand := structured_removeOperand
  createBlock := structured_createBlock
  pushBack := structured_pushBack
  insertPhi := structured_insertPhi
  insertBefore := structured_insertBefore
  insertAfter := structured_insertAfter
  removeInst := structured_removeInst
  redirectTarget := structured_redirectTarget
  addPred _ _ _ _ _ hs h := hs.congr_block (addPred_spec h).2.2.1 ⟨rfl, rfl⟩
  removePredAt := structured_removePredAt

/-- Every call leaves the rules in force in a function with an exact index, also a call that reports an
error. -/
theorem structured_call {call : Call} {r : Except Failure Unit} (hs : f.Structured) (hindexed : Indexed f)
    (h : call.edit.run f = (r, f')) (hr : ∀ text, r ≠ .error (.crash text)) : f'.Structured := by
  refine kept_structured.call hs (structured_replaceAllUses hs hindexed) (fun hrun => ?_) h hr
  match r, hr with
  | .ok (), _ => exact (upholds_removeBlocks _).preserves hs hrun
  | .error (.error cause), _ => exact (upholds_removeBlocks _).reports hs hrun
  | .error (.crash text), hr => exact absurd rfl (hr text)

theorem structured_new (name : String) (paramCount : Nat) (returnsValue : Bool) :
    (Function.new name paramCount returnsValue).Structured := by
  have hsound := Function.sound_new name paramCount returnsValue
  refine ⟨⟨hsound.nodup, hsound.placed⟩, fun b => List.Pairwise.nil, ⟨hsound.layout_nodup, hsound.mem_layout⟩, ?_⟩
  intro v w c hv
  rw [Function.value, Array.getD_eq_getD_getElem?] at hv
  by_cases hlt : v < (Function.new name paramCount returnsValue).values.size
  · rw [Array.getElem?_eq_getElem hlt, Option.getD_some] at hv
    simp [Function.new] at hv
  · rw [Array.getElem?_eq_none (Nat.le_of_not_lt hlt)] at hv
    cases hv

/-- The rules hold in every function that calls have made. -/
theorem Reached.structured {f : Function} (h : Reached f) : f.Structured := by
  induction h with
  | new name paramCount returnsValue => exact structured_new name paramCount returnsValue
  | done call hf hrun ih => exact structured_call ih hf.indexed hrun fun _ => nofun
  | failed call hf hrun ih => exact structured_call ih hf.indexed hrun fun _ => nofun

/-- In every state of the editing interface: an instruction is listed at most once, in the block that it names;
a block consists of phis, of other instructions and of at most one terminator, in this order; the layout lists
the blocks that are not removed, each once; and no two values are the same constant. -/
theorem block_structure_of_reached {f : Function} (h : Reached f) :
    ((∀ b, (f.instsOf b).Nodup) ∧ ∀ b i, i ∈ f.instsOf b ↔ f.blockOf? i = some b) ∧
      (∀ b, ∃ phis body ends, f.instsOf b = phis ++ body ++ ends ∧
        (∀ i ∈ phis, (f.kind i).isPhi = true) ∧
        (∀ i ∈ body, (f.kind i).isPhi = false ∧ (f.kind i).isTerminator = false) ∧
        ends.length ≤ 1 ∧ ∀ i ∈ ends, (f.kind i).isTerminator = true) ∧
      (f.layout.Nodup ∧ ∀ b, b ∈ f.layout ↔ b < f.blocks.size ∧ (f.block b).removed = false) ∧
      ∀ v w c, (f.value v).kind = .const c → (f.value w).kind = .const c → v = w := by
  have hs := h.structured
  exact ⟨⟨hs.listed.nodup, hs.listed.placed⟩, hs.ordered.split, ⟨hs.laidOut.nodup, hs.laidOut.mem⟩, hs.interned⟩

/-- A loop that counts its argument up for ever, whose block was filled from its end: the jump came first, the
sum was put before it and the phi before both. -/
def countingUp : Function where
  name := "count"
  returnsValue := false
  params := [0]
  values := #[{ kind := .param 0, uses := [⟨2, 0⟩] }, { kind := .const 1, uses := [⟨1, 1⟩] },
    { kind := .inst 1, uses := [⟨2, 1⟩] }, { kind := .inst 2, uses := [⟨1, 0⟩] }]
  insts := #[
    { kind := .jump 0, operands := [], result := none, block := some 0 },
    { kind := .binary .add, operands := [3, 1], result := some 2, block := some 0 },
    { kind := .phi, operands := [0, 2], result := some 3, block := some 0 }]
  blocks := #[{ name := "loop", insts := [2, 1, 0] }]
  layout := [0]

/-- The rules hold in a block that was filled from its end, by the order in which its instructions stand and not
by the order in which they came. -/
theorem block_structure_of_reached_countingUp : Reached countingUp ∧
    ∃ phis body ends, countingUp.instsOf 0 = phis ++ body ++ ends ∧
      (∀ i ∈ phis, (countingUp.kind i).isPhi = true) ∧
      (∀ i ∈ body, (countingUp.kind i).isPhi = false ∧ (countingUp.kind i).isTerminator = false) ∧
      ends.length ≤ 1 ∧ ∀ i ∈ ends, (countingUp.kind i).isTerminator = true := by
  have hreached : Reached countingUp := by
    have hjump : Reached { countingUp with
        values := #[{ kind := .param 0 }]
        insts := #[{ kind := .jump 0, operands := [], result := none, block := some 0 }]
        blocks := #[{ name := "loop", insts := [0] }] } := by
      have hblock := Reached.done (.createBlock "loop") (.new "count" 1 false) rfl
      exact .done (.pushBack 0 0) (.done (.createInst (.jump 0) [] false) hblock rfl) (by cbv)
    have hone : Reached { countingUp with
        values := #[{ kind := .param 0 }, { kind := .const 1 }]
        insts := #[{ kind := .jump 0, operands := [], result := none, block := some 0 }]
        blocks := #[{ name := "loop", insts := [0] }] } := .done (.constValue 1) hjump (by cbv)
    have hsum : Reached { countingUp with
        values := #[{ kind := .param 0, uses := [⟨1, 0⟩] }, { kind := .const 1, uses := [⟨1, 1⟩] }, { kind := .inst 1 }]
        insts := #[{ kind := .jump 0, operands := [], result := none, block := some 0 },
          { kind := .binary .add, operands := [0, 1], result := some 2, block := some 0 }]
        blocks := #[{ name := "loop", insts := [1, 0] }] } := by
      exact .done (.insertBefore 0 1) (.done (.createInst (.binary .add) [0, 1] true) hone rfl) (by cbv)
    have hphi := Reached.done (.createInst .phi [0, 2] true) hsum rfl
    exact .done (.setOperand 1 0 3) (.done (.insertPhi 0 2) hphi rfl) (by cbv)
  exact ⟨hreached, (block_structure_of_reached hreached).2.1 0⟩

end Edit

end SsaCompiler
