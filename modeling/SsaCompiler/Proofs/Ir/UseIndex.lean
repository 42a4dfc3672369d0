import SsaCompiler.Ir.Edit
import SsaCompiler.Proofs.Edits
import SsaCompiler.Proofs.Ir.Strictness
import Mathlib.Data.List.Nodup
import Mathlib.Data.List.Perm.Basic

/-!
# The use index

Editing an operand changes the operand table and the use index in several small steps. In between, the
index belongs to a table of slots that the function does not have yet or not any more, so `IndexedBy`
says of any table that the index of a function lists exactly its slots, each once. `Becomes` says what
a function looks like apart from its use index.
-/

set_option autoImplicit false

namespace SsaCompiler

variable {b : BlockId} {i : InstId} {v : ValueId}

variable {β : Type}

namespace Function

/-- The use index lists exactly the slots of a table, each once. -/
def IndexedBy (f : Function) (table : Use → Option ValueId) : Prop :=
  ∀ v u, (f.uses v).count u = if table u = some v then 1 else 0

theorem IndexedBy.congr {f : Function} {table table' : Use → Option ValueId} (h : f.IndexedBy table)
    (heq : ∀ u, table' u = table u) : f.IndexedBy table' := by
  intro v u
  rw [heq]
  exact h v u

/-- A field of a table of records that one new record keeps. -/
theorem proj_update {γ : Type} {p : β → γ} {table : Nat → β} {k : Nat} {new : β} (h : p new = p (table k)) (j : Nat) :
    p (Function.update table k new j) = p (table j) := by
  rw [Function.update_apply]
  split
  · rename_i hj
    rw [h, hj]
  · rfl

/-- A function has become another one with these instructions, blocks and layout. Values stay what they
are, but for the slots that read them. -/
structure Becomes (f f' : Function) (inst : InstId → InstData) (block : BlockId → BlockData)
    (layout : List BlockId) : Prop where
  inst : ∀ i, f'.inst i = inst i
  block : ∀ b, f'.block b = block b
  layout : f'.layout = layout
  blocks_size : f'.blocks.size = f.blocks.size
  values_size : f'.values.size = f.values.size
  kinds : ∀ v, (f'.value v).kind = (f.value v).kind

/-- Only the use index has changed. -/
abbrev SameGraph (f f' : Function) : Prop := f.Becomes f' f.inst f.block f.layout

namespace Becomes

variable {f f' f'' : Function} {inst inst' : InstId → InstData} {block block' : BlockId → BlockData}
  {layout layout' : List BlockId}

theorem refl (f : Function) : f.SameGraph f :=
  ⟨fun _ => rfl, fun _ => rfl, rfl, rfl, rfl, fun _ => rfl⟩

theorem trans (h : f.Becomes f' inst block layout) (h' : f'.Becomes f'' inst' block' layout') :
    f.Becomes f'' inst' block' layout' :=
  ⟨h'.inst, h'.block, h'.layout, h'.blocks_size.trans h.blocks_size, h'.values_size.trans h.values_size,
    fun v => (h'.kinds v).trans (h.kinds v)⟩

/-- One change of the records after another, told as one change. -/
theorem next {inst'' : InstId → InstData} {block'' : BlockId → BlockData} (h : f.Becomes f' inst block layout)
    (h' : f'.Becomes f'' inst' block' f'.layout) (hinst : ∀ i, inst' i = inst'' i) (hblock : ∀ b, block' b = block'' b) :
    f.Becomes f'' inst'' block'' layout :=
  h.trans ⟨fun i => (h'.inst i).trans (hinst i), fun b => (h'.block b).trans (hblock b), h'.layout.trans h.layout,
    h'.blocks_size, h'.values_size, h'.kinds⟩

/-- A change of the use index after another change. -/
theorem trans_same (h : f.Becomes f' inst block layout) (h' : f'.SameGraph f'') : f.Becomes f'' inst block layout :=
  h.next h' h.inst h.block

end Becomes

section Records

variable {f : Function}

/-- The record of a value after a change. -/
theorem value_modify (hv : v < f.values.size) (change : ValueData → ValueData) (u : ValueId) :
    Function.value { f with values := f.values.modify v change } u =
      if u = v then change (f.value v) else f.value u := by
  unfold Function.value
  rw [Array.getD_eq_getD_getElem?, Array.getElem?_modify, Array.getD_eq_getD_getElem?]
  by_cases huv : u = v
  · subst huv
    simp [hv, Array.getD_eq_getD_getElem?]
  · simp [huv, Ne.symm huv]

/-- The record of an instruction after a change. -/
theorem inst_modify (hi : i < f.insts.size) (change : InstData → InstData) (j : InstId) :
    Function.inst { f with insts := f.insts.modify i change } j =
      Function.update f.inst i (change (f.inst i)) j := by
  unfold Function.inst
  rw [Array.getD_eq_getD_getElem?, Array.getElem?_modify, Function.update_apply]
  by_cases hji : j = i
  · subst hji
    simp [hi, Array.getD_eq_getD_getElem?]
  · simp [hji, Ne.symm hji, Array.getD_eq_getD_getElem?]

/-- The record of a block after a change. -/
theorem block_modify (hb : b < f.blocks.size) (change : BlockData → BlockData) (c : BlockId) :
    Function.block { f with blocks := f.blocks.modify b change } c =
      Function.update f.block b (change (f.block b)) c := by
  unfold Function.block
  rw [Array.getD_eq_getD_getElem?, Array.getElem?_modify, Function.update_apply]
  by_cases hcb : c = b
  · subst hcb
    simp [hb, Array.getD_eq_getD_getElem?]
  · simp [hcb, Ne.symm hcb, Array.getD_eq_getD_getElem?]

end Records

end Function

namespace Edit

open Edits

variable {f f' : Function}

/-- Changing a value that exists. -/
theorem modifyValue_eq_ok {change : ValueData → ValueData} (h : (modifyValue v change).run f = (.ok (), f')) :
    v < f.values.size ∧ f' = { f with values := f.values.modify v change } := by
  unfold modifyValue at h
  have h₁ := of_get_bind h
  split at h₁
  · rename_i hv
    cases h₁
    exact ⟨hv, rfl⟩
  · cases h₁

variable {change : InstData → InstData} {u : Use} {new : ValueId}

/-- Changing an instruction that exists. -/
theorem modifyInst_eq_ok (h : (modifyInst i change).run f = (.ok (), f')) :
    i < f.insts.size ∧ f' = { f with insts := f.insts.modify i change } := by
  unfold modifyInst at h
  have h₁ := of_get_bind h
  split at h₁
  · rename_i hi
    cases h₁
    exact ⟨hi, rfl⟩
  · cases h₁

/-- Changing a block that exists. -/
theorem modifyBlock_eq_ok {change : BlockData → BlockData} (h : (modifyBlock b change).run f = (.ok (), f')) :
    b < f.blocks.size ∧ f' = { f with blocks := f.blocks.modify b change } := by
  unfold modifyBlock at h
  have h₁ := of_get_bind h
  split at h₁
  · rename_i hb
    cases h₁
    exact ⟨hb, rfl⟩
  · cases h₁

variable {l : List ValueId} {slot : Nat} {α : Type}

/-- Asking leaves the function alone. -/
theorem run_ask (question : Function → Outcome α) (f : Function) : (ask question).run f = (question f, f) := by
  have hget : (get : Edit Function).run f = (.ok f, f) := rfl
  rw [ask, run_bind, hget]
  dsimp only
  cases question f <;> rfl

/-- An edit that asks a question first, when the answer is known. -/
theorem run_ask_bind (question : Function → Outcome α) {a : α} (h : question f = .ok a) (next : α → Edit β) :
    (ask question >>= next).run f = (next a).run f := by
  rw [run_bind, run_ask, h]

variable {question : Function → Outcome α}

/-- A question leaves the function as it is. -/
theorem ask_eq_ok {a : α} (h : (ask question).run f = (.ok a, f')) : question f = .ok a ∧ f = f' := by
  rw [run_ask] at h
  exact Prod.mk.inj h

/-- The answer to a question, and what is done with it. -/
theorem ask_bind_eq_ok {next : α → Edit β} {b : β} (h : (ask question >>= next).run f = (.ok b, f')) :
    ∃ a, question f = .ok a ∧ (next a).run f = (.ok b, f') := by
  obtain ⟨a, f₁, hask, hrest⟩ := bind_eq_ok h
  obtain ⟨ha, rfl⟩ := ask_eq_ok hask
  exact ⟨a, ha, hrest⟩

/-! ## Single entries of the index -/

/-- A change of the slots that read one value. -/
theorem modifyUses_spec (change : List Use → List Use) {edit : ValueData → ValueData}
    (h : (modifyValue v edit).run f = (.ok (), f'))
    (hedit : ∀ d, (edit d).kind = d.kind ∧ (edit d).uses = change d.uses) :
    v < f.values.size ∧ f.SameGraph f' ∧ f'.insts.size = f.insts.size ∧
      ∀ w, f'.uses w = if w = v then change (f.uses v) else f.uses w := by
  obtain ⟨hv, rfl⟩ := modifyValue_eq_ok h
  refine ⟨hv, ⟨fun _ => rfl, fun _ => rfl, rfl, rfl, Array.size_modify .., fun w => ?_⟩, rfl, fun w => ?_⟩
  · rw [Function.value_modify hv]
    split
    · rename_i hw
      rw [hw]
      exact (hedit _).1
    · rfl
  · unfold Function.uses
    rw [Function.value_modify hv]
    split
    · exact (hedit _).2
    · rfl

/-- Entering a slot that is free. -/
theorem addUse_spec (h : (addUse v u).run f = (.ok (), f')) :
    v < f.values.size ∧ f.SameGraph f' ∧ f'.insts.size = f.insts.size ∧
      ∀ table, f.IndexedBy table → table u = none →
        f'.IndexedBy (Function.update table u (some v)) := by
  obtain ⟨hv, hsame, hsize, huses⟩ := modifyUses_spec (· ++ [u]) h fun d => ⟨rfl, rfl⟩
  refine ⟨hv, hsame, hsize, fun table htable hfree w x => ?_⟩
  have hold := htable w x
  rw [huses, Function.update_apply]
  by_cases hwv : w = v
  · subst hwv
    rw [if_pos rfl, List.count_append, hold, List.count_singleton]
    by_cases hxu : x = u
    · subst hxu
      simp [hfree]
    · simp [hxu, Ne.symm hxu]
  · rw [if_neg hwv, hold]
    by_cases hxu : x = u
    · subst hxu
      simp [hfree, Ne.symm hwv]
    · simp [hxu]

/-- Taking an element out by exchange takes it out. -/
theorem swapRemove_perm {l : List α} {i : Nat} (h : i < l.length) : (swapRemove l i).Perm (l.eraseIdx i) := by
  obtain ⟨init, last, rfl⟩ : ∃ init last, l = init ++ [last] := by
    rcases List.eq_nil_or_concat l with rfl | ⟨init, last, rfl⟩
    · cases h
    · exact ⟨init, last, by rw [List.concat_eq_append]⟩
  rw [List.length_append, List.length_singleton] at h
  unfold swapRemove
  rw [List.getLast?_append, List.getLast?_singleton]
  dsimp only [Option.some_or]
  rw [List.length_append, List.length_singleton]
  split
  · rename_i hi
    obtain rfl : i = init.length := by omega
    rw [List.dropLast_concat, List.eraseIdx_append_of_length_le (Nat.le_refl _), Nat.sub_self,
      List.eraseIdx_zero, List.tail_cons, List.append_nil]
  · rename_i hi
    have hlt : i < init.length := by omega
    rw [List.set_append_left _ _ hlt, List.dropLast_concat, List.eraseIdx_append_of_lt_length hlt]
    refine (List.set_perm_cons_eraseIdx hlt last).trans ?_
    exact (List.perm_append_singleton last _).symm

/-- Striking a slot, which must be an entry. -/
theorem removeUse_spec (h : (removeUse v u).run f = (.ok (), f')) : f.SameGraph f' ∧ f'.insts.size = f.insts.size ∧
      ∀ table, f.IndexedBy table → table u = some v ∧ f'.IndexedBy (Function.update table u none) := by
  unfold removeUse at h
  have h₁ := of_get_bind h
  split at h₁
  · rename_i i hi
    obtain ⟨hlt, hu, -⟩ := List.idxOf?_eq_some_iff.1 hi
    obtain ⟨-, hsame, hsize, huses⟩ := modifyUses_spec (swapRemove · i) h₁ fun d => ⟨rfl, rfl⟩
    refine ⟨hsame, hsize, fun table htable => ?_⟩
    have hmem : 0 < (f.uses v).count u := List.count_pos_iff.2 (hu ▸ List.getElem_mem hlt)
    have htu : table u = some v := by
      by_contra hne
      rw [htable v u, if_neg hne] at hmem
      exact Nat.lt_irrefl 0 hmem
    refine ⟨htu, fun w x => ?_⟩
    have hold := htable w x
    rw [huses, Function.update_apply]
    by_cases hwv : w = v
    · subst hwv
      rw [if_pos rfl, (swapRemove_perm hlt).count_eq]
      have herase := (List.getElem_cons_eraseIdx_perm hlt).count_eq x
      rw [hu, List.count_cons, hold] at herase
      by_cases hxu : x = u
      · subst hxu
        simpa [htu] using herase
      · simpa [hxu, Ne.symm hxu] using herase
    · rw [if_neg hwv, hold]
      by_cases hxu : x = u
      · subst hxu
        simp [htu, Ne.symm hwv]
      · simp [hxu]
  · obtain ⟨g, f₂, -, h₂⟩ := bind_eq_ok h₁
    cases h₂

/-- Moving an entry down to a free slot. -/
theorem lowerUse_spec (hslot : 0 < slot) (h : (lowerUse v i slot).run f = (.ok (), f')) :
    f.SameGraph f' ∧ f'.insts.size = f.insts.size ∧
      ∀ table, f.IndexedBy table → table ⟨i, slot⟩ = some v → table ⟨i, slot - 1⟩ = none →
        f'.IndexedBy (Function.update (Function.update table ⟨i, slot⟩ none) ⟨i, slot - 1⟩ (some v)) := by
  obtain ⟨-, hsame, hsize, huses⟩ := modifyUses_spec
    (fun l => (l.idxOf? ⟨i, slot⟩).elim l fun k => l.set k ⟨i, slot - 1⟩) h (by
      intro d
      cases d.uses.idxOf? ⟨i, slot⟩ with
      | some k => exact ⟨rfl, rfl⟩
      | none => exact ⟨rfl, rfl⟩)
  refine ⟨hsame, hsize, fun table htable hat hfree w x => ?_⟩
  have hne : (⟨i, slot⟩ : Use) ≠ ⟨i, slot - 1⟩ := by
    intro heq
    have hslots := congrArg Use.slot heq
    dsimp only at hslots
    omega
  have hmem : (⟨i, slot⟩ : Use) ∈ f.uses v := by
    rw [← List.count_pos_iff, htable, if_pos hat]
    exact Nat.one_pos
  obtain ⟨k, hk⟩ := Option.isSome_iff_exists.1 (List.isSome_idxOf?.2 hmem)
  obtain ⟨hlt, hu, -⟩ := List.idxOf?_eq_some_iff.1 hk
  have hold := htable w x
  rw [huses, Function.update_apply, Function.update_apply]
  by_cases hwv : w = v
  · subst hwv
    rw [if_pos rfl, hk, Option.elim_some, List.count_set hlt, hu, hold]
    by_cases hx : x = ⟨i, slot⟩
    · subst hx
      simp [hat, hne, Ne.symm hne]
    · by_cases hx' : x = ⟨i, slot - 1⟩
      · subst hx'
        simp [hfree, hne]
      · simp [hx, hx', Ne.symm hx, Ne.symm hx']
  · rw [if_neg hwv, hold]
    by_cases hx : x = ⟨i, slot⟩
    · subst hx
      simp [hat, hne, Ne.symm hwv]
    · by_cases hx' : x = ⟨i, slot - 1⟩
      · subst hx'
        simp [hfree, Ne.symm hwv]
      · simp [hx, hx']

/-! ## The slots of an instruction -/

/-- A table whose slots of an instruction from one on read a list. -/
def written (i : InstId) (slot : Nat) (l : List ValueId) (table : Use → Option ValueId) (u : Use) : Option ValueId :=
  if u.user = i ∧ slot ≤ u.slot then l[u.slot - slot]? else table u

/-- The first slot can be written ahead of the others. -/
theorem written_cons {table table' : Use → Option ValueId} (hat : table' ⟨i, slot⟩ = some v)
    (hother : ∀ u, ¬(u.user = i ∧ slot ≤ u.slot) → table' u = table u) (u : Use) :
    written i (slot + 1) l table' u = written i slot (v :: l) table u := by
  obtain ⟨user, s⟩ := u
  by_cases hin : user = i ∧ slot ≤ s
  · obtain ⟨rfl, hs⟩ := hin
    refine Eq.trans ?_ (if_pos ⟨rfl, hs⟩).symm
    obtain ⟨k, rfl⟩ := Nat.exists_eq_add_of_le hs
    cases k with
    | zero => exact (if_neg fun h => Nat.not_succ_le_self _ h.2).trans (by rw [Nat.add_zero, hat, Nat.sub_self]; rfl)
    | succ k =>
      refine (if_pos ⟨rfl, Nat.succ_le_succ (Nat.le_add_right slot k)⟩).trans ?_
      rw [Nat.add_sub_cancel_left, List.getElem?_cons_succ, show slot + (k + 1) - (slot + 1) = k by omega]
  · exact (if_neg fun h => hin ⟨h.1, Nat.le_of_succ_le h.2⟩).trans ((hother _ hin).trans (if_neg hin).symm)

/-- Entering the slots of an operand list. -/
theorem addUses_spec : ∀ {slot : Nat} {f f' : Function}, (addUses i slot l).run f = (.ok (), f') →
      f.SameGraph f' ∧ f'.insts.size = f.insts.size ∧
        ∀ table, f.IndexedBy table → (∀ s, slot ≤ s → table ⟨i, s⟩ = none) → f'.IndexedBy (written i slot l table) := by
  induction l with
  | nil =>
    intro slot f f' h
    cases h
    refine ⟨.refl f, rfl, fun table htable hfree => htable.congr fun u => ?_⟩
    unfold written
    split
    · rename_i hu
      obtain ⟨user, s⟩ := u
      obtain ⟨rfl, hs⟩ := hu
      exact (hfree s hs).symm
    · rfl
  | cons v rest ih =>
    intro slot f f' h
    obtain ⟨⟨⟩, f₁, hfirst, hrest⟩ := bind_eq_ok h
    obtain ⟨-, hsame, hsize, hadd⟩ := addUse_spec hfirst
    obtain ⟨hsame', hsize', hmore⟩ := ih hrest
    refine ⟨hsame.trans_same hsame', hsize'.trans hsize, fun table htable hfree => ?_⟩
    have hnext := hmore _ (hadd table htable (hfree slot (Nat.le_refl _))) fun s hs => by
      rw [Function.update_of_ne (by simp; omega)]
      exact hfree s (by omega)
    refine hnext.congr fun u => (written_cons (Function.update_self ..) (fun u hu => ?_) u).symm
    exact Function.update_of_ne (by rintro rfl; exact hu ⟨rfl, Nat.le_refl _⟩) _ _

/-- Striking the slots of an operand list. -/
theorem removeUses_spec : ∀ {slot : Nat} {f f' : Function}, (removeUses i slot l).run f = (.ok (), f') →
      f.SameGraph f' ∧ f'.insts.size = f.insts.size ∧
        ∀ table, f.IndexedBy table → f'.IndexedBy fun u =>
          if u.user = i ∧ slot ≤ u.slot ∧ u.slot < slot + l.length then none else table u := by
  induction l with
  | nil =>
    intro slot f f' h
    cases h
    refine ⟨.refl f, rfl, fun table htable => htable.congr fun u => if_neg ?_⟩
    rw [List.length_nil]
    omega
  | cons v rest ih =>
    intro slot f f' h
    obtain ⟨⟨⟩, f₁, hfirst, hrest⟩ := bind_eq_ok h
    obtain ⟨hsame, hsize, hremove⟩ := removeUse_spec hfirst
    obtain ⟨hsame', hsize', hmore⟩ := ih hrest
    refine ⟨hsame.trans_same hsame', hsize'.trans hsize, fun table htable => ?_⟩
    refine (hmore _ (hremove table htable).2).congr fun u => ?_
    obtain ⟨user, s⟩ := u
    dsimp only
    rw [List.length_cons]
    by_cases huser : user = i
    · subst huser
      rcases Nat.lt_trichotomy s slot with hs | rfl | hs
      · rw [if_neg (by omega), if_neg (by omega), Function.update_of_ne (by simp; omega)]
      · rw [if_pos ⟨rfl, by omega, by omega⟩, if_neg (by omega), Function.update_self]
      · by_cases hlast : s < slot + 1 + rest.length
        · rw [if_pos ⟨rfl, by omega, by omega⟩, if_pos ⟨rfl, by omega, by omega⟩]
        · rw [if_neg (by omega), if_neg (by omega), Function.update_of_ne (by simp; omega)]
    · rw [if_neg (by simp [huser]), if_neg (by simp [huser]), Function.update_of_ne (by simp [huser])]

/-- Moving the slots of an operand list down. -/
theorem lowerUses_spec : ∀ {slot : Nat} {f f' : Function}, (lowerUses i (slot + 1) l).run f = (.ok (), f') →
      f.SameGraph f' ∧ f'.insts.size = f.insts.size ∧
        ∀ table, f.IndexedBy table → table ⟨i, slot⟩ = none → (∀ k, table ⟨i, slot + 1 + k⟩ = l[k]?) →
          f'.IndexedBy (written i slot l table) := by
  induction l with
  | nil =>
    intro slot f f' h
    cases h
    refine ⟨.refl f, rfl, fun table htable hfree hat => htable.congr fun u => ?_⟩
    unfold written
    split
    · rename_i hu
      obtain ⟨user, s⟩ := u
      obtain ⟨rfl, hs⟩ := hu
      rcases Nat.eq_or_lt_of_le hs with rfl | hlt
      · exact hfree.symm
      · obtain ⟨k, rfl⟩ := Nat.exists_eq_add_of_le hlt
        exact (hat k).symm
    · rfl
  | cons v rest ih =>
    intro slot f f' h
    obtain ⟨⟨⟩, f₁, hfirst, hrest⟩ := bind_eq_ok h
    obtain ⟨hsame, hsize, hlower⟩ := lowerUse_spec (Nat.succ_pos slot) hfirst
    obtain ⟨hsame', hsize', hmore⟩ := ih hrest
    refine ⟨hsame.trans_same hsame', hsize'.trans hsize, fun table htable hfree hat => ?_⟩
    have hnext := hmore _ (hlower table htable (hat 0) hfree) (by
      rw [Nat.succ_sub_one, Function.update_of_ne (by simp), Function.update_self]) fun k => by
      rw [Function.update_of_ne (by simp; omega), Function.update_of_ne (by simp; omega),
        Nat.add_assoc (slot + 1), Nat.add_comm 1 k, hat (k + 1), List.getElem?_cons_succ]
    refine hnext.congr fun u => (written_cons (Function.update_self ..) (fun u hu => ?_) u).symm
    rw [Function.update_of_ne (by rintro rfl; exact hu ⟨rfl, Nat.le_refl _⟩),
      Function.update_of_ne (by rintro rfl; exact hu ⟨rfl, Nat.le_succ _⟩)]

/-! ## Operands -/

/-- The entries of the operand table of a function with other instructions. -/
theorem reads_eq {inst : InstId → InstData} {block : BlockId → BlockData} {layout : List BlockId}
    (h : f.Becomes f' inst block layout) (u : Use) : f'.reads u = (inst u.user).operands[u.slot]? := by
  unfold Function.reads Function.operands
  rw [h.inst]

/-- A change of one instruction. -/
theorem modifyInst_spec (h : (modifyInst i change).run f = (.ok (), f')) :
    i < f.insts.size ∧ f'.insts.size = f.insts.size ∧
      f.Becomes f' (Function.update f.inst i (change (f.inst i))) f.block f.layout ∧
      ∀ v, f'.uses v = f.uses v := by
  obtain ⟨hi, rfl⟩ := modifyInst_eq_ok h
  exact ⟨hi, Array.size_modify .., ⟨Function.inst_modify hi change, fun _ => rfl, rfl, rfl, rfl, fun _ => rfl⟩,
    fun _ => rfl⟩

/-- A change of one block. -/
theorem modifyBlock_spec {change : BlockData → BlockData} (h : (modifyBlock b change).run f = (.ok (), f')) :
    b < f.blocks.size ∧ f'.insts.size = f.insts.size ∧
      f.Becomes f' f.inst (Function.update f.block b (change (f.block b))) f.layout ∧
      ∀ v, f'.uses v = f.uses v := by
  obtain ⟨hb, rfl⟩ := modifyBlock_eq_ok h
  exact ⟨hb, rfl, ⟨fun _ => rfl, Function.block_modify hb change, rfl, Array.size_modify .., rfl,
    fun _ => rfl⟩, fun _ => rfl⟩

/-- Taking all operands from an instruction. -/
theorem detachOperands_spec (h : (detachOperands i).run f = (.ok (), f')) :
    i < f.insts.size ∧ f'.insts.size = f.insts.size ∧
      f.Becomes f' (Function.update f.inst i { f.inst i with operands := [] }) f.block f.layout ∧
      (f.IndexedBy f.reads → f'.IndexedBy f'.reads) := by
  unfold detachOperands at h
  have h₁ := of_get_bind h
  obtain ⟨⟨⟩, f₂, hmodify, h₂⟩ := bind_eq_ok h₁
  obtain ⟨hi, hsize, hbecomes, huses⟩ := modifyInst_spec hmodify
  obtain ⟨hsame, hsize', hremove⟩ := removeUses_spec h₂
  have hall := hbecomes.trans_same hsame
  refine ⟨hi, hsize'.trans hsize, hall, fun hindexed => ?_⟩
  have hmiddle : f₂.IndexedBy f.reads := fun v u => by rw [huses]; exact hindexed v u
  refine (hremove _ hmiddle).congr fun u => ?_
  rw [reads_eq hall]
  obtain ⟨user, slot⟩ := u
  dsimp only
  by_cases huser : user = i
  · subst huser
    rw [Function.update_self]
    split
    · rfl
    · rename_i hlast
      exact (List.getElem?_eq_none (by
        unfold Function.operands at hlast
        simp only [true_and, Nat.zero_le, Nat.zero_add, Nat.not_lt] at hlast
        exact hlast)).symm
  · rw [Function.update_of_ne huser, if_neg (by simp [huser])]
    rfl

/-- Adding a slot at the end. -/
theorem pushOperand_spec (h : (pushOperand i v).run f = (.ok (), f')) :
    i < f.insts.size ∧ v < f.values.size ∧ f'.insts.size = f.insts.size ∧
      f.Becomes f' (Function.update f.inst i { f.inst i with operands := f.operands i ++ [v] }) f.block
        f.layout ∧ (f.IndexedBy f.reads → f'.IndexedBy f'.reads) := by
  unfold pushOperand at h
  have h₁ := of_get_bind h
  obtain ⟨⟨⟩, f₂, hmodify, h₂⟩ := bind_eq_ok h₁
  obtain ⟨hi, hsize, hbecomes, huses⟩ := modifyInst_spec hmodify
  obtain ⟨hv, hsame, hsize', hadd⟩ := addUse_spec h₂
  have hall := hbecomes.trans_same hsame
  rw [hbecomes.values_size] at hv
  refine ⟨hi, hv, hsize'.trans hsize, hall, fun hindexed => ?_⟩
  have hmiddle : f₂.IndexedBy f.reads := fun w u => by rw [huses]; exact hindexed w u
  refine (hadd _ hmiddle (List.getElem?_eq_none (Nat.le_refl _))).congr fun u => ?_
  rw [reads_eq hall]
  obtain ⟨user, slot⟩ := u
  dsimp only
  by_cases huser : user = i
  · subst huser
    rw [Function.update_self]
    change (f.operands user ++ [v])[slot]? = _
    by_cases hslot : slot = (f.operands user).length
    · subst hslot
      rw [Function.update_self, List.getElem?_concat_length]
    · rw [Function.update_of_ne (by simp [hslot])]
      change _ = (f.operands user)[slot]?
      rcases Nat.lt_or_gt_of_ne hslot with hlt | hgt
      · rw [List.getElem?_append_left hlt]
      · rw [List.getElem?_eq_none (by simp; omega), List.getElem?_eq_none (by omega)]
  · rw [Function.update_of_ne huser, Function.update_of_ne (by simp [huser])]
    rfl

/-- The operand in a slot. -/
theorem operand_eq_ok (h : f.operand i slot = .ok v) : (f.operands i)[slot]? = some v := by
  unfold Function.operand Outcome.ofOption at h
  split at h
  · rename_i w hw
    cases h
    exact hw
  · cases h

/-- Removing a slot. -/
theorem removeOperand_spec (h : (removeOperand i slot).run f = (.ok (), f')) :
    i < f.insts.size ∧ slot < (f.operands i).length ∧ f'.insts.size = f.insts.size ∧
      f.Becomes f' (Function.update f.inst i { f.inst i with operands := (f.operands i).eraseIdx slot })
        f.block f.layout ∧ (f.IndexedBy f.reads → f'.IndexedBy f'.reads) := by
  unfold removeOperand at h
  obtain ⟨old, hold, h₁⟩ := ask_bind_eq_ok h
  obtain ⟨⟨⟩, f₂, hremove, h₂⟩ := bind_eq_ok h₁
  have h₃ := of_get_bind h₂
  obtain ⟨⟨⟩, f₄, hlower, h₄⟩ := bind_eq_ok h₃
  have hslot : (f.operands i)[slot]? = some old := operand_eq_ok hold
  obtain ⟨hsame, hsize, hstrike⟩ := removeUse_spec hremove
  obtain ⟨hsame', hsize', hdown⟩ := lowerUses_spec hlower
  obtain ⟨hi, hsize'', hbecomes, huses⟩ := modifyInst_spec h₄
  have hsame₂ := hsame.trans_same hsame'
  have hops : f₂.operands i = f.operands i := by
    unfold Function.operands
    rw [hsame.inst]
  have hall : f.Becomes f' (Function.update f.inst i { f.inst i with
      operands := (f.operands i).eraseIdx slot }) f.block f.layout := by
    refine hsame₂.trans ⟨fun j => ?_, fun b => (hbecomes.block b).trans (hsame₂.block b),
      hbecomes.layout.trans hsame₂.layout, hbecomes.blocks_size, hbecomes.values_size, hbecomes.kinds⟩
    rw [hbecomes.inst j]
    by_cases hj : j = i
    · subst hj
      rw [Function.update_self, Function.update_self, hsame₂.inst]
      rfl
    · rw [Function.update_of_ne hj, Function.update_of_ne hj, hsame₂.inst]
  refine ⟨(hsize'.trans hsize) ▸ hi, (List.getElem?_eq_some_iff.1 hslot).1,
    hsize''.trans (hsize'.trans hsize), hall, fun hindexed => ?_⟩
  have hmiddle := hdown _ (hstrike f.reads hindexed).2 (Function.update_self ..) fun k => by
    rw [Function.update_of_ne (by simp; omega), hops, List.getElem?_drop]
    rfl
  have hlast : f'.IndexedBy _ := fun v u => by rw [huses]; exact hmiddle v u
  refine hlast.congr fun u => ?_
  rw [reads_eq hall]
  obtain ⟨user, s⟩ := u
  unfold written
  dsimp only
  by_cases huser : user = i
  · subst huser
    rw [Function.update_self]
    dsimp only
    rw [List.getElem?_eraseIdx]
    by_cases hs : s < slot
    · rw [if_pos hs, if_neg (by omega), Function.update_of_ne (by simp; omega)]
      rfl
    · rw [if_neg hs, if_pos ⟨rfl, Nat.le_of_not_lt hs⟩, hops, List.getElem?_drop]
      congr 1
      omega
  · rw [Function.update_of_ne huser, if_neg (by simp [huser]), Function.update_of_ne (by simp [huser])]
    rfl

/-- Writing one value into a list of slots. -/
theorem forM_setSlot_spec {moved : List Use} (hnodup : moved.Nodup) {f f' : Function}
    (h : (moved.forM fun u => modifyInst u.user fun d =>
      { d with operands := d.operands.set u.slot new }).run f = (.ok (), f')) :
    f.Becomes f' f'.inst f.block f.layout ∧ f'.insts.size = f.insts.size ∧ (∀ v, f'.uses v = f.uses v) ∧
      ∀ i, f'.inst i = { f.inst i with operands := f'.operands i } ∧ ∀ s : Nat, (f'.operands i)[s]? =
        if (⟨i, s⟩ : Use) ∈ moved then (f.operands i)[s]?.map fun _ => new else (f.operands i)[s]? := by
  -- What holds when the slots in `rest` are still to be written.
  let P := fun (rest : List Use) (g : Function) =>
    f.Becomes g g.inst f.block f.layout ∧ g.insts.size = f.insts.size ∧ (∀ v, g.uses v = f.uses v) ∧
      ∀ i, g.inst i = { f.inst i with operands := g.operands i } ∧ ∀ s : Nat, (g.operands i)[s]? =
        if (⟨i, s⟩ : Use) ∈ moved ∧ (⟨i, s⟩ : Use) ∉ rest then (f.operands i)[s]?.map fun _ => new
        else (f.operands i)[s]?
  have hstart : P moved f := by
    refine ⟨.refl f, rfl, fun _ => rfl, fun i => ⟨rfl, fun s => ?_⟩⟩
    rw [if_neg fun hin => hin.2 hin.1]
  have hend : P [] f' := by
    refine forM_keeps (P := P) ?_ hstart h
    rintro u rest g g' hsuffix ⟨hbecomes, hsize, huses, hinsts⟩ hrun
    obtain ⟨hu, hsize', hbecomes', huses'⟩ := modifyInst_spec hrun
    have hmem : u ∈ moved := hsuffix.subset List.mem_cons_self
    have hnot : u ∉ rest := (List.nodup_cons.1 (hnodup.sublist hsuffix.sublist)).1
    refine ⟨hbecomes.next hbecomes' (fun i => (hbecomes'.inst i).symm) hbecomes.block, hsize'.trans hsize,
      fun v => (huses' v).trans (huses v), fun i => ?_⟩
    obtain ⟨hinst, hslots⟩ := hinsts i
    by_cases hi : i = u.user
    · have hnew : g'.inst i = { g.inst i with operands := (g.operands i).set u.slot new } := by
        rw [hbecomes'.inst, hi, Function.update_self]
        rfl
      have hops : g'.operands i = (g.operands i).set u.slot new := congrArg InstData.operands hnew
      refine ⟨by rw [hnew, hops, hinst], fun s => ?_⟩
      rw [hops, List.getElem?_set]
      by_cases hs : u.slot = s
      · have huse : (⟨i, s⟩ : Use) = u := by rw [hi, ← hs]
        rw [if_pos hs, huse, ← hs]
        have hbefore := hslots u.slot
        rw [show (⟨i, u.slot⟩ : Use) = u by rw [hi], if_neg fun hin => hin.2 List.mem_cons_self] at hbefore
        by_cases hlt : u.slot < (g.operands i).length
        · rw [if_pos hlt, if_pos ⟨hmem, hnot⟩]
          rw [List.getElem?_eq_getElem hlt] at hbefore
          rw [← hbefore]
          rfl
        · rw [if_neg hlt, if_pos ⟨hmem, hnot⟩]
          rw [List.getElem?_eq_none (Nat.le_of_not_lt hlt)] at hbefore
          rw [← hbefore]
          rfl
      · rw [if_neg hs, hslots s]
        have hne : (⟨i, s⟩ : Use) ≠ u := fun heq => hs (by rw [← heq])
        simp [hne]
    · have hnew : g'.inst i = g.inst i := by rw [hbecomes'.inst, Function.update_of_ne hi]
      have hops : g'.operands i = g.operands i := congrArg InstData.operands hnew
      refine ⟨by rw [hnew, hops, hinst], fun s => ?_⟩
      have hne : (⟨i, s⟩ : Use) ≠ u := fun heq => hi (by rw [← heq])
      rw [hops, hslots s]
      simp [hne]
  obtain ⟨hbecomes, hsize, huses, hinsts⟩ := hend
  refine ⟨hbecomes, hsize, huses, fun i => ⟨(hinsts i).1, fun s => ?_⟩⟩
  rw [(hinsts i).2 s]
  simp

/-- One value in the place of another one. -/
def substituted (old new v : ValueId) : ValueId := if v = old then new else v

/-- Making every slot that reads one value read another one. -/
theorem replaceAllUses_spec {old : ValueId} {count : Nat} (hne : old ≠ new) (hindexed : f.IndexedBy f.reads)
    (h : (replaceAllUses old new).run f = (.ok count, f')) : new < f.values.size ∧ f'.insts.size = f.insts.size ∧
      f.Becomes f' (fun i => { f.inst i with operands := (f.operands i).map (substituted old new) })
        f.block f.layout ∧ f'.IndexedBy f'.reads := by
  unfold replaceAllUses at h
  rw [if_neg hne] at h
  have h₁ := of_get_bind h
  obtain ⟨⟨⟩, f₂, hclear, h₂⟩ := bind_eq_ok h₁
  obtain ⟨⟨⟩, f₃, hset, h₃⟩ := bind_eq_ok h₂
  obtain ⟨⟨⟩, f₄, hmove, h₄⟩ := bind_eq_ok h₃
  cases h₄
  have hmoved : ∀ u, u ∈ f.uses old ↔ f.reads u = some old := by
    intro u
    rw [← List.count_pos_iff, hindexed]
    split
    · rename_i hu
      exact ⟨fun _ => hu, fun _ => Nat.one_pos⟩
    · rename_i hu
      exact ⟨fun hin => absurd hin (Nat.lt_irrefl 0), fun hin => absurd hin hu⟩
  have hnodup : (f.uses old).Nodup := by
    rw [List.nodup_iff_count_le_one]
    intro u
    rw [hindexed]
    split <;> omega
  obtain ⟨-, hsame, hsize, huses⟩ := modifyUses_spec (fun _ => []) hclear fun d => ⟨rfl, rfl⟩
  obtain ⟨hbecomes, hsize', huses', hinsts⟩ := forM_setSlot_spec hnodup hset
  obtain ⟨hnew, hsame', hsize'', huses''⟩ := modifyUses_spec (· ++ f.uses old) hmove fun d => ⟨rfl, rfl⟩
  have hops : ∀ i, f₃.operands i = (f.operands i).map (substituted old new) := by
    intro i
    have hf₂ : f₂.operands i = f.operands i := congrArg InstData.operands (hsame.inst i)
    refine List.ext_getElem? fun s => ?_
    rw [(hinsts i).2 s, List.getElem?_map, hf₂]
    have hiff := hmoved ⟨i, s⟩
    unfold Function.reads at hiff
    dsimp only at hiff
    cases hv : (f.operands i)[s]? with
    | none => split <;> rfl
    | some v =>
      rw [hv, Option.some.injEq] at hiff
      by_cases hvo : v = old
      · rw [if_pos (hiff.2 hvo), hvo]
        simp [substituted]
      · rw [if_neg fun hin => hvo (hiff.1 hin)]
        simp [substituted, hvo]
  have hall : f.Becomes f' (fun i => { f.inst i with operands := (f.operands i).map (substituted old new) })
      f.block f.layout := by
    refine ⟨fun i => ?_, fun b => ?_, ?_, ?_, ?_, fun v => ?_⟩
    · rw [hsame'.inst, (hinsts i).1, hops, hsame.inst]
    · rw [hsame'.block, hbecomes.block, hsame.block]
    · rw [hsame'.layout, hbecomes.layout, hsame.layout]
    · rw [hsame'.blocks_size, hbecomes.blocks_size, hsame.blocks_size]
    · rw [hsame'.values_size, hbecomes.values_size, hsame.values_size]
    · rw [hsame'.kinds, hbecomes.kinds, hsame.kinds]
  refine ⟨?_, hsize''.trans (hsize'.trans hsize), hall, fun v u => ?_⟩
  · rw [hbecomes.values_size, hsame.values_size] at hnew
    exact hnew
  · have hreads : f'.reads u = (f.reads u).map (substituted old new) := by
      rw [reads_eq hall]
      exact List.getElem?_map ..
    rw [hreads, huses'', huses', huses', huses, huses]
    have hat := hindexed v u
    have hatOld := hindexed old u
    cases hu : f.reads u with
    | none =>
      rw [hu] at hat hatOld
      simp only [reduceCtorEq, if_false] at hat hatOld
      split
      · rename_i hvn
        subst hvn
        rw [if_neg (Ne.symm hne), List.count_append, hat, hatOld]
        rfl
      · split
        · rfl
        · exact hat
    | some x =>
      rw [hu] at hat hatOld
      simp only [Option.some.injEq] at hat hatOld
      simp only [Option.map_some, Option.some.injEq, substituted]
      split
      · rename_i hvn
        subst hvn
        rw [if_neg (Ne.symm hne), List.count_append, hat, hatOld]
        by_cases hx : x = old
        · simp [hx, hne]
        · simp [hx]
      · rename_i hvn
        split
        · rename_i hvo
          subst hvo
          by_cases hx : x = v
          · simp [hx, Ne.symm hne]
          · simp [hx]
        · rename_i hvo
          rw [hat]
          by_cases hx : x = old
          · simp [hx, Ne.symm hvo, Ne.symm hvn]
          · simp [hx]

end Edit

end SsaCompiler
