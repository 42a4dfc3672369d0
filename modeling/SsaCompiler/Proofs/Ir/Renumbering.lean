import SsaCompiler.Proofs.Ir.Additions
import Mathlib.Logic.Equiv.Basic
import Mathlib.Algebra.Group.End

/-!
# Renumbered values

Constants and addresses become values when they are first read, so their numbers follow the order in which a function is
read. A function can have other numbers for them and be the same otherwise (`Function.renumber`). Entering the same
constants and addresses in another order does nothing but that (`Function.exists_renumbered_of_perm`), and what is read
or changed later does not see it, because each of the values that are moved is the only one of its kind
(`Function.Movable`).
-/

set_option autoImplicit false

namespace SsaCompiler

open Equiv (Perm swap)

/-- An instruction with other numbers for the values. -/
def InstData.renumber (π : Perm ValueId) (d : InstData) : InstData :=
  { d with operands := d.operands.map π, result := d.result.map π }

variable {i : InstId} {v : ValueId}

namespace Function

variable {f g h : Function} {π ρ : Perm ValueId}

/-- A function with other numbers for its values. -/
def renumber (π : Perm ValueId) (f : Function) : Function :=
  { f with
    params := f.params.map π
    values := Array.ofFn fun v : Fin f.values.size => f.value (π.symm v)
    insts := f.insts.map fun d => d.renumber π }

/-- Two functions that are the same but for the numbers of their values. -/
structure Renumbered (π : Perm ValueId) (f g : Function) : Prop where
  name : g.name = f.name
  returnsValue : g.returnsValue = f.returnsValue
  params : g.params = f.params.map π
  blocks : g.blocks = f.blocks
  layout : g.layout = f.layout
  callees : g.callees = f.callees
  values_size : g.values.size = f.values.size
  value : ∀ v, g.value (π v) = f.value v
  insts_size : g.insts.size = f.insts.size
  inst : ∀ i, g.inst i = (f.inst i).renumber π

/-- What is renumbered are values for constants and addresses. They have no names, and each of them is the only one of
its kind. -/
structure Movable (π : Perm ValueId) (f : Function) : Prop where
  lt : ∀ v, π v ≠ v → v < f.values.size
  stands : ∀ v, π v ≠ v → (f.value v).kind.isComputed = false
  unnamed : ∀ v, π v ≠ v → (f.value v).name = none
  alone : ∀ v, π v ≠ v → ∀ w, w < f.values.size → (f.value w).kind = (f.value v).kind → w = v

/-- All values that the instructions and the heading of a function name are there. -/
structure InRange (f : Function) : Prop where
  params : ∀ v ∈ f.params, v < f.values.size
  operands : ∀ i, ∀ v ∈ f.operands i, v < f.values.size
  result : ∀ i, ∀ v ∈ f.result? i, v < f.values.size

/-! ## Functions by their records -/

/-- Renumbering moves values within the function. -/
theorem Movable.lt_iff (hm : f.Movable π) (v : ValueId) : π v < f.values.size ↔ v < f.values.size := by
  by_cases hv : π v = v
  · rw [hv]
  · exact iff_of_true (hm.lt _ fun heq => hv (π.injective heq)) (hm.lt v hv)

/-- A value that has a name keeps its number. -/
theorem Movable.fixed_of_name (hm : f.Movable π) {name : String} (hname : (f.value v).name = some name) : π v = v := by
  by_contra hv
  rw [hm.unnamed v hv] at hname
  cases hname

/-- The numbers behind the last value stay. -/
theorem Movable.fixed_of_size_le (hm : f.Movable π) (hv : f.values.size ≤ v) : π v = v := by
  by_contra hne
  exact absurd (hm.lt v hne) (Nat.not_lt_of_le hv)

/-- Two functions that differ in the numbers of values only are a function and the renumbered one. -/
theorem Renumbered.eq_renumber (hfg : Renumbered π f g) : g = f.renumber π := by
  have hvalues : g.values = Array.ofFn fun v : Fin f.values.size => f.value (π.symm v) := by
    refine Array.ext (by rw [Array.size_ofFn, hfg.values_size]) fun v hv hv' => ?_
    have hat := hfg.value (π.symm v)
    rw [Equiv.apply_symm_apply] at hat
    rw [Array.getElem_ofFn, ← hat]
    unfold Function.value
    rw [Array.getD_eq_getD_getElem?, Array.getElem?_eq_getElem hv]
    rfl
  have hinsts : g.insts = f.insts.map fun d => d.renumber π := by
    refine Array.ext (by rw [Array.size_map, hfg.insts_size]) fun i hi hi' => ?_
    have hat := hfg.inst i
    rw [Array.getElem_map]
    unfold Function.inst at hat
    rwa [Array.getD_eq_getD_getElem?, Array.getD_eq_getD_getElem?, Array.getElem?_eq_getElem hi,
      Array.getElem?_eq_getElem (hfg.insts_size ▸ hi)] at hat
  cases g
  unfold renumber
  simp only [Function.mk.injEq]
  exact ⟨hfg.name, hfg.returnsValue, hfg.params, hvalues, hinsts, hfg.blocks, hfg.layout, hfg.callees⟩

/-- Values that are not moved have the numbers that they had. -/
theorem InstData.renumber_of_fixed {d : InstData} (hoperands : ∀ v ∈ d.operands, π v = v)
    (hresult : ∀ v ∈ d.result, π v = v) : d.renumber π = d := by
  have hoperands : d.operands.map π = d.operands := (List.map_congr_left hoperands).trans (List.map_id _)
  have hresult : d.result.map π = d.result := by
    cases hd : d.result with
    | none => rfl
    | some v => exact congrArg some (hresult v hd)
  unfold InstData.renumber
  rw [hoperands, hresult]

/-- A function in which nothing that is named is moved. -/
theorem Renumbered.of_fixed (hblock : g.blocks = f.blocks ∧ g.layout = f.layout ∧ g.callees = f.callees)
    (hheading : g.name = f.name ∧ g.returnsValue = f.returnsValue ∧ g.params = f.params)
    (hsize : g.values.size = f.values.size) (hvalue : ∀ v, g.value (π v) = f.value v) (hinsts : g.insts = f.insts)
    (hparams : ∀ v ∈ f.params, π v = v) (hoperands : ∀ i, ∀ v ∈ f.operands i, π v = v)
    (hresult : ∀ i, ∀ v ∈ f.result? i, π v = v) : Renumbered π f g where
  name := hheading.1
  returnsValue := hheading.2.1
  params := hheading.2.2.trans ((List.map_congr_left hparams).trans (List.map_id _)).symm
  blocks := hblock.1
  layout := hblock.2.1
  callees := hblock.2.2
  values_size := hsize
  value := hvalue
  insts_size := congrArg Array.size hinsts
  inst i := by
    rw [InstData.renumber_of_fixed (hoperands i) (hresult i)]
    unfold Function.inst
    rw [hinsts]

theorem Renumbered.refl (f : Function) : Renumbered 1 f f :=
  .of_fixed ⟨rfl, rfl, rfl⟩ ⟨rfl, rfl, rfl⟩ rfl (fun _ => rfl) rfl (fun _ _ => rfl) (fun _ _ _ => rfl) fun _ _ _ => rfl

theorem Movable.one (f : Function) : f.Movable 1 where
  lt _ hv := absurd rfl hv
  stands _ hv := absurd rfl hv
  unnamed _ hv := absurd rfl hv
  alone _ hv := absurd rfl hv

theorem Renumbered.trans (hfg : Renumbered π f g) (hgh : Renumbered ρ g h) : Renumbered (ρ * π) f h where
  name := hgh.name.trans hfg.name
  returnsValue := hgh.returnsValue.trans hfg.returnsValue
  params := by
    rw [hgh.params, hfg.params, List.map_map]
    rfl
  blocks := hgh.blocks.trans hfg.blocks
  layout := hgh.layout.trans hfg.layout
  callees := hgh.callees.trans hfg.callees
  values_size := hgh.values_size.trans hfg.values_size
  value v := (hgh.value (π v)).trans (hfg.value v)
  insts_size := hgh.insts_size.trans hfg.insts_size
  inst i := by
    rw [hgh.inst, hfg.inst]
    unfold InstData.renumber
    rw [List.map_map, Option.map_map]
    rfl

/-- Movable values of the renumbered function were movable before. -/
theorem Movable.mul (hm : f.Movable π) (hfg : Renumbered π f g) (hm' : g.Movable ρ) : f.Movable (ρ * π) := by
  -- a value that only the second one moves is found at its own number
  have hback : ∀ v, (ρ * π) v ≠ v → π v ≠ v ∨ π v = v ∧ ρ v ≠ v ∧ g.value v = f.value v := by
    intro v hv
    by_cases hπ : π v = v
    · rw [Perm.mul_apply, hπ] at hv
      exact .inr ⟨hπ, hv, by rw [← hfg.value v, hπ]⟩
    · exact .inl hπ
  refine ⟨fun v hv => ?_, fun v hv => ?_, fun v hv => ?_, fun v hv w hw hkind => ?_⟩
  · rcases hback v hv with hπ | ⟨-, hρ, -⟩
    · exact hm.lt v hπ
    · exact hfg.values_size ▸ hm'.lt v hρ
  · rcases hback v hv with hπ | ⟨-, hρ, heq⟩
    · exact hm.stands v hπ
    · exact heq ▸ hm'.stands v hρ
  · rcases hback v hv with hπ | ⟨-, hρ, heq⟩
    · exact hm.unnamed v hπ
    · exact heq ▸ hm'.unnamed v hρ
  · rcases hback v hv with hπ | ⟨hπ, hρ, heq⟩
    · exact hm.alone v hπ w hw hkind
    · refine π.injective ?_
      rw [hπ]
      refine hm'.alone v hρ (π w) (hfg.values_size ▸ (hm.lt_iff w).2 hw) ?_
      rw [hfg.value, heq]
      exact hkind

theorem Renumbered.inRange (hfg : Renumbered π f g) (hm : f.Movable π) (hf : f.InRange) : g.InRange := by
  have hmap : ∀ {v}, v < f.values.size → π v < g.values.size := fun {v} hv => hfg.values_size ▸ (hm.lt_iff v).2 hv
  refine ⟨fun v hv => ?_, fun i v hv => ?_, fun i v hv => ?_⟩
  · rw [hfg.params] at hv
    obtain ⟨u, hu, rfl⟩ := List.mem_map.1 hv
    exact hmap (hf.params u hu)
  · unfold operands at hv
    rw [hfg.inst] at hv
    obtain ⟨u, hu, rfl⟩ := List.mem_map.1 hv
    exact hmap (hf.operands i u hu)
  · unfold result? at hv
    rw [hfg.inst] at hv
    obtain ⟨u, hu, rfl⟩ := Option.mem_map.1 hv
    exact hmap (hf.result i u hu)

/-! ## Entering constants and addresses -/

/-- The function with a value for a constant or an address. -/
def entered (kind : ValueKind) (f : Function) : Function :=
  match f.values.findIdx? fun d => d.kind == kind with
  | some _ => f
  | none => { f with values := f.values.push { kind } }

/-- The number that the value for a constant or an address has, or gets when it is entered. -/
def numberOf (f : Function) (kind : ValueKind) : ValueId :=
  (f.values.findIdx? fun d => d.kind == kind).getD f.values.size

/-- The number is that of the first value of the kind. -/
def IsFirst (f : Function) (kind : ValueKind) (v : ValueId) : Prop :=
  v < f.values.size ∧ (f.value v).kind = kind ∧ ∀ w, w < v → (f.value w).kind ≠ kind

theorem value_eq_getElem (hv : v < f.values.size) : f.value v = f.values[v] := by
  unfold Function.value
  rw [Array.getD_eq_getD_getElem?, Array.getElem?_eq_getElem hv]
  rfl

/-- A function has a first value of a kind, or none. -/
theorem isFirst_or_new (f : Function) (kind : ValueKind) :
    (∃ v, f.IsFirst kind v) ∨ ∀ v, v < f.values.size → (f.value v).kind ≠ kind := by
  cases hfind : f.values.findIdx? fun d => d.kind == kind with
  | none =>
    refine .inr fun v hv hkind => ?_
    rw [value_eq_getElem hv] at hkind
    simpa [hkind] using Array.findIdx?_eq_none_iff.1 hfind f.values[v] (Array.getElem_mem hv)
  | some v =>
    obtain ⟨hv, hkind, hfirst⟩ := Array.findIdx?_eq_some_iff_getElem.1 hfind
    refine .inl ⟨v, hv, ?_, fun w hw => ?_⟩
    · rw [value_eq_getElem hv]
      simpa using hkind
    · rw [value_eq_getElem (hw.trans hv)]
      simpa using hfirst w hw

variable {kind : ValueKind}

theorem IsFirst.findIdx?_eq (hv : f.IsFirst kind v) : f.values.findIdx? (fun d => d.kind == kind) = some v := by
  obtain ⟨hlt, hkind, hfirst⟩ := hv
  refine Array.findIdx?_eq_some_iff_getElem.2 ⟨hlt, ?_, fun w hw => ?_⟩
  · rw [← value_eq_getElem hlt]
    simpa using hkind
  · rw [← value_eq_getElem (hw.trans hlt)]
    simpa using hfirst w hw

theorem IsFirst.numberOf_eq (hv : f.IsFirst kind v) : f.numberOf kind = v := by
  unfold numberOf
  rw [hv.findIdx?_eq]
  rfl

/-- A kind that is there is not entered again. -/
theorem IsFirst.entered_eq (hv : f.IsFirst kind v) : f.entered kind = f := by
  unfold entered
  rw [hv.findIdx?_eq]

section

variable (hnew : ∀ v, v < f.values.size → (f.value v).kind ≠ kind)

include hnew

theorem findIdx?_of_new : f.values.findIdx? (fun d => d.kind == kind) = none := by
  refine Array.findIdx?_eq_none_iff.2 fun d hd => ?_
  obtain ⟨v, hv, rfl⟩ := Array.mem_iff_getElem.1 hd
  rw [← value_eq_getElem hv]
  simpa using hnew v hv

theorem numberOf_of_new : f.numberOf kind = f.values.size := by
  unfold numberOf
  rw [findIdx?_of_new hnew]
  rfl

theorem entered_of_new : f.entered kind = { f with values := f.values.push { kind } } := by
  unfold entered
  rw [findIdx?_of_new hnew]

end

/-- Entering keeps the values that are there, and it adds at most one without a name. -/
theorem value_entered (f : Function) (kind : ValueKind) (hv : v < f.values.size) :
    (f.entered kind).value v = f.value v := by
  rcases f.isFirst_or_new kind with ⟨w, hw⟩ | hnew
  · rw [hw.entered_eq]
  · rw [entered_of_new hnew, value_push, if_neg (Nat.ne_of_lt hv)]

theorem size_le_entered (f : Function) (kind : ValueKind) : f.values.size ≤ (f.entered kind).values.size := by
  rcases f.isFirst_or_new kind with ⟨w, hw⟩ | hnew
  · rw [hw.entered_eq]
  · rw [entered_of_new hnew, Array.size_push]
    exact Nat.le_succ _

theorem name_entered (f : Function) (kind : ValueKind) (v : ValueId) :
    ((f.entered kind).value v).name = (f.value v).name := by
  rcases f.isFirst_or_new kind with ⟨w, hw⟩ | hnew
  · rw [hw.entered_eq]
  · rw [entered_of_new hnew, value_push]
    split
    · rename_i heq
      rw [heq, value_of_size_le (Nat.le_refl _)]
      rfl
    · rfl

theorem entered_eq (f : Function) (kind : ValueKind) :
    f.entered kind = { f with values := (f.entered kind).values } := by
  rcases f.isFirst_or_new kind with ⟨w, hw⟩ | hnew
  · rw [hw.entered_eq]
  · rw [entered_of_new hnew]

/-- A kind has a first value when it is entered, at the number that was foretold. -/
theorem isFirst_entered (f : Function) (kind : ValueKind) : (f.entered kind).IsFirst kind (f.numberOf kind) := by
  rcases f.isFirst_or_new kind with ⟨v, hv⟩ | hnew
  · rw [hv.entered_eq, hv.numberOf_eq]
    exact hv
  · rw [entered_of_new hnew, numberOf_of_new hnew]
    refine ⟨by rw [Array.size_push]; exact Nat.lt_succ_self _, by rw [value_push, if_pos rfl], fun w hw => ?_⟩
    rw [value_push, if_neg (Nat.ne_of_lt hw)]
    exact hnew w hw

/-- The first value of a kind stays the first one when another kind is entered. -/
theorem IsFirst.entered (hv : f.IsFirst kind v) (other : ValueKind) : (f.entered other).IsFirst kind v := by
  obtain ⟨hlt, hkind, hfirst⟩ := hv
  refine ⟨Nat.lt_of_lt_of_le hlt (f.size_le_entered other), by rwa [f.value_entered other hlt], fun w hw => ?_⟩
  rw [f.value_entered other (hw.trans hlt)]
  exact hfirst w hw

section

variable (hfg : Renumbered π f g) (hm : f.Movable π)

include hfg hm

/-- The number of a kind in the renumbered function. -/
theorem Renumbered.isFirst (hv : f.IsFirst kind v) : g.IsFirst kind (π v) := by
  obtain ⟨hlt, hkind, hfirst⟩ := hv
  refine ⟨hfg.values_size ▸ (hm.lt_iff v).2 hlt, by rwa [hfg.value], fun w hw hw' => ?_⟩
  -- a value of the kind that stands before the moved one would be moved itself
  obtain ⟨u, rfl⟩ := π.surjective w
  rw [hfg.value] at hw'
  have hu : u < f.values.size := (hm.lt_iff u).1 (hw.trans ((hm.lt_iff v).2 hlt))
  have hkinds : (f.value u).kind = (f.value v).kind := hw'.trans hkind.symm
  by_cases hπv : π v = v
  · by_cases hπu : π u = u
    · rw [hπv, hπu] at hw
      exact hfirst u hw hw'
    · rw [hm.alone u hπu v hlt hkinds.symm] at hw
      exact Nat.lt_irrefl _ hw
  · rw [hm.alone v hπv u hu hkinds] at hw
    exact Nat.lt_irrefl _ hw

theorem Renumbered.new (hnew : ∀ v, v < f.values.size → (f.value v).kind ≠ kind) (w : ValueId)
    (hw : w < g.values.size) : (g.value w).kind ≠ kind := by
  obtain ⟨u, rfl⟩ := π.surjective w
  rw [hfg.value]
  exact hnew u ((hm.lt_iff u).1 (hfg.values_size ▸ hw))

/-- A constant or an address has the moved number in the renumbered function. -/
theorem Renumbered.numberOf (kind : ValueKind) : g.numberOf kind = π (f.numberOf kind) := by
  rcases f.isFirst_or_new kind with ⟨v, hv⟩ | hnew
  · rw [hv.numberOf_eq, (hfg.isFirst hm hv).numberOf_eq]
  · rw [numberOf_of_new hnew, numberOf_of_new (hfg.new hm hnew), hfg.values_size,
      hm.fixed_of_size_le (Nat.le_refl _)]

theorem Renumbered.entered (kind : ValueKind) : Renumbered π (f.entered kind) (g.entered kind) := by
  rcases f.isFirst_or_new kind with ⟨v, hv⟩ | hnew
  · rwa [hv.entered_eq, (hfg.isFirst hm hv).entered_eq]
  · have hlast : π f.values.size = f.values.size := hm.fixed_of_size_le (Nat.le_refl _)
    rw [entered_of_new hnew, entered_of_new (hfg.new hm hnew)]
    refine ⟨hfg.name, hfg.returnsValue, hfg.params, hfg.blocks, hfg.layout, hfg.callees, ?_, fun v => ?_,
      hfg.insts_size, hfg.inst⟩
    · rw [Array.size_push, Array.size_push, hfg.values_size]
    · rw [value_push, value_push, hfg.values_size]
      by_cases hv : v = f.values.size
      · rw [if_pos hv, hv, if_pos hlast]
      · rw [if_neg hv, if_neg fun heq => hv (π.injective (heq.trans hlast.symm))]
        exact hfg.value v

end

theorem Movable.entered (hm : f.Movable π) (kind : ValueKind) : (f.entered kind).Movable π := by
  rcases f.isFirst_or_new kind with ⟨v, hv⟩ | hnew
  · rwa [hv.entered_eq]
  · have hold : ∀ v, π v ≠ v → (f.entered kind).value v = f.value v := fun v hv => f.value_entered kind (hm.lt v hv)
    refine ⟨fun v hv => Nat.lt_of_lt_of_le (hm.lt v hv) (f.size_le_entered kind), fun v hv => hold v hv ▸ hm.stands v hv,
      fun v hv => hold v hv ▸ hm.unnamed v hv, fun v hv w hw hkind => ?_⟩
    rw [hold v hv] at hkind
    rw [entered_of_new hnew] at hw hkind
    rw [Array.size_push] at hw
    rw [value_push] at hkind
    split at hkind
    · exact absurd hkind.symm (hnew v (hm.lt v hv))
    · rename_i hne
      exact hm.alone v hv w (Nat.lt_of_le_of_ne (Nat.le_of_lt_succ hw) hne) hkind

theorem InRange.entered (hf : f.InRange) (kind : ValueKind) : (f.entered kind).InRange := by
  have hsize := f.size_le_entered kind
  have hrest := f.entered_eq kind
  refine ⟨fun v hv => ?_, fun i v hv => ?_, fun i v hv => ?_⟩
  · rw [hrest] at hv
    exact Nat.lt_of_lt_of_le (hf.params v hv) hsize
  · rw [hrest] at hv
    exact Nat.lt_of_lt_of_le (hf.operands i v hv) hsize
  · rw [hrest] at hv
    exact Nat.lt_of_lt_of_le (hf.result i v hv) hsize

/-- Two kinds can be entered in either order. -/
theorem exists_renumbered_swap (hf : f.InRange) {kind' : ValueKind} (hkind : kind.isComputed = false)
    (hkind' : kind'.isComputed = false) : ∃ π, ((f.entered kind).entered kind').Movable π ∧
      Renumbered π ((f.entered kind).entered kind') ((f.entered kind').entered kind) := by
  have hsame : (f.entered kind').entered kind = (f.entered kind).entered kind' →
      ∃ π, ((f.entered kind).entered kind').Movable π ∧
        Renumbered π ((f.entered kind).entered kind') ((f.entered kind').entered kind) := fun heq =>
    ⟨1, .one _, heq ▸ .refl _⟩
  rcases f.isFirst_or_new kind with ⟨v, hv⟩ | hnew
  · exact hsame (by rw [hv.entered_eq, (hv.entered kind').entered_eq])
  rcases f.isFirst_or_new kind' with ⟨v, hv⟩ | hnew'
  · exact hsame (by rw [hv.entered_eq, (hv.entered kind).entered_eq])
  by_cases hne : kind = kind'
  · exact hsame (by rw [hne])
  -- both are new: they change places
  have hlast : f.values.size ≠ f.values.size + 1 := Nat.ne_of_lt (Nat.lt_succ_self _)
  have hnext : ∀ {k k' : ValueKind}, k ≠ k' → (∀ v, v < f.values.size → (f.value v).kind ≠ k) →
      (∀ v, v < f.values.size → (f.value v).kind ≠ k') →
      (f.entered k).entered k' = { f with values := (f.values.push { kind := k }).push { kind := k' } } := by
    intro k k' hne hk hk'
    rw [entered_of_new (f := f.entered k), entered_of_new hk]
    intro v hv
    rw [entered_of_new hk] at hv ⊢
    rw [Array.size_push] at hv
    rw [value_push]
    split
    · exact hne
    · rename_i hv'
      exact hk' v (Nat.lt_of_le_of_ne (Nat.le_of_lt_succ hv) hv')
  have hvalue : ∀ (k k' : ValueKind) (v : ValueId),
      Function.value { f with values := (f.values.push { kind := k }).push { kind := k' } } v =
        if v = f.values.size + 1 then { kind := k' } else if v = f.values.size then { kind := k } else f.value v := by
    intro k k' v
    rw [value_push (f := { f with values := f.values.push { kind := k } }), value_push, Array.size_push]
  have hfixed : ∀ v, v < f.values.size → swap f.values.size (f.values.size + 1) v = v := fun v hv =>
    Equiv.swap_apply_of_ne_of_ne (Nat.ne_of_lt hv) (Nat.ne_of_lt (Nat.lt_succ_of_lt hv))
  have hmoved : ∀ v, swap f.values.size (f.values.size + 1) v ≠ v → v = f.values.size ∨ v = f.values.size + 1 := by
    intro v hv
    by_contra hnot
    rw [not_or] at hnot
    exact hv (Equiv.swap_apply_of_ne_of_ne hnot.1 hnot.2)
  have hold : ∀ w, w < f.values.size + 1 + 1 → w ≠ f.values.size + 1 → w ≠ f.values.size → w < f.values.size :=
    fun w hw hw' hw'' => by omega
  rw [hnext hne hnew hnew', hnext (Ne.symm hne) hnew' hnew]
  refine ⟨swap f.values.size (f.values.size + 1), ⟨fun v hv => ?_, fun v hv => ?_, fun v hv => ?_, fun v hv w hw hw' => ?_⟩,
    .of_fixed ⟨rfl, rfl, rfl⟩ ⟨rfl, rfl, rfl⟩ ?_ (fun v => ?_) rfl (fun v hv => hfixed v (hf.params v hv))
      (fun i v hv => hfixed v (hf.operands i v hv)) fun i v hv => hfixed v (hf.result i v hv)⟩
  · rw [Array.size_push, Array.size_push]
    rcases hmoved v hv with rfl | rfl
    · exact Nat.lt_succ_of_lt (Nat.lt_succ_self _)
    · exact Nat.lt_succ_self _
  · rw [hvalue]
    rcases hmoved v hv with rfl | rfl
    · rw [if_neg hlast, if_pos rfl]
      exact hkind
    · rw [if_pos rfl]
      exact hkind'
  · rw [hvalue]
    rcases hmoved v hv with rfl | rfl
    · rw [if_neg hlast, if_pos rfl]
    · rw [if_pos rfl]
  · rw [hvalue, hvalue] at hw'
    rw [Array.size_push, Array.size_push] at hw
    rcases hmoved v hv with rfl | rfl
    · rw [if_neg hlast, if_pos rfl] at hw'
      split at hw'
      · exact absurd hw'.symm hne
      · rename_i hw₁
        split at hw'
        · assumption
        · rename_i hw₂
          exact absurd hw' (hnew w (hold w hw hw₁ hw₂))
    · rw [if_pos rfl] at hw'
      split at hw'
      · assumption
      · rename_i hw₁
        split at hw'
        · exact absurd hw' hne
        · rename_i hw₂
          exact absurd hw' (hnew' w (hold w hw hw₁ hw₂))
  · rw [Array.size_push, Array.size_push, Array.size_push, Array.size_push]
  · rw [hvalue, hvalue]
    by_cases hsecond : v = f.values.size + 1
    · rw [hsecond, Equiv.swap_apply_right, if_neg hlast, if_pos rfl, if_pos rfl]
    · by_cases hfirst : v = f.values.size
      · rw [hfirst, Equiv.swap_apply_left, if_pos rfl, if_neg hlast, if_pos rfl]
      · rw [Equiv.swap_apply_of_ne_of_ne hfirst hsecond, if_neg hsecond, if_neg hfirst, if_neg hsecond, if_neg hfirst]

/-! ## What operands stand for -/

end Function

/-- What an operand stands for: a value that has a name, or the value of a constant or an address. -/
inductive Reference
  | named (v : ValueId)
  | stands (kind : ValueKind) (h : kind.isComputed = false)

namespace Reference

/-- The number of the value. -/
def number (f : Function) : Reference → ValueId
  | named v => v
  | stands kind _ => f.numberOf kind

/-- The function in which the value is there. -/
def enter (f : Function) : Reference → Function
  | named _ => f
  | stands kind _ => f.entered kind

end Reference

namespace Function

variable {f g h : Function} {π ρ : Perm ValueId}

/-- The function in which all the values are there. -/
def enterAll (refs : List Reference) (f : Function) : Function := refs.foldl Reference.enter f

theorem Renumbered.enter (hfg : Renumbered π f g) (hm : f.Movable π) (ref : Reference) :
    Renumbered π (ref.enter f) (ref.enter g) := by
  cases ref with
  | named v => exact hfg
  | stands kind _ => exact hfg.entered hm kind

theorem Movable.enter (hm : f.Movable π) (ref : Reference) : (ref.enter f).Movable π := by
  cases ref with
  | named v => exact hm
  | stands kind _ => exact hm.entered kind

theorem InRange.enter (hf : f.InRange) (ref : Reference) : (ref.enter f).InRange := by
  cases ref with
  | named v => exact hf
  | stands kind _ => exact hf.entered kind

/-- Entering the same is the same for the renumbered function. -/
theorem Renumbered.enterAll (refs : List Reference) : ∀ {f g : Function}, Renumbered π f g → f.Movable π →
    Renumbered π (f.enterAll refs) (g.enterAll refs) ∧ (f.enterAll refs).Movable π := by
  induction refs with
  | nil => exact fun hfg hm => ⟨hfg, hm⟩
  | cons ref rest ih => exact fun hfg hm => ih (hfg.enter hm ref) (hm.enter ref)

/-- Entering constants and addresses in another order gives other numbers, and it does nothing else. -/
theorem exists_renumbered_of_perm {refs refs' : List Reference} (hperm : refs.Perm refs') :
    ∀ {f g : Function} {π : Perm ValueId}, f.InRange → Renumbered π f g → f.Movable π →
      ∃ ρ, (f.enterAll refs).Movable ρ ∧ Renumbered ρ (f.enterAll refs) (g.enterAll refs') := by
  induction hperm with
  | nil => exact fun {f g π} _ hfg hm => ⟨π, hm, hfg⟩
  | cons ref _ ih => exact fun hf hfg hm => ih (hf.enter ref) (hfg.enter hm ref) (hm.enter ref)
  | swap ref ref' rest =>
    intro f g π hf hfg hm
    -- the two runs that differ in the order are run from the renumbered function
    obtain ⟨ρ, hmρ, hρ⟩ : ∃ ρ, (ref.enter (ref'.enter g)).Movable ρ ∧
        Renumbered ρ (ref.enter (ref'.enter g)) (ref'.enter (ref.enter g)) := by
      cases ref' with
      | named v => exact ⟨1, .one _, .refl _⟩
      | stands kind' hkind' =>
        cases ref with
        | named v => exact ⟨1, .one _, .refl _⟩
        | stands kind hkind => exact exists_renumbered_swap (hfg.inRange hm hf) hkind' hkind
    have hfg₂ := (hfg.enter hm ref').enter (hm.enter ref') ref
    have hm₂ := (hm.enter ref').enter ref
    obtain ⟨hall, hmall⟩ := (hfg₂.trans hρ).enterAll rest (hm₂.mul hfg₂ hmρ)
    exact ⟨ρ * π, hmall, hall⟩
  | @trans refs₁ refs₂ refs₃ _ _ ih ih' =>
    intro f g π hf hfg hm
    obtain ⟨ρ, hmρ, hρ⟩ := ih hf hfg hm
    obtain ⟨σ, hmσ, hσ⟩ := ih' (hfg.inRange hm hf) (.refl g) (.one g)
    exact ⟨σ * ρ, hmρ.mul hρ hmσ, hρ.trans hσ⟩

/-- What an operand stands for has the moved number in the renumbered function. -/
theorem Renumbered.number (hfg : Renumbered π f g) (hm : f.Movable π) {ref : Reference}
    (hnamed : ∀ v, ref = .named v → π v = v) : ref.number g = π (ref.number f) := by
  cases ref with
  | named v => exact (hnamed v rfl).symm
  | stands kind _ => exact hfg.numberOf hm kind

/-- The value is there. -/
def Holds (f : Function) : Reference → Prop
  | .named v => v < f.values.size
  | .stands kind _ => f.IsFirst kind (f.numberOf kind)

theorem Holds.number_lt {ref : Reference} (h : f.Holds ref) : ref.number f < f.values.size := by
  cases ref with
  | named v => exact h
  | stands kind _ => exact h.1

theorem holds_enter (f : Function) (ref : Reference) (hnamed : ∀ v, ref = .named v → v < f.values.size) :
    (ref.enter f).Holds ref ∧ ref.number (ref.enter f) = ref.number f := by
  cases ref with
  | named v => exact ⟨hnamed v rfl, rfl⟩
  | stands kind _ =>
    have hfirst := f.isFirst_entered kind
    have hnumber : (f.entered kind).numberOf kind = f.numberOf kind := hfirst.numberOf_eq
    refine ⟨?_, hnumber⟩
    change (f.entered kind).IsFirst kind ((f.entered kind).numberOf kind)
    rwa [hnumber]

/-- What is there stays at its number. -/
theorem Holds.enter {ref : Reference} (h : f.Holds ref) (other : Reference) :
    (other.enter f).Holds ref ∧ ref.number (other.enter f) = ref.number f := by
  cases other with
  | named v => exact ⟨h, rfl⟩
  | stands kind' _ =>
    cases ref with
    | named v => exact ⟨Nat.lt_of_lt_of_le h (f.size_le_entered kind'), rfl⟩
    | stands kind _ =>
      have hfirst : (f.entered kind').IsFirst kind (f.numberOf kind) := IsFirst.entered h kind'
      have hnumber : (f.entered kind').numberOf kind = f.numberOf kind := hfirst.numberOf_eq
      refine ⟨?_, hnumber⟩
      change (f.entered kind').IsFirst kind ((f.entered kind').numberOf kind)
      rwa [hnumber]

theorem Holds.enterAll {ref : Reference} (refs : List Reference) : ∀ {f : Function}, f.Holds ref →
    (f.enterAll refs).Holds ref ∧ ref.number (f.enterAll refs) = ref.number f := by
  induction refs with
  | nil => exact fun h => ⟨h, rfl⟩
  | cons other rest ih =>
    intro f h
    obtain ⟨hholds, hnumber⟩ := h.enter other
    obtain ⟨hholds', hnumber'⟩ := ih hholds
    exact ⟨hholds', hnumber'.trans hnumber⟩

/-- Entering changes nothing but the values, and it leaves the names alone. -/
structure MoreKinds (f g : Function) : Prop where
  rest : g = { f with values := g.values }
  size_le : f.values.size ≤ g.values.size
  value : ∀ v, v < f.values.size → g.value v = f.value v
  name : ∀ v, (g.value v).name = (f.value v).name

theorem moreKinds_enter (f : Function) (ref : Reference) : f.MoreKinds (ref.enter f) := by
  cases ref with
  | named v => exact ⟨rfl, Nat.le_refl _, fun _ _ => rfl, fun _ => rfl⟩
  | stands kind _ =>
    exact ⟨f.entered_eq kind, f.size_le_entered kind, fun v hv => f.value_entered kind hv, f.name_entered kind⟩

theorem moreKinds_enterAll (refs : List Reference) : ∀ f : Function, f.MoreKinds (f.enterAll refs) := by
  induction refs with
  | nil => exact fun f => ⟨rfl, Nat.le_refl _, fun _ _ => rfl, fun _ => rfl⟩
  | cons ref rest ih =>
    intro f
    have h := f.moreKinds_enter ref
    have h' := ih (ref.enter f)
    refine ⟨?_, h.size_le.trans h'.size_le, fun v hv => ?_, fun v => (h'.name v).trans (h.name v)⟩
    · change (ref.enter f).enterAll rest = { f with values := ((ref.enter f).enterAll rest).values }
      refine h'.rest.trans ?_
      rw [h.rest]
    · exact (h'.value v (Nat.lt_of_lt_of_le hv h.size_le)).trans (h.value v hv)

/-! ## Operands -/

/-- The function in which an instruction reads one more value. -/
def withOperand (i : InstId) (f : Function) (v : ValueId) : Function :=
  { f with
    insts := f.insts.modify i fun d => { d with operands := d.operands ++ [v] }
    values := f.values.modify v fun d => { d with uses := d.uses ++ [⟨i, (f.operands i).length⟩] } }

/-- The function in which an instruction reads some more values. -/
def withOperands (i : InstId) (vs : List ValueId) (f : Function) : Function := vs.foldl (withOperand i) f

theorem value_withOperand (hv : v < f.values.size) (w : ValueId) : (f.withOperand i v).value w =
      if w = v then { f.value v with uses := (f.value v).uses ++ [⟨i, (f.operands i).length⟩] } else f.value w :=
  value_modify (f := { f with insts := _ }) hv _ w

theorem inst_withOperand (hi : i < f.insts.size) (v : ValueId) (j : InstId) :
    (f.withOperand i v).inst j = if j = i then { f.inst i with operands := f.operands i ++ [v] } else f.inst j :=
  (inst_modify (f := { f with values := _ }) hi _ j).trans (Function.update_apply ..)

/-- A value read differs by its uses only. -/
theorem kind_name_withOperand (hv : v < f.values.size) (w : ValueId) :
    ((f.withOperand i v).value w).kind = (f.value w).kind ∧ ((f.withOperand i v).value w).name = (f.value w).name := by
  rw [value_withOperand hv]
  split
  · rename_i hw
    rw [hw]
    exact ⟨rfl, rfl⟩
  · exact ⟨rfl, rfl⟩

theorem size_withOperand (f : Function) (i : InstId) (v : ValueId) :
    (f.withOperand i v).values.size = f.values.size := Array.size_modify ..

theorem Renumbered.withOperand (hfg : Renumbered π f g) (hm : f.Movable π) (hi : i < f.insts.size)
    (hv : v < f.values.size) : Renumbered π (f.withOperand i v) (g.withOperand i (π v)) := by
  have hπv : π v < g.values.size := hfg.values_size ▸ (hm.lt_iff v).2 hv
  have hi' : i < g.insts.size := hfg.insts_size ▸ hi
  have hoperands : g.operands i = (f.operands i).map π := congrArg InstData.operands (hfg.inst i)
  refine ⟨hfg.name, hfg.returnsValue, hfg.params, hfg.blocks, hfg.layout, hfg.callees, ?_, fun w => ?_, ?_, fun j => ?_⟩
  · rw [size_withOperand, size_withOperand, hfg.values_size]
  · rw [value_withOperand hπv, value_withOperand hv, hoperands, List.length_map, hfg.value, hfg.value]
    by_cases hw : w = v
    · rw [if_pos hw, if_pos (congrArg π hw)]
    · rw [if_neg hw, if_neg fun heq => hw (π.injective heq)]
  · exact (Array.size_modify ..).trans (hfg.insts_size.trans (Array.size_modify ..).symm)
  · rw [inst_withOperand hi', inst_withOperand hi, hoperands, hfg.inst, hfg.inst]
    split
    · unfold InstData.renumber
      simp
    · rfl

theorem Movable.withOperand (hm : f.Movable π) (hv : v < f.values.size) : (f.withOperand i v).Movable π := by
  have hsame := fun w => kind_name_withOperand (i := i) hv w
  refine ⟨fun w hw => ?_, fun w hw => ?_, fun w hw => ?_, fun w hw u hu hkind => ?_⟩
  · rw [size_withOperand]
    exact hm.lt w hw
  · rw [(hsame w).1]
    exact hm.stands w hw
  · rw [(hsame w).2]
    exact hm.unnamed w hw
  · rw [size_withOperand] at hu
    rw [(hsame u).1, (hsame w).1] at hkind
    exact hm.alone w hw u hu hkind

theorem InRange.withOperand (hf : f.InRange) (hi : i < f.insts.size) (hv : v < f.values.size) :
    (f.withOperand i v).InRange := by
  refine ⟨fun w hw => ?_, fun j w hw => ?_, fun j w hw => ?_⟩ <;> rw [size_withOperand]
  · exact hf.params w hw
  · change w ∈ ((f.withOperand i v).inst j).operands at hw
    rw [inst_withOperand hi] at hw
    split at hw
    · rcases List.mem_append.1 hw with hw | hw
      · exact hf.operands i w hw
      · exact List.mem_singleton.1 hw ▸ hv
    · exact hf.operands j w hw
  · change w ∈ ((f.withOperand i v).inst j).result at hw
    rw [inst_withOperand hi] at hw
    split at hw
    · exact hf.result i w hw
    · exact hf.result j w hw

/-- Reading the moved values is the same for the renumbered function. -/
theorem Renumbered.withOperands {i : InstId} {vs : List ValueId} : ∀ {f g : Function}, Renumbered π f g → f.Movable π →
    f.InRange → i < f.insts.size → (∀ v ∈ vs, v < f.values.size) →
      Renumbered π (f.withOperands i vs) (g.withOperands i (vs.map π)) ∧ (f.withOperands i vs).Movable π ∧
        (f.withOperands i vs).InRange := by
  induction vs with
  | nil => exact fun hfg hm hf _ _ => ⟨hfg, hm, hf⟩
  | cons v rest ih =>
    intro f g hfg hm hf hi hvs
    have hv := hvs v List.mem_cons_self
    refine ih (hfg.withOperand hm hi hv) (hm.withOperand hv) (hf.withOperand hi hv) ?_ fun w hw => ?_
    · exact Nat.lt_of_lt_of_eq hi (Array.size_modify ..).symm
    · rw [size_withOperand]
      exact hvs w (List.mem_cons_of_mem _ hw)

end Function

namespace Edit

open Edits

/-- Reading a constant or an address. -/
theorem run_internValue (kind : ValueKind) (f : Function) :
    (internValue kind).run f = (.ok (f.numberOf kind), f.entered kind) := by
  unfold internValue Function.numberOf Function.entered
  rw [run_get_bind]
  cases f.values.findIdx? fun d => d.kind == kind <;> rfl

variable {f : Function}

theorem run_modifyInst (hi : i < f.insts.size) (change : InstData → InstData) :
    (modifyInst i change).run f = (.ok (), { f with insts := f.insts.modify i change }) := by
  unfold modifyInst
  rw [run_get_bind, if_pos hi]
  rfl

theorem run_modifyValue (hv : v < f.values.size) (change : ValueData → ValueData) :
    (modifyValue v change).run f = (.ok (), { f with values := f.values.modify v change }) := by
  unfold modifyValue
  rw [run_get_bind, if_pos hv]
  rfl

theorem run_pushOperand (hi : i < f.insts.size) (hv : v < f.values.size) :
    (pushOperand i v).run f = (.ok (), f.withOperand i v) := by
  unfold pushOperand addUse
  rw [run_get_bind, run_bind, run_modifyInst hi]
  exact run_modifyValue (f := { f with insts := f.insts.modify i fun d => { d with operands := d.operands ++ [v] } }) hv _

end Edit

end SsaCompiler
