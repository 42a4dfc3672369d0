import SsaCompiler.Machine.Allocate
import SsaCompiler.Proofs.Machine.TakingApart

/-!
# The colours are right

Colours are handed out in the order of the stack. Since a node on the stack has a neighbour in the
class of every node that it must differ from and that got its colour earlier, looking at the
neighbours is enough: no two adjacent nodes end with the same colour (`separated_assignColors`). A
round of the allocator either gives registers that keep apart whatever is live at the same time
(`Separates`) or names virtual registers to be spilled, none of them a spill temporary.
-/

set_option autoImplicit false

namespace SsaCompiler

variable {registers : List Register} {function : String}

namespace Coloring

variable {c c' c₀ : Coloring}

/-- States that differ in the colours and the set of taken nodes only. -/
structure SamePlan (c c' : Coloring) : Prop where
  graph : c'.graph = c.graph
  budget : c'.budget = c.budget
  size : c'.degree.size = c.degree.size
  mergedInto : c'.mergedInto = c.mergedInto
  merged : c'.merged = c.merged
  temps : c'.temps = c.temps
  colors : c'.colors.size = c.colors.size

theorem SamePlan.refl (c : Coloring) : SamePlan c c := by constructor <;> rfl

theorem SamePlan.trans {c₁ c₂ c₃ : Coloring} (h : SamePlan c₁ c₂) (h' : SamePlan c₂ c₃) : SamePlan c₁ c₃ where
  graph := h'.graph.trans h.graph
  budget := h'.budget.trans h.budget
  size := h'.size.trans h.size
  mergedInto := h'.mergedInto.trans h.mergedInto
  merged := h'.merged.trans h.merged
  temps := h'.temps.trans h.temps
  colors := h'.colors.trans h.colors

/-- Classes depend on the plan only. -/
theorem SamePlan.aliasOf (h : SamePlan c c') (n : Nat) : c'.aliasOf n = c.aliasOf n :=
  aliasOf_congr h.merged h.mergedInto n

/-- What holds of the colours while `rest` waits on the stack. -/
structure Colored (c : Coloring) (rest : List Nat) : Prop where
  separated : ∀ a b r, c.graph.adjacent a b = true → c.colorOf? (c.aliasOf a) = some r →
    c.colorOf? (c.aliasOf b) ≠ some r
  inBudget : ∀ n r, c.colors.getD n none = some r → c.budget.contains r = true
  waiting : ∀ n ∈ rest, c.colors.getD n none = none

/-- Before colours are handed out only physical registers have one. -/
theorem Classes.colored (h : c.Classes) (rest : List Nat) : c.Colored rest := by
  have hphys : ∀ n r, c.colorOf? n = some r → n = r.toNat := by
    intro n r hr
    unfold colorOf? at hr
    split at hr
    · exact Register.ofNat?_eq_some_iff.1 hr
    · rw [h.uncolored] at hr
      cases hr
  refine ⟨fun a b r hab ha hb => ?_, fun n r hr => ?_, fun n _ => h.uncolored n⟩
  · exact h.apart a b hab ((hphys _ r ha).trans (hphys _ r hb).symm)
  · rw [h.uncolored] at hr
    cases hr

variable {stack : List Nat} {n : Nat} {r : Register}

/-- The colours of the neighbours are used. -/
theorem contains_usedColors : (c.usedColors n).contains r = true ↔
      ∃ w, c.graph.adjacent n w = true ∧ c.colorOf? (c.aliasOf w) = some r := by
  rw [usedColors, RegisterSet.contains_ofList, List.mem_filterMap]
  simp only [NatSet.mem_toList]
  rfl

variable {stacked : NatSet}

/-- The colour of a node after one got a colour. -/
theorem colorOf?_set (hvirtual : Node.isPhysical n = false) (hn : n < c.colors.size) (k : Nat) :
    ({ c with stacked, colors := c.colors.setIfInBounds n (some r) } : Coloring).colorOf? k =
      if k = n then some r else c.colorOf? k := by
  unfold colorOf?
  by_cases hkn : k = n
  · subst hkn
    simp only [hvirtual, Bool.false_eq_true, if_false, if_true, Liveness.getD_setIfInBounds, hn, and_self]
  · have hcell : (c.colors.setIfInBounds n (some r)).getD k none = c.colors.getD k none := by
      rw [Liveness.getD_setIfInBounds, if_neg fun h => hkn h.1.symm]
    simp only [hcell, if_neg hkn]

/-- The used colours do not depend on what is taken. -/
theorem usedColors_stacked (c : Coloring) (stacked : NatSet) (n : Nat) :
    ({ c with stacked } : Coloring).usedColors n = c.usedColors n := by
  have halias : ∀ k, ({ c with stacked } : Coloring).aliasOf k = c.aliasOf k := aliasOf_congr rfl rfl
  unfold usedColors
  simp only [halias]
  rfl

/-- Giving the next node of the stack a colour that its neighbours do not have keeps colours apart. -/
theorem Colored.color {before rest : List Nat} (hclasses : c₀.Classes) (hplan : SamePlan c₀ c)
    (hstack : c₀.stack = before ++ n :: rest) (h : c.Colored (n :: rest))
    (hr : c.budget.lowestOutside? (c.usedColors n) = some r) :
    ({ c with stacked, colors := c.colors.setIfInBounds n (some r) } : Coloring).Colored rest := by
  obtain ⟨hbudget, hfree⟩ := RegisterSet.lowestOutside?_some hr
  have hmem : n ∈ c₀.stack := by simp [hstack]
  obtain ⟨hvirtual, hknown, hunmerged⟩ := hclasses.stacked_ok n ((hclasses.mem_stack n).1 hmem)
  have hphys : Node.isPhysical n = false := decide_eq_false (Nat.not_lt.2 hvirtual)
  have hlt : n < c.colors.size := by rw [hplan.colors, hclasses.size_colors]; exact hknown
  set c₁ : Coloring := { c with stacked, colors := c.colors.setIfInBounds n (some r) } with hc₁
  have hplan₁ : SamePlan c₀ c₁ := hplan.trans (by constructor <;> simp [hc₁])
  have halias : ∀ k, c₁.aliasOf k = c₀.aliasOf k := hplan₁.aliasOf
  have hcolor : ∀ k, c₁.colorOf? k = if k = n then some r else c.colorOf? k := colorOf?_set hphys hlt
  -- A node that must differ from the new one is still without a colour or was looked at.
  have hnew : ∀ a b, c₀.graph.adjacent a b = true → c₀.aliasOf a = n →
      c.colorOf? (c₀.aliasOf b) ≠ some r := by
    intro a b hab ha hb
    by_cases hrest : c₀.aliasOf b ∈ rest
    · obtain ⟨hvirt, -, -⟩ := hclasses.stacked_ok (c₀.aliasOf b)
        ((hclasses.mem_stack _).1 (by rw [hstack]; simp [hrest]))
      have hnone := h.waiting _ (List.mem_cons_of_mem n hrest)
      rw [colorOf?, if_neg (by simpa [Node.isPhysical] using hvirt), hnone] at hb
      cases hb
    · obtain ⟨w, hw, hwb⟩ := hclasses.seen a b hab before rest (by rw [hstack, ha]) hrest
      have hused : (c.usedColors n).contains r = true := by
        refine contains_usedColors.2 ⟨w, ?_, ?_⟩
        · rw [hplan.graph, ← ha]
          exact hw
        · rw [hplan.aliasOf, hwb]
          exact hb
      exact Bool.noConfusion (hfree.symm.trans hused)
  refine ⟨fun a b q hab ha hb => ?_, fun k q hq => ?_, fun k hk => ?_⟩
  · change c.graph.adjacent a b = true at hab
    rw [hplan.graph] at hab
    have hne := hclasses.apart a b hab
    rw [halias, hcolor] at ha hb
    by_cases han : c₀.aliasOf a = n
    · rw [if_pos han] at ha
      rw [if_neg fun hbn => hne (han.trans hbn.symm)] at hb
      obtain rfl := Option.some.inj ha
      exact hnew a b hab han hb
    · rw [if_neg han] at ha
      by_cases hbn : c₀.aliasOf b = n
      · rw [if_pos hbn] at hb
        obtain rfl := Option.some.inj hb
        exact hnew b a (hclasses.simple.symm hab) hbn ha
      · rw [if_neg hbn] at hb
        rw [← hplan.aliasOf] at ha hb
        exact h.separated a b q (hplan.graph ▸ hab) ha hb
  · rw [hc₁, Liveness.getD_setIfInBounds] at hq
    split at hq
    · obtain rfl := Option.some.inj hq
      exact hbudget
    · exact h.inBudget k q hq
  · have hkn : n ≠ k := by
      rintro rfl
      have hnodup := hclasses.nodup
      rw [hstack, List.nodup_append] at hnodup
      exact (List.nodup_cons.1 hnodup.2.1).1 hk
    rw [hc₁, Liveness.getD_setIfInBounds, if_neg fun h => hkn h.1]
    exact h.waiting k (List.mem_cons_of_mem n hk)

/-- Nodes that were given up stay given up. -/
theorem contains_of_assignColors : ∀ {spilled spilled' : NatSet} {c c' : Coloring},
      assignColors function stack spilled c = .ok (spilled', c') →
      ∀ k, spilled.contains k = true → spilled'.contains k = true := by
  induction stack with
  | nil =>
    intro spilled spilled' c c' h k hk
    cases h
    exact hk
  | cons n rest ih =>
    intro spilled spilled' c c' h k hk
    rw [assignColors] at h
    dsimp only at h
    have hinsert : ∀ v, (spilled.insert v).contains k = true := fun v =>
      (contains_insert_iff spilled v k).2 (.inl hk)
    split at h
    · exact ih h k hk
    · split at h
      · split at h
        · exact ih h k (hinsert _)
        · cases h
      · exact ih h k (hinsert _)

/-- A neighbour that gives up its colour is a known virtual node, and no spill temporary. -/
theorem victim?_spec {v : Nat} (h : c.victim? n = some v) : ∃ w, c.graph.adjacent n w = true ∧
    v = c.aliasOf w ∧ Node.isPhysical v = false ∧ c.temps.contains v = false := by
  have hmem := mem_of_best? h
  rw [List.mem_filter, List.mem_map] at hmem
  obtain ⟨⟨w, hw, rfl⟩, hcond⟩ := hmem
  simp only [Bool.and_eq_true, Bool.not_eq_true'] at hcond
  exact ⟨w, NatSet.mem_toList.1 hw, rfl, hcond.1.1, hcond.1.2⟩

/-- A node that may be given up: a known virtual one that is no spill temporary and takes part in some edge. -/
structure Dispensable (c : Coloring) (k : Nat) : Prop where
  virtual : Node.firstVirtual ≤ k
  known : k < c.degree.size
  plain : c.temps.contains k = false
  within : ∀ nodes, c.Confined nodes → nodes k

/-- A node for which no register is left has a neighbour. -/
theorem exists_adjacent_of_lowestOutside? (hbudget : 0 < c.budget.size)
    (h : c.budget.lowestOutside? (c.usedColors n) = none) : ∃ w, c.graph.adjacent n w = true := by
  obtain ⟨r, hr⟩ := List.exists_mem_of_length_pos hbudget
  rw [RegisterSet.lowestOutside?, List.find?_eq_none] at h
  obtain ⟨w, hw, -⟩ := contains_usedColors.1 (by simpa using h r hr)
  exact ⟨w, hw⟩

/-- Handing out colours changes the colours only; only nodes that may be given up are. -/
theorem assignColors_spec (hclasses : c₀.Classes) (hbudget : 0 < c₀.budget.size) (hstack : ∀ n ∈ stack, n ∈ c₀.stack) :
    ∀ {spilled spilled' : NatSet} {c c' : Coloring}, SamePlan c₀ c →
      assignColors function stack spilled c = .ok (spilled', c') →
      SamePlan c₀ c' ∧ ∀ k, spilled'.contains k = true → spilled.contains k = true ∨ c₀.Dispensable k := by
  induction stack with
  | nil =>
    intro spilled spilled' c c' hplan h
    cases h
    exact ⟨hplan, fun k hk => .inl hk⟩
  | cons n rest ih =>
    intro spilled spilled' c c' hplan h
    have hrest : ∀ k ∈ rest, k ∈ c₀.stack := fun k hk => hstack k (List.mem_cons_of_mem _ hk)
    obtain ⟨hvirtual, hknown, -⟩ := hclasses.stacked_ok n
      ((hclasses.mem_stack n).1 (hstack n List.mem_cons_self))
    have hinsert : ∀ {v : Nat}, c₀.Dispensable v → (∀ k, spilled'.contains k = true →
        (spilled.insert v).contains k = true ∨ c₀.Dispensable k) → ∀ k, spilled'.contains k = true →
          spilled.contains k = true ∨ c₀.Dispensable k := by
      intro v hv hall k hk
      rcases hall k hk with hk | hk
      · rcases (contains_insert_iff spilled v k).1 hk with hk | rfl
        · exact .inl hk
        · exact .inr hv
      · exact .inr hk
    rw [assignColors] at h
    dsimp only at h
    split at h
    · exact ih hrest (hplan.trans (by constructor <;> simp)) h
    · rename_i hnone
      have hplan₁ : SamePlan c₀ { c with stacked := c.stacked.erase n } :=
        hplan.trans (by constructor <;> rfl)
      split at h
      · split at h
        · rename_i v hv
          obtain ⟨hplan', hall⟩ := ih hrest hplan₁ h
          obtain ⟨w, hw, rfl, hphys, htemp⟩ := victim?_spec hv
          have hw' : c₀.graph.adjacent n w = true := by
            rw [← hplan.graph]
            exact hw
          rw [hplan₁.aliasOf] at hphys htemp hall
          refine ⟨hplan', hinsert ⟨by simpa [Node.isPhysical] using hphys, ?_, ?_, fun nodes hc => ?_⟩ hall⟩
          · refine hclasses.alias_lt w ?_
            rw [← hclasses.size_graph]
            exact hclasses.simple.bound (hclasses.simple.symm hw')
          · rw [← hplan.temps]
            exact htemp
          · exact hc.merged w (hc.graph.edges w n (hclasses.simple.symm hw'))
        · cases h
      · rename_i htemp
        obtain ⟨hplan', hall⟩ := ih hrest hplan₁ h
        refine ⟨hplan', hinsert ⟨hvirtual, hknown, ?_, fun nodes hc => ?_⟩ hall⟩
        · rw [← hplan.temps]
          simpa using htemp
        · obtain ⟨w, hw⟩ := exists_adjacent_of_lowestOutside? (by rw [hplan₁.budget]; exact hbudget) hnone
          rw [hplan₁.graph] at hw
          exact hc.graph.edges n w hw

/-- When no node is given up, the next node gets a colour that is not in use around it. -/
theorem exists_color_of_assignColors {n : Nat} {spilled spilled' : NatSet} {c c' : Coloring}
    (h : assignColors function (n :: stack) spilled c = .ok (spilled', c')) (hempty : spilled'.isEmpty = true) :
    ∃ r, c.budget.lowestOutside? (c.usedColors n) = some r ∧
      assignColors function stack spilled
        { c with stacked := c.stacked.erase n, colors := c.colors.setIfInBounds n (some r) } = .ok (spilled', c') := by
  have hgone : ∀ {v : Nat} {d : Coloring}, assignColors function stack (spilled.insert v) d =
      .ok (spilled', c') → False := by
    intro v d hd
    have hv := contains_of_assignColors hd v ((contains_insert_iff spilled v v).2 (.inr rfl))
    exact Bool.noConfusion ((NatSet.isEmpty_iff.1 hempty v).symm.trans hv)
  rw [assignColors] at h
  dsimp only at h
  split at h
  · rename_i r hr
    rw [usedColors_stacked] at hr
    exact ⟨r, hr, h⟩
  · split at h
    · split at h
      · exact (hgone h).elim
      · cases h
    · exact (hgone h).elim

/-- When no node was given up, adjacent nodes have different colours and all colours are of the
budget. -/
theorem separated_assignColors (hclasses : c₀.Classes) :
    ∀ (before : List Nat) {spilled spilled' : NatSet} {c c' : Coloring},
      c₀.stack = before ++ stack → SamePlan c₀ c → c.Colored stack →
      assignColors function stack spilled c = .ok (spilled', c') → spilled'.isEmpty = true →
      c'.Colored [] := by
  induction stack with
  | nil =>
    intro before spilled spilled' c c' _ _ hcolored h _
    cases h
    exact hcolored
  | cons n rest ih =>
    intro before spilled spilled' c c' hstack hplan hcolored h hempty
    obtain ⟨r, hr, h⟩ := exists_color_of_assignColors h hempty
    refine ih (before ++ [n]) (by simpa using hstack) (hplan.trans ?_)
      (hcolored.color hclasses hplan hstack hr) h hempty
    constructor <;> simp

/-- The registers of the virtual registers are the colours of the nodes that stand for them. -/
theorem assignment_spec (h : c.assignment function = .ok registers) :
    registers.map some = (List.range' Node.firstVirtual (c.degree.size - Node.firstVirtual)).map
      fun n => c.colorOf? (c.aliasOf n) := by
  refine Outcome.map_of_mapM (fun n r hr => ?_) h
  cases hn : c.colorOf? (c.aliasOf n) with
  | none =>
    rw [hn] at hr
    cases hr
  | some q =>
    rw [hn] at hr
    cases hr
    rfl

end Coloring

/-- The register that a node gets. -/
def nodeRegister? (registers : List Register) (x : Nat) : Option Register :=
  if Node.isPhysical x then Register.ofNat? x else registers[x - Node.firstVirtual]?

/-- A physical register keeps its place. -/
theorem nodeRegister?_register (registers : List Register) (r : Register) :
    nodeRegister? registers r.toNat = some r := by
  have hphys : Node.isPhysical r.toNat = true := decide_eq_true r.index.isLt
  rw [nodeRegister?, if_pos hphys, Register.ofNat?_toNat]

/-- The register of a virtual register. -/
theorem nodeRegister?_virtual (registers : List Register) (n : Nat) :
    nodeRegister? registers (Node.firstVirtual + n) = registers[n]? := by
  rw [nodeRegister?, if_neg (by simp [Node.isPhysical]), Nat.add_sub_cancel_left]

/-- Registers for the virtual registers of a function that keep apart what is live at the same time: a
node that is written gets another register than any node that is live behind the instruction, the
source of a copy apart. -/
structure Separates (mf : MachineFunction) (budget : RegisterSet) (registers : List Register) : Prop where
  length : registers.length = mf.vregCount
  inBudget : ∀ r ∈ registers, budget.contains r = true
  known : ∀ i ∈ mf.placedInsts, ∀ x ∈ i.defNodes budget ++ i.useNodes budget,
    x < Interference.nodeCount mf
  apart : ∀ b pre i rest, mf.instsOf b = pre ++ i :: rest → ∀ d ∈ i.defNodes budget, ∀ x,
    mf.LiveFrom budget x rest → x ≠ d →
    (∀ c s, Interference.copyNodes? budget i = some (c, s) → x ≠ s) →
    nodeRegister? registers x ≠ nodeRegister? registers d

namespace Coloring

variable {c : Coloring} {mf : MachineFunction}

variable {c₀ : Coloring} {g : Interference} {l : Liveness} {spilled : NatSet} {budget : RegisterSet}

/-- The register of a node is the colour of the node that stands for it. -/
theorem nodeRegister?_eq (hclasses : c₀.Classes) (hplan : SamePlan c₀ c) (h : c.assignment function = .ok registers)
    {x : Nat} (hx : x < c.degree.size) : nodeRegister? registers x = c.colorOf? (c.aliasOf x) := by
  unfold nodeRegister?
  split
  · rename_i hphys
    rw [hplan.aliasOf, Classes.aliasOf_of_unmerged (hclasses.unmerged_of_isPhysical hphys), colorOf?,
      if_pos hphys]
  · rename_i hphys
    have hvirtual : Node.firstVirtual ≤ x := by simpa [Node.isPhysical] using hphys
    have hspec := congrArg (fun l => l[x - Node.firstVirtual]?) (assignment_spec h)
    simp only [List.getElem?_map, List.getElem?_range' (show x - Node.firstVirtual <
      c.degree.size - Node.firstVirtual by omega), Option.map_some, Nat.one_mul,
      Nat.add_sub_cancel' hvirtual] at hspec
    cases hr : registers[x - Node.firstVirtual]? with
    | none =>
      rw [hr] at hspec
      cases hspec
    | some r =>
      rw [hr] at hspec
      exact Option.some.inj hspec

/-- Nodes that interfere have different registers once all have colours. -/
theorem apart_of_adjacent (hclasses : c₀.Classes) (hplan : SamePlan c₀ c) (hcolored : c.Colored [])
    (h : c.assignment function = .ok registers) {x d : Nat} (hadj : c.graph.adjacent x d = true) :
    ∃ r r', nodeRegister? registers x = some r ∧ nodeRegister? registers d = some r' ∧ r ≠ r' := by
  have hadj₀ : c₀.graph.adjacent x d = true := by rw [← hplan.graph]; exact hadj
  have hsize : c₀.graph.neighbours.size = c.degree.size := hclasses.size_graph.trans hplan.size.symm
  have hx : x < c.degree.size := hsize ▸ hclasses.simple.bound hadj₀
  have hd : d < c.degree.size := hsize ▸ hclasses.simple.bound (hclasses.simple.symm hadj₀)
  have hsome : ∀ y, y < c.degree.size → ∃ r, nodeRegister? registers y = some r := by
    intro y hy
    unfold nodeRegister?
    split
    · rename_i hphys
      have hlt : y < 32 := of_decide_eq_true hphys
      exact ⟨_, by rw [Register.ofNat?, dif_pos hlt]⟩
    · rename_i hphys
      have hvirtual : Node.firstVirtual ≤ y := by simpa [Node.isPhysical] using hphys
      have hlength := congrArg List.length (assignment_spec h)
      rw [List.length_map, List.length_map, List.length_range'] at hlength
      exact ⟨_, List.getElem?_eq_getElem (by omega)⟩
  obtain ⟨r, hr⟩ := hsome x hx
  obtain ⟨r', hr'⟩ := hsome d hd
  refine ⟨r, r', hr, hr', ?_⟩
  rintro rfl
  rw [nodeRegister?_eq hclasses hplan h hx] at hr
  rw [nodeRegister?_eq hclasses hplan h hd] at hr'
  exact hcolored.separated x d r hadj hr hr'

/-- A round that finds registers finds one for each virtual register. -/
theorem length_of_assignment (hsize : c.degree.size = Interference.nodeCount mf)
    (h : c.assignment function = .ok registers) : registers.length = mf.vregCount := by
  have hlength := congrArg List.length (assignment_spec h)
  rwa [List.length_map, List.length_map, List.length_range', hsize, Interference.nodeCount,
    Nat.add_sub_cancel_left] at hlength

section

variable (hbudget : 0 < budget.size) (hl : Liveness.ofFunction mf budget = .ok l)
    (hg : Interference.ofFunction mf budget l = .ok g)
    (hcolors : assignColors mf.name (start mf budget g).run.stack .empty (start mf budget g).run = .ok (spilled, c))

include hbudget hl hg hcolors

/-- All nodes of the function are there when a round has handed out its colours. -/
theorem size_of_round : c.degree.size = Interference.nodeCount mf := by
  obtain ⟨hbuilt, -, -⟩ := Interference.ofFunction_spec (Liveness.sound_of_ofFunction hl) hg
  obtain ⟨hrun, hgrows⟩ := sound_run mf hbuilt (Nat.le_add_right _ _) hbudget
  obtain ⟨hplan, -⟩ := assignColors_spec hrun.classes (hgrows.budget ▸ hbudget) (fun _ hn => hn) (SamePlan.refl _)
    hcolors
  rw [hplan.size, hgrows.size, ← hbuilt.size]
  exact Array.size_ofFn

/-- A round that leaves no node without a colour keeps apart what is live at the same time, and all nodes
that interfere. -/
theorem separates_of_round (htail : mf.TailLocal budget) (hempty : spilled.isEmpty = true) (hassign : c.assignment mf.name = .ok registers) :
    Separates mf budget registers ∧
      ∀ x d, c.graph.adjacent x d = true →
        ∃ r r', nodeRegister? registers x = some r ∧ nodeRegister? registers d = some r' ∧ r ≠ r' := by
  have hsound := Liveness.sound_of_ofFunction hl
  obtain ⟨hbuilt, hknown, hedges⟩ := Interference.ofFunction_spec hsound hg
  obtain ⟨hrun, hgrows⟩ := sound_run mf hbuilt (Nat.le_add_right _ _) hbudget
  obtain ⟨hplan, -⟩ := assignColors_spec hrun.classes (hgrows.budget ▸ hbudget) (fun _ hn => hn) (SamePlan.refl _)
    hcolors
  have hcolored := separated_assignColors hrun.classes [] rfl (SamePlan.refl _)
    (hrun.classes.colored _) hcolors hempty
  have hsize := size_of_round hbudget hl hg hcolors
  have hspec := assignment_spec hassign
  have hapart := fun x d => apart_of_adjacent (x := x) (d := d) hrun.classes hplan hcolored hassign
  refine ⟨⟨length_of_assignment hsize hassign, ?_, hknown, ?_⟩, hapart⟩
  · intro r hr
    have hmem : some r ∈ registers.map some := List.mem_map.2 ⟨r, hr, rfl⟩
    rw [hspec, List.mem_map] at hmem
    obtain ⟨n, hn, hcolor⟩ := hmem
    rw [List.mem_range'_1] at hn
    rw [hplan.aliasOf] at hcolor
    unfold colorOf? at hcolor
    split at hcolor
    · have hr' := Register.ofNat?_eq_some_iff.1 hcolor
      have hin := hrun.classes.alias_budget n hn.1 r hr'.symm
      rw [hgrows.budget] at hin
      exact hin
    · have hin := hcolored.inBudget _ r hcolor
      rw [hplan.budget, hgrows.budget] at hin
      exact hin
  · intro b pre i rest hb d hd x hlive hxd hcopy heq
    have hhere : (l.here budget b rest).contains x = true :=
      Liveness.contains_of_liveFrom hsound htail hlive b (pre ++ [i]) (by simpa using hb)
    have hadj' : c.graph.adjacent x d = true := by
      rw [hplan.graph]
      exact hgrows.edges x d (hedges b pre i rest hb d hd x hhere hxd hcopy)
    obtain ⟨r, r', hr, hr', hne⟩ := hapart x d hadj'
    rw [hr, hr'] at heq
    exact hne (Option.some.inj heq)

end

end Coloring

end SsaCompiler
