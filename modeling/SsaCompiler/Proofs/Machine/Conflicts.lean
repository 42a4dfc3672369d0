import SsaCompiler.Proofs.Machine.PathLiveness
import Mathlib.Data.List.Infix

/-!
# What the interference graph holds

The graph is simple: edges go both ways between different known nodes. The main statement is
`adjacent_of_live`: when an instruction writes a node while another one is live behind it, and the
instruction is no copy of the latter, the two are adjacent. The graph may hold more edges.
-/

set_option autoImplicit false

namespace SsaCompiler

/-- Reading a cell of an array after changing one. -/
theorem getD_modify {α : Type} (a : Array α) (i j : Nat) (f : α → α) (d : α) :
    (a.modify i f).getD j d = if i = j ∧ i < a.size then f (a.getD j d) else a.getD j d := by
  simp only [Array.getD_eq_getD_getElem?, Array.getElem?_modify]
  by_cases hij : i = j
  · subst hij
    by_cases hi : i < a.size
    · simp [hi]
    · simp [hi]
  · simp [hij]

namespace Interference

/-- Edges go both ways between different nodes below a bound. -/
structure Simple (g : Interference) : Prop where
  symm : ∀ {a b}, g.adjacent a b = true → g.adjacent b a = true
  irrefl : ∀ {a b}, g.adjacent a b = true → a ≠ b
  bound : ∀ {a b}, g.adjacent a b = true → a < g.neighbours.size

/-- All edges of one graph are in another. -/
def Extends (g g' : Interference) : Prop := ∀ a b, g.adjacent a b = true → g'.adjacent a b = true

/-- A new edge changes no number of nodes. -/
theorem size_connect (g : Interference) (u v : Nat) : (g.connect u v).neighbours.size = g.neighbours.size := by
  unfold connect
  split <;> simp

variable {g : Interference} {l : Liveness} {mf : MachineFunction} {n : Nat} {budget : RegisterSet}

variable {u v : Nat}

/-- The edges after adding one. -/
theorem adjacent_connect (hu : u < g.neighbours.size) (hv : v < g.neighbours.size) (a b : Nat) :
    (g.connect u v).adjacent a b = true ↔
      g.adjacent a b = true ∨ (u ≠ v ∧ ((a = u ∧ b = v) ∨ (a = v ∧ b = u))) := by
  unfold connect
  split
  · rename_i heq
    simp [heq]
  · rename_i hne
    simp only [adjacent, getD_modify, Array.size_modify, hu, hv, and_true]
    by_cases hva : v = a
    · subst hva
      have huv : ¬ u = v := hne
      simp only [if_true, huv, if_false, NatSet.contains_insert, Bool.or_eq_true, beq_iff_eq]
      constructor
      · rintro (h | rfl)
        · exact .inl h
        · exact .inr ⟨hne, .inr ⟨trivial, rfl⟩⟩
      · rintro (h | ⟨-, ⟨rfl, -⟩ | ⟨-, rfl⟩⟩)
        · exact .inl h
        · exact absurd rfl hne
        · exact .inr rfl
    · simp only [hva, if_false]
      by_cases hua : u = a
      · subst hua
        simp only [if_true, NatSet.contains_insert, Bool.or_eq_true, beq_iff_eq]
        constructor
        · rintro (h | rfl)
          · exact .inl h
          · exact .inr ⟨hne, .inl ⟨trivial, rfl⟩⟩
        · rintro (h | ⟨-, ⟨-, rfl⟩ | ⟨h, -⟩⟩)
          · exact .inl h
          · exact .inr rfl
          · exact absurd h hne
      · simp only [hua, if_false]
        constructor
        · exact .inl
        · rintro (h | ⟨-, ⟨rfl, -⟩ | ⟨rfl, -⟩⟩)
          · exact h
          · exact absurd rfl hua
          · exact absurd rfl hva

/-- A new edge keeps the old ones. -/
theorem extends_connect (hu : u < g.neighbours.size) (hv : v < g.neighbours.size) : g.Extends (g.connect u v) :=
  fun a b h => (adjacent_connect hu hv a b).2 (.inl h)

/-- A new edge between known nodes keeps the graph simple. -/
theorem Simple.connect (hg : g.Simple) (hu : u < g.neighbours.size) (hv : v < g.neighbours.size) :
    (g.connect u v).Simple := by
  refine ⟨?_, ?_, ?_⟩
  · intro a b h
    rw [adjacent_connect hu hv] at h ⊢
    rcases h with h | ⟨hne, h⟩
    · exact .inl (hg.symm h)
    · exact .inr ⟨hne, h.symm.imp (fun h => ⟨h.2, h.1⟩) (fun h => ⟨h.2, h.1⟩)⟩
  · intro a b h
    rw [adjacent_connect hu hv] at h
    rcases h with h | ⟨hne, ⟨rfl, rfl⟩ | ⟨rfl, rfl⟩⟩
    · exact hg.irrefl h
    · exact hne
    · exact hne.symm
  · intro a b h
    rw [adjacent_connect hu hv] at h
    rw [size_connect]
    rcases h with h | ⟨-, ⟨rfl, -⟩ | ⟨rfl, -⟩⟩
    · exact hg.bound h
    · exact hu
    · exact hv

/-- What taking more instructions into a graph of `n` nodes keeps. -/
structure Built (budget : RegisterSet) (n : Nat) (g : Interference) : Prop where
  size : g.neighbours.size = n
  simple : g.Simple
  /-- Copies are between known nodes. -/
  moves_lt : ∀ p ∈ g.moves, p.1 < n ∧ p.2 < n
  /-- Physical registers in copies belong to the budget. -/
  moves_budget : ∀ p ∈ g.moves, ∀ r : Register, r.toNat = p.1 ∨ r.toNat = p.2 →
    budget.contains r = true

/-- A graph with edges from one node to some others. -/
theorem connect_foldl (d : Nat) (hd : d < n) (live : List Nat) (hlive : ∀ x ∈ live, x < n) (g : Interference)
    (hg : Built budget n g) : Built budget n (live.foldl (fun g x => g.connect x d) g) ∧
      g.Extends (live.foldl (fun g x => g.connect x d) g) ∧
      ∀ x ∈ live, x ≠ d → (live.foldl (fun g x => g.connect x d) g).adjacent x d = true := by
  induction live generalizing g with
  | nil => exact ⟨hg, fun _ _ h => h, by simp⟩
  | cons y live ih =>
    have hy : y < g.neighbours.size := hg.size ▸ hlive y List.mem_cons_self
    have hd' : d < g.neighbours.size := hg.size ▸ hd
    have hmoves : (g.connect y d).moves = g.moves := by unfold connect; split <;> rfl
    have hg' : Built budget n (g.connect y d) :=
      ⟨(size_connect g y d).trans hg.size, hg.simple.connect hy hd',
        hmoves ▸ hg.moves_lt, hmoves ▸ hg.moves_budget⟩
    obtain ⟨hbuilt, hext, hedges⟩ := ih (fun x hx => hlive x (List.mem_cons_of_mem _ hx)) _ hg'
    refine ⟨hbuilt, fun a b h => hext a b (extends_connect hy hd' a b h), ?_⟩
    intro x hx hne
    rcases List.mem_cons.1 hx with rfl | hx
    · exact hext x d ((adjacent_connect hy hd' x d).2 (.inr ⟨hne, .inl ⟨rfl, rfl⟩⟩))
    · exact hedges x hx hne

/-- A graph with edges from each of some nodes to the members of a set. -/
theorem connectAll_spec (nodes : List Nat) (live : NatSet) (hnodes : ∀ d ∈ nodes, d < n)
    (hlive : ∀ x, live.contains x = true → x < n) (g : Interference) (hg : Built budget n g) :
    Built budget n (g.connectAll nodes live) ∧ g.Extends (g.connectAll nodes live) ∧
      ∀ d ∈ nodes, ∀ x, live.contains x = true → x ≠ d →
        (g.connectAll nodes live).adjacent x d = true := by
  induction nodes generalizing g with
  | nil => exact ⟨hg, fun _ _ h => h, by simp⟩
  | cons d nodes ih =>
    obtain ⟨hb, he, hedges⟩ := connect_foldl d (hnodes d List.mem_cons_self) live.toList
      (fun x hx => hlive x (NatSet.mem_toList.1 hx)) g hg
    obtain ⟨hb', he', hedges'⟩ := ih (fun x hx => hnodes x (List.mem_cons_of_mem _ hx)) _ hb
    refine ⟨hb', fun a b h => he' a b (he a b h), ?_⟩
    intro c hc x hx hne
    rcases List.mem_cons.1 hc with rfl | hc
    · exact he' x c (hedges x (NatSet.mem_toList.2 hx) hne)
    · exact hedges' c hc x hx hne

/-- The nodes of a register that takes part belong to the budget. -/
theorem contains_of_ofOperand {op : Operand} {x : Nat} (h : Node.ofOperand? budget op = some x) {r : Register}
    (hr : r.toNat = x) : budget.contains r = true := by
  have hlt : r.toNat < 32 := r.index.isLt
  cases op with
  | virtual n =>
    simp only [Node.ofOperand?, Node.firstVirtual, Option.some.injEq] at h
    omega
  | immediate c => cases h
  | fixed q | allocated q =>
    simp only [Node.ofOperand?] at h
    split at h
    · cases h
      rename_i hq
      rwa [Register.toNat_inj.1 hr]
    · cases h

/-- The nodes live before an instruction do not depend on the graph. -/
theorem scanInst_snd (budget : RegisterSet) (depth : Nat) (i : Instr) (g : Interference)
    (live : NatSet) : (scanInst budget depth i (g, live)).2 = Liveness.before budget i live := by
  unfold scanInst Liveness.before
  cases copyNodes? budget i <;> rfl

/-- What one instruction does to the graph. -/
theorem scanInst_spec (depth : Nat) {i : Instr} {live : NatSet} (hg : Built budget n g)
    (hi : ∀ x ∈ i.defNodes budget ++ i.useNodes budget, x < n) (hlive : ∀ x, live.contains x = true → x < n) :
    Built budget n (scanInst budget depth i (g, live)).1 ∧
      g.Extends (scanInst budget depth i (g, live)).1 ∧
      ∀ d ∈ i.defNodes budget, ∀ x, live.contains x = true → x ≠ d →
        (∀ c s, copyNodes? budget i = some (c, s) → x ≠ s) →
        (scanInst budget depth i (g, live)).1.adjacent x d = true := by
  have hdefs : ∀ d ∈ i.defNodes budget, d < n := fun d hd => hi d (List.mem_append_left _ hd)
  cases hcopy : copyNodes? budget i with
  | none =>
    have heq : (scanInst budget depth i (g, live)).1 =
        ((g.connectAll (i.defNodes budget) ((i.defNodes budget).foldl NatSet.insert live)).weigh
          (i.defNodes budget) depth).weigh (i.useNodes budget) depth := by
      unfold scanInst
      rw [hcopy]
    obtain ⟨hb, he, hedges⟩ := connectAll_spec (i.defNodes budget)
      ((i.defNodes budget).foldl NatSet.insert live) hdefs
      (fun x hx => ((NatSet.contains_foldl_insert _ _ _).1 hx).elim (hlive x) (hdefs x)) g hg
    rw [heq]
    refine ⟨⟨hb.size, ⟨hb.simple.symm, hb.simple.irrefl, hb.simple.bound⟩, hb.moves_lt, hb.moves_budget⟩,
      he, ?_⟩
    intro d hd x hx hne _
    exact hedges d hd x ((NatSet.contains_foldl_insert _ _ _).2 (.inl hx)) hne
  | some p =>
    obtain ⟨c, s⟩ := p
    have heq : (scanInst budget depth i (g, live)).1 =
        ((({ g with moves := g.moves.push (c, s) } : Interference).connectAll (i.defNodes budget)
          ((i.defNodes budget).foldl NatSet.insert (live.erase s))).weigh
          (i.defNodes budget) depth).weigh (i.useNodes budget) depth := by
      unfold scanInst
      rw [hcopy]
    obtain ⟨hdef, huse⟩ := Liveness.mem_useNodes_of_copyNodes hcopy
    have hc : c < n := hdefs c (by simp [hdef])
    have hs : s < n := hi s (List.mem_append_right _ (by simp [huse]))
    have hpush : Built budget n { g with moves := g.moves.push (c, s) } := by
      refine ⟨hg.size, ⟨hg.simple.symm, hg.simple.irrefl, hg.simple.bound⟩, ?_, ?_⟩
      · intro p hp
        rcases Array.mem_push.1 hp with hp | rfl
        · exact hg.moves_lt p hp
        · exact ⟨hc, hs⟩
      · intro p hp r hr
        rcases Array.mem_push.1 hp with hp | rfl
        · exact hg.moves_budget p hp r hr
        · have hcmem : c ∈ i.defNodes budget := by simp [hdef]
          have hsmem : s ∈ i.useNodes budget := by simp [huse]
          obtain ⟨op, -, hop⟩ := List.mem_filterMap.1 hcmem
          obtain ⟨op', -, hop'⟩ := List.mem_filterMap.1 hsmem
          rcases hr with hr | hr
          · exact contains_of_ofOperand hop hr
          · exact contains_of_ofOperand hop' hr
    have hlive' : ∀ x, ((i.defNodes budget).foldl NatSet.insert (live.erase s)).contains x = true →
        x < n := by
      intro x hx
      rcases (NatSet.contains_foldl_insert _ _ _).1 hx with hx | hx
      · rw [NatSet.contains_erase, Bool.and_eq_true] at hx
        exact hlive x hx.1
      · exact hdefs x hx
    obtain ⟨hb, he, hedges⟩ := connectAll_spec (i.defNodes budget) _ hdefs hlive' _ hpush
    rw [heq]
    refine ⟨⟨hb.size, ⟨hb.simple.symm, hb.simple.irrefl, hb.simple.bound⟩, hb.moves_lt, hb.moves_budget⟩,
      he, ?_⟩
    intro d hd x hx hne hx'
    refine hedges d hd x ((NatSet.contains_foldl_insert _ _ _).2 (.inl ?_)) hne
    rw [NatSet.contains_erase, Bool.and_eq_true, bne_iff_ne]
    exact ⟨hx, fun h => hx' c s rfl h.symm⟩

/-- What the instructions of a block, taken from the last to the first, do to the graph. -/
theorem scanCode_spec (depth : Nat) (code : List Instr) {out : NatSet} (hg : Built budget n g)
    (hcode : ∀ i ∈ code, ∀ x ∈ i.defNodes budget ++ i.useNodes budget, x < n)
    (hout : ∀ x, out.contains x = true → x < n) : Built budget n (code.foldr (scanInst budget depth) (g, out)).1 ∧
      g.Extends (code.foldr (scanInst budget depth) (g, out)).1 ∧
      (code.foldr (scanInst budget depth) (g, out)).2 = Liveness.beforeAll budget code out ∧
      (∀ x, (Liveness.beforeAll budget code out).contains x = true → x < n) ∧
      ∀ pre i rest, code = pre ++ i :: rest → ∀ d ∈ i.defNodes budget, ∀ x,
        (Liveness.beforeAll budget rest out).contains x = true → x ≠ d →
        (∀ c s, copyNodes? budget i = some (c, s) → x ≠ s) →
        (code.foldr (scanInst budget depth) (g, out)).1.adjacent x d = true := by
  induction code with
  | nil => exact ⟨hg, fun _ _ h => h, rfl, hout, by simp⟩
  | cons j code ih =>
    obtain ⟨hb, he, hlive, hbound, hedges⟩ := ih fun i hi => hcode i (List.mem_cons_of_mem _ hi)
    have hj := hcode j List.mem_cons_self
    have hstate : code.foldr (scanInst budget depth) (g, out) =
        ((code.foldr (scanInst budget depth) (g, out)).1, Liveness.beforeAll budget code out) := by
      rw [← hlive]
    obtain ⟨hb', he', hedges'⟩ := scanInst_spec depth hb hj hbound
    rw [← hstate] at hb' he' hedges'
    refine ⟨hb', fun a b h => he' a b (he a b h), ?_, ?_, ?_⟩
    · rw [List.foldr_cons, hstate, scanInst_snd]
      rfl
    · intro x hx
      rcases Liveness.contains_before.1 hx with hx | ⟨hx, -⟩
      · exact hj x (List.mem_append_right _ hx)
      · exact hbound x hx
    · intro pre i rest hsplit d hd x hx hne hcopy
      rcases List.cons_eq_append_iff.1 hsplit with ⟨rfl, heq⟩ | ⟨pre', rfl, heq⟩
      · obtain ⟨rfl, rfl⟩ := List.cons.inj heq
        exact hedges' d hd x hx hne hcopy
      · exact he' x d (hedges pre' i rest heq d hd x hx hne hcopy)

/-- What taking blocks into the graph does to it. -/
theorem scanBlocks_spec (hcode : ∀ i ∈ mf.placedInsts, ∀ x ∈ i.defNodes budget ++ i.useNodes budget, x < n)
    (hout : ∀ b x, (l.liveOut.getD b .empty).contains x = true → x < n) (blocks : List Nat) (hg : Built budget n g) :
    Built budget n (blocks.foldl (scanBlock budget l mf) g) ∧
      g.Extends (blocks.foldl (scanBlock budget l mf) g) ∧
      ∀ b ∈ blocks, ∀ pre i rest, mf.instsOf b = pre ++ i :: rest → ∀ d ∈ i.defNodes budget, ∀ x,
        (l.here budget b rest).contains x = true → x ≠ d →
        (∀ c s, copyNodes? budget i = some (c, s) → x ≠ s) →
        (blocks.foldl (scanBlock budget l mf) g).adjacent x d = true := by
  induction blocks generalizing g with
  | nil => exact ⟨hg, fun _ _ h => h, by simp⟩
  | cons a blocks ih =>
    obtain ⟨hb, he, -, -, hedges⟩ := scanCode_spec ((mf.block a).loopDepth % weightLimit)
      (mf.instsOf a) hg (fun i hi => hcode i (MachineFunction.mem_placedInsts.2 ⟨a, hi⟩)) (hout a)
    obtain ⟨hb', he', hedges'⟩ := ih hb
    refine ⟨hb', fun u v h => he' u v (he u v h), ?_⟩
    intro b hbmem pre i rest hsplit d hd x hx hne hcopy
    rcases List.mem_cons.1 hbmem with rfl | hbmem
    · exact he' x d (hedges pre i rest hsplit d hd x hx hne hcopy)
    · exact hedges' b hbmem pre i rest hsplit d hd x hx hne hcopy

/-- The blank graph has no edges. -/
theorem built_blank (budget : RegisterSet) (n : Nat) : Built budget n (blank n) := by
  have hnone : ∀ a b, (blank n).adjacent a b = false := by
    intro a b
    simp only [blank, adjacent, Array.getD_eq_getD_getElem?, Array.getElem?_replicate]
    split <;> simp
  refine ⟨by simp [blank], ⟨?_, ?_, ?_⟩, by simp [blank], by simp [blank]⟩
  all_goals
    intro a b h
    rw [hnone] at h
    cases h

/-- The graph of a function: it is simple, it knows all nodes that occur, and a node that is written
while another one is live behind the instruction is adjacent to it, unless the instruction copies
the latter. -/
theorem ofFunction_spec (hl : Liveness.Sound mf budget l) (h : ofFunction mf budget l = .ok g) :
    Built budget (nodeCount mf) g ∧
      (∀ i ∈ mf.placedInsts, ∀ x ∈ i.defNodes budget ++ i.useNodes budget, x < nodeCount mf) ∧
      ∀ b pre i rest, mf.instsOf b = pre ++ i :: rest → ∀ d ∈ i.defNodes budget, ∀ x,
        (l.here budget b rest).contains x = true → x ≠ d →
        (∀ c s, copyNodes? budget i = some (c, s) → x ≠ s) → g.adjacent x d = true := by
  unfold ofFunction at h
  dsimp only at h
  split at h
  · rename_i hall
    split at h
    · cases h
      have hcode : ∀ i ∈ mf.placedInsts, ∀ x ∈ i.defNodes budget ++ i.useNodes budget,
          x < nodeCount mf := by
        intro i hi x hx
        have hi' := List.all_eq_true.1 hall i hi
        exact of_decide_eq_true (List.all_eq_true.1 hi' x hx)
      have hout : ∀ b x, (l.liveOut.getD b .empty).contains x = true → x < nodeCount mf := by
        intro b x hx
        obtain ⟨i, hi, hxi⟩ := hl.used b x hx
        exact hcode i hi x (List.mem_append_right _ hxi)
      obtain ⟨hb, -, hedges⟩ := scanBlocks_spec hcode hout mf.blockIds.reverse
        (built_blank budget (nodeCount mf))
      refine ⟨hb, hcode, ?_⟩
      intro b pre i rest hsplit
      have hbsize : b < mf.blocks.size := MachineFunction.lt_size_of_instsOf (by simp [hsplit])
      exact hedges b (List.mem_reverse.2 (List.mem_range.2 hbsize)) pre i rest hsplit
    · cases h
  · cases h

/-! ## Only nodes that occur have edges -/

/-- Edges and copies are between some of the nodes only. -/
structure Within (nodes : Nat → Prop) (g : Interference) : Prop where
  edges : ∀ a b, g.adjacent a b = true → nodes a
  copies : ∀ p ∈ g.moves, nodes p.1 ∧ nodes p.2

/-- A new edge between such nodes. -/
theorem Within.connect {nodes : Nat → Prop} (h : g.Within nodes) (hu : nodes u) (hv : nodes v) :
    (g.connect u v).Within nodes := by
  unfold Interference.connect
  split
  · exact h
  · refine ⟨fun a b hab => ?_, h.copies⟩
    rw [adjacent, getD_modify, getD_modify] at hab
    split at hab
    · rename_i hva
      exact hva.1 ▸ hv
    · split at hab
      · rename_i hua
        exact hua.1 ▸ hu
      · exact h.edges a b hab

/-- Edges from such nodes to such nodes. -/
theorem Within.connectAll {nodes : Nat → Prop} {g : Interference} (h : g.Within nodes) {ends : List Nat}
    {live : NatSet} (hends : ∀ d ∈ ends, nodes d) (hlive : ∀ x, live.contains x = true → nodes x) :
    (g.connectAll ends live).Within nodes := by
  have hinner : ∀ (d : Nat) (xs : List Nat) (g : Interference), nodes d → (∀ x ∈ xs, nodes x) → g.Within nodes →
      (xs.foldl (fun g l => g.connect l d) g).Within nodes := by
    intro d xs
    induction xs with
    | nil => exact fun g _ _ h => h
    | cons x xs ih =>
      exact fun g hd hxs h => ih _ hd (fun y hy => hxs y (List.mem_cons_of_mem _ hy))
        (h.connect (hxs x List.mem_cons_self) hd)
  unfold Interference.connectAll
  induction ends generalizing g with
  | nil => exact h
  | cons d ends ih =>
    exact ih (hinner d _ g (hends d List.mem_cons_self) (fun x hx => hlive x (NatSet.mem_toList.1 hx)) h)
      fun e he => hends e (List.mem_cons_of_mem _ he)

/-- An instruction adds edges among its own nodes and those live behind it. -/
theorem Within.scanInst {nodes : Nat → Prop} {budget : RegisterSet} {depth : Nat} {i : Instr} {g : Interference}
    {live : NatSet} (h : g.Within nodes) (hi : ∀ x ∈ i.defNodes budget ++ i.useNodes budget, nodes x)
    (hlive : ∀ x, live.contains x = true → nodes x) :
    (Interference.scanInst budget depth i (g, live)).1.Within nodes := by
  have hdefs : ∀ d ∈ i.defNodes budget, nodes d := fun d hd => hi d (List.mem_append_left _ hd)
  have hbehind : ∀ {live : NatSet}, (∀ x, live.contains x = true → nodes x) →
      ∀ x, ((i.defNodes budget).foldl NatSet.insert live).contains x = true → nodes x :=
    fun hlive x hx => ((NatSet.contains_foldl_insert _ _ _).1 hx).elim (hlive x) (hdefs x)
  unfold Interference.scanInst
  cases hcopy : copyNodes? budget i with
  | none =>
    have hall := h.connectAll hdefs (hbehind hlive)
    exact ⟨hall.edges, hall.copies⟩
  | some p =>
    obtain ⟨c, s⟩ := p
    obtain ⟨hdef, huse⟩ := Liveness.mem_useNodes_of_copyNodes hcopy
    have hpush : ({ g with moves := g.moves.push (c, s) } : Interference).Within nodes := by
      refine ⟨h.edges, fun p hp => ?_⟩
      rcases Array.mem_push.1 hp with hp | rfl
      · exact h.copies p hp
      · exact ⟨hdefs c (by simp [hdef]), hi s (List.mem_append_right _ (by simp [huse]))⟩
    have hall := hpush.connectAll hdefs (@hbehind (live.erase s) fun x hx => by
      rw [NatSet.contains_erase, Bool.and_eq_true] at hx
      exact hlive x hx.1)
    exact ⟨hall.edges, hall.copies⟩

/-- The graph of a function has edges and copies between the nodes that its instructions mention only. -/
theorem ofFunction_within (hl : Liveness.Sound mf budget l) (h : ofFunction mf budget l = .ok g) :
    g.Within fun x => ∃ i ∈ mf.placedInsts, x ∈ i.defNodes budget ++ i.useNodes budget := by
  set nodes : Nat → Prop := fun x => ∃ i ∈ mf.placedInsts, x ∈ i.defNodes budget ++ i.useNodes budget with hnodes
  have hout : ∀ b x, (l.liveOut.getD b .empty).contains x = true → nodes x := by
    intro b x hx
    obtain ⟨i, hi, hxi⟩ := hl.used b x hx
    exact ⟨i, hi, List.mem_append_right _ hxi⟩
  have hcode : ∀ (depth : Nat) (code : List Instr) (out : NatSet) (g : Interference),
      (∀ i ∈ code, i ∈ mf.placedInsts) → (∀ x, out.contains x = true → nodes x) → g.Within nodes →
      (code.foldr (Interference.scanInst budget depth) (g, out)).1.Within nodes ∧
        ∀ x, (code.foldr (Interference.scanInst budget depth) (g, out)).2.contains x = true → nodes x := by
    intro depth code
    induction code with
    | nil => exact fun out g _ hout hg => ⟨hg, hout⟩
    | cons i code ih =>
      intro out g hcode hout hg
      have hi : ∀ x ∈ i.defNodes budget ++ i.useNodes budget, nodes x := fun x hx => ⟨i, hcode i List.mem_cons_self, hx⟩
      obtain ⟨hg', hlive⟩ := ih out g (fun j hj => hcode j (List.mem_cons_of_mem _ hj)) hout hg
      rw [List.foldr_cons]
      generalize code.foldr (Interference.scanInst budget depth) (g, out) = state at hg' hlive ⊢
      refine ⟨hg'.scanInst hi hlive, fun x hx => ?_⟩
      rw [scanInst_snd] at hx
      rcases Liveness.contains_before.1 hx with hx | ⟨hx, -⟩
      · exact hi x (List.mem_append_right _ hx)
      · exact hlive x hx
  have hblocks : ∀ (blocks : List Nat) (g : Interference), g.Within nodes →
      (blocks.foldl (scanBlock budget l mf) g).Within nodes := by
    intro blocks
    induction blocks with
    | nil => exact fun _ hg => hg
    | cons b blocks ih =>
      exact fun g hg => ih _ (hcode _ _ _ g (fun i hi => MachineFunction.mem_placedInsts.2 ⟨b, hi⟩) (hout b) hg).1
  have hblank : (blank (nodeCount mf)).Within nodes := by
    refine ⟨fun a b hab => ?_, fun p hp => ?_⟩
    · simp only [blank, adjacent, Array.getD_eq_getD_getElem?, Array.getElem?_replicate] at hab
      split at hab <;> simp at hab
    · simp [blank] at hp
  unfold ofFunction at h
  dsimp only at h
  split at h
  · split at h
    · cases h
      exact hblocks _ _ hblank
    · cases h
  · cases h

end Interference

end SsaCompiler
