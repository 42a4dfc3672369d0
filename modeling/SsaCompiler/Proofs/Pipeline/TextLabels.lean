import SsaCompiler.Pipeline.Compile
import SsaCompiler.Proofs.Machine.AllocatedRun
import SsaCompiler.Proofs.Machine.SelectionFlaws
import SsaCompiler.Proofs.Text.DistinctNames
import Mathlib.Data.List.Pairwise

/-!
# The labels of a program

The text of a program defines a label for every function, one for every block and one for every runtime stub. A
function is labelled by its name and a block by the label of its function and its number, so two blocks never have
the same label. But the label of a block may be that of a function: this is so exactly if a function has the name
of another one with the number of a block behind it.
-/

set_option autoImplicit false

namespace SsaCompiler

open Edits

/-! ## Allocation and completion keep labels -/

namespace MachineFunction

variable {mf mf' : MachineFunction}

/-- Code through temporaries has the same blocks. -/
theorem blocks_reloadInsts (target : Operand) (offset : Word) (mf : MachineFunction) (insts : List Instr) :
    (Spill.reloadInsts target offset mf insts).2.blocks = mf.blocks ∧
      (Spill.reloadInsts target offset mf insts).2.name = mf.name ∧
      (Spill.reloadInsts target offset mf insts).2.isMain = mf.isMain := by
  fun_induction Spill.reloadInsts target offset mf insts with
  | case1 mf => exact ⟨rfl, rfl, rfl⟩
  | case2 mf i rest hmention run temp mf₁ htemp more mf₂ hmore ih =>
    rw [hmore] at ih
    have hsame : mf₁ = mf.newSpillTemp.2 := congrArg Prod.snd htemp.symm
    rw [hsame] at ih
    exact ih
  | case3 mf i rest hmention more mf₁ hmore ih =>
    rw [hmore] at ih
    exact ih

/-- Spilling a register. -/
theorem sameLabels_spill {vreg : Nat} (h : mf.spill vreg = .ok mf') : mf.SameLabels mf' := by
  obtain ⟨⟨offset, mf₁⟩, halloc, hpure⟩ := Outcome.bind_eq_ok.1 h
  cases hpure
  obtain ⟨size, -, hpair⟩ := Outcome.bind_eq_ok.1 halloc
  cases hpair
  have hblock : ∀ (g : MachineFunction) (b : Nat), g.SameLabels (Spill.reloadBlock (.virtual vreg) mf.frameSize g b) := by
    intro g b
    obtain ⟨hblocks, hname, hmain⟩ := blocks_reloadInsts (.virtual vreg) mf.frameSize g (g.instsOf b)
    have hlabels : g.SameLabels (Spill.reloadInsts (.virtual vreg) mf.frameSize g (g.instsOf b)).2 :=
      ⟨hname, hmain, by rw [blockLabels, hblocks, blockLabels]⟩
    exact hlabels.trans (sameLabels_modifyInsts _ b fun _ => (Spill.reloadInsts (.virtual vreg) mf.frameSize g (g.instsOf b)).1)
  have hfold : ∀ (blocks : List Nat) (g : MachineFunction),
      g.SameLabels (blocks.foldl (Spill.reloadBlock (.virtual vreg) mf.frameSize) g) := by
    intro blocks
    induction blocks with
    | nil => exact fun g => .refl g
    | cons b rest ih => exact fun g => (hblock g b).trans (ih _)
  have henlarged : mf.SameLabels { mf with frameSize := size } := ⟨rfl, rfl, rfl⟩
  exact henlarged.trans (hfold _ _)

/-- Changing the instructions of all blocks. -/
theorem sameLabels_map (mf : MachineFunction) (change : List Instr → List Instr) :
    mf.SameLabels { mf with blocks := mf.blocks.map fun b => { b with insts := change b.insts } } := by
  refine ⟨rfl, rfl, ?_⟩
  simp [blockLabels, Function.comp_def]

end MachineFunction

variable {f' : Function} {α : Type}

namespace MachineEdit

open MachineFunction

/-- An edit keeps labels. -/
abbrev KeepsLabels {α : Type} (edit : MachineEdit α) : Prop :=
  ∀ mf : MachineFunction, Preserves (mf.SameLabels ·) edit

/-- Asking a question. -/
theorem keepsLabels_ask (question : MachineFunction → Outcome α) : KeepsLabels (ask question) := by
  refine fun mf => .bind .get fun g => ?_
  split
  · exact .pure _
  · exact .throw _

/-- A change that keeps labels. -/
theorem preserves_modify {mf : MachineFunction} {change : MachineFunction → MachineFunction}
    (h : ∀ g : MachineFunction, g.SameLabels (change g)) : Preserves (mf.SameLabels ·) (modify change : MachineEdit PUnit) := by
  intro g g' _ hg hrun
  cases hrun
  exact hg.trans (h g)

theorem keepsLabels_colorRound (budget : RegisterSet) : KeepsLabels (colorRound budget) := by
  refine fun mf => .bind (keepsLabels_ask _ mf) fun liveness => .bind (keepsLabels_ask _ mf) fun graph =>
    .bind .get fun g => .bind (keepsLabels_ask _ mf) fun result => ?_
  dsimp only
  split
  · exact .bind (keepsLabels_ask _ mf) fun _ => .pure _
  · exact .pure _

/-- Putting registers in the place of virtual registers. -/
theorem keepsLabels_applyAssignment (assignment : Array Register) : KeepsLabels (applyAssignment assignment) := by
  refine fun mf => .bind (preserves_modify fun g => sameLabels_map g _) fun _ => .bind .get fun g => ?_
  split
  · exact .throw _
  · exact .bind (preserves_modify fun g => sameLabels_map g _) fun _ => .pure _

theorem keepsLabels_allocateWithin (budget : RegisterSet) (cap limit : Nat) :
    ∀ round spilled, KeepsLabels (allocateWithin budget cap limit round spilled) := by
  induction limit with
  | zero => exact fun _ _ _ => .bind .get fun _ => .throw _
  | succ limit ih =>
    intro round spilled mf
    refine .bind (keepsLabels_colorRound budget mf) fun result => ?_
    split
    · exact .bind (keepsLabels_applyAssignment _ mf) fun _ => .pure _
    · refine .bind (.forM fun v _ g g' _ hg hrun => ?_) fun _ => ih _ _ mf
      obtain ⟨g₁, g₂, hask, hset⟩ := bind_eq_ok hrun
      have hspill := of_get_bind hask
      split at hspill
      · rename_i g₅ hg₅
        cases hspill
        cases hset
        exact hg.trans (sameLabels_spill hg₅)
      · cases hspill

theorem keepsLabels_allocate (budget : RegisterSet) (maxRounds : Option Nat) : KeepsLabels (allocate budget maxRounds) := by
  refine fun mf => .bind .get fun g => ?_
  dsimp only
  split
  · exact .bind (.throw _) fun _ => keepsLabels_allocateWithin _ _ _ _ _ mf
  · exact keepsLabels_allocateWithin _ _ _ _ _ mf

theorem keepsLabels_finalizeFrame : KeepsLabels finalizeFrame := by
  intro mf g g' _ hg hrun
  have h₁ := of_get_bind hrun
  dsimp only at h₁
  split at h₁
  · obtain ⟨_, g₂, hthrow, -⟩ := bind_eq_ok h₁
    cases hthrow
  split at h₁
  · obtain ⟨_, g₂, hthrow, -⟩ := bind_eq_ok h₁
    cases hthrow
  obtain ⟨fixup, -, h₂⟩ := ask_bind_eq_ok h₁
  obtain ⟨blocks, hfound, h₃⟩ := ask_bind_eq_ok h₂
  cases h₃
  refine hg.trans ⟨rfl, rfl, ?_⟩
  have hlabels := Outcome.map_of_mapM (f := MachineBlock.label) (g := fun e => e.1.label) (fun e b hb => by
    obtain ⟨insts, -, hpure⟩ := Outcome.bind_eq_ok.1 hb
    cases hpure
    rfl) hfound
  rw [blockLabels, blockLabels, hlabels]
  refine List.ext_getElem? fun k => ?_
  rw [List.getElem?_map, List.getElem?_map, List.getElem?_zipIdx]
  cases g.blocks.toList[k]? <;> rfl

end MachineEdit

/-! ## The functions of a program -/

namespace Function

/-- An edit that was made on a function. -/
theorem apply_eq_ok {f : Function} {edit : Edit α} {a : α} (h : f.apply edit = .ok (a, f')) :
    edit.run f = (.ok a, f') := by
  unfold apply at h
  split at h
  · rename_i b f₁ hrun
    cases h
    exact hrun
  · cases h

end Function

namespace MachineFunction

/-- An edit that was made on a machine function. -/
theorem apply_eq_ok {mf mf' : MachineFunction} {edit : MachineEdit α} {a : α} (h : mf.apply edit = .ok (a, mf')) :
    edit.run mf = (.ok a, mf') := by
  unfold apply at h
  split at h
  · rename_i b mf₁ hrun
    cases h
    exact hrun
  · cases h

end MachineFunction

namespace Compile

open Stateful

variable {o : Options} {s' : Session}

variable {m : Module} {s : Session}

/-- Optimizing a function is promoting its slots and simplifying it, unless it is switched off. -/
theorem optimizeFunction_eq_ok {f : Function} (h : (optimizeFunction o f).run s = .ok (f', s')) :
    f' = f ∨ ∃ stats f₁ steps, Edit.promote.run f = (.ok stats, f₁) ∧ Edit.simplify.run f₁ = (.ok steps, f') := by
  obtain ⟨_, s₁, -, h₁⟩ := bind_eq_ok h
  dsimp only at h₁
  split at h₁
  · cases h₁
    exact .inl rfl
  · obtain ⟨⟨stats, f₁⟩, s₂, hpromote, h₂⟩ := bind_eq_ok h₁
    obtain ⟨_, s₃, -, h₃⟩ := bind_eq_ok h₂
    obtain ⟨⟨steps, f₂⟩, s₄, hsimplify, h₄⟩ := bind_eq_ok h₃
    obtain ⟨_, s₅, -, h₅⟩ := bind_eq_ok h₄
    obtain ⟨_, s₆, -, h₆⟩ := bind_eq_ok h₅
    cases h₆
    exact .inr ⟨stats, f₁, steps, Function.apply_eq_ok (lift_eq_ok hpromote).1, Function.apply_eq_ok (lift_eq_ok hsimplify).1⟩

/-- Optimizing a function keeps its heading. -/
theorem outlines_optimizeFunction (globals strings : Nat) {f : Function}
    (h : (optimizeFunction o f).run s = .ok (f', s')) :
    f.Outlines (ValueKind.Within globals strings) (InstKind.Within strings) f' := by
  rcases optimizeFunction_eq_ok h with rfl | ⟨stats, f₁, steps, hpromote, hsimplify⟩
  · exact .refl f'
  · have hstable := Edit.stable_outline (V := ValueKind.Within globals strings) (K := InstKind.Within strings)
      (fun _ => trivial) (fun _ => trivial) trivial (fun _ h => InstKind.within_of_isTerminator h strings) f
    exact hstable.simplify (hstable.promote (.refl f) hpromote) hsimplify

/-- Optimizing a module keeps the names of its functions. -/
theorem functionNames_optimizeModule {m' : Module} (h : (optimizeModule o m).run s = .ok (m', s')) :
    m'.functionNames = m.functionNames := by
  obtain ⟨functions, s₁, hmap, h₁⟩ := bind_eq_ok h
  obtain ⟨_, s₂, -, hpure⟩ := bind_eq_ok h₁
  cases hpure
  exact map_of_mapM (fun f f' t t' hrun => by
    obtain ⟨_, t₁, -, hoptimize⟩ := bind_eq_ok hrun
    exact congrArg Heading.name (outlines_optimizeFunction 0 0 hoptimize).heading) hmap

/-- A compiled function has the name of its function, and the labels of its blocks are those of their numbers. -/
theorem compileFunction_spec {id : FuncId} {mf : MachineFunction} (h : (compileFunction o m id).run s = .ok (mf, s')) :
    mf.name = (m.function id).name ∧ mf.isMain = (mf.name == "main") ∧ mf.Labelled := by
  obtain ⟨_, s₁, -, h₁⟩ := bind_eq_ok h
  obtain ⟨mf₁, s₂, hselect, h₂⟩ := bind_eq_ok h₁
  obtain ⟨⟨a, mf₂⟩, s₃, hallocate, h₃⟩ := bind_eq_ok h₂
  obtain ⟨_, s₄, -, h₄⟩ := bind_eq_ok h₃
  obtain ⟨⟨_, mf₃⟩, s₅, hfinalize, h₅⟩ := bind_eq_ok h₄
  obtain ⟨_, s₆, -, h₆⟩ := bind_eq_ok h₅
  obtain ⟨_, s₇, -, h₇⟩ := bind_eq_ok h₆
  cases h₇
  obtain ⟨tree, -, hcode⟩ := Outcome.bind_eq_ok.1 (lift_eq_ok hselect).1
  obtain ⟨hlabelled, hname, hmain, -, -⟩ := Function.select_spec hcode
  have hallocated := MachineEdit.keepsLabels_allocate _ _ mf₁ (.refl _)
    (MachineFunction.apply_eq_ok (lift_eq_ok hallocate).1)
  have hfinished := MachineEdit.keepsLabels_finalizeFrame mf₁ hallocated
    (MachineFunction.apply_eq_ok (lift_eq_ok hfinalize).1)
  refine ⟨hfinished.name.trans hname, ?_, hfinished.labelled hlabelled⟩
  rw [hfinished.isMain, hfinished.name, hmain, hname]

end Compile

namespace Module

/-- The functions in order of compilation are all functions. -/
theorem functionOrder_perm (m : Module) : m.functionOrder.Perm (List.range m.functions.size) :=
  List.filter_append_perm _ _

/-- The names of the functions by number. -/
theorem functionNames_eq (m : Module) : m.functionNames = (List.range m.functions.size).map fun id => (m.function id).name := by
  refine List.ext_getElem (by simp [functionNames]) fun k hk hk' => ?_
  simp only [functionNames, List.length_map, Array.length_toList] at hk
  simp [functionNames, function, hk]

end Module

/-! ## Labels as texts -/

/-- A number behind a text that ends in no digit can be told from the text. -/
theorem append_repr_inj {a b : List Char} {c : Char} (hc : c.isDigit = false) {j k : Nat}
    (h : a ++ c :: j.repr.toList = b ++ c :: k.repr.toList) : a = b ∧ j = k := by
  have hdigits : ∀ n : Nat, ∀ d ∈ n.repr.toList, d.isDigit = true := by
    intro n d hd
    rw [Nat.toList_repr] at hd
    exact Nat.isDigit_of_mem_toDigits (by omega) (by omega) hd
  -- Read from the end, both sides have their digits first.
  have hrev := congrArg List.reverse h
  simp only [List.reverse_append, List.reverse_cons, List.append_assoc, List.singleton_append] at hrev
  have htake : ∀ (n : Nat) (rest : List Char),
      (n.repr.toList.reverse ++ c :: rest).takeWhile Char.isDigit = n.repr.toList.reverse := by
    intro n rest
    rw [List.takeWhile_append_of_pos fun d hd => hdigits n d (List.mem_reverse.1 hd), List.takeWhile_cons_of_neg (by simp [hc]),
      List.append_nil]
  have hjk : j.repr.toList.reverse = k.repr.toList.reverse := by
    rw [← htake j a.reverse, ← htake k b.reverse, hrev]
  rw [hjk] at hrev
  have htail := List.append_cancel_left hrev
  refine ⟨List.reverse_injective (List.cons.inj htail).2, ?_⟩
  have hlist := List.reverse_injective hjk
  rw [Nat.toList_repr, Nat.toList_repr] at hlist
  calc j = Nat.ofDigitChars 10 (Nat.toDigits 10 j) 0 := (Nat.ofDigitChars_toDigits (by omega) (by omega)).symm
    _ = Nat.ofDigitChars 10 (Nat.toDigits 10 k) 0 := by rw [hlist]
    _ = k := Nat.ofDigitChars_toDigits (by omega) (by omega)

/-- The characters of the label of a block. -/
theorem MachineFunction.toList_blockLabel (mf : MachineFunction) (k : Nat) :
    (mf.blockLabel k).toList = (mf.label.toList ++ ['_']) ++ 'b' :: k.repr.toList := by
  simp [blockLabel, toString, String.toList_append]

/-- Functions of different names have different labels. -/
theorem functionLabel_inj {a b : String} (h : functionLabel a = functionLabel b) : a = b := by
  have hf : ∀ name : String, ("main" : String) ≠ s!"f_{name}" := by
    intro name heq
    have hlist := congrArg String.toList heq
    simp [toString, String.toList_append] at hlist
  unfold functionLabel at h
  split at h <;> split at h
  · rename_i ha hb
    rw [eq_of_beq ha, eq_of_beq hb]
  · exact absurd h (hf b)
  · exact absurd h.symm (hf a)
  · have hlist := congrArg String.toList h
    simp only [toString, String.toList_append] at hlist
    exact String.toList_injective (List.append_cancel_left hlist)

namespace MachineFunction

variable {f g : MachineFunction} {j k : Nat}

/-- Blocks with the same label are the same block of functions with the same label. -/
theorem blockLabel_inj (h : f.blockLabel j = g.blockLabel k) : f.label = g.label ∧ j = k := by
  have hlist := congrArg String.toList h
  rw [toList_blockLabel, toList_blockLabel] at hlist
  obtain ⟨hlabel, hnumber⟩ := append_repr_inj (by decide) hlist
  exact ⟨String.toList_injective (List.append_cancel_right hlabel), hnumber⟩

/-- A function has the label of a block exactly if it has the name of the block's function with the number behind
it. The blocks of the main function are out of reach. -/
theorem label_eq_blockLabel_iff : g.label = f.blockLabel k ↔ f.name ≠ "main" ∧ g.name = s!"{f.name}_b{k}" := by
  have hmain : ∀ rest : List Char, g.label.toList ≠ "main".toList ++ '_' :: rest := by
    intro rest heq
    unfold label functionLabel at heq
    split at heq
    · have hlength := congrArg List.length heq
      simp at hlength
    · simp [toString, String.toList_append] at heq
  by_cases hf : f.name = "main"
  · refine ⟨fun h => absurd (congrArg String.toList h) ?_, fun h => absurd hf h.1⟩
    have hlabel : f.label = "main" := by
      rw [label, hf]
      rfl
    rw [toList_blockLabel, hlabel, List.append_assoc]
    exact hmain ('b' :: k.repr.toList)
  · have hlabel : f.label = s!"f_{f.name}" := by
      rw [label, functionLabel, if_neg (by simpa using hf)]
    have hblock : f.blockLabel k = s!"f_" ++ s!"{f.name}_b{k}" := by
      apply String.toList_injective
      rw [toList_blockLabel, hlabel]
      simp [toString, String.toList_append]
    rw [hblock]
    constructor
    · intro h
      refine ⟨hf, ?_⟩
      unfold label functionLabel at h
      split at h
      · have hlist := congrArg String.toList h
        simp [toString, String.toList_append] at hlist
      · have hlist := congrArg String.toList h
        simp only [toString, String.toList_append] at hlist
        apply String.toList_injective
        simp only [toString, String.toList_append]
        exact List.append_cancel_left hlist
    · rintro ⟨-, hg⟩
      have hne : g.name ≠ "main" := by
        intro heq
        rw [hg] at heq
        have hlist := congrArg String.toList heq
        have hmem : '_' ∈ (s!"{f.name}_b{k}").toList := by simp [toString, String.toList_append]
        rw [hlist] at hmem
        simp at hmem
      rw [label, functionLabel, if_neg (by simpa using hne), hg]
      rfl

/-- The labels that the text of a function defines. -/
def labels (mf : MachineFunction) : List String := mf.label :: mf.blockLabels

/-- A label of a function is its own or that of one of its blocks. -/
theorem Labelled.mem_labels (h : f.Labelled) {label : String} :
    label ∈ f.labels ↔ label = f.label ∨ ∃ k < f.blocks.size, label = f.blockLabel k := by
  rw [labels, List.mem_cons, h, List.mem_map]
  simp only [List.mem_range, eq_comm]

/-- The labels of one function are distinct. -/
theorem Labelled.nodup_labels (h : f.Labelled) : f.labels.Nodup := by
  refine List.nodup_cons.2 ⟨fun hmem => ?_, ?_⟩
  · rw [h] at hmem
    obtain ⟨k, -, hk⟩ := List.mem_map.1 hmem
    have hname := (label_eq_blockLabel_iff.1 hk.symm).2
    have hlength := congrArg (fun s : String => s.toList.length) hname
    simp [toString, String.toList_append] at hlength
  · rw [h]
    exact List.Nodup.map_on (fun j _ k _ hjk => (blockLabel_inj hjk).2) List.nodup_range

/-- The labels of functions begin in other ways than those of the stubs. -/
theorem Labelled.not_mem_labels (h : f.Labelled) (b : Builtin) : b.label ∉ f.labels := by
  have hhead : ∀ rest : List Char, f.label.toList ++ rest ≠ b.label.toList := by
    intro rest heq
    have hfirst := congrArg List.head? heq
    unfold label functionLabel at hfirst
    split at hfirst <;> cases b <;> simp [Builtin.label, toString, String.toList_append] at hfirst
  intro hmem
  rcases h.mem_labels.1 hmem with heq | ⟨k, -, heq⟩
  · exact hhead [] (by rw [List.append_nil, heq])
  · refine hhead ('_' :: 'b' :: k.repr.toList) ?_
    rw [heq, toList_blockLabel]
    simp

end MachineFunction

namespace MachineModule

/-- The functions in the order of the text, the main function first. -/
def ordered (p : MachineModule) : List MachineFunction :=
  p.functions.filter (·.isMain) ++ p.functions.filter fun f => !f.isMain

/-- The labels that the text of a program defines, in the order of the text. -/
def textLabels (p : MachineModule) : List String :=
  p.ordered.flatMap (·.labels) ++ Builtin.all.map (·.label)

/-- The labels of a program whose functions have distinct names and labelled blocks are distinct exactly if no
function has the name of another one with the number of a block behind it. -/
theorem nodup_textLabels_iff {p : MachineModule} (hnames : (p.functions.map (·.name)).Nodup)
    (hlabelled : ∀ f ∈ p.functions, f.Labelled) : p.textLabels.Nodup ↔
      ∀ f ∈ p.functions, f.name ≠ "main" → ∀ k < f.blocks.size, ∀ g ∈ p.functions, g.name ≠ s!"{f.name}_b{k}" := by
  have hperm : p.ordered.Perm p.functions := List.filter_append_perm _ _
  have hmem : ∀ {f}, f ∈ p.ordered → f ∈ p.functions := fun h => hperm.mem_iff.1 h
  have hnodup : (p.ordered.map (·.name)).Nodup := (hperm.map _).nodup_iff.2 hnames
  have hstubs : (Builtin.all.map (·.label)).Nodup := by decide
  rw [textLabels, List.nodup_append, List.nodup_flatMap]
  constructor
  · rintro ⟨⟨-, hpairwise⟩, -, -⟩ f hf hmain k hk g hg hname
    have hne : f ≠ g := by
      rintro rfl
      have hlength := congrArg (fun s : String => s.toList.length) hname
      simp [toString, String.toList_append] at hlength
    have hsymm : Std.Symm (Function.onFun List.Disjoint MachineFunction.labels) := ⟨fun _ _ h => List.Disjoint.symm h⟩
    have hdisjoint := hpairwise.forall (hperm.mem_iff.2 hf) (hperm.mem_iff.2 hg) hne
    refine hdisjoint (a := g.label) ((hlabelled f hf).mem_labels.2 (.inr ⟨k, hk, ?_⟩)) List.mem_cons_self
    exact MachineFunction.label_eq_blockLabel_iff.2 ⟨hmain, hname⟩
  · intro hapart
    have hclash : ∀ f ∈ p.functions, ∀ g ∈ p.functions, ∀ k < f.blocks.size, g.label ≠ f.blockLabel k := by
      intro f hf g hg k hk heq
      obtain ⟨hmain, hname⟩ := MachineFunction.label_eq_blockLabel_iff.1 heq
      exact hapart f hf hmain k hk g hg hname
    refine ⟨⟨fun f hf => (hlabelled f (hmem hf)).nodup_labels, ?_⟩, hstubs, ?_⟩
    · refine (List.pairwise_map.1 hnodup).imp_of_mem fun {f g} hf hg hne label hlf hlg => ?_
      have hlabels : f.label ≠ g.label := fun heq => hne (functionLabel_inj heq)
      rcases (hlabelled f (hmem hf)).mem_labels.1 hlf with rfl | ⟨j, hj, rfl⟩ <;>
        rcases (hlabelled g (hmem hg)).mem_labels.1 hlg with heq | ⟨k, hk, heq⟩
      · exact hlabels heq
      · exact hclash g (hmem hg) f (hmem hf) k hk heq
      · exact hclash f (hmem hf) g (hmem hg) j hj heq.symm
      · exact hlabels (MachineFunction.blockLabel_inj heq).1
    · rintro label hlabel _ hstub rfl
      obtain ⟨f, hf, hlf⟩ := List.mem_flatMap.1 hlabel
      obtain ⟨b, -, rfl⟩ := List.mem_map.1 hstub
      exact (hlabelled f (hmem hf)).not_mem_labels b hlf

end MachineModule

namespace Compile

open Stateful

/-- The program of a module that was read: its labels are pairwise distinct exactly if no function is named like a
block of another one. -/
theorem nodup_textLabels_assembly_iff {text asm : String} {m : Module} {o : Options} {s s' : Session}
    (hread : Module.parse text = .ok m) (hrun : (assembly o m).run s = .ok (asm, s')) :
    ∃ program, (optimizeModule o m >>= lowerModule o).run s = .ok (program, s') ∧ program.text = .ok asm ∧
      (program.textLabels.Nodup ↔ ∀ f ∈ program.functions, f.name ≠ "main" → ∀ k < f.blocks.size,
        ∀ g ∈ program.functions, g.name ≠ s!"{f.name}_b{k}") := by
  obtain ⟨m₁, s₁, hoptimize, h₁⟩ := bind_eq_ok hrun
  obtain ⟨program, s₂, hlower, h₂⟩ := bind_eq_ok h₁
  obtain ⟨htext, rfl⟩ := lift_eq_ok h₂
  have hprogram : (optimizeModule o m >>= lowerModule o).run s = .ok (program, s') := by
    rw [StateT.run_bind, hoptimize]
    exact hlower
  refine ⟨program, hprogram, htext, ?_⟩
  obtain ⟨functions, s₃, hmap, hpure⟩ := bind_eq_ok hlower
  cases hpure
  refine MachineModule.nodup_textLabels_iff ?_ (forall_of_mapM (fun _ _ _ _ h => (compileFunction_spec h).2.2) hmap)
  -- The functions have the names of those that were read, in another order.
  have hnames := map_of_mapM (fun _ _ _ _ h => (compileFunction_spec h).1) hmap
  have hperm := (m₁.functionOrder_perm).map fun id => (m₁.function id).name
  rw [hnames, hperm.nodup_iff, ← m₁.functionNames_eq, functionNames_optimizeModule hoptimize]
  exact Module.nodup_functionNames_parse hread

/-- A function that does nothing. -/
def idle (name : String) : Function where
  name := name
  returnsValue := false
  insts := #[{ kind := .ret, operands := [], result := none, block := some 0 }]
  blocks := #[{ name := "e", insts := [0] }]
  layout := [0]

/-- Of the functions `a` and `a_b0` the second one has the name of the first one with the number of its block. -/
def labelClash : Module := { functions := #[idle "main", idle "a", idle "a_b0"] }

set_option maxRecDepth 4000 in
/-- The module is read from text and compiled without an error, but its program defines a label twice. -/
theorem not_nodup_textLabels_labelClash :
    Module.parse ("func @main() -> void \x7b\ne:\n ret\n\x7d\nfunc @a() -> void \x7b\ne:\n ret\n\x7d\n" ++
      "func @a_b0() -> void \x7b\ne:\n ret\n\x7d") = .ok labelClash ∧
      ∃ asm s program, (assembly {} labelClash).run {} = .ok (asm, s) ∧
        (optimizeModule {} labelClash >>= lowerModule {}).run {} = .ok (program, s) ∧ program.text = .ok asm ∧
        ¬ program.textLabels.Nodup := by
  have hread : Module.parse ("func @main() -> void \x7b\ne:\n ret\n\x7d\nfunc @a() -> void \x7b\ne:\n ret\n\x7d\n" ++
      "func @a_b0() -> void \x7b\ne:\n ret\n\x7d") = .ok labelClash := by cbv
  obtain ⟨asm, s, hrun⟩ : ∃ asm s, (assembly {} labelClash).run {} = .ok (asm, s) := by
    have hok : ((assembly {} labelClash).run {}).toBool = true := by cbv
    cases hresult : (assembly {} labelClash).run {} with
    | error e =>
      rw [hresult] at hok
      cases hok
    | ok result => exact ⟨result.1, result.2, rfl⟩
  obtain ⟨program, hprogram, htext, hiff⟩ := nodup_textLabels_assembly_iff hread hrun
  refine ⟨hread, asm, s, program, hrun, hprogram, htext, fun hnodup => ?_⟩
  have hfunctions : program.functions.map (fun f => (f.name, f.blocks.size)) = [("main", 1), ("a", 1), ("a_b0", 1)] := by
    have hshape : ((optimizeModule {} labelClash >>= lowerModule {}).run {}).map
        (fun r => r.1.functions.map fun f => (f.name, f.blocks.size)) = .ok [("main", 1), ("a", 1), ("a_b0", 1)] := by cbv
    rw [hprogram] at hshape
    exact Except.ok.inj hshape
  obtain ⟨f, hf, hfname⟩ := List.mem_map.1 (hfunctions ▸ List.mem_cons_of_mem _ List.mem_cons_self)
  obtain ⟨g, hg, hgname⟩ := List.mem_map.1
    (hfunctions ▸ List.mem_cons_of_mem _ (List.mem_cons_of_mem _ List.mem_cons_self))
  obtain ⟨hf₁, hf₂⟩ := Prod.mk.inj hfname
  obtain ⟨hg₁, -⟩ := Prod.mk.inj hgname
  refine hiff.1 hnodup f hf (by rw [hf₁]; decide) 0 (by omega) g hg ?_
  rw [hg₁, hf₁]
  decide

end Compile

end SsaCompiler
