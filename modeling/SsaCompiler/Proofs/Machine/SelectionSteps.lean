import SsaCompiler.Machine.Assembly
import SsaCompiler.Machine.Select
import SsaCompiler.Proofs.Machine.Reloads
import SsaCompiler.Proofs.Stateful
import Mathlib.Data.List.InsertIdx

/-!
# What selection does step by step

Selecting a function takes steps of a few sorts: it reserves words of the frame, takes a fresh register, names
the register of a value, loads an address at the front of the entry, and adds other instructions. No step makes
or renames a block, and every loaded address is that of a global or string of the module.
-/

set_option autoImplicit false

namespace SsaCompiler

/-- What is in a list after an insertion was inserted or was there before. -/
theorem eq_or_mem_of_mem_insertIdx {α : Type} {l : List α} {k : Nat} {a b : α} (h : a ∈ l.insertIdx k b) :
    a = b ∨ a ∈ l := by
  by_cases hle : k ≤ l.length
  · exact (List.mem_insertIdx hle).1 h
  · rw [List.insertIdx_of_length_lt (Nat.lt_of_not_le hle)] at h
    exact .inr h

/-- The label of an item. -/
def DataItem.label : DataItem → String
  | words label _ | ascii label _ => label

namespace Module

/-- A label of the data section. -/
def HasLabel (m : Module) (label : String) : Prop := ∃ item ∈ m.dataItems, item.label = label

variable {m : Module}

/-- The label of a global. -/
theorem hasLabel_global {g : GlobalId} {global : GlobalVar} (h : m.global g = .ok global) :
    m.HasLabel (globalLabel global.name) := by
  unfold Module.global Outcome.ofOption at h
  split at h
  · rename_i found hfound
    cases h
    refine ⟨.words (globalLabel global.name) global.initialWords, List.mem_append_left _ ?_, rfl⟩
    exact List.mem_map_of_mem (Array.mem_toList_iff.2 (Array.mem_of_getElem? hfound))
  · cases h

/-- The label of a string. -/
theorem hasLabel_string {id : StringId} {s : StringConst} (h : m.string id = .ok s) :
    m.HasLabel (stringLabel s.name) := by
  unfold Module.string Outcome.ofOption at h
  split at h
  · rename_i found hfound
    cases h
    refine ⟨.ascii (stringLabel s.name) s.bytes, List.mem_append_right _ ?_, rfl⟩
    exact List.mem_map_of_mem (f := fun s : StringConst => DataItem.ascii (stringLabel s.name) s.bytes)
      (Array.mem_toList_iff.2 (Array.mem_of_getElem? hfound))
  · cases h

end Module

/-- The label that an instruction loads the address of. -/
def Instr.symbol? : Instr → Option String
  | loadAddr _ symbol => some symbol
  | _ => none

namespace Selection

/-- A step of selecting a function of a module. -/
inductive Step (m : Module) : Selection → Selection → Prop
  | reserve (s : Selection) (v : ValueId) (offset size : Word) :
      Step m s { s with code := { s.code with frameSize := size }, slots := (v, offset) :: s.slots }
  | fresh (s : Selection) : Step m s { s with code := s.code.newVreg.2 }
  | name (s : Selection) (v : ValueId) (op : Operand) :
      Step m s { s with registers := s.registers.setIfInBounds v (some op) }
  | load (s : Selection) (op : Operand) (label : String) (hlabel : m.HasLabel label) :
      Step m s { s with
        code := s.code.modifyInsts 0 fun insts => insts.insertIdx s.entryFront (.loadAddr op label)
        entryFront := s.entryFront + 1
        addresses := (label, op) :: s.addresses }
  /-- Other instructions are added to a block. -/
  | add (s : Selection) (b : Nat) (change : List Instr → List Instr)
      (hnew : ∀ insts, ∀ i ∈ change insts, i ∈ insts ∨ i.symbol? = none)
      (hold : ∀ insts : List Instr, insts.Sublist (change insts)) :
      Step m s { s with code := s.code.modifyInsts b change }
  | turn (s : Selection) (current : Nat) : Step m s { s with current }
  /-- The front of the entry is all there is in it so far. -/
  | close (s : Selection) : Step m s { s with entryFront := (s.code.instsOf 0).length }

end Selection

namespace Select

open Stateful Selection

variable {m : Module}

/-- Taking a fresh register. -/
theorem leads_newVreg : Leads (Step m) newVreg := .modifyGet fun s => .fresh s

/-- Finding the address of a label. -/
theorem leads_cachedAddress {label : String} (h : m.HasLabel label) : Leads (Step m) (cachedAddress label) := by
  refine .bind .get fun s => ?_
  split
  · exact .pure _
  · exact .bind leads_newVreg fun op => .bind (.modify fun s => .load s op label h) fun _ => .pure _

/-- The words of a slot. -/
theorem leads_assignSlot (f : Function) (i : InstId) : Leads (Step m) (assignSlot f i) := by
  unfold assignSlot
  split
  · refine .bind (.lift _) fun v => .bind (.lift _) fun bytes => ?_
    intro s s' a hrun
    have hrun₁ := of_get_bind hrun
    obtain ⟨⟨offset, code⟩, s₂, hlift, hrun₂⟩ := bind_eq_ok hrun₁
    obtain ⟨halloc, rfl⟩ := lift_eq_ok hlift
    cases hrun₂
    obtain ⟨size, -, hpair⟩ := Outcome.bind_eq_ok.1 halloc
    cases hpair
    exact .single (.reserve _ v _ size)
  · exact .pure _

end Select

/-! ## What no step changes -/

namespace MachineFunction

/-- The labels of the blocks in order. -/
def blockLabels (mf : MachineFunction) : List String := mf.blocks.toList.map (·.label)

/-- The label of a block by its number. -/
def blockLabel (mf : MachineFunction) (k : Nat) : String := s!"{mf.label}_b{k}"

/-- Every block has the label of its number. -/
def Labelled (mf : MachineFunction) : Prop := mf.blockLabels = (List.range mf.blocks.size).map mf.blockLabel

/-- Two machine functions have the same name and the same labels. -/
structure SameLabels (mf mf' : MachineFunction) : Prop where
  name : mf'.name = mf.name
  isMain : mf'.isMain = mf.isMain
  blockLabels : mf'.blockLabels = mf.blockLabels

namespace SameLabels

variable {mf mf' mf'' : MachineFunction}

theorem refl (mf : MachineFunction) : mf.SameLabels mf := ⟨rfl, rfl, rfl⟩

theorem trans (h : mf.SameLabels mf') (h' : mf'.SameLabels mf'') : mf.SameLabels mf'' :=
  ⟨h'.name.trans h.name, h'.isMain.trans h.isMain, h'.blockLabels.trans h.blockLabels⟩

/-- There are as many blocks. -/
theorem size (h : mf.SameLabels mf') : mf'.blocks.size = mf.blocks.size := by
  have hlength := congrArg List.length h.blockLabels
  simpa [MachineFunction.blockLabels] using hlength

/-- The blocks still have the labels of their numbers. -/
theorem labelled (h : mf.SameLabels mf') (hl : mf.Labelled) : mf'.Labelled := by
  have hlabel : mf'.blockLabel = mf.blockLabel := by
    funext k
    rw [blockLabel, blockLabel, label, label, h.name]
  rw [Labelled, h.blockLabels, h.size, hlabel]
  exact hl

end SameLabels

/-- Changing the instructions of a block. -/
theorem sameLabels_modifyInsts (mf : MachineFunction) (b : Nat) (change : List Instr → List Instr) :
    mf.SameLabels (mf.modifyInsts b change) := by
  refine ⟨rfl, rfl, ?_⟩
  simp only [blockLabels, modifyInsts, Array.toList_modify]
  refine List.ext_getElem? fun k => ?_
  rw [List.getElem?_map, List.getElem?_map, List.getElem?_modify]
  split
  · cases mf.blocks.toList[k]? <;> rfl
  · rw [id_map']

/-- Adding a block. -/
theorem Labelled.addBlock {mf : MachineFunction} (h : mf.Labelled) (loopDepth : Nat) : (mf.addBlock loopDepth).Labelled := by
  have hblocks : (mf.addBlock loopDepth).blockLabels = mf.blockLabels ++ [mf.blockLabel mf.blocks.size] := by
    simp [blockLabels, MachineFunction.addBlock, blockLabel]
  have hsize : (mf.addBlock loopDepth).blocks.size = mf.blocks.size + 1 := Array.size_push ..
  rw [Labelled, hblocks, hsize, List.range_succ, List.map_append, h]
  rfl

theorem sameLabels_linkBlocks {mf mf' : MachineFunction} (h : mf.linkBlocks = .ok mf') : mf.SameLabels mf' := by
  unfold linkBlocks at h
  split at h
  · cases h
    refine ⟨rfl, rfl, ?_⟩
    refine List.ext_getElem? fun k => ?_
    simp [blockLabels, List.getElem?_mapIdx, Function.comp_def]
  · cases h

/-- The predecessor lists have no instructions. -/
theorem instsOf_linkBlocks {mf mf' : MachineFunction} (h : mf.linkBlocks = .ok mf') (b : Nat) :
    mf'.instsOf b = mf.instsOf b := by
  unfold linkBlocks at h
  split at h
  · cases h
    simp only [instsOf, block, Array.getD_eq_getD_getElem?, Array.getElem?_mapIdx]
    cases mf.blocks[b]? <;> rfl
  · cases h

end MachineFunction

namespace MachineFunction

/-- Every loaded address is that of a label of the module. -/
def LoadsFrom (mf : MachineFunction) (m : Module) : Prop :=
  ∀ b, ∀ i ∈ mf.instsOf b, ∀ symbol, i.symbol? = some symbol → m.HasLabel symbol

/-- Changing the instructions of a block. -/
theorem LoadsFrom.modifyInsts {mf : MachineFunction} {m : Module} (h : mf.LoadsFrom m) {b : Nat}
    {change : List Instr → List Instr}
    (hchange : ∀ i ∈ change (mf.instsOf b), i ∈ mf.instsOf b ∨ ∀ symbol, i.symbol? = some symbol → m.HasLabel symbol) :
    (mf.modifyInsts b change).LoadsFrom m := by
  intro c i hi symbol hsymbol
  rw [instsOf_modifyInsts] at hi
  split at hi
  · rename_i hbc
    obtain ⟨rfl, -⟩ := hbc
    rcases hchange i hi with hold | hnew
    · exact h b i hold symbol hsymbol
    · exact hnew symbol hsymbol
  · exact h c i hi symbol hsymbol

end MachineFunction

namespace Selection.Step

variable {m : Module} {s s' : Selection}

theorem sameLabels (h : Step m s s') : s.code.SameLabels s'.code := by
  cases h with
  | reserve => exact ⟨rfl, rfl, rfl⟩
  | fresh => exact ⟨rfl, rfl, rfl⟩
  | name => exact .refl _
  | load => exact MachineFunction.sameLabels_modifyInsts _ _ _
  | add => exact MachineFunction.sameLabels_modifyInsts _ _ _
  | turn => exact .refl _
  | close => exact .refl _

/-- A step loads addresses of labels only. -/
theorem loadsFrom (h : Step m s s') (hs : s.code.LoadsFrom m) : s'.code.LoadsFrom m := by
  cases h with
  | reserve => exact hs
  | fresh => exact hs
  | name => exact hs
  | load op label hlabel =>
    refine hs.modifyInsts fun i hi => ?_
    rcases eq_or_mem_of_mem_insertIdx hi with rfl | hi
    · right
      rintro _ ⟨⟩
      exact hlabel
    · exact .inl hi
  | add b change hnew =>
    refine hs.modifyInsts fun i hi => ?_
    rcases hnew _ i hi with hold | hnone
    · exact .inl hold
    · right
      intro symbol hsymbol
      rw [hnone] at hsymbol
      cases hsymbol
  | turn => exact hs
  | close => exact hs

end Selection.Step

namespace Selection

variable {m : Module} {s s' : Selection}

theorem sameLabels_of_steps (h : Relation.ReflTransGen (Step m) s s') : s.code.SameLabels s'.code := by
  induction h with
  | refl => exact .refl _
  | tail _ hstep ih => exact ih.trans hstep.sameLabels

/-- Steps load addresses of labels only. -/
theorem loadsFrom_of_steps (h : Relation.ReflTransGen (Step m) s s') (hs : s.code.LoadsFrom m) : s'.code.LoadsFrom m := by
  induction h with
  | refl => exact hs
  | tail _ hstep ih => exact hstep.loadsFrom ih

end Selection

namespace Function

/-- The state in which the selection of a function starts. -/
def selectionStart (f : Function) (loops : LoopForest) : Selection where
  code := f.layout.foldl (fun mf b => mf.addBlock (loops.blockDepth b)) (.new f.name f.returnsValue)
  registers := Array.replicate f.values.size none

/-- The blank code of a function: a block without instructions for each block of its layout. -/
theorem blank_spec (f : Function) (depth : BlockId → Nat) (layout : List BlockId) :
    let mf := layout.foldl (fun mf b => mf.addBlock (depth b)) (MachineFunction.new f.name f.returnsValue)
    mf.Labelled ∧ mf.name = f.name ∧ mf.isMain = (f.name == "main") ∧ mf.blocks.size = layout.length ∧
      ∀ b, mf.instsOf b = [] := by
  induction layout using List.reverseRecOn with
  | nil => exact ⟨rfl, rfl, rfl, rfl, fun _ => rfl⟩
  | append_singleton layout b ih =>
    obtain ⟨hlabelled, hname, hmain, hsize, hinsts⟩ := ih
    rw [List.foldl_append, List.foldl_cons, List.foldl_nil]
    refine ⟨hlabelled.addBlock _, hname, hmain, ?_, fun c => ?_⟩
    · rw [MachineFunction.addBlock, Array.size_push, hsize, List.length_append, List.length_singleton]
    · have hc := hinsts c
      rw [MachineFunction.instsOf, MachineFunction.block, Array.getD_eq_getD_getElem?] at hc ⊢
      rw [MachineFunction.addBlock, Array.getElem?_push]
      split
      · rfl
      · exact hc

end Function

end SsaCompiler
