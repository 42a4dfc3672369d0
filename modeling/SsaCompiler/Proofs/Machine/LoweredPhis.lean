import SsaCompiler.Proofs.Machine.SelectedBlocks
import Mathlib.Data.List.Forall2

/-!
# Lowering phis

A block with its phi code has three seams: behind the moves into the registers of its phis, behind what it computes,
and behind the copies for the phis of the blocks that it leads to (`SeamCode`). Lowering the phis of one more block
puts moves in front of that block and copies in front of the transfers of its predecessors. The copies write fresh
registers only, one for each phi (`Selection.Lowered`). What a block computes stays as it was, with loads of addresses
among it in the entry (`LoadedCode`).
-/

set_option autoImplicit false

namespace SsaCompiler

/-- What is on the right of a correspondence has something on the left. -/
theorem exists_of_forall₂_right {α β : Type} {R : α → β → Prop} {l : List α} {l' : List β} (h : List.Forall₂ R l l')
    {b : β} (hb : b ∈ l') : ∃ a ∈ l, R a b := by
  induction h with
  | nil => exact absurd hb List.not_mem_nil
  | @cons a c rest rest' hhead _ ih =>
    rcases List.mem_cons.1 hb with rfl | hb
    · exact ⟨a, List.mem_cons_self, hhead⟩
    · obtain ⟨a', ha', hR⟩ := ih hb
      exact ⟨a', List.mem_cons_of_mem _ ha', hR⟩

/-- The first transfer of a block that ends with its transfers. -/
theorem findIdx_isTransfer {code exit : List Instr} (hcode : ∀ i ∈ code, i.isTransfer = false)
    (hexit : ∀ i ∈ exit, i.isTransfer = true) : (code ++ exit).findIdx Instr.isTransfer = code.length := by
  rw [List.findIdx_append, List.findIdx_eq_length_of_false hcode, if_neg (Nat.lt_irrefl _)]
  cases exit with
  | nil => exact Nat.zero_add _
  | cons i rest => rw [List.findIdx_cons, hexit i List.mem_cons_self, cond_true, Nat.zero_add]

section Code

variable (ctx : SelectionContext) (s : Selection)

/-- A copy of a value into a register. -/
inductive CopyCode (t : Nat) (v : ValueId) : Instr → Prop
  | slot {offset : Word} (hslot : s.slots.lookup v = some offset) :
      CopyCode t v (.binary .addu (.virtual t) .sp (.immediate offset))
  | plain {op : Operand} (hcode : OperandCode ctx s 0 0 v [] op) : CopyCode t v (.move (.virtual t) op)

/-- Moves into the registers of phis, with loads of addresses among them. -/
inductive TakeCode : List (Nat × Nat) → List Instr → Prop
  | nil : TakeCode [] []
  | load {n : Nat} {name : String} {taken : List (Nat × Nat)} {code : List Instr} (hn : s.Belongs n (.label name))
      (hrest : TakeCode taken code) : TakeCode taken (.loadAddr (.virtual n) name :: code)
  | move {n t : Nat} {taken : List (Nat × Nat)} {code : List Instr} (hrest : TakeCode taken code) :
      TakeCode ((n, t) :: taken) (.move (.virtual n) (.virtual t) :: code)

/-- Code with loads of addresses among it. -/
inductive LoadedCode : List Instr → List Instr → Prop
  | nil : LoadedCode [] []
  | load {n : Nat} {name : String} {base code : List Instr} (hn : s.Belongs n (.label name)) (hrest : LoadedCode base code) :
      LoadedCode base (.loadAddr (.virtual n) name :: code)
  | keep {i : Instr} {base code : List Instr} (hrest : LoadedCode base code) : LoadedCode (i :: base) (i :: code)

/-- A block with its phi code. No load is to come behind its first `front` instructions. -/
inductive SeamCode (front : Nat) (base : List Instr) (taken : List (Nat × Nat)) (sent : List (Nat × ValueId))
    (exit : List Instr) : List Instr → Prop
  | mk {top mid copies : List Instr} (htop : TakeCode s taken top) (hmid : LoadedCode s base mid)
      (hbase : ∀ i ∈ base, i.Calm s.code.vregCount)
      (hcopies : List.Forall₂ (fun e i => CopyCode ctx s e.1 e.2 i) sent copies)
      (hfront : front ≤ top.length + mid.length) : SeamCode front base taken sent exit (top ++ mid ++ copies ++ exit)

/-- A phi takes its value from a register that is nobody's to its own. -/
structure Takes (low : Nat) (phi : InstId) (e : Nat × Nat) : Prop where
  owner : ∃ r, ctx.func.result? phi = some r ∧ s.Belongs e.1 (.value r)
  scratch : s.Scratch low s.code.vregCount e.2

end Code

variable {ctx : SelectionContext} {s s' : Selection}

theorem CopyCode.mono (hext : s.Extends s') {t : Nat} {v : ValueId} {i : Instr} (h : CopyCode ctx s t v i) :
    CopyCode ctx s' t v i := by
  cases h with
  | slot hslot => exact .slot (hext.slots ▸ hslot)
  | plain hcode => exact .plain (hcode.mono hext)

theorem TakeCode.mono (hext : s.Extends s') {taken : List (Nat × Nat)} {code : List Instr} (h : TakeCode s taken code) :
    TakeCode s' taken code := by
  induction h with
  | nil => exact .nil
  | load hn _ ih => exact .load (hext.kept _ _ hn) ih
  | move _ ih => exact .move ih

theorem LoadedCode.mono (hext : s.Extends s') {base code : List Instr} (h : LoadedCode s base code) :
    LoadedCode s' base code := by
  induction h with
  | nil => exact .nil
  | load hn _ ih => exact .load (hext.kept _ _ hn) ih
  | keep _ ih => exact .keep ih

theorem SeamCode.mono (hext : s.Extends s') {front : Nat} {base : List Instr} {taken : List (Nat × Nat)}
    {sent : List (Nat × ValueId)} {exit code : List Instr} (h : SeamCode ctx s front base taken sent exit code) :
    SeamCode ctx s' front base taken sent exit code := by
  cases h with
  | mk htop hmid hbase hcopies hfront =>
    exact .mk (htop.mono hext) (hmid.mono hext) (fun i hi => (hbase i hi).mono hext.count)
      (hcopies.imp fun _ _ => .mono hext) hfront

variable {b : BlockId} {phi : InstId} {pairs : List (Nat × Nat)} {phis : List InstId} {entry : List Instr} {k : Nat}

theorem Takes.mono (hext : s.Extends s') {low : Nat} {e : Nat × Nat} (h : Takes ctx s low phi e) :
    Takes ctx s' low phi e := by
  obtain ⟨r, hr, hn⟩ := h.owner
  exact ⟨⟨r, hr, hext.kept _ _ hn⟩, (h.scratch.mono hext).widen (Nat.le_refl _) hext.count⟩

/-- A copy stays in its block and writes its register. -/
theorem CopyCode.calm (hs : s.Sound) {t : Nat} {v : ValueId} {i : Instr} (h : CopyCode ctx s t v i)
    (ht : t < s.code.vregCount) : i.Calm s.code.vregCount := by
  cases h with
  | slot => simp [ht, Operand.sp]
  | plain hcode => simp [ht, (hcode.calm hs).2]

theorem TakeCode.calm (hs : s.Sound) {taken : List (Nat × Nat)} {code : List Instr} (h : TakeCode s taken code)
    (htaken : ∀ e ∈ taken, e.1 < s.code.vregCount ∧ e.2 < s.code.vregCount) : ∀ i ∈ code, i.Calm s.code.vregCount := by
  induction h with
  | nil => simp
  | load hn _ ih => exact List.forall_mem_cons.2 ⟨by simp [hs.counted _ _ hn], ih htaken⟩
  | move _ ih =>
    obtain ⟨⟨hn, ht⟩, hrest⟩ := List.forall_mem_cons.1 htaken
    exact List.forall_mem_cons.2 ⟨by simp [hn, ht], ih hrest⟩

/-- Moves alone. -/
theorem takeCode_moves (s : Selection) (taken : List (Nat × Nat)) :
    TakeCode s taken (taken.map fun e => .move (.virtual e.1) (.virtual e.2)) := by
  induction taken with
  | nil => exact .nil
  | cons e rest ih => exact .move ih

/-- A load of the address of a label into the register of the label. -/
def Selection.IsLoad (s : Selection) (i : Instr) : Prop :=
  ∃ n name, i = .loadAddr (.virtual n) name ∧ s.Belongs n (.label name)

/-- More loads in front. -/
theorem TakeCode.loads {taken : List (Nat × Nat)} {loads code : List Instr} (hloads : ∀ i ∈ loads, s.IsLoad i)
    (h : TakeCode s taken code) : TakeCode s taken (loads ++ code) := by
  induction loads with
  | nil => exact h
  | cons i rest ih =>
    obtain ⟨⟨n, name, rfl, hn⟩, hrest⟩ := List.forall_mem_cons.1 hloads
    exact .load hn (ih hrest)

/-- More loads somewhere. -/
theorem TakeCode.insert {taken : List (Nat × Nat)} {loads before after : List Instr} (hloads : ∀ i ∈ loads, s.IsLoad i)
    (h : TakeCode s taken (before ++ after)) : TakeCode s taken (before ++ loads ++ after) := by
  induction before generalizing taken with
  | nil => exact h.loads hloads
  | cons i rest ih =>
    cases h with
    | load hn hrest => exact .load hn (ih hrest)
    | move hrest => exact .move (ih hrest)

theorem LoadedCode.refl (s : Selection) (code : List Instr) : LoadedCode s code code := by
  induction code with
  | nil => exact .nil
  | cons i rest ih => exact .keep ih

/-- The loads do not leave the block, and their registers are counted. -/
theorem LoadedCode.calm (hs : s.Sound) {base code : List Instr} (h : LoadedCode s base code)
    (hbase : ∀ i ∈ base, i.Calm s.code.vregCount) : ∀ i ∈ code, i.Calm s.code.vregCount := by
  induction h with
  | nil => simp
  | load hn _ ih => exact List.forall_mem_cons.2 ⟨by simp [hs.counted _ _ hn], ih hbase⟩
  | keep _ ih =>
    obtain ⟨hi, hrest⟩ := List.forall_mem_cons.1 hbase
    exact List.forall_mem_cons.2 ⟨hi, ih hrest⟩

/-- More loads in front. -/
theorem LoadedCode.loads {base loads code : List Instr} (hloads : ∀ i ∈ loads, s.IsLoad i) (h : LoadedCode s base code) :
    LoadedCode s base (loads ++ code) := by
  induction loads with
  | nil => exact h
  | cons i rest ih =>
    obtain ⟨⟨n, name, rfl, hn⟩, hrest⟩ := List.forall_mem_cons.1 hloads
    exact .load hn (ih hrest)

/-- More loads somewhere. -/
theorem LoadedCode.insert {base loads before after : List Instr} (hloads : ∀ i ∈ loads, s.IsLoad i)
    (h : LoadedCode s base (before ++ after)) : LoadedCode s base (before ++ loads ++ after) := by
  induction before generalizing base with
  | nil => exact h.loads hloads
  | cons i rest ih =>
    cases h with
    | load hn hrest => exact .load hn (ih hrest)
    | keep hrest => exact .keep (ih hrest)

/-- Without phis there is nothing but loads to take. -/
theorem TakeCode.isLoad {code : List Instr} (h : TakeCode s [] code) : ∀ i ∈ code, s.IsLoad i := by
  generalize htaken : ([] : List (Nat × Nat)) = taken at h
  induction h with
  | nil => exact List.forall_mem_nil _
  | load hn _ ih => exact List.forall_mem_cons.2 ⟨⟨_, _, rfl, hn⟩, ih htaken⟩
  | move => cases htaken

/-- Different phis take their values to different registers. -/
theorem nodup_of_takes (hs : s.Sound) (hf : ctx.func.Sound) {low : Nat}
    (h : List.Forall₂ (Takes ctx s low) phis pairs) (hphis : phis.Nodup) : (pairs.map Prod.fst).Nodup := by
  induction h with
  | nil => exact .nil
  | @cons phi e phis pairs htakes hrest ih =>
    obtain ⟨hnew, hphis'⟩ := List.nodup_cons.1 hphis
    rw [List.map_cons, List.nodup_cons]
    refine ⟨fun hmem => ?_, ih hphis'⟩
    obtain ⟨e', he', heq⟩ := List.mem_map.1 hmem
    obtain ⟨phi', hphi', htakes'⟩ := exists_of_forall₂_right hrest he'
    obtain ⟨r, hr, hn⟩ := htakes.owner
    obtain ⟨r', hr', hn'⟩ := htakes'.owner
    cases hs.single _ _ _ hn (heq ▸ hn')
    cases (hf.kind_of_result phi r hr).2.symm.trans (hf.kind_of_result phi' r hr').2
    exact hnew hphi'

variable {p : BlockId} {i : Instr} {more : List (Nat × ValueId)} {copies transfers : List Instr} {j : Nat}

namespace SeamCode

variable {front : Nat} {base : List Instr} {taken : List (Nat × Nat)} {sent : List (Nat × ValueId)} {exit code : List Instr}

/-- The four parts of a block. -/
theorem parts (h : SeamCode ctx s front base taken sent exit code) : ∃ top mid copies, code = top ++ mid ++ copies ++ exit ∧
    TakeCode s taken top ∧ LoadedCode s base mid ∧ (∀ i ∈ base, i.Calm s.code.vregCount) ∧
    List.Forall₂ (fun e i => CopyCode ctx s e.1 e.2 i) sent copies := by
  cases h with
  | @mk top mid copies htop hmid hbase hcopies _ => exact ⟨top, mid, copies, rfl, htop, hmid, hbase, hcopies⟩

/-- More loads behind the front. -/
theorem insert {loads : List Instr} (hloads : ∀ i ∈ loads, s.IsLoad i) (h : SeamCode ctx s front base taken sent exit code) :
    SeamCode ctx s (front + loads.length) base taken sent exit (code.take front ++ loads ++ code.drop front) := by
  cases h with
  | @mk top mid copies htop hmid hbase hcopies hfront =>
    rcases Nat.le_total front top.length with hle | hle
    · -- The front ends within the moves.
      have htake : (top ++ mid ++ copies ++ exit).take front = top.take front := by
        simp only [List.append_assoc]
        exact List.take_append_of_le_length hle
      have hdrop : (top ++ mid ++ copies ++ exit).drop front = top.drop front ++ mid ++ copies ++ exit := by
        simp only [List.append_assoc]
        exact List.drop_append_of_le_length hle
      rw [htake, hdrop]
      have htop' : TakeCode s taken (top.take front ++ loads ++ top.drop front) :=
        .insert hloads (by rwa [List.take_append_drop])
      have hfront' : front + loads.length ≤ (top.take front ++ loads ++ top.drop front).length + mid.length := by
        simp only [List.length_append, List.length_take, List.length_drop]
        omega
      have hseam : SeamCode ctx s (front + loads.length) base taken sent exit _ := .mk htop' hmid hbase hcopies hfront'
      simpa only [List.append_assoc] using hseam
    · -- The front ends behind them, within what the block computes.
      obtain ⟨d, rfl⟩ := Nat.exists_eq_add_of_le hle
      have hd : d ≤ mid.length := by omega
      have htake : (top ++ mid ++ copies ++ exit).take (top.length + d) = top ++ mid.take d := by
        simp only [List.append_assoc]
        rw [List.take_length_add_append, List.take_append_of_le_length hd]
      have hdrop : (top ++ mid ++ copies ++ exit).drop (top.length + d) = mid.drop d ++ copies ++ exit := by
        simp only [List.append_assoc]
        rw [List.drop_length_add_append, List.drop_append_of_le_length hd]
      rw [htake, hdrop]
      have hmid' : LoadedCode s base (mid.take d ++ loads ++ mid.drop d) :=
        .insert hloads (by rwa [List.take_append_drop])
      have hfront' : top.length + d + loads.length ≤ top.length + (mid.take d ++ loads ++ mid.drop d).length := by
        simp only [List.length_append, List.length_take, List.length_drop]
        omega
      have hseam : SeamCode ctx s (top.length + d + loads.length) base taken sent exit _ :=
        .mk htop hmid' hbase hcopies hfront'
      simpa only [List.append_assoc] using hseam

/-- Moves into the registers of phis on top. -/
theorem take (h : SeamCode ctx s front base [] sent exit code) (taken : List (Nat × Nat)) :
    SeamCode ctx s front base taken sent exit ((taken.map fun e => .move (.virtual e.1) (.virtual e.2)) ++ code) := by
  cases h with
  | @mk top mid copies htop hmid hbase hcopies hfront =>
    have hfront' : front ≤ (taken.map fun e => Instr.move (.virtual e.1) (.virtual e.2)).length + (top ++ mid).length := by
      rw [List.length_append]
      exact hfront.trans (Nat.le_add_left _ _)
    have hseam : SeamCode ctx s front base taken sent exit _ :=
      .mk (takeCode_moves s taken) (hmid.loads htop.isLoad) hbase hcopies hfront'
    simpa only [List.append_assoc] using hseam

/-- Copies in front of the first transfer. -/
theorem send (hs : s.Sound) (h : SeamCode ctx s front base taken sent exit code)
    (htaken : ∀ e ∈ taken, e.1 < s.code.vregCount ∧ e.2 < s.code.vregCount)
    (hsent : ∀ e ∈ sent, e.1 < s.code.vregCount) (hexit : ∀ i ∈ exit, i.isTransfer = true)
    (hcopies : List.Forall₂ (fun e i => CopyCode ctx s e.1 e.2 i) more copies) :
    SeamCode ctx s front base taken (sent ++ more) exit (code.take (code.findIdx Instr.isTransfer) ++ copies ++
      code.drop (code.findIdx Instr.isTransfer)) := by
  cases h with
  | @mk top mid copies₀ htop hmid hbase hcopies₀ hfront =>
    have hcalm : ∀ i ∈ top ++ mid ++ copies₀, i.isTransfer = false := by
      simp only [List.forall_mem_append]
      refine ⟨⟨fun i hi => (htop.calm hs htaken i hi).1, fun i hi => (hmid.calm hs hbase i hi).1⟩, fun i hi => ?_⟩
      obtain ⟨e, he, hcopy⟩ := exists_of_forall₂_right hcopies₀ hi
      exact (hcopy.calm hs (hsent e he)).1
    rw [findIdx_isTransfer hcalm hexit, List.take_left, List.drop_left, List.append_assoc (top ++ mid)]
    exact .mk htop hmid hbase (List.rel_append hcopies₀ hcopies) hfront

end SeamCode

/-- The first instructions of a block among which loads are still to come: those in front of the body of the entry. -/
def Selection.frontOf (s : Selection) (k : Nat) : Nat := if k = 0 then s.entryFront else 0

/-- The state with copies in front of the transfers of a block. -/
def Selection.send (s : Selection) (j : Nat) (copies : List Instr) : Selection :=
  { s with
    code := s.code.modifyInsts j fun insts =>
      insts.take (s.code.firstTransfer j) ++ copies ++ insts.drop (s.code.firstTransfer j) }

/-- Copies are no news for registers. -/
theorem Selection.extends_send (s : Selection) (j : Nat) (copies : List Instr) : s.Extends (s.send j copies) :=
  .of_eq Array.size_modify rfl rfl rfl rfl

/-- Every block has its phi code: moves into the registers of its own phis, and copies into fresh registers, no two of
which are the same. The addresses of all labels are loaded in the entry. -/
structure Selection.Seamed (ctx : SelectionContext) (low : Nat) (bases exits : Nat → List Instr)
    (taken : Nat → List (Nat × Nat)) (sent : Nat → List (Nat × ValueId)) (s : Selection) : Prop extends s.Ready ctx where
  size : s.code.blocks.size = ctx.func.layout.length
  low_le : low ≤ s.code.vregCount
  seam : ∀ k < ctx.func.layout.length,
    SeamCode ctx s (s.frontOf k) (bases k) (taken k) (sent k) (exits k) (s.code.instsOf k)
  taken_lt : ∀ k, ∀ e ∈ taken k, e.1 < s.code.vregCount ∧ e.2 < s.code.vregCount
  apart : ∀ k, ((sent k).map Prod.fst).Nodup
  scratch : ∀ k, ∀ e ∈ sent k, s.Scratch low s.code.vregCount e.1
  entryLoads : ∀ n name, s.Belongs n (.label name) → .loadAddr (.virtual n) name ∈ s.code.instsOf 0

/-- The phis of some blocks are lowered. -/
structure Selection.Lowered (ctx : SelectionContext) (low : Nat) (bases exits : Nat → List Instr) (done : List BlockId)
    (taken : Nat → List (Nat × Nat)) (sent : Nat → List (Nat × ValueId)) (s : Selection) : Prop
    extends s.Seamed ctx low bases exits taken sent where
  idle : ∀ k b, ctx.func.layout[k]? = some b → b ∉ done → taken k = []
  takes : ∀ k b, ctx.func.layout[k]? = some b → b ∈ done →
    List.Forall₂ (Takes ctx s low) (ctx.func.phis b) (taken k)
  fed : ∀ k b, ctx.func.layout[k]? = some b → b ∈ done → ∀ x ∈ (ctx.func.phis b).zip (taken k), ∀ j p v,
    ctx.func.layout[j]? = some p → ctx.func.Feeds b x.1 p v → (x.2.2, v) ∈ sent j
  origin : ∀ j p, ctx.func.layout[j]? = some p → ∀ e ∈ sent j,
    ∃ b ∈ ctx.func.layout, ∃ phi ∈ ctx.func.phis b, ctx.func.Feeds b phi p e.2

namespace Selection.Seamed

variable {low : Nat} {bases exits : Nat → List Instr} {taken : Nat → List (Nat × Nat)} {sent : Nat → List (Nat × ValueId)}

variable (h : s.Seamed ctx low bases exits taken sent)

include h

/-- New registers and new loads at the front of the entry leave the phi code alone. -/
theorem emits (he : s.Emits [] s') : s'.Seamed ctx low bases exits taken sent where
  toReady := he.ready h.toReady
  size := he.size.trans h.size
  low_le := h.low_le.trans he.count
  seam k hk := by
    unfold frontOf
    by_cases hzero : k = 0
    · subst hzero
      obtain ⟨loads, hloads, hfront, hinsts⟩ := he.instsOf_zero h.toSound
      have hseam := (h.seam 0 hk).mono he.toExtends
      rw [if_pos rfl, hfront, hinsts]
      exact hseam.insert hloads
    · have hbody := he.body k
      rw [List.append_nil, ite_self] at hbody
      unfold Selection.body at hbody
      rw [if_neg hzero, if_neg hzero] at hbody
      have hseam := (h.seam k hk).mono he.toExtends
      unfold frontOf at hseam
      rw [if_neg hzero] at hseam ⊢
      rwa [hbody]
  taken_lt k e hmem := ⟨(h.taken_lt k e hmem).1.trans_le he.count, (h.taken_lt k e hmem).2.trans_le he.count⟩
  apart := h.apart
  scratch k e hmem := ((h.scratch k e hmem).mono he.toExtends).widen (Nat.le_refl _) he.count
  entryLoads := he.loaded h.entryLoads

/-- Moves on top of a block that had none. -/
theorem take (hk : taken k = []) (hready : s'.Ready ctx)
    (hext : s.Extends s') (hentry : s'.entryFront = s.entryFront) (haddr : s'.addresses = s.addresses)
    (hpairs : ∀ e ∈ pairs, e.1 < s'.code.vregCount ∧ e.2 < s'.code.vregCount) (hinsts : ∀ j, s'.code.instsOf j =
      if j = k then (pairs.map fun e => .move (.virtual e.1) (.virtual e.2)) ++ s.code.instsOf j else s.code.instsOf j) :
    s'.Seamed ctx low bases exits (Function.update taken k pairs) sent where
  toReady := hready
  size := hext.size.trans h.size
  low_le := h.low_le.trans hext.count
  seam j hj := by
    have hseam := (h.seam j hj).mono hext
    have hfront : s'.frontOf j = s.frontOf j := by rw [frontOf, frontOf, hentry]
    rw [hinsts, hfront]
    by_cases hjk : j = k
    · subst hjk
      rw [hk] at hseam
      rw [if_pos rfl, Function.update_self]
      exact hseam.take pairs
    · rw [if_neg hjk, Function.update_of_ne hjk]
      exact hseam
  taken_lt j e hmem := by
    by_cases hjk : j = k
    · subst hjk
      rw [Function.update_self] at hmem
      exact hpairs e hmem
    · rw [Function.update_of_ne hjk] at hmem
      exact ⟨(h.taken_lt j e hmem).1.trans_le hext.count, (h.taken_lt j e hmem).2.trans_le hext.count⟩
  apart := h.apart
  scratch j e hmem := ((h.scratch j e hmem).mono hext).widen (Nat.le_refl _) hext.count
  entryLoads n name hn := by
    have hold := h.entryLoads n name (by rwa [Belongs, haddr] at hn)
    rw [hinsts]
    split
    · exact List.mem_append_right _ hold
    · exact hold

/-- Copies in front of the transfers of a block, into registers that no copy there sets yet. -/
theorem send (hj : j < ctx.func.layout.length) (hexits : ∀ i ∈ exits j, i.isTransfer = true)
    (hcopies : List.Forall₂ (fun e i => CopyCode ctx s e.1 e.2 i) more copies) (hmore : (more.map Prod.fst).Nodup)
    (hnew : ∀ e ∈ more, e.1 ∉ (sent j).map Prod.fst) (hscratch : ∀ e ∈ more, s.Scratch low s.code.vregCount e.1) :
    (s.send j copies).Seamed ctx low bases exits taken (Function.update sent j (sent j ++ more)) := by
  have hinsts : ∀ k, (s.send j copies).code.instsOf k =
      if k = j then (s.code.instsOf k).take (s.code.firstTransfer j) ++ copies ++
        (s.code.instsOf k).drop (s.code.firstTransfer j) else s.code.instsOf k := by
    intro k
    unfold Selection.send
    rw [instsOf_modifyInsts]
    by_cases hkj : k = j
    · rw [if_pos ⟨hkj.symm, h.size ▸ hj⟩, if_pos hkj]
    · rw [if_neg fun hand => hkj hand.1.symm, if_neg hkj]
  have hext := s.extends_send j copies
  refine ⟨⟨h.toSound.of_eq (hext.size ▸ h.here) ?_ rfl rfl rfl, h.values⟩, hext.size.trans h.size, h.low_le,
    fun k hk => ?_, h.taken_lt, fun k => ?_, fun k e hmem => ?_, fun n name hn => ?_⟩
  · rw [hinsts]
    change s.entryFront ≤ _
    split
    · rw [List.append_assoc, List.length_append, List.length_append]
      have hlength := congrArg List.length (List.take_append_drop (s.code.firstTransfer j) (s.code.instsOf 0))
      rw [List.length_append] at hlength
      have hroom := h.room
      omega
    · exact h.room
  · have hseam := h.seam k hk
    rw [hinsts]
    by_cases hkj : k = j
    · subst hkj
      rw [if_pos rfl, Function.update_self]
      exact (hseam.send h.toSound (h.taken_lt k) (fun e he => (h.scratch k e he).counted) hexits hcopies).mono hext
    · rw [if_neg hkj, Function.update_of_ne hkj]
      exact hseam.mono hext
  · by_cases hkj : k = j
    · subst hkj
      rw [Function.update_self, List.map_append]
      refine List.nodup_append.2 ⟨h.apart k, hmore, fun a ha b hb hab => ?_⟩
      obtain ⟨e, he, rfl⟩ := List.mem_map.1 hb
      exact hnew e he (hab ▸ ha)
    · rw [Function.update_of_ne hkj]
      exact h.apart k
  · by_cases hkj : k = j
    · subst hkj
      rw [Function.update_self] at hmem
      rcases List.mem_append.1 hmem with hold | hadded
      · exact (h.scratch k e hold).mono hext
      · exact (hscratch e hadded).mono hext
    · rw [Function.update_of_ne hkj] at hmem
      exact (h.scratch k e hmem).mono hext
  · have hold := h.entryLoads n name hn
    rw [hinsts]
    split
    · rw [← List.take_append_drop (s.code.firstTransfer j) (s.code.instsOf 0)] at hold
      exact List.mem_append.2 ((List.mem_append.1 hold).imp_left (List.mem_append_left _))
    · exact hold

/-- The four parts of a block. Only the last one has transfers. -/
theorem parts (hk : k < ctx.func.layout.length) :
    ∃ top mid copies, s.code.instsOf k = top ++ mid ++ copies ++ exits k ∧ TakeCode s (taken k) top ∧
      LoadedCode s (bases k) mid ∧ List.Forall₂ (fun e i => CopyCode ctx s e.1 e.2 i) (sent k) copies ∧
      ∀ i ∈ top ++ mid ++ copies, i.Calm s.code.vregCount := by
  obtain ⟨top, mid, copies, hcode, htop, hmid, hbase, hcopies⟩ := (h.seam k hk).parts
  refine ⟨top, mid, copies, hcode, htop, hmid, hcopies, ?_⟩
  simp only [List.forall_mem_append]
  refine ⟨⟨htop.calm h.toSound (h.taken_lt k), hmid.calm h.toSound hbase⟩, fun i hi => ?_⟩
  obtain ⟨e, he, hcopy⟩ := exists_of_forall₂_right hcopies hi
  exact hcopy.calm h.toSound (h.scratch k e he).counted

end Selection.Seamed

namespace Select

open Stateful Selection

variable {allowed : Failure → Prop}

/-- What receiving the phis of a block does: each phi takes its value from a new register to its own, by a move at the top
of the block. -/
structure Received (ctx : SelectionContext) (s : Selection) (k : Nat) (phis : List InstId) (pairs : List (Nat × Nat))
    (s' : Selection) : Prop where
  ready : s'.Ready ctx
  extend : s.Extends s'
  entry : s'.entryFront = s.entryFront
  addresses : s'.addresses = s.addresses
  insts : ∀ j, s'.code.instsOf j =
    if j = k then (pairs.map fun e => .move (.virtual e.1) (.virtual e.2)) ++ s.code.instsOf j else s.code.instsOf j
  takes : List.Forall₂ (Takes ctx s' s.code.vregCount) phis pairs
  apart : (pairs.map Prod.snd).Nodup

/-- One more phi. -/
theorem meets_receivePhi (hk : k < s.code.blocks.size) {result : ValueId}
    (hresult : ctx.func.result? phi = some result) (hvalue : result < ctx.func.values.size) {s₁ : Selection}
    (hr : Received ctx s k phis pairs s₁) : Meets allowed (do
      let temp ← newVreg
      let dst ← vregFor result
      modify fun s =>
        { s with code := s.code.modifyInsts k fun insts => insts.insertIdx phis.length (.move dst temp) }
      return temp) s₁ fun op s' => ∃ e, op = .virtual e.2 ∧ Received ctx s k (phis ++ [phi]) (pairs ++ [e]) s' := by
  have hfresh : ∀ op s', newVreg.run s₁ = .ok (op, s') → s'.addresses = s₁.addresses := by
    intro op s' hrun
    cases hrun
    rfl
  refine .bind (((meets_newVreg hr.ready.toSound).and hfresh).mono fun temp s₂ ⟨⟨he₂, t, hop, ht⟩, haddr₂⟩ => ?_)
  subst hop
  have hv : result < s₂.registers.size := by rwa [(he₂.ready hr.ready).values]
  refine .bind (((meets_vregFor he₂.sound hv).and fun op s' hrun => (leads_vregFor_addresses result).keeps
    (P := fun s' => s'.addresses = s₂.addresses) (fun _ _ hstep hsame => hstep.trans hsame) hrun rfl).mono
      fun dst s₃ ⟨⟨he₃, n, hop, hn⟩, haddr₃⟩ => .bind (.modify (.pure ⟨(n, t), rfl, ?_⟩)))
  subst hop
  obtain ⟨hinsts₂, hentry₂⟩ := he₂.instsOf_eq haddr₂
  obtain ⟨hinsts₃, hentry₃⟩ := he₃.instsOf_eq haddr₃
  have hext₃ : s₁.Extends s₃ := he₂.toExtends.trans he₃.toExtends
  have hsize : s₃.code.blocks.size = s.code.blocks.size := (hr.extend.trans hext₃).size
  -- The move goes behind those of the phis before.
  have hinsts : ∀ j, (s₃.code.modifyInsts k fun insts =>
      insts.insertIdx phis.length (.move (.virtual n) (.virtual t))).instsOf j =
      if j = k then ((pairs ++ [(n, t)]).map fun e => .move (.virtual e.1) (.virtual e.2)) ++ s.code.instsOf j
      else s.code.instsOf j := by
    intro j
    rw [instsOf_modifyInsts, hinsts₃, hinsts₂, hr.insts]
    by_cases hjk : j = k
    · subst hjk
      have hlength : phis.length = (pairs.map fun e => Instr.move (.virtual e.1) (.virtual e.2)).length := by
        rw [List.length_map, hr.takes.length_eq]
      rw [if_pos ⟨rfl, hsize ▸ hk⟩, if_pos rfl, if_pos rfl, hlength, insertIdx_of_le _ (by simp), List.take_left,
        List.drop_left, List.map_append, List.append_assoc]
      rfl
    · rw [if_neg fun hand => hjk hand.1.symm, if_neg hjk, if_neg hjk]
  have hext₄ : s₃.Extends { s₃ with
      code := s₃.code.modifyInsts k fun insts =>
        insts.insertIdx phis.length (.move (.virtual n) (.virtual t)) } := .of_eq Array.size_modify rfl rfl rfl rfl
  have hext : s₁.Extends _ := hext₃.trans hext₄
  have hentry : s₃.entryFront = s.entryFront :=
    (hentry₃ he₂.sound).trans ((hentry₂ hr.ready.toSound).trans hr.entry)
  refine ⟨⟨he₃.sound.of_eq (hext₄.size ▸ he₃.sound.here) ?_ rfl rfl rfl, (he₃.ready (he₂.ready hr.ready)).values⟩,
    hr.extend.trans hext, hentry, haddr₃.trans (haddr₂.trans hr.addresses), hinsts, List.rel_append (hr.takes.imp fun _ _ => .mono hext) (.cons ?_ .nil), ?_⟩
  · have hroom := he₃.sound.room
    rw [hinsts₃, hinsts₂, hr.insts] at hroom
    dsimp only
    rw [hinsts]
    split
    · rename_i hzero
      rw [if_pos hzero, List.length_append, List.length_map] at hroom
      rw [List.length_append, List.length_map, List.length_append]
      exact hroom.trans (by omega)
    · rename_i hzero
      rwa [if_neg hzero] at hroom
  · exact ⟨⟨result, hresult, hext₄.kept _ _ hn⟩,
      (ht.mono (he₃.toExtends.trans hext₄)).widen hr.extend.count (he₃.toExtends.trans hext₄).count⟩
  · rw [List.map_append]
    refine List.nodup_append.2 ⟨hr.apart, List.nodup_singleton t, fun a ha c hc hac => ?_⟩
    obtain rfl := List.mem_singleton.1 hc
    obtain ⟨e, he, rfl⟩ := List.mem_map.1 ha
    obtain ⟨phi', -, htakes⟩ := exists_of_forall₂_right hr.takes he
    have hlt := htakes.scratch.high
    have hge := ht.low
    omega

/-- The phis of a block stand in it. -/
theorem mem_of_mem_phis (hphi : phi ∈ ctx.func.phis b) : phi ∈ ctx.func.instsOf b ∧ (ctx.func.kind phi).isPhi = true :=
  ⟨(List.takeWhile_sublist _).subset hphi,
    List.mem_takeWhile_imp (p := fun i => (ctx.func.kind i).isPhi) hphi⟩

/-- The place of an item in a list of items with their places. -/
theorem eq_length_of_zipIdx {α : Type} {l : List α} {done rest : List (α × Nat)} {a : α} {i : Nat}
    (h : l.zipIdx = done ++ (a, i) :: rest) : i = done.length ∧ l[i]? = some a ∧ done.map Prod.fst = l.take i := by
  have hget : l.zipIdx[done.length]? = some (a, i) := by
    rw [h, List.getElem?_append_right (Nat.le_refl _), Nat.sub_self]
    rfl
  rw [List.getElem?_zipIdx, Option.map_eq_some_iff] at hget
  obtain ⟨a', ha', hpair⟩ := hget
  obtain ⟨rfl, hi⟩ := Prod.mk.inj hpair
  obtain rfl : i = done.length := hi.symm.trans (Nat.zero_add _)
  refine ⟨rfl, ha', ?_⟩
  have hfst := congrArg (List.map Prod.fst) h
  rw [List.zipIdx_map_fst, List.map_append] at hfst
  rw [hfst, List.take_left' (List.length_map _)]

section

variable (h : ctx.Selectable allowed)

include h

theorem meets_receivePhis (hs : s.Ready ctx) (hsize : s.code.blocks.size = ctx.func.layout.length)
    (hb : ctx.func.layout[k]? = some b) : Meets allowed (receivePhis ctx b k (ctx.func.phis b)) s fun temps s' =>
      ∃ pairs, temps = pairs.map (fun e => .virtual e.2) ∧ Received ctx s k (ctx.func.phis b) pairs s' := by
  have hk : k < s.code.blocks.size := by
    rw [hsize]
    exact (List.getElem?_eq_some_iff.1 hb).1
  have hstart : Received ctx s k [] [] s := ⟨hs, .refl s, rfl, rfl, fun j => by split <;> rfl, .nil, .nil⟩
  refine (Meets.mapM (I := fun done found s' => ∃ pairs : List (Nat × Nat),
    found = pairs.map (fun e => Operand.virtual e.2) ∧ Received ctx s k (done.map Prod.fst) pairs s') _
    (fun done x rest found s₁ hlist ⟨pairs, hfound, hr⟩ => ?_) ⟨[], rfl, hstart⟩).mono fun temps s' hdone => ?_
  · rwa [List.zipIdx_map_fst] at hdone
  · obtain ⟨phi, i⟩ := x
    obtain ⟨hi, hphi, -⟩ := eq_length_of_zipIdx hlist
    obtain ⟨hmem, hkind⟩ := mem_of_mem_phis (List.mem_of_getElem? hphi)
    have hgives : (ctx.func.kind phi).alwaysGives = true := by
      cases hkind' : ctx.func.kind phi with
      | phi => rfl
      | _ =>
        rw [hkind'] at hkind
        cases hkind
    obtain ⟨result, hresult, hvalue⟩ := h.exists_result hmem hgives
    have hslots := h.shaped.slots b (List.mem_of_getElem? hb) phi hmem hkind
    have hlength : i = (done.map Prod.fst).length := by rw [hi, List.length_map]
    dsimp only
    rw [if_neg (not_not.2 hslots), hresult, hlength]
    refine (meets_receivePhi hk hresult hvalue hr).mono fun op s₂ ⟨e, hop, hr'⟩ => ⟨pairs ++ [e], ?_, ?_⟩
    · rw [hfound, hop, List.map_append]
      rfl
    · rw [List.map_append]
      exact hr'

theorem meets_copyInto (hs : s.Ready ctx) {v : ValueId} (hv : v < ctx.func.values.size) (t : Nat) :
    Meets allowed (copyInto ctx (.virtual t) v) s fun i s' => s.Emits [] s' ∧ CopyCode ctx s' t v i := by
  refine .bind (.get ?_)
  split
  · rename_i offset hslot
    exact .pure ⟨.refl hs.toSound, .slot hslot⟩
  · rename_i hslot
    exact .bind ((meets_plainOperand h hs hv hslot).mono fun op s' ⟨he, hcode⟩ => .pure ⟨he, .plain (hcode 0 0)⟩)

variable {slot : Nat}

/-- The copies of the operands of phis in one slot. -/
theorem meets_copies (hs : s.Ready ctx) : ∀ {items : List (InstId × Nat × Nat)},
    (∀ x ∈ items, ∃ v, (ctx.func.operands x.1)[slot]? = some v) →
    Meets allowed ((items.map fun x => (x.1, Operand.virtual x.2.2)).mapM fun (phi, temp) => do
      copyInto ctx temp (← ctx.func.operand phi slot)) s fun copies s' => s.Emits [] s' ∧ ∃ more : List (Nat × ValueId),
        List.Forall₂ (fun e i => CopyCode ctx s' e.1 e.2 i) more copies ∧
        List.Forall₂ (fun (x : InstId × Nat × Nat) e => x.2.2 = e.1 ∧ (ctx.func.operands x.1)[slot]? = some e.2)
          items more := by
  intro items
  induction items generalizing s with
  | nil => exact fun _ => .pure ⟨.refl hs.toSound, [], .nil, .nil⟩
  | cons x rest ih =>
    intro hitems
    obtain ⟨⟨v, hv⟩, hrest⟩ := List.forall_mem_cons.1 hitems
    have hok := Edit.operand_of_getElem? hv
    rw [List.map_cons, List.mapM_cons]
    refine .bind (.bind (.lift (.of_exists ⟨v, hok⟩) fun w hw => ?_))
    cases hok.symm.trans hw
    refine (meets_copyInto h hs (h.lt_size (List.mem_of_getElem? hv)) x.2.2).mono fun i s₁ ⟨he₁, hcopy⟩ => ?_
    refine .bind ((ih (he₁.ready hs) hrest).mono fun copies s₂ ⟨he₂, more, hcopies, hmore⟩ => .pure ?_)
    exact ⟨he₁.trans he₂, (x.2.2, v) :: more, .cons (hcopy.mono he₂.toExtends) hcopies, .cons ⟨rfl, hv⟩ hmore⟩

variable {low : Nat} {taken : Nat → List (Nat × Nat)} {sent : Nat → List (Nat × ValueId)} {bases : Nat → List Instr}

/-- Sending the phis of a block from one predecessor. -/
theorem meets_sendPhis {exits : Nat → List Instr} (hs : s.Seamed ctx low bases exits taken sent)
    (hexits : ∀ k < ctx.func.layout.length, ∀ i ∈ exits k, i.isTransfer = true) (hb : b ∈ ctx.func.layout)
    (hp : ctx.func.layout[j]? = some p) (hslot : slot < (ctx.func.preds b).length)
    (htakes : List.Forall₂ (Takes ctx s low) (ctx.func.phis b) pairs) (hapart : (pairs.map Prod.snd).Nodup)
    (hnew : ∀ e ∈ pairs, e.2 ∉ (sent j).map Prod.fst) :
    Meets allowed (sendPhis ctx (ctx.func.phis b) (pairs.map fun e => .virtual e.2) slot p) s fun _ s' =>
      s.Extends s' ∧ ∃ more, s'.Seamed ctx low bases exits taken (Function.update sent j (sent j ++ more)) ∧
        (∀ x ∈ (ctx.func.phis b).zip pairs, ∀ v, (ctx.func.operands x.1)[slot]? = some v → (x.2.2, v) ∈ more) ∧
        ∀ e ∈ more, ∃ phi ∈ ctx.func.phis b, (ctx.func.operands phi)[slot]? = some e.2 := by
  have hindex := blockIndex_of_getElem? h.sound.layout_nodup hp
  refine .bind (.lift (.of_exists ⟨j, hindex⟩) fun j' hj' => ?_)
  cases hindex.symm.trans hj'
  have hitems : (ctx.func.phis b).zip (pairs.map fun e => Operand.virtual e.2) =
      ((ctx.func.phis b).zip pairs).map fun x => (x.1, Operand.virtual x.2.2) := by
    rw [List.zip_map_right]
    rfl
  have hslots : ∀ x ∈ (ctx.func.phis b).zip pairs, ∃ v, (ctx.func.operands x.1)[slot]? = some v := by
    intro x hx
    obtain ⟨hmem, hkind⟩ := mem_of_mem_phis (List.of_mem_zip hx).1
    have hlength := h.shaped.slots b hb x.1 hmem hkind
    exact ⟨_, List.getElem?_eq_getElem (hlength ▸ hslot)⟩
  rw [hitems]
  refine .bind ((meets_copies h hs.toReady hslots).mono fun copies s₁ ⟨he, more, hcopies, hmore⟩ => .modify ?_)
  have hs₁ := hs.emits he
  have hfst : more.map Prod.fst = pairs.map Prod.snd := by
    have heq : List.Forall₂ (· = ·) (((ctx.func.phis b).zip pairs).map fun x => x.2.2) (more.map Prod.fst) :=
      List.forall₂_map_left_iff.2 (List.forall₂_map_right_iff.2 (hmore.imp fun _ _ hx => hx.1))
    rw [List.forall₂_eq_eq_eq] at heq
    rw [← heq]
    have hsnd := @List.map_snd_zip _ _ (ctx.func.phis b) pairs (Nat.le_of_eq htakes.length_eq.symm)
    conv_rhs => rw [← hsnd]
    rw [List.map_map]
    rfl
  have hfrom : ∀ e ∈ more, e.1 ∈ pairs.map Prod.snd := fun e he => hfst ▸ List.mem_map_of_mem he
  refine ⟨he.toExtends.trans (s₁.extends_send j copies), more,
    hs₁.send (List.getElem?_eq_some_iff.1 hp).1 (hexits j (List.getElem?_eq_some_iff.1 hp).1) hcopies (hfst ▸ hapart)
      (fun e hmem => ?_) fun e hmem => ?_, fun x hx v hv => ?_, fun e hmem => ?_⟩
  · obtain ⟨pair, hpair, heq⟩ := List.mem_map.1 (hfrom e hmem)
    exact heq ▸ hnew pair hpair
  · obtain ⟨pair, hpair, heq⟩ := List.mem_map.1 (hfrom e hmem)
    obtain ⟨phi, -, hphi⟩ := exists_of_forall₂_right htakes hpair
    exact heq ▸ (hphi.mono he.toExtends).scratch
  · obtain ⟨e, hmem, heq, hv'⟩ := exists_of_forall₂_right hmore.flip hx
    obtain rfl := Option.some.inj (hv.symm.trans hv')
    rwa [heq]
  · obtain ⟨x, hx, -, hv⟩ := exists_of_forall₂_right hmore hmem
    exact ⟨x.1, (List.of_mem_zip hx).1, hv⟩

/-- What sending the phis of a block from its first predecessors has done: each phi takes what it gets from them, and
nothing else is sent. -/
structure Sent (ctx : SelectionContext) (phis : List InstId) (pairs : List (Nat × Nat)) (sent : Nat → List (Nat × ValueId))
    (preds : List (BlockId × Nat)) (sent' : Nat → List (Nat × ValueId)) : Prop where
  more : ∀ j, ∃ more, sent' j = sent j ++ more ∧ (more = [] ∨ ∃ p ∈ preds.map Prod.fst, ctx.func.layout[j]? = some p)
  fed : ∀ x ∈ phis.zip pairs, ∀ q ∈ preds, ∀ j v, ctx.func.layout[j]? = some q.1 →
    (ctx.func.operands x.1)[q.2]? = some v → (x.2.2, v) ∈ sent' j
  origin : ∀ j, ∀ e ∈ sent' j, e ∈ sent j ∨ ∃ phi ∈ phis, ∃ q ∈ preds, ctx.func.layout[j]? = some q.1 ∧
    (ctx.func.operands phi)[q.2]? = some e.2

omit h in
/-- One more predecessor sends nothing new. -/
theorem Sent.more_snoc {sent' : Nat → List (Nat × ValueId)} {preds : List (BlockId × Nat)}
    (h : Sent ctx phis pairs sent preds sent') (x : BlockId × Nat) (j : Nat) : ∃ more, sent' j = sent j ++ more ∧
      (more = [] ∨ ∃ p ∈ (preds ++ [x]).map Prod.fst, ctx.func.layout[j]? = some p) := by
  obtain ⟨more, hmore, hfrom⟩ := h.more j
  refine ⟨more, hmore, hfrom.imp_right fun ⟨p, hp, hat⟩ => ⟨p, ?_, hat⟩⟩
  rw [List.map_append]
  exact List.mem_append_left _ hp

/-- Sending the phis of a block from all its predecessors. -/
theorem meets_sendAll {exits : Nat → List Instr} (hs : s.Seamed ctx low bases exits taken sent)
    (hexits : ∀ k < ctx.func.layout.length, ∀ i ∈ exits k, i.isTransfer = true) (hb : b ∈ ctx.func.layout)
    (htakes : List.Forall₂ (Takes ctx s low) (ctx.func.phis b) pairs) (hapart : (pairs.map Prod.snd).Nodup)
    (hnew : ∀ e ∈ pairs, ∀ j, e.2 ∉ (sent j).map Prod.fst) :
    Meets allowed ((ctx.func.preds b).zipIdx.forM fun (pred, slot) => do
      let first := (ctx.func.preds b).idxOf pred
      if first = slot then
        sendPhis ctx (ctx.func.phis b) (pairs.map fun e => .virtual e.2) slot pred
      else if (ctx.func.phis b).any fun phi => (ctx.func.operands phi)[first]? != (ctx.func.operands phi)[slot]? then
        report (.invariant ctx.func.name (.conflictingPhiValues (ctx.func.blockName b) (ctx.func.blockName pred))))
      s fun _ s' => s.Extends s' ∧ ∃ sent', s'.Seamed ctx low bases exits taken sent' ∧
        Sent ctx (ctx.func.phis b) pairs sent (ctx.func.preds b).zipIdx sent' := by
  refine Meets.forM (I := fun done s' => s.Extends s' ∧ ∃ sent', s'.Seamed ctx low bases exits taken sent' ∧
    Sent ctx (ctx.func.phis b) pairs sent done sent') _ (fun done x rest s₁ hlist ⟨hext, sent₁, hs₁, hsent₁⟩ => ?_)
    ⟨.refl s, sent, hs, fun j => ⟨[], (List.append_nil _).symm, .inl rfl⟩, fun _ _ _ hq => absurd hq List.not_mem_nil,
      fun _ _ he => .inl he⟩
  obtain ⟨p, slot⟩ := x
  obtain ⟨hslot, hp, hfst⟩ := eq_length_of_zipIdx hlist
  have hlt : slot < (ctx.func.preds b).length := (List.getElem?_eq_some_iff.1 hp).1
  have hlisted : p ∈ ctx.func.layout := by
    have hcount := h.shaped.preds b hb p
    by_contra hout
    rw [if_neg hout] at hcount
    exact List.count_eq_zero.1 hcount (List.mem_of_getElem? hp)
  obtain ⟨j, hj⟩ := List.getElem?_of_mem hlisted
  dsimp only
  split
  · rename_i hfirst
    -- The predecessor comes up for the first time.
    have hout : p ∉ done.map Prod.fst := by
      intro hmem
      rw [hfst] at hmem
      have hidx : ((ctx.func.preds b).take slot ++ (ctx.func.preds b).drop slot).idxOf p = _ :=
        List.idxOf_append_of_mem hmem
      rw [List.take_append_drop, hfirst] at hidx
      have hlt' := List.idxOf_lt_length_of_mem hmem
      rw [← hidx, List.length_take] at hlt'
      omega
    have hsame : sent₁ j = sent j := by
      obtain ⟨more, hmore, hnil | ⟨q, hq, hat⟩⟩ := hsent₁.more j
      · rw [hmore, hnil, List.append_nil]
      · exact absurd (Option.some.inj (hj.symm.trans hat) ▸ hq) hout
    refine (meets_sendPhis h hs₁ hexits hb hj hlt (htakes.imp fun _ _ => .mono hext) hapart
      fun e he => hsame ▸ hnew e he j).mono fun _ s₂ ⟨hext', more, hs₂, hmore, hfrom⟩ => ⟨hext.trans hext', _, hs₂,
        fun k => ?_, fun x hx q hq k v hk hv => ?_, fun k e he => ?_⟩
    · by_cases hkj : k = j
      · subst hkj
        rw [Function.update_self, hsame]
        exact ⟨more, rfl, .inr ⟨p, by simp, hj⟩⟩
      · rw [Function.update_of_ne hkj]
        exact hsent₁.more_snoc (p, slot) k
    · rcases List.mem_append.1 hq with hq | hq
      · have hold := hsent₁.fed x hx q hq k v hk hv
        by_cases hkj : k = j
        · subst hkj
          rw [Function.update_self]
          exact List.mem_append_left _ hold
        · rwa [Function.update_of_ne hkj]
      · obtain rfl := List.mem_singleton.1 hq
        obtain rfl : k = j :=
          (List.getElem?_inj (List.getElem?_eq_some_iff.1 hk).1 h.sound.layout_nodup).1 (hk.trans hj.symm)
        rw [Function.update_self]
        exact List.mem_append_right _ (hmore x hx v hv)
    · have hold := hsent₁.origin k e
      by_cases hkj : k = j
      · subst hkj
        rw [Function.update_self] at he
        rcases List.mem_append.1 he with he | he
        · exact (hold he).imp_right fun ⟨phi, hphi, q, hq, hat⟩ => ⟨phi, hphi, q, List.mem_append_left _ hq, hat⟩
        · obtain ⟨phi, hphi, hv⟩ := hfrom e he
          exact .inr ⟨phi, hphi, (p, slot), List.mem_append_right _ List.mem_cons_self, hj, hv⟩
      · rw [Function.update_of_ne hkj] at he
        exact (hold he).imp_right fun ⟨phi, hphi, q, hq, hat⟩ => ⟨phi, hphi, q, List.mem_append_left _ hq, hat⟩
  · rename_i hfirst
    -- It has come up before.
    have hmem : p ∈ ctx.func.preds b := List.mem_of_getElem? hp
    have hidx := List.idxOf_lt_length_of_mem hmem
    have hat : (ctx.func.preds b)[(ctx.func.preds b).idxOf p]? = some p := by
      rw [List.getElem?_eq_getElem hidx, List.getElem_idxOf hidx]
    have hbefore : (ctx.func.preds b).idxOf p < slot := by
      have hin : p ∈ (ctx.func.preds b).take (slot + 1) :=
        List.mem_take_iff_getElem.2 ⟨slot, by omega, (List.getElem?_eq_some_iff.1 hp).2⟩
      have hsame : ((ctx.func.preds b).take (slot + 1) ++ (ctx.func.preds b).drop (slot + 1)).idxOf p = _ :=
        List.idxOf_append_of_mem hin
      have hle := List.idxOf_lt_length_of_mem hin
      rw [List.take_append_drop] at hsame
      rw [← hsame, List.length_take] at hle
      omega
    split
    · rename_i hconflict
      -- Its values are not the same, and this is an error.
      refine .lift (.error (h.agreeing.resolve_left (fun hagree => ?_) _)) fun _ hok => by cases hok
      obtain ⟨phi, hphi, hne⟩ := List.any_eq_true.1 hconflict
      obtain ⟨hin, hkind⟩ := mem_of_mem_phis hphi
      have hlength := h.shaped.slots b hb phi hin hkind
      rw [List.getElem?_eq_getElem (hlength ▸ hidx), List.getElem?_eq_getElem (hlength ▸ hlt), bne_iff_ne] at hne
      refine hne (congrArg some (hagree b hb phi hin hkind p _ _
        (List.mem_of_getElem? (i := (ctx.func.preds b).idxOf p) ?_) (List.mem_of_getElem? (i := slot) ?_)))
      · exact List.getElem?_zip_eq_some.2 ⟨hat, List.getElem?_eq_getElem _⟩
      · exact List.getElem?_zip_eq_some.2 ⟨hp, List.getElem?_eq_getElem _⟩
    · rename_i hagree
      -- Its values are the same.
      have hequal : ∀ phi ∈ ctx.func.phis b, (ctx.func.operands phi)[(ctx.func.preds b).idxOf p]? =
          (ctx.func.operands phi)[slot]? := by
        intro phi hphi
        have hsame := List.any_eq_false.1 (Bool.eq_false_iff.2 hagree) phi hphi
        rwa [bne_iff_ne, ne_eq, not_not] at hsame
      refine .pure ⟨hext, sent₁, hs₁, hsent₁.more_snoc (p, slot), fun x hx q hq k v hk hv => ?_, fun k e he =>
        (hsent₁.origin k e he).imp_right fun ⟨phi, hphi, q, hq, hat⟩ => ⟨phi, hphi, q, List.mem_append_left _ hq, hat⟩⟩
      rcases List.mem_append.1 hq with hq | hq
      · exact hsent₁.fed x hx q hq k v hk hv
      · obtain rfl := List.mem_singleton.1 hq
        refine hsent₁.fed x hx (p, (ctx.func.preds b).idxOf p) ?_ k v hk ((hequal x.1 (List.of_mem_zip hx).1).trans hv)
        refine List.mem_of_getElem? (i := (ctx.func.preds b).idxOf p) ?_
        rw [← List.getElem?_append_left (hslot ▸ hbefore), ← hlist, List.getElem?_zipIdx, hat, Option.map_some,
          Nat.zero_add]

theorem meets_lowerPhis {exits : Nat → List Instr} {done : List BlockId}
    (hs : s.Lowered ctx low bases exits done taken sent)
    (hexits : ∀ k < ctx.func.layout.length, ∀ i ∈ exits k, i.isTransfer = true) (hb : b ∈ ctx.func.layout)
    (hnew : b ∉ done) : Meets allowed (lowerPhis ctx b) s fun _ s' => s.Extends s' ∧ ∃ taken' sent',
      s'.Lowered ctx low bases exits (done ++ [b]) taken' sent' := by
  obtain ⟨k, hk⟩ := List.getElem?_of_mem hb
  have hplace : ∀ {j c}, ctx.func.layout[j]? = some c → (c = b ↔ j = k) := by
    intro j c hj
    refine ⟨fun hcb => ?_, fun hjk => Option.some.inj (hj.symm.trans (hjk ▸ hk))⟩
    subst hcb
    exact (List.getElem?_inj (List.getElem?_eq_some_iff.1 hj).1 h.sound.layout_nodup).1 (hj.trans hk.symm)
  unfold lowerPhis
  dsimp only
  split
  · rename_i hempty
    have hphis : ctx.func.phis b = [] := List.isEmpty_iff.1 hempty
    refine .pure ⟨.refl s, taken, sent, hs.toSeamed, fun j c hj hc => ?_, fun j c hj hc => ?_, fun j c hj hc x hx => ?_,
      hs.origin⟩
    · exact hs.idle j c hj fun hmem => hc (List.mem_append_left _ hmem)
    · rcases List.mem_append.1 hc with hc | hc
      · exact hs.takes j c hj hc
      · obtain rfl := List.mem_singleton.1 hc
        rw [hphis, hs.idle j c hj hnew]
        exact .nil
    · rcases List.mem_append.1 hc with hc | hc
      · exact hs.fed j c hj hc x hx
      · obtain rfl := List.mem_singleton.1 hc
        rw [hphis] at hx
        exact absurd hx List.not_mem_nil
  · have hindex := blockIndex_of_getElem? h.sound.layout_nodup hk
    refine .bind (.lift (.of_exists ⟨k, hindex⟩) fun k' hk' => ?_)
    cases hindex.symm.trans hk'
    refine .bind ((meets_receivePhis h hs.toReady hs.size hk).mono fun temps s₁ ⟨pairs, htemps, hr⟩ => ?_)
    subst htemps
    have htakes : List.Forall₂ (Takes ctx s₁ low) (ctx.func.phis b) pairs :=
      hr.takes.imp fun _ _ ht => ⟨ht.owner, ht.scratch.widen hs.low_le (Nat.le_refl _)⟩
    have hcounted : ∀ e ∈ pairs, e.1 < s₁.code.vregCount ∧ e.2 < s₁.code.vregCount := by
      intro e he
      obtain ⟨phi, -, hphi⟩ := exists_of_forall₂_right htakes he
      obtain ⟨r, -, hn⟩ := hphi.owner
      exact ⟨hr.ready.counted _ _ hn, hphi.scratch.counted⟩
    have hs₁ := hs.toSeamed.take (hs.idle k b hk hnew) hr.ready hr.extend hr.entry hr.addresses hcounted hr.insts
    have hfresh : ∀ e ∈ pairs, ∀ j, e.2 ∉ (sent j).map Prod.fst := by
      intro e he j hmem
      obtain ⟨phi, -, hphi⟩ := exists_of_forall₂_right hr.takes he
      obtain ⟨c, hc, heq⟩ := List.mem_map.1 hmem
      have hlow := hphi.scratch.low
      have hhigh := (hs.scratch j c hc).high
      omega
    refine (meets_sendAll h hs₁ hexits hb htakes hr.apart hfresh).mono
      fun _ s₂ ⟨hext, sent₂, hs₂, hsent⟩ => ⟨hr.extend.trans hext, _, sent₂, hs₂, fun j c hj hc => ?_,
        fun j c hj hc => ?_, fun j c hj hc x hx i p v hi hfeeds => ?_, fun j p hj e he => ?_⟩
    · obtain ⟨hdone, hcb⟩ : c ∉ done ∧ c ≠ b := by simpa [not_or] using hc
      rw [Function.update_of_ne fun hjk => hcb ((hplace hj).2 hjk)]
      exact hs.idle j c hj hdone
    · by_cases hcb : c = b
      · rw [(hplace hj).1 hcb, Function.update_self, hcb]
        exact htakes.imp fun _ _ => .mono hext
      · rw [Function.update_of_ne fun hjk => hcb ((hplace hj).2 hjk)]
        have hdone : c ∈ done := by simpa [hcb] using hc
        exact (hs.takes j c hj hdone).imp fun _ _ => .mono (hr.extend.trans hext)
    · by_cases hcb : c = b
      · rw [(hplace hj).1 hcb, Function.update_self, hcb] at hx
        rw [hcb] at hfeeds
        obtain ⟨slot, hslot⟩ := List.getElem?_of_mem hfeeds
        obtain ⟨hp, hv⟩ := List.getElem?_zip_eq_some.1 hslot
        refine hsent.fed x hx (p, slot) (List.mem_of_getElem? (i := slot) ?_) i v hi hv
        rw [List.getElem?_zipIdx, hp, Option.map_some, Nat.zero_add]
      · rw [Function.update_of_ne fun hjk => hcb ((hplace hj).2 hjk)] at hx
        have hdone : c ∈ done := by simpa [hcb] using hc
        have hold := hs.fed j c hj hdone x hx i p v hi hfeeds
        obtain ⟨more, hmore, -⟩ := hsent.more i
        rw [hmore]
        exact List.mem_append_left _ hold
    · refine (hsent.origin j e he).elim (hs.origin j p hj e) fun ⟨phi, hphi, q, hq, hat, hv⟩ => ⟨b, hb, phi, hphi, ?_⟩
      obtain rfl := Option.some.inj (hj.symm.trans hat)
      have hpred := List.mem_zipIdx_iff_getElem?.1 hq
      exact List.mem_of_getElem? (i := q.2) (List.getElem?_zip_eq_some.2 ⟨hpred, hv⟩)

theorem meets_lowerAll {exits : Nat → List Instr} (hs : s.Lowered ctx low bases exits [] taken sent)
    (hexits : ∀ k < ctx.func.layout.length, ∀ i ∈ exits k, i.isTransfer = true) :
    Meets allowed (ctx.func.layout.forM (lowerPhis ctx)) s fun _ s' => s.Extends s' ∧ ∃ taken' sent',
      s'.Lowered ctx low bases exits ctx.func.layout taken' sent' := by
  refine Meets.forM (I := fun done s' => s.Extends s' ∧ ∃ taken' sent', s'.Lowered ctx low bases exits done taken' sent') _
    (fun done b rest s₁ hlist ⟨hext, taken₁, sent₁, hs₁⟩ => ?_) ⟨.refl s, taken, sent, hs⟩
  have hb : b ∈ ctx.func.layout := hlist ▸ List.mem_append_right _ List.mem_cons_self
  have hnew : b ∉ done := by
    have hnodup := h.sound.layout_nodup
    rw [hlist] at hnodup
    exact fun hmem => List.disjoint_of_nodup_append hnodup hmem List.mem_cons_self
  exact (meets_lowerPhis h hs₁ hexits hb hnew).mono fun _ s₂ ⟨hext', taken₂, sent₂, hs₂⟩ =>
    ⟨hext.trans hext', taken₂, sent₂, hs₂⟩

end

end Select

/-- The transfers of a block without phi code. -/
def Selection.exits (s : Selection) (k : Nat) : List Instr := (s.body k).dropWhile fun i => !i.isTransfer

/-- The transfers of a block are what its code ends with. -/
theorem Selection.exits_of_body {code : List Instr} (hbody : s.body k = code ++ transfers)
    (hcode : ∀ i ∈ code, i.isTransfer = false) (htransfers : ∀ i ∈ transfers, i.isTransfer = true) :
    s.exits k = transfers := by
  unfold exits
  rw [hbody, List.dropWhile_append_of_pos fun i hi => by rw [hcode i hi]; rfl]
  cases transfers with
  | nil => rfl
  | cons i rest => rw [List.dropWhile_cons_of_neg (by rw [htransfers i List.mem_cons_self]; exact Bool.false_ne_true)]

/-- What a block without phi code computes. The entry starts with its front. -/
def Selection.computes (s : Selection) (k : Nat) : List Instr :=
  (if k = 0 then s.front else []) ++ (s.body k).takeWhile fun i => !i.isTransfer

/-- What a block computes is what its code starts with. -/
theorem Selection.computes_of_body {code : List Instr} (hbody : s.body k = code ++ transfers)
    (hcode : ∀ i ∈ code, i.isTransfer = false) (htransfers : ∀ i ∈ transfers, i.isTransfer = true) :
    s.computes k = (if k = 0 then s.front else []) ++ code := by
  unfold computes
  rw [hbody, List.takeWhile_append_of_pos fun i hi => by rw [hcode i hi]; rfl]
  cases transfers with
  | nil => rw [List.takeWhile_nil, List.append_nil]
  | cons i rest =>
    rw [List.takeWhile_cons_of_neg (by rw [htransfers i List.mem_cons_self]; exact Bool.false_ne_true), List.append_nil]

/-- What the transfers of a block are like. -/
theorem Selection.Selected.exit (hs : s.Selected ctx entry ctx.func.layout) (hk : k < ctx.func.layout.length)
    (hi : i ∈ s.exits k) : i.isTransfer = true ∧
      (∀ op ∈ i.sources ++ i.defs, op.Within s.code.vregCount) ∧
      ∀ t, i.target? = some t → t < ctx.func.layout.length := by
  obtain ⟨code, transfers, hcode, hbody⟩ := hs.code k _ (List.getElem?_eq_getElem hk) (List.getElem_mem hk)
  obtain ⟨hcalm, htransfers⟩ := hcode.calm hs.toSound
  rw [exits_of_body hbody (fun i hi => (hcalm i hi).1) fun i hi => (htransfers i hi).1] at hi
  exact htransfers i hi

/-- A transfer of a block to another one is an edge. -/
theorem Selection.Selected.mem_preds (hs : s.Selected ctx entry ctx.func.layout) (hshaped : ctx.func.Shaped)
    (hp : ctx.func.layout[j]? = some p) (hb : ctx.func.layout[k]? = some b) (hi : i ∈ s.exits j)
    (htarget : i.target? = some k) : p ∈ ctx.func.preds b := by
  have hlisted := List.mem_of_getElem? hp
  obtain ⟨code, transfers, hcode, hbody⟩ := hs.code j p hp hlisted
  obtain ⟨hcalm, htransfers⟩ := hcode.calm hs.toSound
  rw [exits_of_body hbody (fun i hi => (hcalm i hi).1) fun i hi => (htransfers i hi).1] at hi
  obtain ⟨c, hc, hlayout⟩ := hcode.mem_arms hshaped hlisted hi htarget
  obtain rfl := Option.some.inj (hlayout.symm.trans hb)
  rw [← List.count_pos_iff, hshaped.preds c (List.mem_of_getElem? hb), if_pos hlisted]
  exact List.count_pos_iff.2 hc

/-- The address of every label that has a register is loaded into it. -/
theorem Selection.mem_loads {n : Nat} {name : String} (hn : s.Belongs n (.label name)) :
    Instr.loadAddr (.virtual n) name ∈ s.addresses.reverse.map Instr.loadOf := by
  refine List.mem_map.2 ⟨(name, .virtual n), List.mem_reverse.2 ?_, rfl⟩
  obtain ⟨before, after, hmem, -⟩ := List.lookup_eq_some_iff.1 (show s.addresses.lookup name = some (.virtual n) from hn)
  rw [hmem]
  exact List.mem_append_right _ List.mem_cons_self

/-- When all blocks are selected, no phi is lowered yet. -/
theorem Selection.Selected.lowered (hs : s.Selected ctx entry ctx.func.layout)
    (hentry : ∀ i ∈ entry, i.Calm s.code.vregCount) :
    s.Lowered ctx s.code.vregCount s.computes s.exits [] (fun _ => []) (fun _ => []) := by
  refine ⟨⟨hs.toReady, hs.size, Nat.le_refl _, fun k hk => ?_, fun _ _ he => absurd he List.not_mem_nil, fun _ => .nil,
    fun _ _ he => absurd he List.not_mem_nil, fun n name hn => ?_⟩, fun _ _ _ _ => rfl,
    fun _ _ _ hb => absurd hb List.not_mem_nil, fun _ _ _ hb => absurd hb List.not_mem_nil,
    fun _ _ _ _ he => absurd he List.not_mem_nil⟩
  · obtain ⟨code, transfers, hcode, hbody⟩ := hs.code k _ (List.getElem?_eq_getElem hk) (List.getElem_mem hk)
    obtain ⟨hcalm, htransfers⟩ := hcode.calm hs.toSound
    have hexit : s.exits k = transfers :=
      exits_of_body hbody (fun i hi => (hcalm i hi).1) fun i hi => (htransfers i hi).1
    have hbase := computes_of_body hbody (fun i hi => (hcalm i hi).1) fun i hi => (htransfers i hi).1
    have hfront : ∀ i ∈ s.front, i.Calm s.code.vregCount := by
      rw [hs.front]
      refine List.forall_mem_append.2 ⟨hentry, fun i hi => ?_⟩
      obtain ⟨e, he, rfl⟩ := List.mem_map.1 hi
      have hknown := hs.known e (List.mem_reverse.1 he)
      obtain ⟨n, hn⟩ := hs.loaded _ _ hknown
      rw [Instr.loadOf, hn, Instr.calm_loadAddr, Instr.within_virtual]
      exact hs.counted n (.label e.1) (hknown.trans (congrArg some hn))
    unfold frontOf
    rw [hexit, hbase]
    by_cases hzero : k = 0
    · subst hzero
      have hinsts : s.code.instsOf 0 = [] ++ (s.front ++ code) ++ [] ++ transfers := by
        unfold Selection.body at hbody
        rw [if_pos rfl] at hbody
        rw [List.nil_append, List.append_nil, List.append_assoc, ← hbody]
        exact (List.take_append_drop _ _).symm
      rw [if_pos rfl, if_pos rfl, hinsts]
      refine .mk .nil (.refl s _) (List.forall_mem_append.2 ⟨hfront, hcalm⟩) .nil ?_
      rw [List.length_append, show s.front.length = s.entryFront from List.length_take_of_le hs.room]
      omega
    · unfold Selection.body at hbody
      rw [if_neg hzero] at hbody
      rw [if_neg hzero, if_neg hzero, hbody]
      have hseam : SeamCode ctx s 0 code [] [] transfers ([] ++ code ++ [] ++ transfers) :=
        .mk .nil (.refl s _) hcalm .nil (Nat.zero_le _)
      simpa using hseam
  · have hfront : .loadAddr (.virtual n) name ∈ s.front := hs.front ▸ List.mem_append_right _ (Selection.mem_loads hn)
    exact List.mem_of_mem_take hfront

/-- Where selection ends: a state with phi code, made from one without. -/
structure Selection.Ended (ctx : SelectionContext) (s s' : Selection) : Prop where
  params : ∃ entry, ParamsCode s ctx.func.params.zipIdx entry ∧ s.Selected ctx entry ctx.func.layout
  extend : s.Extends s'
  lowered : ∃ taken sent, s'.Lowered ctx s.code.vregCount s.computes s.exits ctx.func.layout taken sent

/-- **Selection of a whole function.** It fails for one reason only: the words of arguments leave the word range. -/
theorem Select.meets_selectAll {allowed : Failure → Prop} (h : ctx.Selectable allowed) (hs : s.Fresh ctx)
    (hparams : Select.ParamOverflow ctx.func.params.length → allowed (.crash none))
    (hcalls : ∀ b ∈ ctx.func.layout, ∀ i ∈ ctx.func.instsOf b, ∀ callee, ctx.func.kind i = .call callee →
      Select.CallOverflow (ctx.func.operands i).length → allowed (.crash none)) :
    Stateful.Meets allowed (selectAll ctx) s fun _ s' => s'.slots = s.slots ∧ ∃ s₁ : Selection, s₁.Ended ctx s' := by
  rw [selectAll_eq]
  refine .bind ((meets_selectBlocks h hs hparams hcalls).mono fun _ s₁ ⟨hslots, entry, hentry, hs₁⟩ => ?_)
  have hstart := hs₁.lowered (hentry.calm hs₁.toSound)
  exact (meets_lowerAll h hstart fun k hk i hi => (hs₁.exit hk hi).1).mono
    fun _ s' ⟨hext, taken, sent, hs'⟩ => ⟨hext.slots.trans hslots, s₁, ⟨entry, hentry, hs₁⟩, hext, taken, sent, hs'⟩

end SsaCompiler
