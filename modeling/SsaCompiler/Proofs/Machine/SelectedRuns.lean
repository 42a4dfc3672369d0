import SsaCompiler.Proofs.Machine.InstRuns
import SsaCompiler.Proofs.Machine.StrictSelection

/-!
# Selected code runs like its function

A run of a function and a run of its selected code go side by side (`Selection.Follows`): what is still to be run in the
block is the code of the instructions that are still to be run, the registers carry the words of the values, and the
memories differ in the words of calls only. Every instruction is answered by its code, a comparison that became part of its
branch by nothing, and an edge by the copies, the transfers and the moves of the phis.
-/

set_option autoImplicit false

namespace SsaCompiler

open Runs

variable {W : Type} {ctx : SelectionContext} {s s' : Selection} {ir : IrEnv W} {env : MachineEnv W} {regs : Register → Word}
  {vals : ValueId → Option Word} {σ σ' τ : MachineState W} {i : InstId}

/-! ## Words of values -/

/-- The slots of a selection are those of the instructions that reserve words. -/
def Selection.Slotted (ctx : SelectionContext) (s : Selection) : Prop :=
  ∀ v offset, s.slots.lookup v = some offset → ∃ i words, ctx.func.kind i = .alloca words ∧
    ctx.func.result? i = some v ∧ offset = Int32.ofInt (ctx.func.slotOffset i)

variable {front : List InstId} {v : ValueId}

/-- A result that is assigned. -/
theorem Function.read_assign_result {f : Function} (hsound : f.Sound) {x : Word} (hv : f.result? i = some v) :
    f.read ir (assign vals (f.result? i) (some x)) v = some x := by
  unfold read
  rw [(hsound.kind_of_result i v hv).2, hv]
  exact Function.update_self v (some x) vals

variable {b : BlockId} {code : List Instr} {sp : Word}

/-- An earlier state carries what a later one does. -/
theorem Selection.Carries.of_extends (h : s'.Carries ctx ir sp vals σ) (hext : s.Extends s') :
    s.Carries ctx ir sp vals σ where
  pointer := h.pointer
  slots v offset x hslot := h.slots v offset x (hext.slots ▸ hslot)
  values v n x hkind hplain hslot hn := h.values v n x hkind hplain (hext.slots ▸ hslot) (hext.kept n _ hn)

/-- What a label has for a register is no value. -/
theorem Selection.Carries.added (h : s'.Carries ctx ir sp vals σ) (hs : s'.Sound)
    (hchanges : σ.ChangesOnly (s.Added s') τ) : s'.Carries ctx ir sp vals τ where
  pointer := (congrArg (· Register.sp) hchanges.regs).trans h.pointer
  slots := h.slots
  values v n x hkind hplain hslot hn hx :=
    (hchanges.vregs n fun ⟨_, _, hlabel⟩ => nomatch hs.single _ _ _ hn hlabel).trans (h.values v n x hkind hplain hslot hn hx)

/-- What is scratch stays scratch. -/
theorem Selection.Scribbles.of_extends {low : Nat} (h : s.Scribbles low σ σ') (hext : s.Extends s') :
    s'.Scribbles low σ σ' :=
  MachineState.ChangesOnly.mono h fun _ hn => (hn.mono hext).widen (Nat.le_refl _) hext.count

/-- Labels that were there keep their addresses. -/
theorem Selection.Loads.added (h : s.Loads env σ []) (hs : s.Sound) (hchanges : σ.ChangesOnly (s.Added s') τ) :
    s.Loads env τ [] := by
  intro n name hn
  rw [hchanges.vregs n fun hadded => Nat.not_lt.2 hadded.1 (hs.counted n _ hn)]
  exact h n name hn

/-- The word that selected code has for a value is the word of the value. -/
theorem Selection.Carries.word (h : s.Carries ctx ir (regs .sp) vals σ) (hs : s.Sound)
    (hsur : ctx.func.Surrounded ctx.module ir env regs) (hl : s.Loads env σ []) {v : ValueId} {x y : Word}
    (hplain : ctx.Plain v) (hx : ctx.func.read ir vals v = some x)
    (hy : s.word? ctx.module ctx.func σ v = some y) : y = x := by
  unfold word? at hy
  split at hy
  · rename_i offset hslot
    rw [h.slots v offset x hslot hx, ← h.read_sp]
    exact (Option.some.inj hy).symm
  · rename_i hslot
    have hcomputed : (ctx.func.value v).kind.isComputed = true → (s.registers.getD v none).map σ.read = some y → y = x := by
      intro hkind hregister
      obtain ⟨op, hop, rfl⟩ := Option.map_eq_some_iff.1 hregister
      obtain ⟨n, rfl⟩ := hs.named v op hop
      exact h.values v n x hkind hplain hslot hop hx
    split at hy
    · rename_i c hkind
      unfold Function.read at hx
      rw [hkind] at hx
      exact (Option.some.inj hy).symm.trans (Option.some.inj hx)
    · rename_i hkind
      exact hcomputed (by rw [hkind]; rfl) hy
    · rename_i hkind
      exact hcomputed (by rw [hkind]; rfl) hy
    · obtain ⟨op, hop, rfl⟩ := Option.map_eq_some_iff.1 hy
      obtain ⟨name, hname, hlookup⟩ := Option.bind_eq_some_iff.1 hop
      obtain ⟨n, rfl⟩ := hs.loaded name op hlookup
      exact hl.address hsur hname hlookup hx

/-- The words of values behind an instruction. -/
theorem Selection.Carries.assign (h : s.Carries ctx ir sp vals σ) (hsound : ctx.func.Sound) {value : Option Word}
    (hgives : ∀ v, ctx.func.result? i = some v → value.isSome = true) (hpointer : σ'.regs .sp = σ.regs .sp)
    (hothers : ∀ v n, ctx.func.result? i ≠ some v → s.Belongs n (.value v) → σ'.vregs n = σ.vregs n)
    (hslot : ∀ v offset x, ctx.func.result? i = some v → value = some x → s.slots.lookup v = some offset → x = sp + offset)
    (hresult : ∀ v n x, ctx.func.result? i = some v → value = some x → ctx.Plain v → s.slots.lookup v = none →
      s.Belongs n (.value v) → σ'.vregs n = x) :
    s.Carries ctx ir sp (Function.assign vals (ctx.func.result? i) value) σ' := by
  -- The word of a value is that of the result, or it is the old one.
  have hread : ∀ {v x}, ctx.func.read ir (Function.assign vals (ctx.func.result? i) value) v = some x →
      ctx.func.result? i = some v ∧ value = some x ∨ ctx.func.result? i ≠ some v ∧ ctx.func.read ir vals v = some x := by
    intro v x hx
    by_cases hv : ctx.func.result? i = some v
    · obtain ⟨y, rfl⟩ := Option.isSome_iff_exists.1 (hgives v hv)
      rw [Function.read_assign_result hsound hv] at hx
      exact .inl ⟨hv, hx⟩
    · rw [Function.read_assign_of_ne fun r hr heq => hv (hr.trans (congrArg some heq.symm))] at hx
      exact .inr ⟨hv, hx⟩
  refine ⟨hpointer.trans h.pointer, fun v offset x hlookup hx => ?_, fun v n x hkind hplain hnone hn hx => ?_⟩
  · rcases hread hx with ⟨hv, hvalue⟩ | ⟨-, hold⟩
    · exact hslot v offset x hv hvalue hlookup
    · exact h.slots v offset x hlookup hold
  · rcases hread hx with ⟨hv, hvalue⟩ | ⟨hv, hold⟩
    · exact hresult v n x hv hvalue hplain hnone hn
    · exact (hothers v n hv hn).trans (h.values v n x hkind hplain hnone hn hold)

/-- The words of values behind the phis of a block. -/
theorem Selection.Arrived.carries {p : BlockId} {slot : Nat} {assigned : List (ValueId × Word)} {υ : MachineState W}
    (h : s.Arrived ctx env p b σ υ) (hreg : ctx.Regulated s.slots) (hslotted : s.Slotted ctx) (hs : s.Sound)
    (hsur : ctx.func.Surrounded ctx.module ir env regs) (hc : s.Carries ctx ir (regs .sp) vals σ)
    (hl : s.Loads env σ []) (hslot : ctx.func.predIndex? b p = some slot)
    (hassigned : (ctx.func.phis b).mapM (ctx.func.incoming ir vals slot) = some assigned) :
    s.Carries ctx ir (regs .sp) (Function.assignAll vals assigned) υ := by
  have hall := mapM_eq_some_iff.1 hassigned
  have hphi : ∀ {i j v}, ctx.func.result? i = some v → ctx.func.result? j = some v → i = j := fun hi hj =>
    ValueKind.inst.inj ((hreg.sound.kind_of_result _ _ hi).2.symm.trans (hreg.sound.kind_of_result _ _ hj).2)
  -- The word of a value is the one that its phi takes, or it is the old one.
  have hread : ∀ {v x}, ctx.func.read ir (Function.assignAll vals assigned) v = some x →
      (∃ phi ∈ ctx.func.phis b, ctx.func.result? phi = some v ∧ ∃ w, ctx.func.Feeds b phi p w ∧ w ∈ ctx.func.operands phi ∧
        ctx.func.read ir vals w = some x) ∨
      (∀ phi ∈ ctx.func.phis b, ctx.func.result? phi ≠ some v) ∧ ctx.func.read ir vals v = some x := by
    intro v x hx
    by_cases hv : ∃ phi ∈ ctx.func.phis b, ctx.func.result? phi = some v
    · obtain ⟨phi, hin, hr⟩ := hv
      obtain ⟨e, he, hincoming⟩ := exists_of_forall₂_right hall.flip hin
      obtain ⟨w, hw, hr', hwx⟩ := Function.incoming_eq_some.1 hincoming
      obtain rfl := Option.some.inj (hr.symm.trans hr')
      have hone : ∀ d ∈ assigned, d.1 = e.1 → d.2 = e.2 := by
        intro d hd heq
        obtain ⟨phi', -, hincoming'⟩ := exists_of_forall₂_right hall hd
        obtain ⟨-, -, hd', -⟩ := Function.incoming_eq_some.1 hincoming'
        obtain rfl := hphi hr (heq ▸ hd')
        rw [Option.some.inj (hincoming.symm.trans hincoming')]
      unfold Function.read at hx
      rw [(hreg.sound.kind_of_result phi e.1 hr).2] at hx
      cases (Function.assignAll_of_mem he hone).symm.trans hx
      exact .inl ⟨phi, hin, hr, w, List.mem_of_getElem? (i := slot)
        (List.getElem?_zip_eq_some.2 ⟨Function.getElem?_of_predIndex hslot, hw⟩), List.mem_of_getElem? hw, hwx⟩
    · have hno : ∀ phi ∈ ctx.func.phis b, ctx.func.result? phi ≠ some v := fun phi hin hr => hv ⟨phi, hin, hr⟩
      rw [Function.read_assignAll_of_not_mem fun e he heq => by
        obtain ⟨phi, hin, hincoming⟩ := exists_of_forall₂_right hall he
        obtain ⟨-, -, hr, -⟩ := Function.incoming_eq_some.1 hincoming
        exact hno phi hin (heq ▸ hr)] at hx
      exact .inr ⟨hno, hx⟩
  refine ⟨(congrArg (· Register.sp) h.regs).trans hc.pointer, fun v offset x hlookup hx => ?_,
    fun v n x hkind hplain hnone hn hx => ?_⟩
  · rcases hread hx with ⟨phi, hin, hr, -⟩ | ⟨-, hold⟩
    · obtain ⟨i, words, hkind, hi, -⟩ := hslotted v offset hlookup
      have hisPhi := ctx.func.isPhi_of_mem_phis hin
      rw [hphi hr hi, hkind] at hisPhi
      cases hisPhi
    · exact hc.slots v offset x hlookup hold
  · rcases hread hx with ⟨phi, hin, hr, w, hfeeds, hw, hwx⟩ | ⟨hno, hold⟩
    · obtain ⟨r, n', hr', hn', hfed⟩ := h.phis phi hin
      obtain rfl := Option.some.inj (hr.symm.trans hr')
      obtain rfl := hn.unique hn'
      refine hc.word hs hsur hl (hreg.plain hw ?_) hwx (hfed w hfeeds)
      rw [InstKind.isPhi_eq_true.1 (ctx.func.isPhi_of_mem_phis hin)]
      rfl
    · exact (h.others v n hn hno).trans (hc.values v n x hkind hplain hnone hn hold)

/-! ## Runs side by side -/

/-- Selected code, and what surrounds it: the phis are lowered on top of the code `s` without phis. -/
structure Selection.Finished (ctx : SelectionContext) (s s' : Selection) (taken : Nat → List (Nat × Nat))
    (sent : Nat → List (Nat × ValueId)) (mf : MachineFunction) (ir : IrEnv W) (env : MachineEnv W) (regs : Register → Word) :
    Prop where
  regulated : ctx.Regulated s'.slots
  slotted : s'.Slotted ctx
  selected : ∃ entry, ParamsCode s ctx.func.params.zipIdx entry ∧ s.Selected ctx entry ctx.func.layout
  extend : s.Extends s'
  lowered : s'.Lowered ctx s.code.vregCount s.computes s.exits ctx.func.layout taken sent
  insts : ∀ k, mf.instsOf k = s'.code.instsOf k
  surrounded : ctx.func.Surrounded ctx.module ir env regs
  addresses : ∀ name n, s'.Belongs n (.label name) → ∃ a, env.address name = some a

/-- The code that is to be run is that of the instructions that are. Loads may be among it. -/
inductive Selection.Remains (ctx : SelectionContext) (s s' : Selection) (env : MachineEnv W)
    (sent : Nat → List (Nat × ValueId)) (b : BlockId) (rest : List InstId) (τ : MachineState W) : Prop
  | mk {k : Nat} {insts : List InstId} {last : InstId} {code code' mid copies : List Instr}
      (hk : ctx.func.layout[k]? = some b) (hrest : ctx.unfused rest = insts ++ [last]) (hinsts : InstsCode ctx s insts code)
      (hexit : ExitCode ctx s last code' (s.exits k)) (hmid : LoadedCode s' (code ++ code') mid)
      (hcopies : List.Forall₂ (fun e i => CopyCode ctx s' e.1 e.2 i) (sent k) copies)
      (hcode : τ.code = mid ++ (copies ++ s.exits k)) (hloads : s'.Loads env τ mid) : Remains ctx s s' env sent b rest τ

/-- A run of selected code is at the same place as a run of its function. -/
structure Selection.Follows (ctx : SelectionContext) (s s' : Selection) (sent : Nat → List (Nat × ValueId)) (ir : IrEnv W)
    (env : MachineEnv W) (sp : Word) (a : IrState W) (τ : MachineState W) : Prop where
  running : ctx.func.Running ir a
  outside : ∀ t, Performs (ctx.func.step ir) a t → ∀ e ∈ t, e.isOutside (ctx.func.outgoing sp) = true
  remains : s.Remains ctx s' env sent a.block a.code τ
  carries : s'.Carries ctx ir sp a.vals τ
  loads : s.Loads env τ []
  memory : a.memory.AgreeOff (ctx.func.outgoing sp) τ.memory
  world : τ.world = a.world
  /-- In front of a branch, the word of a comparison that became part of it is that of its operands. -/
  fused : ∀ i, a.code = [i] → ∀ v ∈ ctx.func.operands i, ∀ d, ctx.func.definingInst? v = some d →
    ctx.fused.contains d = true → ∀ op l r, ctx.func.kind d = .binary op → ctx.func.operands d = [l, r] →
    ∃ x y, ctx.func.read ir a.vals l = some x ∧ ctx.func.read ir a.vals r = some y ∧
      ctx.func.read ir a.vals v = op.eval? x y

/-- The code of phis is empty. -/
theorem InstsCode.of_phis {insts : List InstId} (h : InstsCode ctx s (front ++ insts) code)
    (hfront : ∀ i ∈ front, (ctx.func.kind i).isPhi = true) : InstsCode ctx s insts code := by
  induction front with
  | nil => exact h
  | cons i front ih =>
    obtain ⟨hi, hfront'⟩ := List.forall_mem_cons.1 hfront
    cases h with
    | phi _ hrest => exact ih hrest hfront'
    | cons hcode =>
      rw [hcode.not_isPhi] at hi
      cases hi

/-- The first instruction of what is still to be run has its code in front, or it is the terminator. -/
theorem Selection.Remains.uncons {sent : Nat → List (Nat × ValueId)} {rest : List InstId}
    (h : s.Remains ctx s' env sent b (i :: rest) τ) (hunfused : ctx.fused.contains i = false)
    (hphi : (ctx.func.kind i).isPhi = false) :
    (∃ code mid back tail, InstCode ctx s i code ∧ LoadedCode s' code mid ∧ τ.code = mid ++ tail ∧
      s'.Loads env τ (mid ++ back) ∧
      ∀ τ' : MachineState W, τ'.code = tail → s'.Loads env τ' back → s.Remains ctx s' env sent b rest τ') ∨
    ∃ k code mid copies, ctx.func.layout[k]? = some b ∧ ExitCode ctx s i code (s.exits k) ∧ LoadedCode s' code mid ∧
      List.Forall₂ (fun e i => CopyCode ctx s' e.1 e.2 i) (sent k) copies ∧ τ.code = mid ++ (copies ++ s.exits k) ∧
      s'.Loads env τ mid := by
  obtain @⟨k, insts, last, code, code', mid, copies, hk, hrest, hinsts, hexit, hmid, hcopies, hcode, hloads⟩ := h
  have hcons : ctx.unfused (i :: rest) = i :: ctx.unfused rest := List.filter_cons_of_pos (by rw [hunfused]; rfl)
  rw [hcons] at hrest
  cases insts with
  | nil =>
    obtain ⟨rfl, -⟩ := List.cons.inj hrest
    cases hinsts
    exact .inr ⟨k, code', mid, copies, hk, hexit, hmid, hcopies, hcode, hloads⟩
  | cons j insts =>
    obtain ⟨rfl, hrest'⟩ := List.cons.inj hrest
    cases hinsts with
    | phi hisPhi =>
      rw [hphi] at hisPhi
      cases hisPhi
    | @cons _ _ code code'' hi hinsts =>
      rw [List.append_assoc] at hmid
      obtain ⟨front, back, rfl, hfront, hback⟩ := hmid.split
      refine .inl ⟨code, front, back, back ++ (copies ++ s.exits k), hi, hfront, by rw [hcode, List.append_assoc], hloads,
        fun τ' hcode' hloads' => ⟨hk, hrest', hinsts, hexit, hback, hcopies, hcode', hloads'⟩⟩

/-- A comparison that became part of a branch stands right in front of it. -/
theorem SelectionContext.Regulated.in_front {slots : List (ValueId × Word)} (h : ctx.Regulated slots) {d : InstId}
    (hlist : ctx.func.instsOf b = front ++ [i]) (hv : v ∈ ctx.func.operands i)
    (hd : ctx.func.definingInst? v = some d) (hfused : ctx.fused.contains d = true) :
    ∃ before op, front = before ++ [d] ∧ ctx.func.kind d = .binary op := by
  obtain ⟨c, before, op, hlist', hkind, -⟩ := h.reader hv hd hfused
  have hblock : ∀ {c}, i ∈ ctx.func.instsOf c → ctx.func.blockOf? i = some c := (h.sound.placed _ i).1
  obtain rfl : b = c := Option.some.inj ((hblock (by simp [hlist])).symm.trans (hblock (by simp [hlist'])))
  exact ⟨before, op, (List.append_inj' (hlist.symm.trans (hlist'.trans (List.append_cons before d [i]))) rfl).1, hkind⟩

/-- What a run shows later is of no concern to the words of calls either. -/
theorem Selection.Follows.outside_next {sent : Nat → List (Nat × ValueId)} {a u : IrState W} {events : List IrEvent}
    (h : s.Follows ctx s' sent ir env sp a τ) (hstep : ctx.func.step ir a = .next events u) :
    (∀ e ∈ events, e.isOutside (ctx.func.outgoing sp) = true) ∧
      ∀ t, Performs (ctx.func.step ir) u t → ∀ e ∈ t, e.isOutside (ctx.func.outgoing sp) = true := by
  refine ⟨h.outside events (performs_of_steps (.single hstep)), fun t ⟨t', v, hrun, hpre⟩ e he => ?_⟩
  exact h.outside (events ++ t) ⟨events ++ t', v, Steps.append (.single hstep) hrun,
    (List.prefix_append_right_inj _).2 hpre⟩ e (List.mem_append_right _ he)

section Finished

variable {taken : Nat → List (Nat × Nat)} {sent : Nat → List (Nat × ValueId)} {mf : MachineFunction}
  (hF : s.Finished ctx s' taken sent mf ir env regs)

include hF

variable {copies mid : List Instr} {k : Nat}

/-- A block starts with the moves into its phis and then has the code of its other instructions. The entry has its front
between them. -/
theorem Selection.Finished.block (hk : ctx.func.layout[k]? = some b) :
    ∃ top mid copies insts last code code', mf.instsOf k = top ++ (mid ++ (copies ++ s.exits k)) ∧ TakeCode s' (taken k) top ∧
      List.Forall₂ (fun e i => CopyCode ctx s' e.1 e.2 i) (sent k) copies ∧
      ctx.unfused ((ctx.func.instsOf b).dropWhile fun i => (ctx.func.kind i).isPhi) = insts ++ [last] ∧
      InstsCode ctx s insts code ∧ ExitCode ctx s last code' (s.exits k) ∧
      LoadedCode s' ((if k = 0 then s.front else []) ++ (code ++ code')) mid := by
  obtain ⟨entry, -, hs⟩ := hF.selected
  obtain ⟨top, mid, copies, hinsts, htop, hmid, hcopies, -⟩ := hF.lowered.parts (List.getElem?_eq_some_iff.1 hk).1
  obtain ⟨code, transfers, hcode, hbody⟩ := hs.code k b hk (List.mem_of_getElem? hk)
  obtain ⟨hcalm, htransfers⟩ := hcode.calm hs.toSound
  rw [Selection.computes_of_body hbody (fun i hi => (hcalm i hi).1) fun i hi => (htransfers i hi).1] at hmid
  have hexits := Selection.exits_of_body hbody (fun i hi => (hcalm i hi).1) fun i hi => (htransfers i hi).1
  cases hcode with
  | @mk insts last code code' _ hunfused hinstsCode hexit =>
    have hlast : (ctx.func.kind last).isPhi = false := InstKind.not_isPhi hexit.isTerminator
    have hsplit : ctx.unfused (ctx.func.phis b) ++
        ctx.unfused ((ctx.func.instsOf b).dropWhile fun i => (ctx.func.kind i).isPhi) = insts ++ [last] := by
      rw [← ctx.func.phis_append b, List.filter_append] at hunfused
      exact hunfused
    have hphis : ∀ i ∈ ctx.unfused (ctx.func.phis b), (ctx.func.kind i).isPhi = true := fun i hi =>
      ctx.func.isPhi_of_mem_phis (List.mem_filter.1 hi).1
    -- The terminator is no phi, so it stands behind the phis.
    obtain ⟨insts', rfl, hothers⟩ : ∃ insts', insts = ctx.unfused (ctx.func.phis b) ++ insts' ∧
        ctx.unfused ((ctx.func.instsOf b).dropWhile fun i => (ctx.func.kind i).isPhi) = insts' ++ [last] := by
      rcases List.append_eq_append_iff.1 hsplit with hfront | ⟨back, hback, hrest⟩
      · exact hfront
      · cases back with
        | nil => exact ⟨[], by rw [hback, List.append_nil, List.append_nil], hrest.symm⟩
        | cons i back =>
          obtain ⟨rfl, -⟩ := List.cons.inj hrest
          rw [hphis last (hback ▸ List.mem_append_right _ List.mem_cons_self)] at hlast
          cases hlast
    refine ⟨top, mid, copies, insts', last, code, code', ?_, htop, hcopies, hothers, hinstsCode.of_phis hphis,
      hexits ▸ hexit, hmid⟩
    rw [hF.insts, hinsts, List.append_assoc, List.append_assoc]

variable {a : IrState W} {rest : List InstId} {values : List Word}
  (hst : s.Follows ctx s' sent ir env (regs .sp) a τ) (hcode : a.code = i :: rest)
  (hvalues : (ctx.func.operands i).mapM (ctx.func.read ir a.vals) = some values)

include hst hcode hvalues

/-- A comparison that became part of a branch is answered by nothing. -/
theorem Selection.Finished.step_fused (hfused : ctx.fused.contains i = true) : ∃ value,
    (ctx.func.kind i).perform ir i values a.memory a.world = .effect value a.memory a.world [] ∧
      s.Follows ctx s' sent ir env (regs .sp)
        { a with code := rest, vals := Function.assign a.vals (ctx.func.result? i) value } τ := by
  obtain ⟨b, -, hcompare⟩ := hF.regulated.fused i hfused
  obtain ⟨before, term, op, hinsts, hkind, hcond, -, v, hv, hd, -⟩ := Function.fusableCompare?_eq_some hcompare
  have hsound := hF.regulated.sound
  -- The comparison is followed by its branch.
  obtain ⟨before', hinsts', -, -⟩ := hst.running.place
  rw [hcode] at hinsts'
  have hblock : ∀ {c}, i ∈ ctx.func.instsOf c → ctx.func.blockOf? i = some c := (hsound.placed _ i).1
  obtain rfl : a.block = b := Option.some.inj
    ((hblock (by rw [hinsts']; simp)).symm.trans (hblock (by rw [hinsts]; simp)))
  obtain rfl : rest = [term] := by
    have hnodup := hsound.nodup a.block
    rw [hinsts, List.nodup_append] at hnodup
    have hnot : i ∉ before ∧ i ∉ [term] := ⟨fun hin => hnodup.2.2 i hin i List.mem_cons_self rfl,
      (List.nodup_cons.1 hnodup.2.1).1⟩
    exact ((List.append_cons_inj_of_notMem hnot.1 hnot.2).1 (hinsts.symm.trans hinsts')).2.2.symm
  obtain ⟨l, r, hops⟩ : ∃ l r, ctx.func.operands i = [l, r] := by
    have hlength := hsound.fits a.block i (by rw [hinsts]; simp)
    rw [hkind] at hlength
    exact List.length_eq_two.1 (beq_iff_eq.1 hlength)
  have hplain : ∀ u ∈ ctx.func.operands i, ctx.Plain u := fun u hu => hF.regulated.plain hu (by rw [hkind]; rfl)
  rw [hops] at hvalues hplain
  obtain ⟨x, y, rfl, hx, hy⟩ := mapM_two hvalues
  obtain ⟨z, hz⟩ : ∃ z, op.eval? x y = some z := by
    cases op <;> first | exact ⟨_, rfl⟩ | cases hcond
  have hperform : (ctx.func.kind i).perform ir i [x, y] a.memory a.world = .effect (some z) a.memory a.world [] := by
    rw [hkind, InstKind.perform, hz]
  have hstep : ctx.func.step ir a = .next []
      { a with code := [term], vals := Function.assign a.vals (ctx.func.result? i) (some z) } := by
    rw [Function.step_eq hcode (hops ▸ hvalues), hperform]
  have hdefines : ∀ {u}, ctx.func.result? i = some u → ctx.func.definingInst? u = some i := by
    intro u hu
    rw [Function.definingInst?, (hsound.kind_of_result i u hu).2]
  refine ⟨some z, hperform, hst.running.next hsound hF.regulated.regular hstep, (hst.outside_next hstep).2, ?_,
    hst.carries.assign hsound (fun _ _ => rfl) rfl (fun _ _ _ _ => rfl) (fun u offset w hu _ hlookup => ?_)
      (fun u n w hu _ hplainResult => ?_), hst.loads, hst.memory, hst.world, ?_⟩
  · have hskip : ctx.unfused (i :: [term]) = ctx.unfused [term] := List.filter_cons_of_neg (by rw [hfused]; simp)
    obtain ⟨hk, hrest, hinsts₀, hexit, hmid, hcopies, hτ, hloads⟩ := hcode ▸ hst.remains
    exact ⟨hk, hskip ▸ hrest, hinsts₀, hexit, hmid, hcopies, hτ, hloads⟩
  · obtain ⟨j, words, halloca, hj, -⟩ := hF.slotted u offset hlookup
    cases (hsound.kind_of_result i u hu).2.symm.trans (hsound.kind_of_result j u hj).2
    rw [hkind] at halloca
    cases halloca
  · rw [hplainResult i (hdefines hu)] at hfused
    cases hfused
  · intro t ht u hu d hdu hfused' op' l' r' hkind' hops'
    obtain rfl : term = t := (List.cons.inj ht).1
    have hlist : ctx.func.instsOf a.block = (before ++ [i]) ++ [term] := by rw [hinsts, List.append_assoc]; rfl
    obtain ⟨front, op₀, hfront, -⟩ := hF.regulated.in_front hlist hu hdu hfused'
    obtain rfl : i = d := (List.cons.inj (List.append_inj' hfront rfl).2).1
    cases hkind.symm.trans hkind'
    cases hops.symm.trans hops'
    -- The operands of the comparison are not its result.
    have hold : ∀ {w c}, w ∈ [l, r] → ctx.func.read ir a.vals w = some c →
        ctx.func.read ir (Function.assign a.vals (ctx.func.result? i) (some z)) w = some c := by
      intro w c hw hc
      rw [← hc]
      refine Function.read_assign_of_ne fun q hq heq => ?_
      have hnot := hplain w hw i (hdefines (heq ▸ hq))
      rw [hfused] at hnot
      cases hnot
    have hresult : ctx.func.result? i = some u := by
      refine hsound.result_of_kind i u (hsound.lt_size_of_mem_operands hu) ?_
      unfold Function.definingInst? at hdu
      split at hdu
      · rename_i j hj
        cases hdu
        exact hj
      · cases hdu
    exact ⟨x, y, hold (by simp) hx, hold (by simp) hy, (Function.read_assign_result hsound hresult).trans hz.symm⟩

theorem Selection.Finished.step_inst (hunfused : ctx.fused.contains i = false) {back tail : List Instr}
    (hi : InstCode ctx s i code) (hmid : LoadedCode s' code mid) (hτ : τ.code = mid ++ tail)
    (hloads : s'.Loads env τ (mid ++ back)) (hremains : ∀ τ' : MachineState W, τ'.code = tail → s'.Loads env τ' back →
      s.Remains ctx s' env sent a.block rest τ') :
    (∃ value m w events t τ', (ctx.func.kind i).perform ir i values a.memory a.world = .effect value m w events ∧
      Steps (mf.step env) τ t τ' ∧ t.filter (MachineEvent.isShown (ctx.func.outgoing (regs .sp))) =
        events.flatMap (IrEvent.lowered ctx.module ir (regs .sp)) ∧
      s.Follows ctx s' sent ir env (regs .sp) ⟨a.block, rest, Function.assign a.vals (ctx.func.result? i) value, m, w⟩ τ') ∨
    ∃ o t τ' o', (ctx.func.kind i).perform ir i values a.memory a.world = .stop o ∧ Steps (mf.step env) τ t τ' ∧
      t.filter (MachineEvent.isShown (ctx.func.outgoing (regs .sp))) = [] ∧ mf.step env τ' = .done o' ∧
      τ'.ending o' = o.lowered ctx.module ir (regs .sp) := by
  obtain ⟨entry, -, hs⟩ := hF.selected
  have hreg := hF.regulated
  have hin := hst.running.mem_instsOf hcode
  obtain ⟨before, hinsts, -, -⟩ := hst.running.place
  rw [hcode] at hinsts
  have hbranch : (ctx.func.kind i).isBranch = false := by
    cases hi with
    | compare hkind | arith hkind | subtract hkind | gep hkind | load hkind | store hkind | call hkind | callFor hkind
    | print hkind | alloca hkind => rw [hkind]; rfl
  have hdone : Instructed ctx s ir env (regs .sp) i code τ
      ((ctx.func.kind i).perform ir i values a.memory τ.world) := by
    refine hi.run hF.surrounded hs.toSound (hst.carries.of_extends hF.extend) hst.loads hvalues
      (fun v hv => hreg.plain hv hbranch) (List.mem_flatMap.2 ⟨a.block, hst.running.listed, hin⟩)
      (hreg.sound.fits a.block i hin) (fun words v hkind hv => ?_) hst.memory fun value m w events heffect => ?_
    · exact hF.extend.slots ▸ hreg.slots a.block hst.running.listed i hin words hkind v hv
    · rw [hst.world] at heffect
      have hstep := Function.step_eq hcode hvalues
      rw [heffect] at hstep
      exact (hst.outside_next hstep).1
  rw [hst.world] at hdone
  generalize haction : (ctx.func.kind i).perform ir i values a.memory a.world = action at hdone
  cases hdone with
  | @effect value m w events t σ' hrun hshown hpointer hmemory hworld hothers hresult =>
    have hstep := Function.step_eq hcode hvalues
    rw [haction] at hstep
    have hsound := hF.lowered.toSound
    have howned : ∀ {n o}, s'.Belongs n o → ¬ s.Scratch 0 s.code.vregCount n := fun ho hscratch =>
      (hF.extend.fresh _ _ ho).elim (hscratch.free _) fun hle => absurd hscratch.high (Nat.not_lt.2 hle)
    have hcarries : s'.Carries ctx ir (regs .sp) (Function.assign a.vals (ctx.func.result? i) value) σ' := by
      refine hst.carries.assign hreg.sound (fun v hv => InstKind.isSome_of_perform (hreg.sound.gives i v hv) haction)
        hpointer (fun v n hne hn => hothers n (howned hn) fun u hu hn' => ?_) (fun v offset x hv hx hlookup => ?_)
        (fun v n x hv hx _ hnone hn => ?_)
      · cases hsound.single _ _ _ hn (hF.extend.kept n _ hn')
        exact hne hu
      · obtain ⟨j, words, halloca, hj, rfl⟩ := hF.slotted v offset hlookup
        obtain rfl : i = j := ValueKind.inst.inj
          ((hreg.sound.kind_of_result _ _ hv).2.symm.trans (hreg.sound.kind_of_result _ _ hj).2)
        rw [halloca] at haction
        cases values with
        | nil =>
          cases haction
          exact (Option.some.inj hx).symm.trans (hF.surrounded.slot i)
        | cons => cases haction
      · obtain ⟨n', hn', hword⟩ := hresult v x hv hx (hF.extend.slots ▸ hnone)
        rwa [hn.unique (hF.extend.kept n' _ hn')]
    have hlabels : s.Loads env σ' [] := by
      intro n name hn
      rw [hothers n (howned (hF.extend.kept n _ hn)) fun v _ hv => nomatch hs.single _ _ _ hn hv]
      exact hst.loads n name hn
    obtain ⟨τ', hsteps, htail, hchanges, hloads'⟩ := hmid.run hF.extend mf (fun n name => hF.addresses name n)
      (hi.calm hs.toSound) hrun hst.loads (.refl _ τ) hsound hloads hτ
    refine .inl ⟨value, m, w, events, t, τ', rfl, hsteps, hshown, hst.running.next hreg.sound hreg.regular hstep,
      (hst.outside_next hstep).2, hremains τ' htail hloads', hcarries.added hsound hchanges,
      hlabels.added hs.toSound hchanges, fun b hb => ?_, hchanges.world.trans hworld, fun j hj v hv d hd hfused => ?_⟩
    · rw [hchanges.memory]
      exact hmemory b hb
    · obtain rfl : rest = [j] := hj
      have hlist : ctx.func.instsOf a.block = (before ++ [i]) ++ [j] := by rw [hinsts, List.append_assoc]; rfl
      obtain ⟨front, op, hfront, -⟩ := hreg.in_front hlist hv hd hfused
      obtain rfl : i = d := (List.cons.inj (List.append_inj' hfront rfl).2).1
      rw [hunfused] at hfused
      cases hfused
  | @stop o front behind j t σ' o' hfront hrun hshown hdst hkeeps herror hending =>
    subst hfront
    obtain ⟨τ', more, hsteps, -, hlast⟩ := hmid.done hF.extend mf (fun n name => hF.addresses name n) (hi.calm hs.toSound)
      hrun hdst herror hst.loads (hst.loads.keeps hkeeps) (.refl _ τ) hF.lowered.toSound hloads hτ
    exact .inr ⟨o, t, τ', o', rfl, hsteps, hshown, hlast, hending τ'⟩

/-- An edge is answered by the copies at the end of the block, the transfers, and the moves of the phis. -/
theorem Selection.Finished.step_edge {t : Nat} {target : BlockId} (hk : ctx.func.layout[k]? = some a.block)
    (hcopies : List.Forall₂ (fun e i => CopyCode ctx s' e.1 e.2 i) (sent k) copies)
    (hwithin : ∀ j ∈ s.exits k, ∀ op ∈ j.sources, op.Within s.code.vregCount) (hσ : σ.code = copies ++ s.exits k)
    (hleaves : σ.leavesTo (s.exits k) = some t) (ht : ctx.func.layout[t]? = some target)
    (hcarries : s'.Carries ctx ir (regs .sp) a.vals σ) (hloads : s'.Loads env σ [])
    (hmemory : a.memory.AgreeOff (ctx.func.outgoing (regs .sp)) σ.memory) (hworld : σ.world = a.world)
    (hgoto : (ctx.func.kind i).perform ir i values a.memory a.world = .goto target) :
    ∃ u n τ', ctx.func.follow ir a target = .next [] u ∧ StepsIn (mf.step env) (n + 1) σ [] τ' ∧
      s.Follows ctx s' sent ir env (regs .sp) u τ' := by
  have hreg := hF.regulated
  obtain ⟨rfl, -, harm, hedge⟩ := hst.running.edge_of_goto hreg.regular hcode hgoto
  obtain ⟨hlisted, slot, hslot⟩ := Edit.predIndex?_of_mem_arms hreg.sound hreg.regular hst.running.listed harm
  have hpred := Function.getElem?_of_predIndex hslot
  obtain ⟨top, mid, copies', insts, last, code, code', hblock, htop, hcopies', hunfused, hinsts, hexit, hmid⟩ := hF.block ht
  obtain ⟨σ', ⟨n₁, hsteps₁⟩, hbehind, hfree, hsources, hwords⟩ := hF.lowered.copied mf env hcopies hwithin hσ
  obtain ⟨n, υ, hsteps₂, hυ, harrived⟩ := hF.lowered.arrived mf env hreg.sound hF.insts hF.addresses hk ht
    ((hF.insts t).symm.trans hblock) htop hbehind hfree hwords ((MachineState.leavesTo_congr hsources).trans hleaves)
  -- Every phi of the target reads a word.
  obtain ⟨assigned, hassigned⟩ : ∃ assigned, (ctx.func.phis target).mapM (ctx.func.incoming ir a.vals slot) = some assigned := by
    refine Function.exists_mapM fun phi hphi => ?_
    obtain ⟨hin, hkind⟩ := (hreg.regular.mem_phis hlisted).1 hphi
    obtain ⟨w, hw, hfeeds⟩ := hreg.regular.feeds hlisted hin hkind hslot
    obtain ⟨r, -, hr, -⟩ := harrived.phis phi hphi
    obtain ⟨before, hinsts', -, hdefined⟩ := hst.running.place
    have hav := hreg.strict.incoming target phi (hst.running.reach.step hedge) hin hkind a.block w hst.running.reach hfeeds
    rw [hinsts', hcode, List.dropLast_concat] at hav
    obtain ⟨x, hx⟩ := Option.isSome_iff_exists.1
      (hdefined w (hreg.sound.lt_size_of_mem_operands (List.mem_of_getElem? hw)) hav)
    have hincoming : ctx.func.incoming ir a.vals slot phi = some (r, x) :=
      Function.incoming_eq_some.2 ⟨w, hw, hr, hx⟩
    rw [hincoming]
    rfl
  have hnext := Function.follow_eq_next.2 ⟨rfl, slot, assigned, hslot, hassigned, rfl⟩
  have hstep := Function.step_eq hcode hvalues
  rw [hgoto] at hstep
  have hstep' := hstep.trans hnext
  have hentry : t ≠ 0 := by
    rintro rfl
    obtain ⟨e, more, hlayout, hnone⟩ := hreg.regular.entry
    rw [hlayout] at ht
    obtain rfl : e = target := Option.some.inj ht
    rw [hnone] at hpred
    cases hpred
  rw [if_neg hentry, List.nil_append] at hmid
  have hlabels : s'.Loads env υ [] := by
    intro n name hn
    rcases harrived.labels name n hn with hsame | haddress
    · rw [hsame]
      exact hloads n name hn
    · exact .inl haddress
  have hall := hsteps₁.append hsteps₂
  rw [← Nat.add_assoc] at hall
  refine ⟨_, _, υ, hnext, hall, hst.running.next hreg.sound hreg.regular hstep', (hst.outside_next hstep').2,
    ⟨ht, hunfused, hinsts, hexit, hmid, hcopies', hυ, fun n name hn => (hlabels n name hn).imp_right fun h => nomatch h⟩,
    harrived.carries hreg hF.slotted hF.lowered.toSound hF.surrounded hcarries hloads hslot hassigned,
    fun n name hn => hlabels n name (hF.extend.kept n _ hn), fun b hb => ?_, harrived.world.trans hworld,
    fun j hj v hv d hd hfused => ?_⟩
  · rw [harrived.memory]
    exact hmemory b hb
  · have hlist := (ctx.func.phis_append target).symm
    rw [show (ctx.func.instsOf target).dropWhile (fun i => (ctx.func.kind i).isPhi) = [j] from hj] at hlist
    obtain ⟨front, op, hfront, hkind⟩ := hreg.in_front hlist hv hd hfused
    have hphi := ctx.func.isPhi_of_mem_phis (hfront ▸ List.mem_append_right front List.mem_cons_self : d ∈ _)
    rw [hkind] at hphi
    cases hphi

/-- A terminator is answered by its code, the copies at the end of the block and the transfers. Behind an edge the moves of
the phis follow. -/
theorem Selection.Finished.step_exit (hk : ctx.func.layout[k]? = some a.block)
    (hexit : ExitCode ctx s i code (s.exits k)) (hmid : LoadedCode s' code mid)
    (hcopies : List.Forall₂ (fun e i => CopyCode ctx s' e.1 e.2 i) (sent k) copies)
    (hτ : τ.code = mid ++ (copies ++ s.exits k)) (hloads : s'.Loads env τ mid) :
    (∃ target u n τ', (ctx.func.kind i).perform ir i values a.memory a.world = .goto target ∧
      ctx.func.follow ir a target = .next [] u ∧ StepsIn (mf.step env) (n + 1) τ [] τ' ∧
      s.Follows ctx s' sent ir env (regs .sp) u τ') ∨
    ∃ value τ' v0, (ctx.func.kind i).perform ir i values a.memory a.world = .stop (.returned value) ∧
      Steps (mf.step env) τ [] τ' ∧ mf.step env τ' = .done (.returned v0) ∧
      τ'.ending (.returned v0) = .returned value := by
  obtain ⟨entry, -, hs⟩ := hF.selected
  have hreg := hF.regulated
  have hin := hst.running.mem_instsOf hcode
  obtain ⟨hrest, harms⟩ := hst.running.arms_eq hreg.regular hcode hexit.isTerminator
  subst hrest
  obtain ⟨hcalm, -⟩ := hexit.calm hs.toSound
  have hwithin : ∀ j ∈ s.exits k, ∀ op ∈ j.sources, op.Within s.code.vregCount := fun j hj op hop =>
    (hs.exit (List.getElem?_eq_some_iff.1 hk).1 hj).2.1 op (List.mem_append_left _ hop)
  rw [← List.append_nil mid] at hloads
  have hdone : Exited ctx s env code (s.exits k) τ ((ctx.func.kind i).perform ir i values a.memory a.world) := by
    refine hexit.run hF.surrounded (hst.carries.of_extends hF.extend) hst.loads hvalues
      (hreg.sound.fits a.block i hin) (fun hbranch v hv => hreg.plain hv hbranch)
      fun v op l r hops d hd hfused hkind hargs => ?_
    obtain ⟨x, y, hx, hy, hv⟩ := hst.fused i hcode v (hops ▸ List.mem_cons_self) d hd hfused op l r hkind hargs
    exact ⟨x, y, hx, hy, hv, fun u hu => hreg.plain (i := d) (by rw [hargs]; simpa using hu) (by rw [hkind]; rfl)⟩
  generalize haction : (ctx.func.kind i).perform ir i values a.memory a.world = action at hdone
  cases hdone with
  | @goto target t σ' hrun hscribbles ht hleaves =>
    obtain ⟨τ₁, ⟨n₁, hsteps₁⟩, htail, hchanges, hlabels⟩ := hmid.run hF.extend mf (fun n name => hF.addresses name n) hcalm
      hrun hst.loads (.refl _ τ) hF.lowered.toSound hloads hτ
    have hsources : ∀ j ∈ s.exits k, j.sources.map τ₁.read = j.sources.map σ'.read := fun j hj =>
      List.map_congr_left fun op hop => hchanges.read fun n hn hadded =>
        Nat.not_lt.2 hadded.1 (hwithin j hj op hop n hn)
    have hcarries := (hst.carries.keeps (hscribbles.of_extends hF.extend).keeps).added hF.lowered.toSound hchanges
    obtain ⟨u, n, τ', hnext, hsteps, hfollows⟩ := hF.step_edge hst hcode hvalues hk hcopies hwithin htail
      ((MachineState.leavesTo_congr hsources).trans hleaves) ht hcarries hlabels
      (by rw [hchanges.memory, hscribbles.memory]; exact hst.memory)
      (hchanges.world.trans (hscribbles.world.trans hst.world)) haction
    exact .inl ⟨target, u, n₁ + n, τ', rfl, hnext, hsteps₁.append hsteps, hfollows⟩
  | @ret value σ' hrun htransfers hvalue =>
    obtain ⟨τ₁, ⟨n₁, hsteps₁⟩, htail, hchanges, -⟩ := hmid.run hF.extend mf (fun n name => hF.addresses name n) hcalm hrun
      hst.loads (.refl _ τ) hF.lowered.toSound hloads hτ
    obtain ⟨τ₂, ⟨n₂, hsteps₂⟩, hbehind, hfree, -, -⟩ := hF.lowered.copied mf env hcopies hwithin htail
    rw [htransfers] at hbehind
    refine .inr ⟨value, τ₂, _, rfl, ⟨_, hsteps₁.append hsteps₂⟩, MachineFunction.step_of_error hbehind rfl rfl, ?_⟩
    unfold MachineState.ending
    rw [hbehind]
    cases value with
    | none => rfl
    | some x =>
      have hv0 : τ₂.plainRegs .v0 = σ'.regs .v0 := congrArg (· Register.v0) (hfree.regs.trans hchanges.regs)
      exact congrArg (fun y => Ending.returned (some y)) (hv0.trans (hvalue x rfl))

omit hcode hvalues in
/-- Every step of the function is answered by steps of its code, and the end of its run by the end of the other one. -/
theorem Selection.Finished.answers :
    (∃ events u n t τ', ctx.func.step ir a = .next events u ∧ StepsIn (mf.step env) n τ t τ' ∧
      t.filter (MachineEvent.isShown (ctx.func.outgoing (regs .sp))) =
        events.flatMap (IrEvent.lowered ctx.module ir (regs .sp)) ∧
      s.Follows ctx s' sent ir env (regs .sp) u τ' ∧ (n = 0 → u.code.length < a.code.length)) ∨
    ∃ o t τ' o', ctx.func.step ir a = .done o ∧ Steps (mf.step env) τ t τ' ∧
      t.filter (MachineEvent.isShown (ctx.func.outgoing (regs .sp))) = [] ∧ mf.step env τ' = .done o' ∧
      τ'.ending o' = o.lowered ctx.module ir (regs .sp) := by
  have hreg := hF.regulated
  cases hcode : a.code with
  | nil =>
    obtain ⟨-, hrest, -⟩ := hst.remains
    rw [hcode] at hrest
    exact absurd hrest.symm (List.append_ne_nil_of_right_ne_nil _ (List.cons_ne_nil _ _))
  | cons i rest =>
    obtain ⟨values, hvalues⟩ := hst.running.operands_defined hreg.sound hreg.regular hreg.strict hcode
    have hstep := Function.step_eq hcode hvalues
    cases hfused : ctx.fused.contains i with
    | true =>
      obtain ⟨value, hperform, hfollows⟩ := hF.step_fused hst hcode hvalues hfused
      rw [hperform] at hstep
      exact .inl ⟨[], _, 0, [], τ, hstep, .refl τ, rfl, hfollows, fun _ => Nat.lt_succ_self _⟩
    | false =>
      rcases (hcode ▸ hst.remains).uncons hfused (hst.running.not_isPhi hreg.sound hreg.regular hcode) with
        ⟨code, mid, back, tail, hi, hmid, hτ, hloads, hremains⟩ | ⟨k, code, mid, copies, hk, hexit, hmid, hcopies, hτ, hloads⟩
      · rcases hF.step_inst hst hcode hvalues hfused hi hmid hτ hloads hremains with
          ⟨value, m, w, events, t, τ', hperform, ⟨n, hsteps⟩, hshown, hfollows⟩ |
          ⟨o, t, τ', o', hperform, hsteps, hshown, hdone, hending⟩
        · rw [hperform] at hstep
          exact .inl ⟨events, _, n, t, τ', hstep, hsteps, hshown, hfollows, fun _ => Nat.lt_succ_self _⟩
        · rw [hperform] at hstep
          exact .inr ⟨o, t, τ', o', hstep, hsteps, hshown, hdone, hending⟩
      · rcases hF.step_exit hst hcode hvalues hk hexit hmid hcopies hτ hloads with
          ⟨target, u, n, τ', hperform, hnext, hsteps, hfollows⟩ | ⟨value, τ', v0, hperform, hsteps, hdone, hending⟩
        · rw [hperform] at hstep
          exact .inl ⟨[], u, n + 1, [], τ', hstep.trans hnext, hsteps, rfl, hfollows, fun h => nomatch h⟩
        · rw [hperform] at hstep
          exact .inr ⟨_, [], τ', _, hstep, hsteps, rfl, hdone, hending⟩

end Finished

end SsaCompiler
