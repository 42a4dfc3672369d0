import SsaCompiler.Proofs.Machine.SelectedInsts

/-!
# Selecting blocks

The code of a block is that of its instructions one after the other, the comparisons that became part of their branch
left out, and then its transfers. In front of it the entry has the code for the parameters and the loads of addresses.
Blocks do not disturb each other: a block that is selected later names registers of its own and adds loads to the front
of the entry, nothing else (`meets_selectBlocks`).
-/

set_option autoImplicit false

namespace SsaCompiler

section Code

variable (ctx : SelectionContext) (s : Selection)

/-- The code for parameters, each with its place among them. -/
inductive ParamsCode : List (ValueId × Nat) → List Instr → Prop
  | nil : ParamsCode [] []
  | register {v : ValueId} {k n : Nat} {r : Register} {rest : List (ValueId × Nat)} {code : List Instr}
      (hr : Register.arguments[k]? = some r) (hn : s.Belongs n (.value v)) (hrest : ParamsCode rest code) :
      ParamsCode ((v, k) :: rest) (.move (.virtual n) (.fixed r) :: code)
  | stack {v : ValueId} {k n : Nat} {offset : Word} {rest : List (ValueId × Nat)} {code : List Instr}
      (hr : Register.arguments[k]? = none) (hoffset : Select.stackOffset? 0 k = some offset)
      (hn : s.Belongs n (.value v)) (hrest : ParamsCode rest code) :
      ParamsCode ((v, k) :: rest) (.load (.virtual n) .sp offset true :: code)

/-- The code of instructions one after the other. Phis have none yet. -/
inductive InstsCode : List InstId → List Instr → Prop
  | nil : InstsCode [] []
  | phi {i : InstId} {rest : List InstId} {code : List Instr} (hphi : (ctx.func.kind i).isPhi = true)
      (hrest : InstsCode rest code) : InstsCode (i :: rest) code
  | cons {i : InstId} {rest : List InstId} {code code' : List Instr} (hcode : InstCode ctx s i code)
      (hrest : InstsCode rest code') : InstsCode (i :: rest) (code ++ code')

/-- The code of a block: what it computes, and its transfers. -/
inductive BlockCode (b : BlockId) : List Instr → List Instr → Prop
  | mk {insts : List InstId} {last : InstId} {code code' transfers : List Instr}
      (hinsts : ((ctx.func.instsOf b).filter fun i => !ctx.fused.contains i) = insts ++ [last])
      (hcode : InstsCode ctx s insts code) (hexit : ExitCode ctx s last code' transfers) :
      BlockCode b (code ++ code') transfers

end Code

variable {ctx : SelectionContext} {s s' : Selection}

variable {b : BlockId} {params : List (ValueId × Nat)} {code : List Instr}

variable {insts : List InstId} {code' : List Instr}

/-- One more parameter. -/
theorem ParamsCode.snoc {p : ValueId × Nat} (h : ParamsCode s params code) (hp : ParamsCode s [p] code') :
    ParamsCode s (params ++ [p]) (code ++ code') := by
  induction h with
  | nil => exact hp
  | register hr hn _ ih => exact .register hr hn ih
  | stack hr hoffset hn _ ih => exact .stack hr hoffset hn ih

/-- One more instruction. -/
theorem InstsCode.snoc {i : InstId} (h : InstsCode ctx s insts code) (hi : InstsCode ctx s [i] code') :
    InstsCode ctx s (insts ++ [i]) (code ++ code') := by
  induction h with
  | nil => exact hi
  | phi hphi _ ih => exact .phi hphi ih
  | cons hcode _ ih =>
    rw [List.append_assoc]
    exact .cons hcode ih

theorem ParamsCode.mono (hext : s.Extends s') (h : ParamsCode s params code) : ParamsCode s' params code := by
  induction h with
  | nil => exact .nil
  | register hr hn _ ih => exact .register hr (hext.kept _ _ hn) ih
  | stack hr hoffset hn _ ih => exact .stack hr hoffset (hext.kept _ _ hn) ih

theorem InstsCode.mono (hext : s.Extends s') {insts : List InstId} {code : List Instr}
    (h : InstsCode ctx s insts code) : InstsCode ctx s' insts code := by
  induction h with
  | nil => exact .nil
  | phi hphi _ ih => exact .phi hphi ih
  | cons hcode _ ih => exact .cons (hcode.mono hext) ih

theorem BlockCode.mono (hext : s.Extends s') {b : BlockId} {code transfers : List Instr}
    (h : BlockCode ctx s b code transfers) : BlockCode ctx s' b code transfers := by
  cases h with
  | mk hinsts hcode hexit => exact .mk hinsts (hcode.mono hext) (hexit.mono hext)

theorem ParamsCode.calm (hs : s.Sound) (h : ParamsCode s params code) : ∀ i ∈ code, i.Calm s.code.vregCount := by
  induction h with
  | nil => simp
  | register _ hn _ ih => exact List.forall_mem_cons.2 ⟨by simp [hs.counted _ _ hn], ih⟩
  | stack _ _ hn _ ih => exact List.forall_mem_cons.2 ⟨by simp [hs.counted _ _ hn, Operand.sp], ih⟩

theorem InstsCode.calm (hs : s.Sound) {insts : List InstId} {code : List Instr} (h : InstsCode ctx s insts code) :
    ∀ i ∈ code, i.Calm s.code.vregCount := by
  induction h with
  | nil => simp
  | phi _ _ ih => exact ih
  | cons hcode _ ih => exact List.forall_mem_append.2 ⟨hcode.calm hs, ih⟩

/-- What a block computes does not leave it, and its transfers lead to blocks of the layout. -/
theorem BlockCode.calm (hs : s.Sound) {b : BlockId} {code transfers : List Instr} (h : BlockCode ctx s b code transfers) :
    (∀ i ∈ code, i.Calm s.code.vregCount) ∧ ∀ i ∈ transfers, i.isTransfer = true ∧
      (∀ op ∈ i.sources ++ i.defs, op.Within s.code.vregCount) ∧
      ∀ t, i.target? = some t → t < ctx.func.layout.length := by
  cases h with
  | mk _ hcode hexit =>
    obtain ⟨hcalm, htransfers⟩ := hexit.calm hs
    exact ⟨List.forall_mem_append.2 ⟨hcode.calm hs, hcalm⟩, htransfers⟩

/-- The transfers of a block lead along its edges. -/
theorem BlockCode.mem_arms (hshaped : ctx.func.Shaped) (hb : b ∈ ctx.func.layout) {transfers : List Instr}
    (h : BlockCode ctx s b code transfers) {i : Instr} (hi : i ∈ transfers) {t : Nat} (ht : i.target? = some t) :
    ∃ c ∈ ctx.func.arms b, ctx.func.layout[t]? = some c := by
  cases h with
  | @mk insts last code code' transfers hinsts hcode hexit =>
    obtain ⟨c, hc, hlayout⟩ := hexit.mem_targets hi ht
    have hlast : last ∈ (ctx.func.instsOf b).filter fun i => !ctx.fused.contains i := by
      rw [hinsts]
      exact List.mem_append_right _ List.mem_cons_self
    have hterm : (ctx.func.kind last).isTerminator = true := by
      cases hkind : ctx.func.kind last with
      | branch | jump => rfl
      | _ =>
        rw [hkind] at hc
        cases hc
    exact ⟨c, (hshaped.mem_arms_iff hb).2 ⟨last, (List.mem_filter.1 hlast).1, hterm, hc⟩, hlayout⟩

/-- The load of the address of a label. -/
def Instr.loadOf (e : String × Operand) : Instr := .loadAddr e.2 e.1

/-- Blocks that are done have their code, the others have none, and the front of the entry is the code for the
parameters and the loads of the addresses in their order. -/
structure Selection.Selected (ctx : SelectionContext) (entry : List Instr) (done : List BlockId) (s : Selection) : Prop
    extends s.Ready ctx where
  size : s.code.blocks.size = ctx.func.layout.length
  front : s.front = entry ++ s.addresses.reverse.map .loadOf
  known : ∀ e ∈ s.addresses, s.addresses.lookup e.1 = some e.2
  code : ∀ k b, ctx.func.layout[k]? = some b → b ∈ done →
    ∃ code transfers, BlockCode ctx s b code transfers ∧ s.body k = code ++ transfers
  blank : ∀ k b, ctx.func.layout[k]? = some b → b ∉ done → s.body k = []

namespace Select

open Stateful Selection

/-- The selection of everything but the phis. -/
def selectBlocks (ctx : SelectionContext) : Select Unit := do
  ctx.func.params.zipIdx.forM fun (v, k) => bindParam v k
  modify fun s => { s with entryFront := (s.code.instsOf 0).length }
  ctx.func.layout.forM (selectBlock ctx)

/-- Phis come last. -/
theorem selectAll_eq : selectAll ctx = selectBlocks ctx >>= fun _ => ctx.func.layout.forM (lowerPhis ctx) := by
  simp only [selectAll, selectBlocks, bind_assoc]

variable {k : Nat}

/-- Asking for the machine block of a block. -/
theorem blockIndex_eq_ok : blockIndex ctx b = .ok k ↔ ctx.func.layout.idxOf? b = some k := by
  unfold blockIndex
  cases ctx.func.layout.idxOf? b with
  | none => exact ⟨fun h => (nomatch h), fun h => (nomatch h)⟩
  | some j => exact ⟨fun h => congrArg some (Except.ok.inj h), fun h => congrArg Except.ok (Option.some.inj h)⟩

/-- A block of the layout has the machine block of its place. -/
theorem blockIndex_of_getElem? (hnodup : ctx.func.layout.Nodup) (hb : ctx.func.layout[k]? = some b) :
    blockIndex ctx b = .ok k := by
  obtain ⟨hlt, hget⟩ := List.getElem?_eq_some_iff.1 hb
  refine blockIndex_eq_ok.2 (List.idxOf?_eq_some_iff.2 ⟨hlt, hget, fun j hj heq => ?_⟩)
  have hplace : ctx.func.layout[j]? = some b := List.getElem?_eq_some_iff.2 ⟨hj.trans hlt, heq⟩
  exact absurd ((List.getElem?_inj hlt hnodup).1 (hb.trans hplace.symm)) (Nat.ne_of_gt hj)

/-- Finding the register of a value needs no address. -/
theorem leads_vregFor_addresses (v : ValueId) : Leads (fun s s' => s'.addresses = s.addresses) (vregFor v) := by
  refine .bind .get fun s => ?_
  split
  · exact .pure _
  · exact .bind (.modifyGet fun _ => rfl) fun op => .bind (.modify fun _ => rfl) fun _ => .pure _

/-- A parameter needs no address. -/
theorem leads_bindParam_addresses (v : ValueId) (k : Nat) :
    Leads (fun s s' => s'.addresses = s.addresses) (bindParam v k) := by
  have hemit : ∀ i, Leads (fun s s' => s'.addresses = s.addresses) (emit i) := fun i => .modify fun _ => rfl
  refine .bind (leads_vregFor_addresses v) fun dst => ?_
  split
  · exact hemit _
  · exact .bind (.lift _) fun _ => hemit _

variable {allowed : Failure → Prop}

/-- A parameter. -/
theorem meets_bindParam (hs : s.Ready ctx) {v : ValueId} (hv : v < ctx.func.values.size)
    (hallowed : Register.arguments.length ≤ k → stackOffset? 0 k = none → allowed (.crash none)) :
    Meets allowed (bindParam v k) s fun _ s' =>
      ∃ code, s.Emits code s' ∧ ParamsCode s' [(v, k)] code := by
  refine .bind ((meets_vregFor hs.toSound (hs.values ▸ hv)).mono fun dst s₁ ⟨he₁, n, hop, hn⟩ => ?_)
  subst hop
  split
  · rename_i r hr
    exact (meets_emit he₁.sound _).mono fun _ s₂ he₂ => ⟨_, he₁.trans he₂, .register hr (he₂.kept _ _ hn) .nil⟩
  · rename_i hr
    refine .bind (.lift (.ofOption (hallowed (List.getElem?_eq_none_iff.1 hr))) fun offset hoffset => ?_)
    exact (meets_emit he₁.sound _).mono fun _ s₂ he₂ => ⟨_, he₁.trans he₂,
      .stack hr (Outcome.ofOption_eq_ok.1 hoffset) (he₂.kept _ _ hn) .nil⟩

variable (h : ctx.Selectable allowed)

include h

theorem meets_bindParams (hs : s.Ready ctx) (hallowed : ParamOverflow ctx.func.params.length → allowed (.crash none)) :
    Meets allowed (ctx.func.params.zipIdx.forM fun (v, k) => bindParam v k) s fun _ s' =>
      ∃ code, s.Emits code s' ∧ ParamsCode s' ctx.func.params.zipIdx code := by
  refine Meets.forM (I := fun done s' => ∃ code, s.Emits code s' ∧ ParamsCode s' done code) _
    (fun done p rest s₁ hlist ⟨code, he₁, hcode⟩ => ?_) ⟨[], .refl hs.toSound, .nil⟩
  have hmem : p ∈ ctx.func.params.zipIdx := by
    rw [hlist]
    exact List.mem_append_right _ List.mem_cons_self
  have hlt : p.2 < ctx.func.params.length := by simpa using (List.mem_zipIdx hmem).2.1
  have hv := h.params _ (List.fst_mem_of_mem_zipIdx hmem)
  exact (meets_bindParam (he₁.ready hs) hv fun hfour hnone => hallowed ⟨p.2, hlt, hfour, hnone⟩).mono
    fun _ s₂ ⟨code', he₂, hcode'⟩ => ⟨_, he₁.trans he₂, (hcode.mono he₂.toExtends).snoc hcode'⟩

theorem meets_selectInsts (hs : s.Ready ctx)
    (hinsts : ∀ i ∈ insts, i ∈ ctx.func.instsOf b ∧ (ctx.func.kind i).isTerminator = false)
    (hallowed : ∀ i ∈ insts, ∀ callee, ctx.func.kind i = .call callee → CallOverflow (ctx.func.operands i).length →
      allowed (.crash none)) :
    Meets allowed (insts.forM (selectInst ctx)) s fun _ s' => ∃ code, s.Emits code s' ∧ InstsCode ctx s' insts code := by
  refine Meets.forM (I := fun done s' => ∃ code, s.Emits code s' ∧ InstsCode ctx s' done code) _
    (fun done i rest s₁ hlist ⟨code, he₁, hcode⟩ => ?_) ⟨[], .refl hs.toSound, .nil⟩
  have hmem : i ∈ insts := hlist ▸ List.mem_append_right _ List.mem_cons_self
  obtain ⟨hi, hterm⟩ := hinsts i hmem
  cases hphi : (ctx.func.kind i).isPhi with
  | true =>
    have hkind : ctx.func.kind i = .phi := by
      cases hkind : ctx.func.kind i with
      | phi => rfl
      | _ =>
        rw [hkind] at hphi
        cases hphi
    unfold selectInst
    dsimp only
    rw [hkind]
    exact .pure ⟨code, he₁, by simpa using hcode.snoc (.phi (i := i) hphi .nil)⟩
  | false =>
    refine (meets_selectInst h (he₁.ready hs) hi hterm hphi (hallowed i hmem)).mono fun _ s₂ ⟨code', he₂, hcode'⟩ => ?_
    exact ⟨_, he₁.trans he₂, (hcode.mono he₂.toExtends).snoc (by simpa using InstsCode.cons hcode' .nil)⟩

/-- What is left of a block without the comparisons that became part of branches. -/
theorem exists_unfused (hb : b ∈ ctx.func.layout) : ∃ insts last,
    ((ctx.func.instsOf b).filter fun i => !ctx.fused.contains i) = insts ++ [last] ∧ last ∈ ctx.func.instsOf b ∧
      (ctx.func.kind last).isTerminator = true ∧
      ∀ i ∈ insts, i ∈ ctx.func.instsOf b ∧ (ctx.func.kind i).isTerminator = false := by
  obtain ⟨before, last, hinsts, hlast, hbefore⟩ := h.shaped.ends b hb
  have hkept : ctx.fused.contains last = false := by
    rw [Bool.eq_false_iff]
    intro hfused
    obtain ⟨c, -, hcompare⟩ := h.fused last hfused
    obtain ⟨-, -, op, -, hkind, -⟩ := Function.fusableCompare?_eq_some hcompare
    rw [hkind] at hlast
    cases hlast
  refine ⟨before.filter fun i => !ctx.fused.contains i, last, ?_, ?_, hlast, fun i hi => ?_⟩
  · rw [hinsts, List.filter_append, List.filter_cons_of_pos (by rw [hkept]; rfl), List.filter_nil]
  · rw [hinsts]
    exact List.mem_append_right _ List.mem_cons_self
  · have hmem := (List.mem_filter.1 hi).1
    rw [hinsts]
    exact ⟨List.mem_append_left _ hmem, hbefore i hmem⟩

theorem meets_selectBlock (hs : s.Ready ctx) (hsize : s.code.blocks.size = ctx.func.layout.length)
    (hb : ctx.func.layout[k]? = some b) (hallowed : ∀ i ∈ ctx.func.instsOf b, ∀ callee, ctx.func.kind i = .call callee →
      CallOverflow (ctx.func.operands i).length → allowed (.crash none)) :
    Meets allowed (selectBlock ctx b) s fun _ s' => ∃ code transfers,
      ({ s with current := k } : Selection).Emits (code ++ transfers) s' ∧ BlockCode ctx s' b code transfers := by
  have hindex := blockIndex_of_getElem? h.sound.layout_nodup hb
  refine .bind (.lift (.of_exists ⟨k, hindex⟩) fun k' hk' => ?_)
  cases hindex.symm.trans hk'
  refine .bind (.modify ?_)
  have hlt : k < s.code.blocks.size := by
    rw [hsize]
    exact (List.getElem?_eq_some_iff.1 hb).1
  have hs₁ : ({ s with current := k } : Selection).Ready ctx := ⟨hs.toSound.of_eq hlt hs.room rfl rfl rfl, hs.values⟩
  obtain ⟨insts, last, hinsts, hlast, hterm, hbefore⟩ := exists_unfused h (List.mem_of_getElem? hb)
  rw [hinsts, List.forM_eq_forM, List.forM_append]
  refine .bind ((meets_selectInsts h hs₁ hbefore fun i hi => hallowed i (hbefore i hi).1).mono
    fun _ s₂ ⟨code, he₂, hcode⟩ => ?_)
  refine .bind ((meets_selectTerminator h (he₂.ready hs₁) (List.mem_of_getElem? hb) hlast hterm).mono
    fun _ s₃ ⟨code', transfers, he₃, hexit⟩ => .pure ?_)
  refine ⟨code ++ code', transfers, ?_, .mk hinsts (hcode.mono he₃.toExtends) hexit⟩
  rw [List.append_assoc]
  exact he₂.trans he₃

variable {entry : List Instr}

theorem meets_selectBlock_selected {done : List BlockId} (hs : s.Selected ctx entry done) (hb : b ∈ ctx.func.layout)
    (hnew : b ∉ done) (hallowed : ∀ i ∈ ctx.func.instsOf b, ∀ callee, ctx.func.kind i = .call callee →
      CallOverflow (ctx.func.operands i).length → allowed (.crash none)) :
    Meets allowed (selectBlock ctx b) s fun _ s' => s.Extends s' ∧ s'.Selected ctx entry (done ++ [b]) := by
  obtain ⟨k, hk⟩ := List.getElem?_of_mem hb
  refine (meets_selectBlock h hs.toReady hs.size hk hallowed).mono fun _ s' ⟨code, transfers, he, hcode⟩ => ?_
  have hturn : s.Extends { s with current := k } := .of_eq rfl rfl rfl rfl rfl
  have hext : s.Extends s' := hturn.trans he.toExtends
  have hbody : ∀ j, s'.body j = if j = k then s.body j ++ (code ++ transfers) else s.body j := he.body
  have hother : ∀ {j c}, ctx.func.layout[j]? = some c → c ≠ b → j ≠ k := by
    rintro j c hj hne rfl
    exact hne (Option.some.inj (hj.symm.trans hk))
  refine ⟨hext, ⟨⟨he.sound, hext.values.trans hs.values⟩, hext.size.trans hs.size, ?_, fun e hmem => ?_,
    fun j c hj hc => ?_, fun j c hj hc => ?_⟩⟩
  · obtain ⟨added, haddr, hfront, -⟩ := he.loads
    rw [hfront, haddr]
    change s.front ++ _ = entry ++ (added ++ s.addresses).reverse.map .loadOf
    rw [hs.front, List.reverse_append, List.map_append, List.append_assoc]
    rfl
  · obtain ⟨added, haddr, -, hlookup⟩ := he.loads
    have hcases := hmem
    rw [haddr] at hcases
    rcases List.mem_append.1 hcases with hnew | hold
    · exact hlookup e hnew
    · have hbelongs := hs.known e hold
      obtain ⟨n, hn⟩ := hs.loaded _ _ hbelongs
      rw [hn] at hbelongs ⊢
      exact hext.kept n (.label e.1) hbelongs
  · by_cases hcb : c = b
    · subst hcb
      obtain rfl : j = k :=
        (List.getElem?_inj (List.getElem?_eq_some_iff.1 hj).1 h.sound.layout_nodup).1 (hj.trans hk.symm)
      refine ⟨code, transfers, hcode, ?_⟩
      rw [hbody, if_pos rfl, hs.blank _ _ hj hnew, List.nil_append]
    · have hdone : c ∈ done := by simpa [hcb] using hc
      obtain ⟨code', transfers', hcode', hbody'⟩ := hs.code j c hj hdone
      refine ⟨code', transfers', hcode'.mono hext, ?_⟩
      rw [hbody, if_neg (hother hj hcb), hbody']
  · obtain ⟨hdone, hcb⟩ : c ∉ done ∧ c ≠ b := by simpa [not_or] using hc
    rw [hbody, if_neg (hother hj hcb), hs.blank j c hj hdone]

theorem meets_layout (hs : s.Selected ctx entry [])
    (hallowed : ∀ b ∈ ctx.func.layout, ∀ i ∈ ctx.func.instsOf b, ∀ callee, ctx.func.kind i = .call callee →
      CallOverflow (ctx.func.operands i).length → allowed (.crash none)) :
    Meets allowed (ctx.func.layout.forM (selectBlock ctx)) s fun _ s' =>
      s.Extends s' ∧ s'.Selected ctx entry ctx.func.layout := by
  refine Meets.forM (I := fun done s' => s.Extends s' ∧ s'.Selected ctx entry done) _
    (fun done b rest s₁ hlist ⟨hext, hs₁⟩ => ?_) ⟨.refl s, hs⟩
  have hb : b ∈ ctx.func.layout := hlist ▸ List.mem_append_right _ List.mem_cons_self
  have hnew : b ∉ done := by
    have hnodup := h.sound.layout_nodup
    rw [hlist] at hnodup
    exact fun hmem => List.disjoint_of_nodup_append hnodup hmem List.mem_cons_self
  exact (meets_selectBlock_selected h hs₁ hb hnew (hallowed b hb)).mono
    fun _ s₂ ⟨hext', hs₂⟩ => ⟨hext.trans hext', hs₂⟩

end Select

/-- A state at the start of a selection: slots are assigned and nothing else is done. -/
structure Selection.Fresh (ctx : SelectionContext) (s : Selection) : Prop where
  size : s.code.blocks.size = ctx.func.layout.length
  blank : ∀ b, s.code.instsOf b = []
  registers : s.registers = Array.replicate ctx.func.values.size none
  addresses : s.addresses = []
  entryFront : s.entryFront = 0
  current : s.current = 0

/-- Nobody has a register at the start. -/
theorem Selection.Fresh.ready (hs : s.Fresh ctx) (hblocks : ctx.func.layout ≠ []) : s.Ready ctx := by
  have hnone : ∀ v, s.registers.getD v none = none := by
    intro v
    rw [hs.registers, Array.getD_eq_getD_getElem?, Array.getElem?_replicate]
    split <;> rfl
  have hfree : ∀ n o, ¬ s.Belongs n o := by
    intro n o ho
    cases o with
    | value v => cases (hnone v).symm.trans ho
    | label name =>
      unfold Belongs at ho
      rw [hs.addresses] at ho
      cases ho
  refine ⟨⟨?_, ?_, fun v op hop => ?_, fun name op hop => ?_, fun n o ho => absurd ho (hfree n o),
    fun n o _ ho => absurd ho (hfree n o)⟩, by rw [hs.registers, Array.size_replicate]⟩
  · rw [hs.current, hs.size]
    exact List.length_pos_iff.2 hblocks
  · rw [hs.entryFront]
    exact Nat.zero_le _
  · cases (hnone v).symm.trans hop
  · rw [hs.addresses] at hop
    cases hop

/-- **Selection of everything but the phis.** It fails for one reason only: the words of arguments leave the word range.
It ends with the code of the parameters at the front of the entry and the code of every block. -/
theorem Select.meets_selectBlocks {allowed : Failure → Prop} (h : ctx.Selectable allowed) (hs : s.Fresh ctx)
    (hparams : ParamOverflow ctx.func.params.length → allowed (.crash none))
    (hcalls : ∀ b ∈ ctx.func.layout, ∀ i ∈ ctx.func.instsOf b, ∀ callee, ctx.func.kind i = .call callee →
      CallOverflow (ctx.func.operands i).length → allowed (.crash none)) :
    Stateful.Meets allowed (selectBlocks ctx) s fun _ s' => s'.slots = s.slots ∧ ∃ entry,
      ParamsCode s' ctx.func.params.zipIdx entry ∧ s'.Selected ctx entry ctx.func.layout := by
  have hready := hs.ready h.shaped.nonempty
  have hloads : Stateful.Leads (fun s s' => s'.addresses = s.addresses)
      (ctx.func.params.zipIdx.forM fun (v, k) => bindParam v k) :=
    .forM (fun (e : ValueId × Nat) => leads_bindParam_addresses e.1 e.2) _
  refine .bind (((meets_bindParams h hready hparams).and fun _ s₁ hrun => hloads.keeps
    (P := fun s' => s'.addresses = []) (fun _ _ hstep hnil => hstep.trans hnil) hrun hs.addresses).mono
      fun _ s₁ ⟨⟨entry, he₁, hentry⟩, haddr⟩ => .bind (.modify ?_))
  have hbody : ∀ b, s₁.body b = if b = 0 then entry else [] := by
    intro b
    rw [he₁.body, hs.current]
    unfold Selection.body
    rw [hs.blank, hs.blank, List.drop_nil, ite_self, List.nil_append]
  -- Everything in the entry so far is for the parameters, as no address is loaded.
  have hinsts : s₁.code.instsOf 0 = entry := by
    have hfront : s₁.front = [] := by
      obtain ⟨added, hadded, hfront, -⟩ := he₁.loads
      rw [haddr, hs.addresses, List.append_nil] at hadded
      rw [hfront, ← hadded]
      unfold Selection.front
      rw [hs.blank, List.take_nil]
      rfl
    rw [← List.take_append_drop s₁.entryFront (s₁.code.instsOf 0)]
    change s₁.front ++ s₁.body 0 = entry
    rw [hfront, hbody, if_pos rfl, List.nil_append]
  have hsize : s₁.code.blocks.size = ctx.func.layout.length := he₁.size.trans hs.size
  have hs₂ : ({ s₁ with entryFront := (s₁.code.instsOf 0).length } : Selection).Selected ctx entry [] := by
    refine ⟨⟨he₁.sound.of_eq he₁.sound.here (Nat.le_refl _) rfl rfl rfl, (he₁.ready hready).values⟩, hsize, ?_,
      fun e he => by rw [haddr] at he; exact absurd he List.not_mem_nil, fun k b _ hb => absurd hb List.not_mem_nil, fun k b _ _ => ?_⟩
    · unfold Selection.front
      dsimp only
      rw [List.take_length, hinsts, haddr]
      exact (List.append_nil entry).symm
    · have hk := hbody k
      unfold Selection.body at hk ⊢
      dsimp only
      split
      · exact List.drop_length
      · rename_i hne
        rwa [if_neg hne, if_neg hne] at hk
  have hclose : s₁.Extends { s₁ with entryFront := (s₁.code.instsOf 0).length } := .of_eq rfl rfl rfl rfl rfl
  exact (meets_layout h hs₂ hcalls).mono fun _ s' ⟨hext, hs'⟩ =>
    ⟨hext.slots.trans he₁.slots, entry, hentry.mono (hclose.trans hext), hs'⟩

end SsaCompiler
