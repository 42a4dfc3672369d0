import SsaCompiler.Proofs.Machine.SelectedFunction

/-!
# Phis change all at once

What running phi code does. The copies at the end of a block read registers that none of them writes, so they can be
taken as one assignment (`steps_copies`). The same holds of the moves at the top of a block (`steps_taken`). A run that
goes from the one block to the other one thus gives every phi the value that it gets along this edge, as it was before
the first copy (`Function.phis_change_at_once`).
-/

set_option autoImplicit false

namespace SsaCompiler

open Runs

variable {W : Type}

variable {code rest : List Instr} {σ' : MachineState W}

variable {f : Function} {m : Module} {k : Nat}

namespace MachineState

/-- The block that a run goes to by the transfers that come next. -/
def leavesTo (σ : MachineState W) : List Instr → Option Nat
  | .jump target :: _ => some target
  | .branch cond l r target :: rest => if cond.holds (σ.read l) (σ.read r) then some target else σ.leavesTo rest
  | _ => none

/-- Two states differ in some virtual registers only, and in what is to be run. -/
structure ChangesOnly (changed : Nat → Prop) (σ σ' : MachineState W) : Prop where
  regs : σ'.regs = σ.regs
  memory : σ'.memory = σ.memory
  world : σ'.world = σ.world
  vregs : ∀ n, ¬ changed n → σ'.vregs n = σ.vregs n

namespace ChangesOnly

variable {changed changed' : Nat → Prop} {σ σ₁ σ₂ : MachineState W}

theorem refl (changed : Nat → Prop) (σ : MachineState W) : ChangesOnly changed σ σ := ⟨rfl, rfl, rfl, fun _ _ => rfl⟩

theorem trans (h : ChangesOnly changed σ σ₁) (h' : ChangesOnly changed σ₁ σ₂) : ChangesOnly changed σ σ₂ where
  regs := h'.regs.trans h.regs
  memory := h'.memory.trans h.memory
  world := h'.world.trans h.world
  vregs n hn := (h'.vregs n hn).trans (h.vregs n hn)

theorem mono (h : ChangesOnly changed σ σ₁) (hle : ∀ n, changed n → changed' n) : ChangesOnly changed' σ σ₁ :=
  ⟨h.regs, h.memory, h.world, fun n hn => h.vregs n fun hc => hn (hle n hc)⟩

/-- Operands that are no changed register. -/
theorem read (h : ChangesOnly changed σ σ₁) {op : Operand} (hop : ∀ n, op = .virtual n → ¬ changed n) :
    σ₁.read op = σ.read op := by
  cases op with
  | fixed r | allocated r =>
    unfold MachineState.read reg
    dsimp only
    rw [h.regs]
  | virtual n => exact h.vregs n (hop n rfl)
  | immediate c => rfl

end ChangesOnly

/-- The transfers go to the same block when their operands are the same. -/
theorem leavesTo_congr {σ : MachineState W} (h : ∀ i ∈ code, i.sources.map σ'.read = i.sources.map σ.read) :
    σ'.leavesTo code = σ.leavesTo code := by
  induction code with
  | nil => rfl
  | cons i rest ih =>
    obtain ⟨hi, hrest⟩ := List.forall_mem_cons.1 h
    cases i with
    | branch cond l r target =>
      simp only [Instr.sources, List.map_cons, List.map_nil, List.cons.injEq, and_true] at hi
      unfold leavesTo
      rw [hi.1, hi.2, ih hrest]
    | _ => rfl

/-- A run goes to a block by a transfer with this target. -/
theorem exists_of_leavesTo {σ : MachineState W} (h : σ.leavesTo code = some k) : ∃ i ∈ code, i.target? = some k := by
  induction code with
  | nil => cases h
  | cons i rest ih =>
    cases i with
    | jump target => exact ⟨_, List.mem_cons_self, h⟩
    | branch cond l r target =>
      unfold leavesTo at h
      split at h
      · exact ⟨_, List.mem_cons_self, h⟩
      · obtain ⟨i, hi, hk⟩ := ih h
        exact ⟨i, List.mem_cons_of_mem _ hi, hk⟩
    | _ => cases h

end MachineState

/-! ## Steps -/

section Steps

variable {mf : MachineFunction} {env : MachineEnv W} {σ : MachineState W}

/-- An instruction that only computes a word for a virtual register. -/
theorem step_of_value {i : Instr} {t : Nat} {x : Word} (hcode : σ.code = i :: rest)
    (hdst : i.dst? = some (.virtual t)) (hvalue : i.perform env (i.sources.map σ.read) σ.plainRegs σ.memory σ.world =
      .ok { value := some x, memory := σ.memory, world := σ.world }) :
    mf.step env σ = .next [] { σ with vregs := Function.update σ.vregs t x, code := rest } := by
  rw [MachineFunction.step_of_ok hcode (by rw [hdst]; rfl) hvalue, hdst]
  rfl

/-- Running the transfers of a block takes a step at least. -/
theorem steps_of_leavesTo (hcode : σ.code = code) (h : σ.leavesTo code = some k) :
    ∃ n, StepsIn (mf.step env) (n + 1) σ [] { σ with block := k, code := mf.instsOf k } := by
  induction code generalizing σ with
  | nil => cases h
  | cons i rest ih =>
    cases i with
    | jump target =>
      obtain rfl := Option.some.inj h
      exact ⟨0, .single (MachineFunction.step_of_ok hcode rfl rfl)⟩
    | branch cond l r target =>
      unfold MachineState.leavesTo at h
      split at h
      · rename_i hholds
        obtain rfl := Option.some.inj h
        refine ⟨0, .single ((MachineFunction.step_of_ok hcode rfl rfl).trans ?_)⟩
        rw [if_pos hholds]
        rfl
      · rename_i hfails
        have hstep : mf.step env σ = .next [] { σ with code := rest } := by
          refine (MachineFunction.step_of_ok hcode rfl rfl).trans ?_
          rw [if_neg hfails]
          rfl
        have hsame : ({ σ with code := rest } : MachineState W).leavesTo rest = σ.leavesTo rest :=
          MachineState.leavesTo_congr fun _ _ => rfl
        obtain ⟨n, hsteps⟩ := ih (σ := { σ with code := rest }) rfl (hsame.trans h)
        exact ⟨n + 1, .head hstep hsteps⟩
    | _ => cases h

end Steps

/-! ## Words of values -/

namespace Selection

/-- The word of a value in a state of selected code: a number, the address of a slot, or what is in the register of the
value or of its label. -/
def word? (m : Module) (f : Function) (s : Selection) (σ : MachineState W) (v : ValueId) : Option Word :=
  match s.slots.lookup v with
  | some offset => some (σ.read .sp + offset)
  | none =>
    match (f.value v).kind with
    | .const c => some c
    | .inst _ | .param _ => (s.registers.getD v none).map σ.read
    | kind => ((m.label? kind).bind (List.lookup · s.addresses)).map σ.read

/-- Words of values are the same where the registers with owners are. -/
theorem word?_congr {s : Selection} (hs : s.Sound) {changed : Nat → Prop} {σ : MachineState W}
    (h : σ.ChangesOnly changed σ') (hfree : ∀ n o, s.Belongs n o → ¬ changed n) (v : ValueId) :
    s.word? m f σ' v = s.word? m f σ v := by
  have hvalue : (s.registers.getD v none).map σ'.read = (s.registers.getD v none).map σ.read := by
    refine Option.map_congr fun op hop => ?_
    obtain ⟨n, rfl⟩ := hs.named v op hop
    exact h.vregs n (hfree n (.value v) hop)
  have hlabel : ∀ name : Option String, (name.bind (List.lookup · s.addresses)).map σ'.read =
      (name.bind (List.lookup · s.addresses)).map σ.read := by
    intro name
    refine Option.map_congr fun op hop => ?_
    obtain ⟨label, -, hlabel⟩ := Option.bind_eq_some_iff.1 hop
    obtain ⟨n, rfl⟩ := hs.loaded label op hlabel
    exact h.vregs n (hfree n (.label label) hlabel)
  have hsp : σ'.read .sp = σ.read .sp := h.read fun _ hop => nomatch hop
  unfold word?
  rw [hsp]
  split
  · rfl
  · split
    · rfl
    · exact hvalue
    · exact hvalue
    · exact hlabel _

end Selection

variable {ctx : SelectionContext} {s : Selection} (mf : MachineFunction) (env : MachineEnv W)

/-- An operand without code is the word of its value. -/
theorem OperandCode.word {low high : Nat} {v : ValueId} {op : Operand} (h : OperandCode ctx s low high v [] op)
    (σ : MachineState W) : s.word? ctx.module ctx.func σ v = some (σ.read op) := by
  unfold Selection.word?
  cases h with
  | number hslot hkind =>
    rw [hslot, hkind]
    rfl
  | @address n name hslot hname hn =>
    have hlookup : s.addresses.lookup name = some (.virtual n) := hn
    rw [hslot]
    cases hkind : (ctx.func.value v).kind with
    | global g | str id =>
      rw [hkind] at hname
      dsimp only
      rw [hname, Option.bind_some, hlookup]
      rfl
    | inst | param | const =>
      rw [hkind] at hname
      cases hname
  | @register n hslot hkind hn =>
    have hregister : s.registers.getD v none = some (.virtual n) := hn
    rw [hslot]
    cases hkind' : (ctx.func.value v).kind with
    | inst | param =>
      dsimp only
      rw [hregister]
      rfl
    | global | str | const =>
      rw [hkind'] at hkind
      cases hkind
  | slot _ _ hcode => cases hcode

/-- A copy sets its register to the word of its value. -/
theorem CopyCode.step {t : Nat} {v : ValueId} {i : Instr} (h : CopyCode ctx s t v i) {σ : MachineState W}
    {rest : List Instr} (hcode : σ.code = i :: rest) : ∃ x, s.word? ctx.module ctx.func σ v = some x ∧
      mf.step env σ = .next [] { σ with vregs := Function.update σ.vregs t x, code := rest } := by
  cases h with
  | @slot offset hslot =>
    refine ⟨σ.read .sp + offset, ?_, step_of_value hcode rfl rfl⟩
    unfold Selection.word?
    rw [hslot]
  | @plain op hoperand => exact ⟨σ.read op, hoperand.word σ, step_of_value hcode rfl rfl⟩

/-- **Copies are one assignment**: each register that they set has the word that the value had before them all. -/
theorem steps_copies (hs : s.Sound) {sent : List (Nat × ValueId)} {copies : List Instr}
    (hcopies : List.Forall₂ (fun e i => CopyCode ctx s e.1 e.2 i) sent copies) (hapart : (sent.map Prod.fst).Nodup)
    (hfree : ∀ e ∈ sent, ∀ o, ¬ s.Belongs e.1 o) {σ : MachineState W} (hcode : σ.code = copies ++ rest) :
    ∃ σ', Steps (mf.step env) σ [] σ' ∧ σ'.code = rest ∧
      σ.ChangesOnly (· ∈ sent.map Prod.fst) σ' ∧
      ∀ e ∈ sent, s.word? ctx.module ctx.func σ e.2 = some (σ'.vregs e.1) := by
  induction hcopies generalizing σ with
  | nil => exact ⟨σ, .refl σ, hcode, .refl _ σ, List.forall_mem_nil _⟩
  | @cons e i sent copies hcopy _ ih =>
    obtain ⟨hnew, hapart'⟩ := List.nodup_cons.1 hapart
    obtain ⟨hfirst, hfree'⟩ := List.forall_mem_cons.1 hfree
    obtain ⟨x, hx, hstep⟩ := hcopy.step mf env hcode
    obtain ⟨σ', hsteps, hrest, hchanges, hwords⟩ :=
      ih hapart' hfree' (σ := { σ with vregs := Function.update σ.vregs e.1 x, code := copies ++ rest }) rfl
    have hset : σ.ChangesOnly (· = e.1) { σ with vregs := Function.update σ.vregs e.1 x, code := copies ++ rest } :=
      ⟨rfl, rfl, rfl, fun n hn => Function.update_of_ne hn _ _⟩
    refine ⟨σ', Steps.append (.single hstep) hsteps, hrest, ?_, List.forall_mem_cons.2 ⟨?_, fun e' he' => ?_⟩⟩
    · exact (hset.mono fun n hn => hn ▸ List.mem_cons_self).trans (hchanges.mono fun n hn => List.mem_cons_of_mem _ hn)
    · rw [hx, hchanges.vregs e.1 hnew]
      exact congrArg some (Function.update_self e.1 x σ.vregs).symm
    · rw [← hwords e' he']
      exact (Selection.word?_congr hs hset (fun n o ho hn => hfirst o (hn ▸ ho)) e'.2).symm

/-- **Moves into phis are one assignment**: each phi has what its register had before them all. Loads among them set the
registers of labels to the addresses of the labels. -/
theorem steps_taken (hs : s.Sound) {taken : List (Nat × Nat)} (h : TakeCode s taken code)
    (hapart : (taken.map Prod.fst).Nodup) (howned : ∀ e ∈ taken, ∃ v, s.Belongs e.1 (.value v))
    (hfree : ∀ e ∈ taken, ∀ o, ¬ s.Belongs e.2 o)
    (henv : ∀ name n, s.Belongs n (.label name) → ∃ a, env.address name = some a) {τ : MachineState W}
    (hcode : τ.code = code ++ rest) : ∃ υ, Steps (mf.step env) τ [] υ ∧ υ.code = rest ∧
      τ.ChangesOnly (fun n => n ∈ taken.map Prod.fst ∨ ∃ name, s.Belongs n (.label name)) υ ∧
      (∀ e ∈ taken, υ.vregs e.1 = τ.vregs e.2) ∧
      ∀ name n, s.Belongs n (.label name) → υ.vregs n = τ.vregs n ∨ env.address name = some (υ.vregs n) := by
  induction h generalizing τ with
  | nil => exact ⟨τ, .refl τ, hcode, .refl _ τ, List.forall_mem_nil _, fun _ _ _ => .inl rfl⟩
  | @load n name taken code hn _ ih =>
    obtain ⟨a, ha⟩ := henv name n hn
    have hstep : mf.step env τ = .next [] { τ with vregs := Function.update τ.vregs n a, code := code ++ rest } := by
      refine step_of_value hcode rfl ?_
      change (match env.address name with
        | some a => Except.ok _
        | none => Except.error MachineOutcome.fault) = _
      rw [ha]
    obtain ⟨υ, hsteps, hrest, hchanges, htaken, hlabels⟩ :=
      ih hapart howned hfree (τ := { τ with vregs := Function.update τ.vregs n a, code := code ++ rest }) rfl
    have hset : τ.ChangesOnly (· = n) { τ with vregs := Function.update τ.vregs n a, code := code ++ rest } :=
      ⟨rfl, rfl, rfl, fun k hk => Function.update_of_ne hk _ _⟩
    refine ⟨υ, Steps.append (.single hstep) hsteps, hrest, ?_, fun e he => ?_, fun name' k hk => ?_⟩
    · exact (hset.mono fun k hk => .inr ⟨name, hk ▸ hn⟩).trans hchanges
    · rw [htaken e he]
      exact hset.vregs e.2 fun heq => hfree e he (.label name) (heq ▸ hn)
    · rcases hlabels name' k hk with hsame | haddress
      · by_cases hkn : k = n
        · subst hkn
          right
          cases hs.single k _ _ hk hn
          rw [hsame, ha]
          exact congrArg some (Function.update_self k a τ.vregs).symm
        · exact .inl (hsame.trans (hset.vregs k hkn))
      · exact .inr haddress
  | @move n t taken code _ ih =>
    obtain ⟨hnew, hapart'⟩ := List.nodup_cons.1 hapart
    obtain ⟨⟨v, hv⟩, howned'⟩ := List.forall_mem_cons.1 howned
    obtain ⟨-, hfree'⟩ := List.forall_mem_cons.1 hfree
    have hstep : mf.step env τ =
        .next [] { τ with vregs := Function.update τ.vregs n (τ.vregs t), code := code ++ rest } :=
      step_of_value hcode rfl rfl
    obtain ⟨υ, hsteps, hrest, hchanges, htaken, hlabels⟩ := ih hapart' howned' hfree'
      (τ := { τ with vregs := Function.update τ.vregs n (τ.vregs t), code := code ++ rest }) rfl
    have hset : τ.ChangesOnly (· = n)
        { τ with vregs := Function.update τ.vregs n (τ.vregs t), code := code ++ rest } :=
      ⟨rfl, rfl, rfl, fun k hk => Function.update_of_ne hk _ _⟩
    have hlabel : ∀ name, ¬ s.Belongs n (.label name) := fun name hn => nomatch hs.single n _ _ hv hn
    refine ⟨υ, Steps.append (.single hstep) hsteps, hrest, ?_, List.forall_mem_cons.2 ⟨?_, fun e he => ?_⟩,
      fun name k hk => ?_⟩
    · exact (hset.mono fun k hk => .inl (hk ▸ List.mem_cons_self)).trans
        (hchanges.mono fun k hk => hk.imp_left (List.mem_cons_of_mem _))
    · rw [hchanges.vregs n fun hn => hn.elim hnew fun ⟨name, hname⟩ => hlabel name hname]
      exact Function.update_self n (τ.vregs t) τ.vregs
    · rw [htaken e he]
      exact hset.vregs e.2 fun heq => hfree' e he (.value v) (heq ▸ hv)
    · refine (hlabels name k hk).imp_left fun hsame => hsame.trans (hset.vregs k fun hkn => hlabel name (hkn ▸ hk))

/-! ## Edges -/

/-- What a run along an edge has done when the phis of the second block have changed: `σ` is the state at the end of the
first block, `υ` the one behind the moves at the top of the second block. -/
structure Selection.Entered (m : Module) (f : Function) (s : Selection) (env : MachineEnv W) (p b : BlockId)
    (σ υ : MachineState W) : Prop where
  /-- The register of every phi has the word that its value for this edge had in the first state. -/
  phis : ∀ phi ∈ f.phis b, ∃ r n v, f.result? phi = some r ∧ s.Belongs n (.value r) ∧ f.Feeds b phi p v ∧
    s.word? m f σ v = some (υ.vregs n)
  others : ∀ v n, s.Belongs n (.value v) → (∀ phi ∈ f.phis b, f.result? phi ≠ some v) → υ.vregs n = σ.vregs n
  /-- The registers of labels may have been loaded again. -/
  labels : ∀ name n, s.Belongs n (.label name) → υ.vregs n = σ.vregs n ∨ env.address name = some (υ.vregs n)
  regs : υ.regs = σ.regs
  memory : υ.memory = σ.memory
  world : υ.world = σ.world

/-- The moves at the top of a block are copies between registers and loads of addresses. -/
theorem TakeCode.copies {taken : List (Nat × Nat)} (h : TakeCode s taken code) :
    ∀ i ∈ code, i.copy?.isSome = true ∨ i.symbol?.isSome = true := by
  induction h with
  | nil => exact List.forall_mem_nil _
  | load _ _ ih => exact List.forall_mem_cons.2 ⟨.inr rfl, ih⟩
  | move _ ih => exact List.forall_mem_cons.2 ⟨.inl rfl, ih⟩

/-- So it is for every value that a phi gets along the edge, if there are more than one. -/
structure Selection.Arrived (ctx : SelectionContext) (s : Selection) (env : MachineEnv W) (p b : BlockId)
    (σ υ : MachineState W) : Prop where
  phis : ∀ phi ∈ ctx.func.phis b, ∃ r n, ctx.func.result? phi = some r ∧ s.Belongs n (.value r) ∧
    ∀ v, ctx.func.Feeds b phi p v → s.word? ctx.module ctx.func σ v = some (υ.vregs n)
  others : ∀ v n, s.Belongs n (.value v) → (∀ phi ∈ ctx.func.phis b, ctx.func.result? phi ≠ some v) → υ.vregs n = σ.vregs n
  labels : ∀ name n, s.Belongs n (.label name) → υ.vregs n = σ.vregs n ∨ env.address name = some (υ.vregs n)
  regs : υ.regs = σ.regs
  memory : υ.memory = σ.memory
  world : υ.world = σ.world

section Lowered

variable {low : Nat} {bases exits : Nat → List Instr} {taken : Nat → List (Nat × Nat)} {sent : Nat → List (Nat × ValueId)}
  (hs : s.Lowered ctx low bases exits ctx.func.layout taken sent) {σ : MachineState W}

include hs

/-- The copies at the end of a block change no register of a value and no operand of the transfers. -/
theorem Selection.Lowered.copied {j : Nat} {copies : List Instr}
    (hcopies : List.Forall₂ (fun e i => CopyCode ctx s e.1 e.2 i) (sent j) copies)
    (hexit : ∀ i ∈ exits j, ∀ op ∈ i.sources, op.Within low) (hσ : σ.code = copies ++ exits j) :
    ∃ σ', Steps (mf.step env) σ [] σ' ∧ σ'.code = exits j ∧ σ.ChangesOnly (fun n => ∀ o, ¬ s.Belongs n o) σ' ∧
      (∀ i ∈ exits j, i.sources.map σ'.read = i.sources.map σ.read) ∧
      ∀ e ∈ sent j, s.word? ctx.module ctx.func σ e.2 = some (σ'.vregs e.1) := by
  have hfree : ∀ e ∈ sent j, ∀ o, ¬ s.Belongs e.1 o := fun e he => (hs.scratch j e he).free
  obtain ⟨σ', hsteps, hrest, hchanges, hwords⟩ := steps_copies mf env hs.toSound hcopies (hs.apart j) hfree hσ
  refine ⟨σ', hsteps, hrest, hchanges.mono fun n hmem o ho => ?_, fun i hi => ?_, hwords⟩
  · obtain ⟨e, he, rfl⟩ := List.mem_map.1 hmem
    exact hfree e he o ho
  · -- The transfers mention registers that were there before the phis were lowered, the copies set new ones.
    refine List.map_congr_left fun op hop => hchanges.read fun n hn hmem => ?_
    obtain ⟨e, he, rfl⟩ := List.mem_map.1 hmem
    exact absurd (hs.scratch j e he).low (Nat.not_le.2 (hexit i hi op hop _ hn))

/-- Behind the copies, a run that goes to another block changes the phis of that block all at once. -/
theorem Selection.Lowered.arrived (hsound : ctx.func.Sound) (hinsts : ∀ k, mf.instsOf k = s.code.instsOf k)
    (henv : ∀ name n, s.Belongs n (.label name) → ∃ a, env.address name = some a) {p b : BlockId} {j : Nat}
    (hp : ctx.func.layout[j]? = some p) (hb : ctx.func.layout[k]? = some b) {top : List Instr}
    (hcode : s.code.instsOf k = top ++ rest) (htop : TakeCode s (taken k) top) (hbehind : σ'.code = exits j)
    (hchanges : σ.ChangesOnly (fun n => ∀ o, ¬ s.Belongs n o) σ')
    (hwords : ∀ e ∈ sent j, s.word? ctx.module ctx.func σ e.2 = some (σ'.vregs e.1))
    (hleaves : σ'.leavesTo (exits j) = some k) :
    ∃ n υ, StepsIn (mf.step env) (n + 1) σ' [] υ ∧ υ.code = rest ∧ s.Arrived ctx env p b σ υ := by
  have hlisted : b ∈ ctx.func.layout := List.mem_of_getElem? hb
  have htakes := hs.takes k b hb hlisted
  have howned : ∀ e ∈ taken k, ∃ v, s.Belongs e.1 (.value v) := by
    intro e he
    obtain ⟨phi, -, hphi⟩ := exists_of_forall₂_right htakes he
    obtain ⟨r, -, hn⟩ := hphi.owner
    exact ⟨r, hn⟩
  have hphis : (ctx.func.phis b).Nodup := (hsound.nodup b).sublist (List.takeWhile_sublist _)
  have harrived : ({ σ' with block := k, code := mf.instsOf k } : MachineState W).code = top ++ rest := (hinsts k).trans hcode
  obtain ⟨n₁, hleave⟩ : ∃ n, StepsIn (mf.step env) (n + 1) σ' [] _ := steps_of_leavesTo hbehind hleaves
  obtain ⟨υ, ⟨n₂, hmoves⟩, hrest, hchanges', htaken, hlabels⟩ := steps_taken mf env hs.toSound htop
    (nodup_of_takes hs.toSound hsound htakes hphis) howned (fun e he => by
      obtain ⟨phi, -, hphi⟩ := exists_of_forall₂_right htakes he
      exact hphi.scratch.free) henv harrived
  have hsteps := hleave.append hmoves
  rw [Nat.add_right_comm] at hsteps
  refine ⟨n₁ + n₂, υ, hsteps, hrest, fun phi hphi => ?_, fun v n hn hv => ?_,
    fun name n hn => ?_, hchanges'.regs.trans hchanges.regs, hchanges'.memory.trans hchanges.memory,
    hchanges'.world.trans hchanges.world⟩
  · obtain ⟨i, hi⟩ := List.getElem?_of_mem hphi
    obtain ⟨e, he⟩ : ∃ e, (taken k)[i]? = some e :=
      ⟨_, List.getElem?_eq_getElem (htakes.length_eq ▸ (List.getElem?_eq_some_iff.1 hi).1)⟩
    have hzip : (phi, e) ∈ (ctx.func.phis b).zip (taken k) :=
      List.mem_of_getElem? (i := i) (List.getElem?_zip_eq_some.2 ⟨hi, he⟩)
    obtain ⟨r, hr, hn⟩ := (List.forall₂_zip htakes hzip).owner
    refine ⟨r, e.1, hr, hn, fun v hv => ?_⟩
    rw [hwords (e.2, v) (hs.fed k b hb hlisted (phi, e) hzip j p v hp hv), htaken e (List.mem_of_getElem? he)]
  · have hout : ¬ (n ∈ (taken k).map Prod.fst ∨ ∃ name, s.Belongs n (.label name)) := by
      rintro (hmem | ⟨name, hname⟩)
      · obtain ⟨e, he, rfl⟩ := List.mem_map.1 hmem
        obtain ⟨phi, hphi, htake⟩ := exists_of_forall₂_right htakes he
        obtain ⟨r, hr, hr'⟩ := htake.owner
        cases hs.single _ _ _ hn hr'
        exact hv phi hphi hr
      · cases hs.single _ _ _ hn hname
    exact (hchanges'.vregs n hout).trans (hchanges.vregs n fun hfree => hfree _ hn)
  · exact (hlabels name n hn).imp_left fun hsame => hsame.trans (hchanges.vregs n fun hfree => hfree _ hn)

end Lowered

namespace Function

/-- A phi has a value for every predecessor of its block. -/
theorem Selectable.exists_feeds (hf : f.Selectable m) {b p : BlockId} {phi : InstId} (hb : b ∈ f.layout)
    (hphi : phi ∈ f.phis b) (hp : p ∈ f.preds b) : ∃ v, f.Feeds b phi p v := by
  have hslots := hf.shaped.slots b hb phi ((List.takeWhile_sublist _).subset hphi)
    (List.mem_takeWhile_imp (p := fun i => (f.kind i).isPhi) hphi)
  obtain ⟨slot, hslot⟩ := List.getElem?_of_mem hp
  have hlt : slot < (f.operands phi).length := hslots ▸ (List.getElem?_eq_some_iff.1 hslot).1
  exact ⟨_, List.mem_of_getElem? (i := slot) (List.getElem?_zip_eq_some.2 ⟨hslot, List.getElem?_eq_getElem hlt⟩)⟩

/-- **Phis change all at once.** In the selected code of a function, every block ends with copies and then its transfers,
and starts with the moves for its phis. Running the copies changes no register of a value and no operand of the
transfers; and if these go to a block, the moves at its top leave in the register of every phi what its value for this
edge was before the first copy, and change no register of another value. -/
theorem phis_change_at_once {m : Module} {f : Function} {loops : LoopForest} {s : Selection} (hf : f.Selectable m)
    (h : f.selection m loops = .ok s) {p b : BlockId} {j k : Nat} (hp : f.layout[j]? = some p)
    (hb : f.layout[k]? = some b) :
    ∃ before copies exit top rest, s.code.instsOf j = before ++ copies ++ exit ∧ s.code.instsOf k = top ++ rest ∧
      (∀ i ∈ before ++ copies, i.isTransfer = false) ∧ (∀ i ∈ exit, i.isTransfer = true) ∧
      (∀ i ∈ top, i.copy?.isSome = true ∨ i.symbol?.isSome = true) ∧
      ∀ (W : Type) (env : MachineEnv W) (σ : MachineState W),
        (∀ name n, s.Belongs n (.label name) → ∃ a, env.address name = some a) → σ.code = copies ++ exit →
        ∃ σ', Steps (s.code.step env) σ [] σ' ∧ σ'.code = exit ∧ σ.ChangesOnly (fun n => ∀ o, ¬ s.Belongs n o) σ' ∧
          (∀ i ∈ exit, i.sources.map σ'.read = i.sources.map σ.read) ∧
          (σ.leavesTo exit = some k → ∃ υ, Steps (s.code.step env) σ' [] υ ∧ υ.code = rest ∧ s.Entered m f env p b σ υ) := by
  obtain ⟨fused, s₁, -, ⟨entry, -, hs₁⟩, -, taken, sent, hs⟩ := ended_of_selection hf.orderly h
  have hj : j < f.layout.length := (List.getElem?_eq_some_iff.1 hp).1
  have hk : k < f.layout.length := (List.getElem?_eq_some_iff.1 hb).1
  have hlisted : b ∈ f.layout := List.mem_of_getElem? hb
  obtain ⟨top, mid, copies, hcode, -, -, hcopies, hcalm⟩ := hs.parts hj
  obtain ⟨top', mid', copies', hcode', htop', -, -, -⟩ := hs.parts hk
  have hexit : ∀ i ∈ s₁.exits j, ∀ op ∈ i.sources, op.Within s₁.code.vregCount := fun i hi op hop =>
    (hs₁.exit hj hi).2.1 op (List.mem_append_left _ hop)
  have hrest : s.code.instsOf k = top' ++ (mid' ++ copies' ++ s₁.exits k) := by
    rw [hcode']
    simp only [List.append_assoc]
  refine ⟨top ++ mid, copies, s₁.exits j, top', mid' ++ copies' ++ s₁.exits k, hcode, hrest, fun i hi => (hcalm i hi).1,
    fun i hi => (hs₁.exit hj hi).1, htop'.copies, fun W env σ henv hσ => ?_⟩
  obtain ⟨σ', hsteps, hbehind, hchanges, hsources, hwords⟩ := hs.copied s.code env hcopies hexit hσ
  refine ⟨σ', hsteps, hbehind, hchanges, hsources, fun hleaves => ?_⟩
  obtain ⟨i, hi, htarget⟩ := MachineState.exists_of_leavesTo hleaves
  have hpred : p ∈ f.preds b := hs₁.mem_preds hf.shaped hp hb hi htarget
  obtain ⟨n, υ, hmoves, hrest', harrived⟩ := hs.arrived s.code env hf.sound (fun _ => rfl) henv hp hb hrest htop' hbehind
    hchanges hwords ((MachineState.leavesTo_congr hsources).trans hleaves)
  refine ⟨υ, ⟨n + 1, hmoves⟩, hrest', fun phi hphi => ?_, harrived.others, harrived.labels, harrived.regs, harrived.memory,
    harrived.world⟩
  obtain ⟨r, n, hr, hn, hfed⟩ := harrived.phis phi hphi
  obtain ⟨v, hv⟩ := hf.exists_feeds hlisted hphi hpred
  exact ⟨r, n, v, hr, hn, hv, hfed v hv⟩

/-- Two phis that exchange their values while a block leads to itself. -/
def exchange : Function where
  name := "main"
  returnsValue := true
  values := #[
    { kind := .inst 0, name := some "a", uses := [⟨3, 0⟩, ⟨1, 1⟩] },
    { kind := .inst 1, name := some "b", uses := [⟨4, 0⟩, ⟨0, 1⟩] },
    { kind := .const 1, uses := [⟨0, 0⟩] },
    { kind := .const 2, uses := [⟨1, 0⟩] }]
  insts := #[
    { kind := .phi, operands := [2, 1], result := some 0, block := some 1 },
    { kind := .phi, operands := [3, 0], result := some 1, block := some 1 },
    { kind := .jump 1, operands := [], result := none, block := some 0 },
    { kind := .branch 1 2, operands := [0], result := none, block := some 1 },
    { kind := .ret, operands := [1], result := none, block := some 2 }]
  blocks := #[
    { name := "entry", insts := [2] },
    { name := "loop", insts := [0, 1, 3], preds := [0, 1] },
    { name := "exit", insts := [4], preds := [1] }]
  layout := [0, 1, 2]

/-- Going once around the loop exchanges the registers of the phis. -/
theorem phis_change_at_once_exchange : ∃ s, exchange.selection { functions := #[exchange] } ⟨#[], #[], []⟩ = .ok s ∧
    s.Belongs 0 (.value 0) ∧ s.Belongs 1 (.value 1) ∧ ∃ before copies exit top rest,
      s.code.instsOf 1 = before ++ copies ++ exit ∧ s.code.instsOf 1 = top ++ rest ∧
      ∀ (W : Type) (env : MachineEnv W) (σ : MachineState W), σ.code = copies ++ exit → σ.leavesTo exit = some 1 →
        ∃ υ, Steps (s.code.step env) σ [] υ ∧ υ.code = rest ∧ υ.vregs 0 = σ.vregs 1 ∧ υ.vregs 1 = σ.vregs 0 := by
  have hread : Module.parse ("func @main() -> int \x7b\nentry:\n jump ^loop\nloop:\n %a = phi [^entry, 1], [^loop, %b]\n" ++
      " %b = phi [^entry, 2], [^loop, %a]\n br %a, ^loop, ^exit\nexit:\n ret %b\n\x7d") =
      .ok { functions := #[exchange] } := by cbv
  have hselectable := Module.selectable_parse hread (Array.mem_singleton.2 rfl)
  have hrun : (exchange.selection { functions := #[exchange] } ⟨#[], #[], []⟩).map
      (fun s => (s.slots, s.addresses, s.registers)) =
      .ok ([], [], #[some (.virtual 0), some (.virtual 1), none, none]) := by cbv
  cases hs : exchange.selection { functions := #[exchange] } ⟨#[], #[], []⟩ with
  | error e =>
    rw [hs] at hrun
    cases hrun
  | ok s =>
    rw [hs] at hrun
    obtain ⟨hslots, haddr, hregs⟩ : s.slots = [] ∧ s.addresses = [] ∧
        s.registers = #[some (.virtual 0), some (.virtual 1), none, none] := by
      simpa using Except.ok.inj hrun
    have h0 : s.Belongs 0 (.value 0) := by
      rw [Selection.Belongs, hregs]
      rfl
    have h1 : s.Belongs 1 (.value 1) := by
      rw [Selection.Belongs, hregs]
      rfl
    obtain ⟨before, copies, exit, top, rest, hcode, htop, -, -, -, hedge⟩ :=
      phis_change_at_once (p := 1) (b := 1) (j := 1) (k := 1) hselectable hs rfl rfl
    refine ⟨s, rfl, h0, h1, before, copies, exit, top, rest, hcode, htop, fun W env σ hσ hleaves => ?_⟩
    have hlabels : ∀ name n, s.Belongs n (.label name) → ∃ a, env.address name = some a := by
      intro name n hn
      rw [Selection.Belongs, haddr] at hn
      cases hn
    obtain ⟨σ', hsteps, -, -, -, hgo⟩ := hedge W env σ hlabels hσ
    obtain ⟨υ, hsteps', hrest, hentered⟩ := hgo hleaves
    -- Along this edge each phi gets the result of the other one.
    have hphi : ∀ phi ∈ exchange.phis 1, υ.vregs phi = σ.vregs (1 - phi) := by
      intro phi hphi
      obtain ⟨r, n, v, hr, hn, hv, hword⟩ := hentered.phis phi hphi
      have hword' : ∀ w, (exchange.value w).kind = .inst w →
          s.word? { functions := #[exchange] } exchange σ w = (s.registers.getD w none).map σ.read := by
        intro w hkind
        unfold Selection.word?
        rw [hslots, hkind]
        rfl
      have hcases : phi ∈ [0, 1] := hphi
      rcases List.mem_pair.1 hcases with rfl | rfl
      · obtain rfl : 0 = r := Option.some.inj hr
        have hpair : (1, v) ∈ [(0, 2), (1, 1)] := hv
        obtain rfl : v = 1 := by simpa using hpair
        cases h0.symm.trans hn
        rw [hword' 1 rfl, h1] at hword
        exact (Option.some.inj hword).symm
      · obtain rfl : 1 = r := Option.some.inj hr
        have hpair : (1, v) ∈ [(0, 3), (1, 0)] := hv
        obtain rfl : v = 0 := by simpa using hpair
        cases h1.symm.trans hn
        rw [hword' 0 rfl, h0] at hword
        exact (Option.some.inj hword).symm
    exact ⟨υ, Steps.append hsteps hsteps', hrest, hphi 0 (by decide), hphi 1 (by decide)⟩

end Function

end SsaCompiler
