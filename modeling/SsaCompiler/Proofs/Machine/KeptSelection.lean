import SsaCompiler.Proofs.Machine.SelectedRuns

/-!
# Instruction selection keeps the meaning

The front of the entry moves the parameters and loads the addresses of labels, so that the run of selected code is where
the run of its function starts (`Selection.Finished.start`). From there both show the same
(`Function.sameRuns_select`).
-/

set_option autoImplicit false

namespace SsaCompiler

open Runs

variable {W : Type} {ctx : SelectionContext} {s s' : Selection} {ir : IrEnv W} {env : MachineEnv W} {regs : Register → Word}
  {mf : MachineFunction} {hidden : List Word}

/-! ## The front of the entry -/

/-- An instruction sets a virtual register to a word, and an observer sees nothing of it. -/
structure Instr.Sets (env : MachineEnv W) (regs : Register → Word) (hidden : List Word) (i : Instr) (n : Nat) (x : Word) :
    Prop where
  dst : i.dst? = some (.virtual n)
  defs : i.defs = [.virtual n]
  value : ∀ σ : MachineState W, σ.regs = regs → ∃ events : List MachineEvent,
    events.filter (MachineEvent.isShown hidden) = [] ∧
    i.perform env (i.sources.map σ.read) σ.plainRegs σ.memory σ.world =
      .ok { value := some x, memory := σ.memory, world := σ.world, events }

variable {code : List Instr} {taken : Nat → List (Nat × Nat)} {sent : Nat → List (Nat × ValueId)}

/-- Code that sets registers, each of which has one word to be set to. -/
theorem run_sets (mf : MachineFunction) {want : Nat → Word → Prop} (hone : ∀ n x y, want n x → want n y → x = y)
    {tail : List Instr} (hcode : ∀ i ∈ code, ∃ n x, i.Sets env regs hidden n x ∧ want n x) {σ : MachineState W}
    (hσ : σ.code = code ++ tail) (hregs : σ.regs = regs) :
    ∃ t σ', Steps (mf.step env) σ t σ' ∧ t.filter (MachineEvent.isShown hidden) = [] ∧
      σ'.code = tail ∧ σ'.regs = regs ∧ σ'.memory = σ.memory ∧ σ'.world = σ.world ∧
      ∀ n x, want n x → (σ.vregs n = x ∨ ∃ i ∈ code, .virtual n ∈ i.defs) → σ'.vregs n = x := by
  induction code generalizing σ with
  | nil =>
    refine ⟨[], σ, .refl σ, rfl, hσ, hregs, rfl, rfl, fun n x _ h => h.elim id ?_⟩
    rintro ⟨i, hi, -⟩
    cases hi
  | cons i rest ih =>
    obtain ⟨⟨n, x, hi, hx⟩, hrest⟩ := List.forall_mem_cons.1 hcode
    obtain ⟨events, hshown, hvalue⟩ := hi.value σ hregs
    have hstep : mf.step env σ = .next events { σ with vregs := Function.update σ.vregs n x, code := rest ++ tail } := by
      rw [MachineFunction.step_of_ok hσ (by rw [hi.dst]; rfl) hvalue, hi.dst]
      rfl
    obtain ⟨t, σ', hsteps, hshown', htail, hregs', hmemory, hworld, hwords⟩ :=
      ih hrest (σ := { σ with vregs := Function.update σ.vregs n x, code := rest ++ tail }) rfl hregs
    refine ⟨events ++ t, σ', Steps.append (.single hstep) hsteps, by rw [List.filter_append, hshown, hshown']; rfl, htail,
      hregs', hmemory, hworld, fun k y hy h => hwords k y hy ?_⟩
    by_cases hk : k = n
    · subst hk
      exact .inl ((Function.update_self k x σ.vregs).trans (hone k x y hx hy))
    · rcases h with hold | ⟨j, hj, hdef⟩
      · exact .inl ((Function.update_of_ne hk x σ.vregs).trans hold)
      · rcases List.mem_cons.1 hj with rfl | hj
        · rw [hi.defs, List.mem_singleton] at hdef
          exact absurd (Operand.virtual.inj hdef) hk
        · exact .inr ⟨j, hj, hdef⟩

/-- The code for parameters sets their registers to the arguments. -/
theorem ParamsCode.sets {params : List (ValueId × Nat)} (h : ParamsCode s params code)
    (hsur : ctx.func.Surrounded ctx.module ir env regs) (hparams : ∀ p ∈ params, p.2 < ctx.func.params.length) :
    ∀ i ∈ code, ∃ p ∈ params, ∃ n, s.Belongs n (.value p.1) ∧ i.Sets env regs hidden n (ir.arg p.2) := by
  induction h with
  | nil => exact List.forall_mem_nil _
  | @register v k n r rest code hr hn _ ih =>
    obtain ⟨-, hrest⟩ := List.forall_mem_cons.1 hparams
    refine List.forall_mem_cons.2 ⟨⟨(v, k), List.mem_cons_self, n, hn, rfl, rfl, fun σ hσ => ⟨[], rfl, ?_⟩⟩,
      fun i hi => ?_⟩
    · have hzero : r ≠ .zero := by
        rintro rfl
        exact absurd (List.mem_of_getElem? hr) (by decide)
      have hread : σ.read (.fixed r) = ir.arg k := by
        rw [hsur.arg k r hr, ← hσ]
        exact if_neg hzero
      rw [← hread]
      rfl
    · obtain ⟨p, hp, hset⟩ := ih hrest i hi
      exact ⟨p, List.mem_cons_of_mem _ hp, hset⟩
  | @stack v k n offset rest code hr hoffset hn _ ih =>
    obtain ⟨hk, hrest⟩ := List.forall_mem_cons.1 hparams
    refine List.forall_mem_cons.2 ⟨⟨(v, k), List.mem_cons_self, n, hn, rfl, rfl, fun σ hσ =>
      ⟨[.incoming (σ.read .sp + offset) (env.incoming (σ.read .sp + offset))], rfl, ?_⟩⟩, fun i hi => ?_⟩
    · have hle : Register.arguments.length ≤ k := List.getElem?_eq_none_iff.1 hr
      obtain ⟨j, rfl⟩ := Nat.exists_eq_add_of_le' hle
      have hplace : σ.read .sp + offset = regs .sp + Int32.ofNat (4 * j) := by
        have hzero : Word.mul? (-4) (Int32.ofNat 0) = some 0 := by decide
        rw [Select.eq_of_stackOffset? hoffset, ← hσ]
        exact (Select.stackPlace_eq hzero _ j).trans (congrArg (· + _) (Int32.sub_zero _))
      rw [hsur.passed j hk, ← hplace]
      rfl
    · obtain ⟨p, hp, hset⟩ := ih hrest i hi
      exact ⟨p, List.mem_cons_of_mem _ hp, hset⟩

/-- What is to be in a register when the run starts: the address of its label, or the argument for its parameter. -/
def Selection.Wanted (ctx : SelectionContext) (s : Selection) (ir : IrEnv W) (env : MachineEnv W) (n : Nat) (x : Word) :
    Prop :=
  (∃ name, s.Belongs n (.label name) ∧ env.address name = some x) ∨
    ∃ v k, s.Belongs n (.value v) ∧ (ctx.func.value v).kind = .param k ∧ ir.arg k = x

/-- A register has one owner, so one word is to be in it. -/
theorem Selection.Wanted.unique (hs : s.Sound) (n : Nat) (x y : Word) (hx : s.Wanted ctx ir env n x)
    (hy : s.Wanted ctx ir env n y) : x = y := by
  rcases hx with ⟨name, hn, hx⟩ | ⟨v, k, hn, hkind, rfl⟩ <;> rcases hy with ⟨name', hn', hy⟩ | ⟨v', k', hn', hkind', rfl⟩
  · cases hs.single _ _ _ hn hn'
    exact Option.some.inj (hx.symm.trans hy)
  · cases hs.single _ _ _ hn hn'
  · cases hs.single _ _ _ hn hn'
  · cases hs.single _ _ _ hn hn'
    cases hkind.symm.trans hkind'
    rfl

namespace Selection.Finished

variable {entry : List Instr} (hF : s.Finished ctx s' taken sent mf ir env regs)
  (hparams : ParamsCode s ctx.func.params.zipIdx entry)

include hF hparams

/-- The front of the entry, loads of addresses above it included, puts into registers what is to be there. -/
theorem sets_front (hs : s.Selected ctx entry ctx.func.layout)
    (hkinds : ∀ k v, ctx.func.params[k]? = some v → (ctx.func.value v).kind = .param k) {top front : List Instr}
    (htop : TakeCode s' [] top) (hfront : LoadedCode s' (entry ++ s.addresses.reverse.map .loadOf) front) :
    ∀ i ∈ top ++ front, ∃ n x, i.Sets env regs (ctx.func.outgoing (regs .sp)) n x ∧ s'.Wanted ctx ir env n x := by
  have hload : ∀ i, s'.IsLoad i → ∃ n x, i.Sets env regs (ctx.func.outgoing (regs .sp)) n x ∧ s'.Wanted ctx ir env n x := by
    rintro i ⟨n, name, rfl, hn⟩
    obtain ⟨x, hx⟩ := hF.addresses name n hn
    exact ⟨n, x, ⟨rfl, rfl, fun σ _ => ⟨[], rfl, Instr.perform_loadAddr hx⟩⟩, .inl ⟨name, hn, hx⟩⟩
  have hplace : ∀ p ∈ ctx.func.params.zipIdx, p.2 < ctx.func.params.length ∧ (ctx.func.value p.1).kind = .param p.2 := by
    intro p hp
    have hget := List.mem_zipIdx_iff_getElem?.1 hp
    exact ⟨(List.getElem?_eq_some_iff.1 hget).1, hkinds _ _ hget⟩
  refine List.forall_mem_append.2 ⟨fun i hi => hload i (htop.isLoad i hi), fun i hi => ?_⟩
  rcases hfront.mem_or i hi with hbase | hisLoad
  · rcases List.mem_append.1 hbase with hin | hin
    · obtain ⟨p, hp, n, hn, hset⟩ := hparams.sets hF.surrounded (fun p hp => (hplace p hp).1) i hin
      exact ⟨n, _, hset, .inr ⟨p.1, p.2, hF.extend.kept n _ hn, (hplace p hp).2, rfl⟩⟩
    · obtain ⟨known, hmem, rfl⟩ := List.mem_map.1 hin
      have hknown := hs.known known (List.mem_reverse.1 hmem)
      obtain ⟨n, hn⟩ := hs.loaded _ _ hknown
      refine hload _ ⟨n, known.1, by rw [Instr.loadOf, hn], hF.extend.kept n (.label known.1) ?_⟩
      exact hknown.trans (congrArg some hn)
  · exact hload i hisLoad

/-- Once the front has run, every parameter is in its register. Nothing else has a word yet. -/
theorem carries_front {τ : MachineState W} (hregs : τ.regs = regs)
    (hwords : ∀ n x, s'.Wanted ctx ir env n x → (∃ i ∈ entry, .virtual n ∈ i.defs) → τ.vregs n = x) :
    s'.Carries ctx ir (regs .sp) (fun _ => none) τ := by
  have hreg := hF.regulated
  refine ⟨congrArg (· Register.sp) hregs, fun v offset x hlookup hx => ?_, fun v n x hkind hplain hnone hn hx => ?_⟩
  · obtain ⟨i, words, -, hi, -⟩ := hF.slotted v offset hlookup
    unfold Function.read at hx
    rw [(hreg.sound.kind_of_result i v hi).2] at hx
    cases hx
  · have hparam : ∃ k, (ctx.func.value v).kind = .param k ∧ ir.arg k = x := by
      unfold Function.read at hx
      split at hx
      · cases hx
      · rename_i k hparam
        exact ⟨k, hparam, Option.some.inj hx⟩
      all_goals
        rename_i hother
        rw [hother] at hkind
        cases hkind
    obtain ⟨k, hparam, hx⟩ := hparam
    obtain ⟨j, hj⟩ := List.getElem?_of_mem (hreg.only v k hparam)
    have hstores : ∀ p ∈ ctx.func.params.zipIdx, s.Stores (After (fun _ => False) entry) p.1 := hparams.strict.2
    obtain ⟨n', hn', hset⟩ := hstores (v, j) (List.mem_zipIdx_iff_getElem?.2 hj)
    obtain rfl := hn.unique (hF.extend.kept n' _ hn')
    exact hwords n x (.inr ⟨v, k, hn, hparam, hx⟩) ((after_iff.1 hset).resolve_left id)

omit hparams

/-- **Where a run starts**, selected code comes behind the front of its entry: the parameters are in their registers, and
the addresses are loaded. -/
theorem start {e : BlockId} (hentry : ctx.func.layout.head? = some e) (hphis : ctx.func.phis e = [])
    (hkinds : ∀ k v, ctx.func.params[k]? = some v → (ctx.func.value v).kind = .param k) (vregs : Nat → Word)
    (m : Memory) (w : W) (houtside : ∀ t, Performs (ctx.func.step ir) (ctx.func.start m w) t →
      ∀ e ∈ t, e.isOutside (ctx.func.outgoing (regs .sp)) = true) :
    ∃ t τ, Steps (mf.step env) (mf.start regs vregs m w) t τ ∧
      t.filter (MachineEvent.isShown (ctx.func.outgoing (regs .sp))) = [] ∧
      s.Follows ctx s' sent ir env (regs .sp) (ctx.func.start m w) τ := by
  obtain ⟨entry, hparams, hs⟩ := hF.selected
  obtain ⟨layout, hlayout⟩ := List.head?_eq_some_iff.1 hentry
  have hk : ctx.func.layout[0]? = some e := by rw [hlayout]; rfl
  obtain ⟨top, mid, copies, insts, last, code, code', hblock, htop, hcopies, hunfused, hinsts, hexit, hmid⟩ := hF.block hk
  rw [if_pos rfl, hs.front] at hmid
  obtain ⟨front, mid, rfl, hfront, hrest⟩ := hmid.split
  have htaken : taken 0 = [] := by
    have htakes := hF.lowered.takes 0 e hk (List.mem_of_getElem? hk)
    rw [hphis] at htakes
    exact List.forall₂_nil_left_iff.1 htakes
  have hsets := hF.sets_front hparams hs hkinds (htaken ▸ htop) hfront
  have hstart : (mf.start regs vregs m w).code = (top ++ front) ++ (mid ++ (copies ++ s.exits 0)) := by
    change mf.instsOf 0 = _
    rw [hblock]
    simp only [List.append_assoc]
  obtain ⟨t, τ, hsteps, hshown, hτ, hregs, hmemory, hworld, hwords⟩ :=
    run_sets mf (Wanted.unique hF.lowered.toSound) hsets hstart rfl
  have hlabel : ∀ n name, s'.Belongs n (.label name) → .loadAddr (.virtual n) name ∈ top ++ front →
      env.address name = some (τ.vregs n) := by
    intro n name hn hin
    obtain ⟨x, hx⟩ := hF.addresses name n hn
    rw [hx, hwords n x (.inl ⟨name, hn, hx⟩) (.inr ⟨_, hin, List.mem_cons_self⟩)]
  have hlabels : s.Loads env τ [] := fun n name hn => .inl (hlabel n name (hF.extend.kept n _ hn)
    (List.mem_append_right _ (hfront.subset _ (List.mem_append_right _ (Selection.mem_loads hn)))))
  have hloads : s'.Loads env τ mid := by
    intro n name hn
    have hin := hF.lowered.entryLoads n name hn
    rw [← hF.insts, hblock] at hin
    simp only [← List.append_assoc] at hin
    rcases List.mem_append.1 hin with hin | hin
    · rcases List.mem_append.1 hin with hin | hin
      · exact (List.mem_append.1 hin).imp (hlabel n name hn) id
      · obtain ⟨_, -, hcopy⟩ := exists_of_forall₂_right hcopies hin
        cases hcopy
    · cases (hs.exit (List.getElem?_eq_some_iff.1 hk).1 hin).1
  have hhead : ctx.func.start m w = ⟨e, ctx.func.instsOf e, fun _ => none, m, w⟩ := by
    unfold Function.start
    rw [hlayout]
    rfl
  have hall : ctx.func.instsOf e = (ctx.func.instsOf e).dropWhile fun i => (ctx.func.kind i).isPhi := by
    have happend := ctx.func.phis_append e
    rw [hphis] at happend
    exact happend.symm
  refine ⟨t, τ, hsteps, hshown, Function.Running.start hentry hphis m w, houtside, ?_, ?_, hlabels, ?_, ?_, ?_⟩
  · rw [hhead]
    exact ⟨hk, hall ▸ hunfused, hinsts, hexit, hrest, hcopies, hτ, hloads⟩
  · refine hF.carries_front hparams hregs fun n x hwant hdef => hwords n x hwant (.inr ?_)
    obtain ⟨i, hi, hdef⟩ := hdef
    exact ⟨i, List.mem_append_right _ (hfront.subset i (List.mem_append_left _ hi)), hdef⟩
  · rw [hhead, hmemory]
    exact fun _ _ => rfl
  · rw [hhead]
    exact hworld
  · intro j hj v hv d hd hfused
    rw [hhead] at hj
    obtain ⟨before, op, hbefore, -⟩ := hF.regulated.in_front (show _ = [] ++ _ from hj) hv hd hfused
    exact absurd hbefore.symm (List.append_ne_nil_of_right_ne_nil _ (List.cons_ne_nil _ _))

end Selection.Finished

/-! ## Both runs in the same terms -/

namespace Runs

variable {σ ε ε' ω ω' : Type} {step : σ → Progress σ ε ω} {shown : ε → List ε'} {ending : σ → ω → ω'}

/-- A system in other terms: every event is some events of the other kind, and every outcome is one in its state. -/
def report (shown : ε → List ε') (ending : σ → ω → ω') (step : σ → Progress σ ε ω) (s : σ) : Progress σ ε' ω' :=
  match step s with
  | .next events s' => .next (events.flatMap shown) s'
  | .done o => .done (ending s o)

theorem StepsIn.report {n : Nat} {s u : σ} {t : List ε} (h : StepsIn step n s t u) :
    StepsIn (Runs.report shown ending step) n s (t.flatMap shown) u := by
  induction h with
  | refl s => exact .refl s
  | head hstep _ ih =>
    rw [List.flatMap_append]
    exact .head (by rw [Runs.report, hstep]) ih

end Runs

/-- A run of a function in the terms of its machine code. -/
def Function.loweredStep (f : Function) (m : Module) (ir : IrEnv W) (sp : Word) :
    IrState W → Progress (IrState W) MachineEvent Ending :=
  report (IrEvent.lowered m ir sp) (fun _ => IrOutcome.lowered m ir sp) (f.step ir)

/-- A run of machine code as its function knows it: what is at hidden words is not shown. -/
def MachineFunction.shownStep (mf : MachineFunction) (env : MachineEnv W) (hidden : List Word) :
    MachineState W → Progress (MachineState W) MachineEvent Ending :=
  report (fun e => [e].filter (MachineEvent.isShown hidden)) MachineState.ending (mf.step env)

/-- What is not shown is left out. -/
theorem flatMap_filter_singleton {α : Type} (p : α → Bool) (l : List α) : (l.flatMap fun a => [a].filter p) = l.filter p := by
  rw [← List.filter_flatMap, List.flatMap_singleton']

/-- From related states both show the same. -/
theorem Selection.Finished.sameRuns (hF : s.Finished ctx s' taken sent mf ir env regs) {a : IrState W}
    {σ τ : MachineState W} {t : List MachineEvent} (hsteps : Steps (mf.step env) σ t τ)
    (ht : t.filter (MachineEvent.isShown (ctx.func.outgoing (regs .sp))) = [])
    (hfollows : s.Follows ctx s' sent ir env (regs .sp) a τ) :
    SameRuns (ctx.func.loweredStep ctx.module ir (regs .sp)) a (mf.shownStep env (ctx.func.outgoing (regs .sp))) σ := by
  have hreport : ∀ {n} {σ τ : MachineState W} {t}, StepsIn (mf.step env) n σ t τ →
      StepsIn (mf.shownStep env (ctx.func.outgoing (regs .sp))) n σ
        (t.filter (MachineEvent.isShown (ctx.func.outgoing (regs .sp)))) τ := fun hrun => by
    rw [← flatMap_filter_singleton]
    exact hrun.report
  have hsim : Simulation (ctx.func.loweredStep ctx.module ir (regs .sp)) (mf.shownStep env (ctx.func.outgoing (regs .sp)))
      (fun a σ => ∃ t τ, Steps (mf.step env) σ t τ ∧
        t.filter (MachineEvent.isShown (ctx.func.outgoing (regs .sp))) = [] ∧
        s.Follows ctx s' sent ir env (regs .sp) a τ) fun a => a.code.length := by
    constructor
    · rintro a σ e a' ⟨t, τ, ⟨k, hsteps⟩, ht, hfollows⟩ hstep
      rcases hF.answers hfollows with ⟨events, u, n, t', τ', hnext, hrun, hevents, hu, hrank⟩ | ⟨o, -, -, -, hdone, -⟩
      · rw [Function.loweredStep, report, hnext] at hstep
        cases hstep
        refine ⟨k + n, τ', ?_, ⟨[], τ', .refl τ', rfl, hu⟩, fun hzero => hrank (Nat.eq_zero_of_add_eq_zero_left hzero)⟩
        have hall := hreport (hsteps.append hrun)
        rwa [List.filter_append, ht, hevents] at hall
      · rw [Function.loweredStep, report, hdone] at hstep
        cases hstep
    · rintro a σ o ⟨t, τ, ⟨k, hsteps⟩, ht, hfollows⟩ hstep
      rcases hF.answers hfollows with ⟨events, u, -, -, -, hnext, -⟩ | ⟨o', t', τ', o'', hdone, ⟨n, hrun⟩, hevents, hend, hlowered⟩
      · rw [Function.loweredStep, report, hnext] at hstep
        cases hstep
      · rw [Function.loweredStep, report, hdone] at hstep
        cases hstep
        have hall := hreport (hsteps.append hrun)
        rw [List.filter_append, ht, hevents] at hall
        refine ⟨τ', ⟨_, hall⟩, ?_⟩
        rw [MachineFunction.shownStep, report, hend]
        exact congrArg Progress.done hlowered
  exact sameRuns_of_simulation hsim ⟨t, τ, hsteps, ht, hfollows⟩

namespace Function

variable {f : Function} {m : Module} {loops : LoopForest}

/-- A slot that is reserved is at its offset. -/
theorem Reserved.slotted (h : f.Reserved loops f.placedInsts s) (hs : f.Sound) {ctx : SelectionContext} (hfunc : ctx.func = f) :
    s.Slotted ctx := by
  subst hfunc
  intro v offset hlookup
  obtain ⟨before, i, after, -, ⟨words, hkind⟩, hresult, -⟩ := h.only v offset hlookup
  refine ⟨i, words, hkind, hresult, ?_⟩
  rw [← h.offset hs hlookup hresult, Int32.ofInt_toInt]

/-- The labels of the data section have addresses. -/
theorem Surrounded.address (h : f.Surrounded m ir env regs) {label : String} (hlabel : m.HasLabel label) :
    ∃ a, env.address label = some a := by
  obtain ⟨item, hitem, rfl⟩ := hlabel
  rcases List.mem_append.1 hitem with hitem | hitem
  · obtain ⟨global, hglobal, rfl⟩ := List.mem_map.1 hitem
    obtain ⟨g, hg⟩ := List.getElem?_of_mem hglobal
    exact ⟨_, h.global g global (by simpa using hg)⟩
  · obtain ⟨string, hstring, rfl⟩ := List.mem_map.1 hitem
    obtain ⟨id, hid⟩ := List.getElem?_of_mem hstring
    exact ⟨_, h.str id string (by simpa using hid)⟩

/-- **Selection keeps the meaning.** When a function in strict form that comes from text, optimized or not, and that
verification accepts is selected, its code shows the same as the function: the same calls with the same arguments, the same
loads and stores, and the same word at the return. No phi may stand in the entry, where it would have no edge to take its
word from, and the function itself may not access the words below the stack pointer that belong to its calls. -/
theorem sameRuns_select (hf : f.Produced) (hv : f.verify = .ok ()) (hstrict : f.Strict) (h : f.select m loops = .ok mf)
    (hphis : ∀ e, f.layout.head? = some e → f.phis e = []) (hsur : f.Surrounded m ir env regs) (vregs : Nat → Word)
    (mem : Memory) (w : W)
    (houtside : ∀ t, Performs (f.step ir) (f.start mem w) t → ∀ e ∈ t, e.isOutside (f.outgoing (regs .sp)) = true) :
    SameRuns (f.loweredStep m ir (regs .sp)) (f.start mem w)
      (mf.shownStep env (f.outgoing (regs .sp))) (mf.start regs vregs mem w) := by
  have hregular := regular_of_verify hf.sound hv
  have horderly := hf.orderly hregular
  have hloads := (select_spec h).2.2.2.2
  rw [select_eq] at h
  obtain ⟨s', hselection, hlink⟩ := Outcome.bind_eq_ok.1 h
  obtain ⟨fused, s₀, s, hfused, hslots, hsame, hparams, hextend, taken, sent, hlowered⟩ := stages_of_selection horderly hselection
  have hreserved := reserved_of_run hslots
  have hregulated := regulated_of_run (m := m) hf hregular hstrict hfused hslots hsame
  have hinsts := MachineFunction.instsOf_linkBlocks hlink
  have hF : s.Finished { module := m, func := f, fused } s' taken sent mf ir env regs := by
    refine ⟨hregulated, fun v offset hlookup => hreserved.slotted hf.sound rfl v offset (hsame ▸ hlookup), hparams, hextend,
      hlowered, hinsts, hsur, fun name n hn => hsur.address (hloads 0 (.loadAddr (.virtual n) name) ?_ name rfl)⟩
    rw [hinsts]
    exact hlowered.entryLoads n name hn
  obtain ⟨e, rest, hlayout, -⟩ := hregular.entry
  have hhead : f.layout.head? = some e := by rw [hlayout]; rfl
  obtain ⟨t, τ, hsteps, ht, hfollows⟩ := hF.start hhead (hphis e hhead) hf.headed.place vregs mem w houtside
  exact hF.sameRuns hsteps ht hfollows

/-- The outside of a function, all of whose callees give their fifth argument. -/
def fifthEnv (f : Function) (sp : Word) : IrEnv Unit where
  arg _ := sp
  global _ := 0
  str _ := 0
  slot i := sp + Int32.ofInt (f.slotOffset i)
  call _ args m w := some (m, (args.drop Register.arguments.length).headD 0, w)
  print _ _ w := w

/-- The outside of its machine code: the fifth argument of a call is the first word on the stack. -/
def fifthMachineEnv (sp : Word) : MachineEnv Unit where
  address _ := none
  incoming _ := sp
  call _ rs count m w :=
    some (m, fun r => if r = .v0 then ((Instr.outgoingPlaces (rs .sp) count).map m).headD 0 else 0, w)
  syscall _ _ _ := none

/-- Both are the same, if there is nothing in the data section. -/
theorem surrounded_fifthEnv (f : Function) (functions : Array Function) (sp : Word) :
    f.Surrounded { functions } (fifthEnv f sp) (fifthMachineEnv sp) fun _ => sp where
  slot _ := rfl
  global g global hg := by cases hg
  str id string hid := by cases hid
  arg _ _ _ := rfl
  passed _ _ := rfl
  call callee args m₁ m₂ w rs hmemory hsp _ hwords := by
    refine .some ⟨hmemory, ?_, rfl⟩
    change ((Instr.outgoingPlaces (rs .sp) _).map m₂).headD 0 = _
    rw [hsp, hwords]
  print := by
    refine ⟨fun _ _ w => w, fun b _ rs m w _ => ⟨m, _, rfl, fun _ _ => rfl⟩, fun pieces args w => ?_⟩
    exact (List.foldl_fixed _).symm

/-- A function that gives its fifth parameter. -/
def lastOfFive : Function where
  name := "last"
  returnsValue := true
  params := [0, 1, 2, 3, 4]
  values := #[
    { kind := .param 0, name := some "a" },
    { kind := .param 1, name := some "b" },
    { kind := .param 2, name := some "c" },
    { kind := .param 3, name := some "d" },
    { kind := .param 4, name := some "e", uses := [⟨0, 0⟩] }]
  insts := #[{ kind := .ret, operands := [4], result := none, block := some 0 }]
  blocks := #[{ name := "entry", insts := [0] }]
  layout := [0]

/-- A function that calls it. -/
def callOfFive : Function where
  name := "main"
  returnsValue := true
  values := #[
    { kind := .const 1, uses := [⟨0, 0⟩] },
    { kind := .const 2, uses := [⟨0, 1⟩] },
    { kind := .const 3, uses := [⟨0, 2⟩] },
    { kind := .const 4, uses := [⟨0, 3⟩] },
    { kind := .const 5, uses := [⟨0, 4⟩] },
    { kind := .inst 0, name := some "r", uses := [⟨1, 0⟩] }]
  insts := #[
    { kind := .call (.func 0), operands := [0, 1, 2, 3, 4], result := some 5, block := some 0 },
    { kind := .ret, operands := [5], result := none, block := some 0 }]
  blocks := #[{ name := "entry", insts := [0, 1] }]
  layout := [0]
  callees := .ofList [0]

/-- Its text. -/
def callOfFiveText : ReadText where
  text := "func @last(%a, %b, %c, %d, %e) -> int \x7b\n" ++ "entry:\n ret %e\n\x7d\n" ++
    "func @main() -> int \x7b\nentry:\n" ++ " %r = call @last(1, 2, 3, 4, 5)\n" ++ " ret %r\n\x7d"
  module := { functions := #[lastOfFive, callOfFive] }
  parse := by
    simp only [Module.parse, Source.tokenLines, Text.lines, String.toList_append]
    cbv

theorem produced_callOfFive : callOfFive.Produced := callOfFiveText.produced (show _ ∈ #[lastOfFive, callOfFive] by simp)

/-- Its code passes the fifth argument right below the stack pointer, and it returns what the callee gives. -/
theorem sameRuns_select_callOfFive : callOfFive.Produced ∧ callOfFive.verify = .ok () ∧ callOfFive.Strict ∧
    ∃ tree mf, DominatorTree.ofCfg callOfFive.cfg = .ok tree ∧
      callOfFive.select { functions := #[lastOfFive, callOfFive] } (LoopForest.ofCfg callOfFive.cfg tree) = .ok mf ∧
      ∀ vregs mem, Ends (mf.shownStep (fifthMachineEnv 1000) (callOfFive.outgoing 1000))
        (mf.start (fun _ => 1000) vregs mem ()) [.call "f_last" [1, 2, 3, 4] [(996, 5)]] (.returned (some 5)) := by
  have hverify : callOfFive.verify = .ok () := by cbv
  have hstrict : callOfFive.Strict := strict_of_readsLocally (by decide)
  obtain ⟨mf, hmf⟩ : ∃ mf, (DominatorTree.ofCfg callOfFive.cfg >>= fun tree =>
      callOfFive.select { functions := #[lastOfFive, callOfFive] } (LoopForest.ofCfg callOfFive.cfg tree)) = .ok mf :=
    exists_of_toBool (by cbv)
  obtain ⟨tree, htree, hselect⟩ := Outcome.bind_eq_ok.1 hmf
  refine ⟨produced_callOfFive, hverify, hstrict, tree, mf, htree, hselect, fun vregs mem => ?_⟩
  have hsame := sameRuns_select produced_callOfFive hverify hstrict hselect (fun e he => by
    obtain rfl : 0 = e := Option.some.inj he
    rfl) (surrounded_fifthEnv _ _ 1000) vregs mem () (by
    rintro t ⟨t', u, ⟨n, hrun⟩, hpre⟩ e he
    have hin := hpre.subset he
    cases hrun with
    | refl => cases hin
    | head hstep hrest =>
      cases hstep
      cases hrest with
      | refl =>
        obtain rfl := List.mem_singleton.1 hin
        rfl
      | head hstep _ => cases hstep)
  exact (hsame.ends_iff _ _).1 ⟨_, .single rfl, rfl⟩

/-- The code of a function with a phi in its entry returns what the phi finds in a register that nothing wrote, but the
function has no word for the phi. -/
theorem not_sameRuns_select_emptyPhi : emptyPhi.Produced ∧ emptyPhi.verify = .ok () ∧ emptyPhi.Strict ∧
    ∃ tree mf, DominatorTree.ofCfg emptyPhi.cfg = .ok tree ∧
      emptyPhi.select { functions := #[emptyPhi] } (LoopForest.ofCfg emptyPhi.cfg tree) = .ok mf ∧
      emptyPhi.Surrounded { functions := #[emptyPhi] } (fifthEnv emptyPhi 1000) (fifthMachineEnv 1000) (fun _ => 1000) ∧
      (∀ mem t, Performs (emptyPhi.step (fifthEnv emptyPhi 1000)) (emptyPhi.start mem ()) t → t = []) ∧
      ∀ vregs mem, ¬ SameRuns (emptyPhi.loweredStep { functions := #[emptyPhi] } (fifthEnv emptyPhi 1000) 1000)
        (emptyPhi.start mem ()) (mf.shownStep (fifthMachineEnv 1000) (emptyPhi.outgoing 1000))
        (mf.start (fun _ => 1000) vregs mem ()) := by
  have hverify : emptyPhi.verify = .ok () := by cbv
  have hrun : (DominatorTree.ofCfg emptyPhi.cfg >>= fun tree =>
      emptyPhi.select { functions := #[emptyPhi] } (LoopForest.ofCfg emptyPhi.cfg tree) >>= fun mf => pure (mf.instsOf 0)) =
      .ok [.move (.virtual 0) (.virtual 1), .move .v0 (.virtual 0), .ret true] := by cbv
  obtain ⟨tree, htree, h₁⟩ := Outcome.bind_eq_ok.1 hrun
  obtain ⟨mf, hselect, h₂⟩ := Outcome.bind_eq_ok.1 h₁
  have hinsts : mf.instsOf 0 = _ := Except.ok.inj h₂
  refine ⟨produced_emptyPhi, hverify, strict_of_readsLocally (by decide), tree, mf, htree, hselect,
    surrounded_fifthEnv _ _ 1000, fun mem t => ?_, fun vregs mem hsame => ?_⟩
  · rintro ⟨t', u, ⟨n, hrun⟩, hpre⟩
    cases hrun with
    | refl => exact List.prefix_nil.1 hpre
    | head hstep _ => cases hstep
  · have hreturns : Ends (mf.shownStep (fifthMachineEnv 1000) (emptyPhi.outgoing 1000))
        (mf.start (fun _ => 1000) vregs mem ()) [] (.returned (some (vregs 1))) := by
      unfold MachineFunction.start
      rw [hinsts]
      exact ⟨_, Steps.append (t := []) (.single rfl) (.single rfl), rfl⟩
    obtain ⟨u, ⟨n, hrun⟩, hdone⟩ := (hsame.ends_iff _ _).2 hreturns
    generalize ([] : List MachineEvent) = t at hrun
    cases hrun with
    | refl => cases hdone
    | head hstep _ => cases hstep

/-- A function that stores to the word before its parameter and loads it behind a call. -/
def storesBelow : Function where
  name := "main"
  returnsValue := true
  params := [0]
  values := #[
    { kind := .param 0, name := some "p", uses := [⟨0, 0⟩, ⟨2, 0⟩] },
    { kind := .const (-1), uses := [⟨0, 1⟩, ⟨2, 1⟩] },
    { kind := .const 7, uses := [⟨0, 2⟩] },
    { kind := .const 1, uses := [⟨1, 0⟩] },
    { kind := .const 2, uses := [⟨1, 1⟩] },
    { kind := .const 3, uses := [⟨1, 2⟩] },
    { kind := .const 4, uses := [⟨1, 3⟩] },
    { kind := .const 5, uses := [⟨1, 4⟩] },
    { kind := .inst 1, name := some "r" },
    { kind := .inst 2, name := some "x", uses := [⟨3, 0⟩] }]
  insts := #[
    { kind := .store, operands := [0, 1, 2], result := none, block := some 0 },
    { kind := .call (.func 0), operands := [3, 4, 5, 6, 7], result := some 8, block := some 0 },
    { kind := .load, operands := [0, 1], result := some 9, block := some 0 },
    { kind := .ret, operands := [9], result := none, block := some 0 }]
  blocks := #[{ name := "entry", insts := [0, 1, 2, 3] }]
  layout := [0]
  callees := .ofList [0]

/-- Its text. -/
def storesBelowText : ReadText where
  text := "func @last(%a, %b, %c, %d, %e) -> int \x7b\n" ++ "entry:\n ret %e\n\x7d\n" ++
    "func @main(%p) -> int \x7b\nentry:\n" ++ " store %p, -1, 7\n %r = call @last(1, 2, 3, 4, 5)\n" ++
    " %x = load %p, -1\n ret %x\n\x7d"
  module := { functions := #[lastOfFive, storesBelow] }
  parse := by
    simp only [Module.parse, Source.tokenLines, Text.lines, String.toList_append]
    cbv

theorem produced_storesBelow : storesBelow.Produced := storesBelowText.produced (show _ ∈ #[lastOfFive, storesBelow] by simp)

/-- Its code. -/
def storesBelowCode : MachineFunction :=
  { name := "main", isMain := true, returnsValue := true, vregCount := 5
    blocks := #[{ label := "main_b0", loopDepth := 0, insts := [
      .move (.virtual 0) (.fixed .a0), .move (.virtual 1) (.immediate 7), .store (.virtual 1) (.virtual 0) (-4),
      .move (.virtual 2) (.immediate 5), .store (.virtual 2) .sp (-4)] ++
      List.zipWith (fun r c => .move (.fixed r) (.immediate c)) Register.arguments [1, 2, 3, 4] ++ [
      .call "f_last" 4 1, .move (.virtual 3) .v0, .load (.virtual 4) (.virtual 0) (-4) false, .move .v0 (.virtual 4),
      .ret true] }] }

/-- With the stack pointer as its argument, that word is where its code passes the fifth argument of the call. So the
function gives the number that it stored, and its code the one that it passed. -/
theorem not_sameRuns_select_storesBelow : storesBelow.Produced ∧ storesBelow.verify = .ok () ∧ storesBelow.Strict ∧
    storesBelow.phis 0 = [] ∧
    ∃ tree, DominatorTree.ofCfg storesBelow.cfg = .ok tree ∧
      storesBelow.select { functions := #[lastOfFive, storesBelow] } (LoopForest.ofCfg storesBelow.cfg tree) =
        .ok storesBelowCode ∧
      storesBelow.Surrounded { functions := #[lastOfFive, storesBelow] } (fifthEnv storesBelow 1000) (fifthMachineEnv 1000)
        (fun _ => 1000) ∧
      ¬ SameRuns (storesBelow.loweredStep { functions := #[lastOfFive, storesBelow] } (fifthEnv storesBelow 1000) 1000)
        (storesBelow.start (fun _ => 0) ())
        (storesBelowCode.shownStep (fifthMachineEnv 1000) (storesBelow.outgoing 1000))
        (storesBelowCode.start (fun _ => 1000) (fun _ => 0) (fun _ => 0) ()) := by
  have hverify : storesBelow.verify = .ok () := by cbv
  have hrun : (DominatorTree.ofCfg storesBelow.cfg >>= fun tree =>
      storesBelow.select { functions := #[lastOfFive, storesBelow] } (LoopForest.ofCfg storesBelow.cfg tree)) =
        .ok storesBelowCode := by cbv
  obtain ⟨tree, htree, hselect⟩ := Outcome.bind_eq_ok.1 hrun
  refine ⟨produced_storesBelow, hverify, strict_of_readsLocally (by decide), rfl, tree, htree, hselect,
    surrounded_fifthEnv _ _ 1000, ?_⟩
  exact not_sameRuns_of_outcomes (n := 5) (m := 15) (o := .returned (some 7)) rfl
    (by rfl : _ = some (.returned (some 5))) (by decide)

end Function

end SsaCompiler
