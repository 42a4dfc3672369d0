import SsaCompiler.Proofs.Machine.FinishedSelection
import SsaCompiler.Proofs.Pipeline.TextLabels
import SsaCompiler.Proofs.Pipeline.TotalPasses

/-!
# Compilation comes to an end

The passes succeed on every function of a module that was read, if its uses are dominated by their definitions and no
terminator leads to its first block, and they leave functions that can be selected. So the backend is the only stage that
reports an error, and the only error that it reports is the want of registers. What remains is arithmetic that leaves its
range (`CompileOverflow`): that of selection, of allocation and of the frame, and the counters of the session.
-/

set_option autoImplicit false

namespace SsaCompiler

open Stateful

variable {allowed : Failure → Prop}

/-- An edit that is applied fails as it does. -/
theorem MachineFunction.failsOnly_apply {α : Type} {edit : MachineEdit α} {mf : MachineFunction}
    (h : MachineEdit.FailsOnly allowed edit mf) : (mf.apply edit).FailsOnly allowed := by
  intro e he
  unfold apply at he
  split at he
  · cases he
  · rename_i e' mf' hrun
    cases he
    exact h e (congrArg Prod.fst hrun)

namespace Compile

/-- Optimizing the next function of a module. -/
def optimizeNext (o : Options) (f : Function) : Compile Function := do
  setCurrent (some f.name)
  optimizeFunction o f

/-- The counts of the passes over a function leave their counters. -/
inductive OptimizeOverflow (o : Options) (f : Function) (counts : SessionStats) : Prop
  | counts {stats : PromotionStats} {steps : Nat} {f₁ f₂ : Function} (hoptimize : o.optimize = true)
      (hpromote : f.apply Edit.promote = .ok (stats, f₁)) (hsimplify : f₁.apply Edit.simplify = .ok (steps, f₂))
      (h : ({ counts with
        cfgSteps := counts.cfgSteps + stats.cfgSteps + steps
        slotsPromoted := counts.slotsPromoted + stats.promoted
        phisInserted := counts.phisInserted + stats.phisInserted } : SessionStats).fits = false)

/-- Arithmetic of the backend leaves its range. -/
inductive BackendOverflow (o : Options) (m : Module) (id : FuncId) (counts : SessionStats) : Prop
  | select {tree : DominatorTree} (htree : DominatorTree.ofCfg (m.function id).cfg = .ok tree)
      (h : (m.function id).SelectionOverflow (LoopForest.ofCfg (m.function id).cfg tree))
  | rounds {mf : MachineFunction} (hselect : select m id = .ok mf) (h : MachineEdit.RoundsOverflow o.registers mf)
  | allocated {mf mf' : MachineFunction} {a : Allocation} (hselect : select m id = .ok mf)
      (hallocate : mf.apply (MachineEdit.allocate o.registers o.maxRounds) = .ok (a, mf'))
      (h : ({ counts with
        allocRounds := counts.allocRounds + a.rounds
        spilledNodes := counts.spilledNodes + a.spilled
        coalescedMoves := counts.coalescedMoves + a.coalescedMoves } : SessionStats).fits = false)
  | frame {mf mf' : MachineFunction} {a : Allocation} (hselect : select m id = .ok mf)
      (hallocate : mf.apply (MachineEdit.allocate o.registers o.maxRounds) = .ok (a, mf'))
      (h : MachineEdit.FrameOverflow mf')
  | finished {mf mf' mf'' : MachineFunction} {a : Allocation} (hselect : select m id = .ok mf)
      (hallocate : mf.apply (MachineEdit.allocate o.registers o.maxRounds) = .ok (a, mf'))
      (hframe : mf'.apply MachineEdit.finalizeFrame = .ok ((), mf''))
      (h : (({ counts with
        allocRounds := counts.allocRounds + a.rounds
        spilledNodes := counts.spilledNodes + a.spilled
        coalescedMoves := counts.coalescedMoves + a.coalescedMoves } : SessionStats).recordFunction
          (m.function id).name mf''.size).fits = false)

/-- Arithmetic of a compilation leaves its range. -/
inductive CompileOverflow (o : Options) (m : Module) (s : Session) : Prop
  | optimize {before after done : List Function} {f : Function} {s' : Session}
      (hlist : m.functions.toList = before ++ f :: after)
      (hbefore : (before.mapM (optimizeNext o)).run s = .ok (done, s')) (h : OptimizeOverflow o f s'.stats)
  | backend {m' : Module} {before after : List FuncId} {done : List MachineFunction} {id : FuncId} {s₁ s' : Session}
      (hoptimize : (optimizeModule o m).run s = .ok (m', s₁)) (hlist : m'.functionOrder = before ++ id :: after)
      (hbefore : (before.mapM (compileFunction o m')).run s₁ = .ok (done, s')) (h : BackendOverflow o m' id s'.stats)

variable {o : Options} {m : Module} {f : Function} {s : Session}

/-- Changing the statistics fails only if a count leaves its counter. -/
theorem meets_record {change : SessionStats → SessionStats}
    (hallowed : (change s.stats).fits = false → allowed (.crash none)) :
    Meets allowed (record change) s fun _ s' => s' = { s with stats := change s.stats } := by
  refine .bind (.get (.bind (.lift (fun e he => ?_) fun s₁ hs₁ => ?_)))
  · unfold Session.record at he
    dsimp only at he
    split at he
    · cases he
    · rename_i hfits
      cases he
      exact hallowed (Bool.not_eq_true _ ▸ hfits)
  · unfold Session.record at hs₁
    dsimp only at hs₁
    split at hs₁
    · cases hs₁
      rfl
    · cases hs₁

/-- A function that can be optimized: it is accepted, and it refers to what the module has. -/
structure Ready (m : Module) (f : Function) : Prop extends f.Accepted where
  linked : f.Linked m.globals.size m.strings.size

/-- A function that can be optimized can be selected. -/
theorem Ready.selectable (h : Ready m f) : f.Selectable m := by
  have hwf := h.produced.wellFormed h.verified h.strict h.agreeing
  exact ⟨hwf.sound, hwf.regular.shaped, h.agreeing, h.produced.tidy.tended.valued, h.linked⟩

/-- Checks of accepted functions succeed. -/
theorem check_eq_ok (h : f.Accepted) : check o f = .ok () := by
  unfold check
  split
  · exact h.verified
  · rfl

/-- An accepted function is optimized to an accepted one. -/
theorem exists_optimized (h : f.Accepted) : ∃ stats f₁ steps f₂, f.apply Edit.promote = .ok (stats, f₁) ∧ f₁.Accepted ∧
    f₁.apply Edit.simplify = .ok (steps, f₂) ∧ f₂.Accepted := by
  have happly : ∀ {α : Type} {edit : Edit α} {f f' : Function}, (discard edit).run f = (.ok (), f') →
      ∃ a, f.apply edit = .ok (a, f') := by
    intro α edit f f' hrun
    obtain ⟨a, f₁, hedit, hpure⟩ := Edits.bind_eq_ok hrun
    cases hpure
    refine ⟨a, ?_⟩
    unfold Function.apply
    rw [hedit]
  obtain ⟨f₁, hpromote, h₁⟩ := Pass.promote.accepted_of_pass h fun h => nomatch h
  obtain ⟨f₂, hsimplify, h₂⟩ := Pass.simplify.accepted_of_pass h₁ fun h => nomatch h
  obtain ⟨stats, hstats⟩ := happly hpromote
  obtain ⟨steps, hsteps⟩ := happly hsimplify
  exact ⟨stats, f₁, steps, f₂, hstats, h₁, hsteps, h₂⟩

theorem meets_optimizeFunction (h : Ready m f) : Meets (fun e => e = .crash none ∧ OptimizeOverflow o f s.stats)
    (optimizeFunction o f) s fun f' _ => Ready m f' := by
  have houtlines : ∀ f' s', (optimizeFunction o f).run s = .ok (f', s') → f'.Linked m.globals.size m.strings.size :=
    fun f' s' hrun => h.linked.of_outlines (outlines_optimizeFunction _ _ hrun)
  suffices haccepted : Meets (fun e => e = .crash none ∧ OptimizeOverflow o f s.stats) (optimizeFunction o f) s
      fun f' _ => f'.Accepted from (haccepted.and houtlines).mono fun f' _ hf' => ⟨hf'.1, hf'.2⟩
  obtain ⟨stats, f₁, steps, f₂, hpromote, h₁, hsimplify, h₂⟩ := exists_optimized h.toAccepted
  have hcheck : ∀ {g : Function} {next : Unit → Compile Function}, g.Accepted → ∀ {s' : Session},
      Meets (fun e => e = .crash none ∧ OptimizeOverflow o f s.stats) (next ()) s' (fun f' _ => f'.Accepted) →
      Meets (fun e => e = .crash none ∧ OptimizeOverflow o f s.stats) (liftM (check o g) >>= next) s' fun f' _ => f'.Accepted :=
    fun hg _ hnext => .bind (.lift (.of_exists ⟨(), check_eq_ok hg⟩) fun _ _ => hnext)
  unfold optimizeFunction
  refine hcheck h.toAccepted ?_
  cases hoptimize : o.optimize with
  | false => exact .pure h.toAccepted
  | true =>
    refine .bind (.lift (.of_exists ⟨_, hpromote⟩) fun found hfound => ?_)
    cases hpromote.symm.trans hfound
    refine hcheck h₁ (.bind (.lift (.of_exists ⟨_, hsimplify⟩) fun found hfound => ?_))
    cases hsimplify.symm.trans hfound
    refine hcheck h₂ (.bind ((meets_record fun hfits => ⟨rfl, ?_⟩).mono fun _ _ _ => .pure h₂))
    exact .counts hoptimize hpromote hsimplify hfits

/-- Optimizing a module all of whose functions can be optimized. -/
theorem meets_optimizeModule (h : ∀ f ∈ m.functions, Ready m f) :
    Meets (fun e => e = .crash none ∧ CompileOverflow o m s) (optimizeModule o m) s fun m' _ =>
      ∀ f ∈ m'.functions, Ready m' f := by
  have hfunctions : Meets (fun e => e = .crash none ∧ CompileOverflow o m s) (m.functions.toList.mapM (optimizeNext o)) s
      fun found _ => ∀ f ∈ found, Ready m f := by
    refine Meets.mapM_run (I := fun _ found _ => ∀ f ∈ found, Ready m f) _
      (fun done f rest found s' hlist hrun hfound => ?_) (List.forall_mem_nil _)
    have hf : f ∈ m.functions := Array.mem_toList_iff.1 (hlist ▸ List.mem_append_right _ List.mem_cons_self)
    refine .bind (.modify (((meets_optimizeFunction (h f hf)).mono fun f' _ hf' => ?_).allow fun e he =>
      ⟨he.1, .optimize hlist hrun he.2⟩))
    exact List.forall_mem_append.2 ⟨hfound, List.forall_mem_singleton.2 hf'⟩
  refine .bind (hfunctions.mono fun functions s' hall => .bind (.modify (.pure fun f hf => ?_)))
  obtain ⟨haccepted, hlinked⟩ := hall f (by simpa using hf)
  exact ⟨haccepted, hlinked⟩

theorem meets_compileFunction (ho : o.maxRounds = none) {id : FuncId} (hf : Ready m (m.function id)) :
    Meets (fun e => (∃ name fault, e = .error (.registerAllocation name fault)) ∨
      e = .crash none ∧ BackendOverflow o m id s.stats) (compileFunction o m id) s fun _ _ => True := by
  have hwf := hf.produced.wellFormed hf.verified hf.strict hf.agreeing
  have hw := hwf.regular.wired hwf.sound
  obtain ⟨tree, htree, -⟩ := DominatorTree.ofCfg_total (Edit.explorable_cfg hwf.sound hw) (Edit.consistent_cfg hw)
  obtain ⟨hfails, hallotted⟩ := (m.function id).select_total m (LoopForest.ofCfg (m.function id).cfg tree) hf.selectable
  have hselect : select m id = (m.function id).select m (LoopForest.ofCfg (m.function id).cfg tree) := by
    unfold select
    dsimp only
    rw [htree]
    rfl
  unfold compileFunction
  refine .bind (.modify (.bind (.lift ?_ fun mf hmf => ?_)))
  · rw [hselect]
    exact hfails.mono fun e he => .inr ⟨he.1, .select htree he.2⟩
  have hmf' : mf.Allotted := hallotted mf (hselect ▸ hmf)
  refine .bind (.lift ?_ fun ⟨a, mf₁⟩ hallocate => ?_)
  · rw [ho]
    exact (MachineFunction.failsOnly_apply (MachineEdit.allocate_total hmf')).mono fun e he =>
      he.imp (fun ⟨fault, h⟩ => ⟨mf.name, fault, h⟩) fun he => ⟨he.1, .rounds hmf he.2⟩
  refine .bind ((meets_record fun hfits => .inr ⟨rfl, .allocated hmf hallocate hfits⟩).mono fun _ s₁ hs₁ => ?_)
  obtain ⟨hsize, hvirtual⟩ := MachineEdit.allocate_spec hmf' (MachineFunction.apply_eq_ok hallocate)
  refine .bind (.lift ?_ fun ⟨⟨⟩, mf₂⟩ hframe => ?_)
  · exact (MachineFunction.failsOnly_apply (MachineEdit.finalizeFrame_total hsize hvirtual)).mono fun e he =>
      .inr ⟨he.1, .frame hmf hallocate he.2⟩
  refine .bind ((meets_record fun hfits => .inr ⟨rfl, .finished hmf hallocate hframe ?_⟩).mono fun _ s₂ _ =>
    .bind (.modify (.pure trivial)))
  rw [hs₁] at hfits
  exact hfits

theorem meets_lowerModule {m₀ : Module} {s₀ : Session} (ho : o.maxRounds = none) (hm : ∀ f ∈ m.functions, Ready m f)
    (hoptimize : (optimizeModule o m₀).run s₀ = .ok (m, s)) :
    Meets (fun e => (∃ name fault, e = .error (.registerAllocation name fault)) ∨
      e = .crash none ∧ CompileOverflow o m₀ s₀) (lowerModule o m) s fun _ _ => True := by
  refine .bind ((Meets.mapM_run (I := fun _ _ _ => True) _ (fun done id rest found s' hlist hrun _ => ?_) trivial).mono
    fun _ _ _ => .pure trivial)
  have hid : id < m.functions.size := by
    have hmem : id ∈ m.functionOrder := hlist ▸ List.mem_append_right _ List.mem_cons_self
    exact List.mem_range.1 (m.functionOrder_perm.mem_iff.1 hmem)
  have hf : m.function id ∈ m.functions := by
    unfold Module.function
    rw [Array.getD_eq_getD_getElem?, Array.getElem?_eq_getElem hid]
    exact Array.getElem_mem hid
  exact ((meets_compileFunction ho (hm _ hf)).mono fun _ _ _ => trivial).allow fun e he =>
    he.imp_right fun he => ⟨he.1, .backend hoptimize hlist hrun he.2⟩

/-- **Compilation succeeds or lacks registers.** Without a cap on the rounds of allocation, a module that was read, all
of whose uses are dominated by their definitions and whose terminators do not lead to first blocks, is compiled, or the
registers do not suffice, or arithmetic leaves its range. No other error is reported. -/
theorem compiles_or_lacks_registers {text : String} {m : Module} (hread : Module.parse text = .ok m)
    (hstrict : ∀ f ∈ m.functions, f.Strict)
    (hentry : ∀ f ∈ m.functions, ∀ entry, f.layout.head? = some entry → ∀ b ∈ f.layout, ∀ i ∈ f.instsOf b,
      (f.kind i).isTerminator = true → entry ∉ (f.kind i).targets)
    (o : Options) (ho : o.maxRounds = none) (s : Session) :
    (∃ program s', (optimizeModule o m >>= lowerModule o).run s = .ok (program, s')) ∨
    (∃ name fault, (optimizeModule o m >>= lowerModule o).run s = .error (.error (.registerAllocation name fault))) ∨
    (optimizeModule o m >>= lowerModule o).run s = .error (.crash none) ∧ CompileOverflow o m s := by
  have hready : ∀ f ∈ m.functions, Ready m f := by
    intro f hf
    have hfinished := Module.finished_parse hread hf
    obtain ⟨entry, hhead⟩ := Option.isSome_iff_exists.1 (List.isSome_head?.2 hfinished.shaped.nonempty)
    have hverify := (hfinished.verify_iff hhead).1.2 (hentry f hf entry hhead)
    have hselectable := Module.selectable_parse hread hf
    exact ⟨⟨.read hread hf, hverify, hstrict f hf, hfinished.agreeing⟩, hselectable.linked⟩
  have hmeets : Meets (fun e => (∃ name fault, e = .error (.registerAllocation name fault)) ∨
      e = .crash none ∧ CompileOverflow o m s) (optimizeModule o m >>= lowerModule o) s fun _ _ => True := by
    refine .bind ((((meets_optimizeModule hready).and fun m' s' hrun => hrun).mono fun m' s' ⟨hm', hrun⟩ => ?_).allow
      fun _ he => .inr he)
    exact meets_lowerModule ho hm' hrun
  cases hrun : (optimizeModule o m >>= lowerModule o).run s with
  | ok result => exact .inl ⟨result.1, result.2, rfl⟩
  | error e =>
    rcases hmeets.failsOnly e hrun with ⟨name, fault, rfl⟩ | ⟨rfl, hover⟩
    · exact .inr (.inl ⟨name, fault, rfl⟩)
    · exact .inr (.inr ⟨rfl, hover⟩)

/-- A function with an arm that is never taken is compiled. -/
theorem compiles_or_lacks_registers_constantBranch : ∃ program s',
    (optimizeModule {} { functions := #[.constantBranch] } >>= lowerModule {}).run {} = .ok (program, s') := by
  have hread : Module.parse _ = .ok { functions := #[.constantBranch] } := Function.constantBranchText.parse
  have hsingle : ∀ {P : Function → Prop}, P .constantBranch → ∀ f ∈ (#[.constantBranch] : Array Function), P f :=
    fun hP f hf => Array.mem_singleton.1 hf ▸ hP
  have hentry : ∀ entry, Function.constantBranch.layout.head? = some entry → ∀ b ∈ Function.constantBranch.layout,
      ∀ i ∈ Function.constantBranch.instsOf b, (Function.constantBranch.kind i).isTerminator = true →
        entry ∉ (Function.constantBranch.kind i).targets := by
    intro entry hhead
    obtain rfl := Option.some.inj hhead
    decide
  have hok : ((optimizeModule {} { functions := #[.constantBranch] } >>= lowerModule {}).run {}).toBool = true := by cbv
  rcases compiles_or_lacks_registers hread (hsingle Function.strict_constantBranch) (hsingle hentry) {} rfl {} with
    h | ⟨name, fault, h⟩ | ⟨h, -⟩
  · exact h
  · rw [h] at hok
    cases hok
  · rw [h] at hok
    cases hok

end Compile

end SsaCompiler
