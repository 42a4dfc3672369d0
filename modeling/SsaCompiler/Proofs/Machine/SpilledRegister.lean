import SsaCompiler.Proofs.Machine.AllocatedRun

/-!
# One register in the frame

Spilling a virtual register puts it into a new word of the frame. The code then mentions the register no
more, and every run of the function that writes the register before reading it is a run of the spilled
function too, state by state: the other registers, the rest of memory and the next instruction are the same,
and where the instruction reads the register its temporary holds the word that was written last.

Whether a register is written before it is read is asked of the run (`ReadsFirst`), not of all paths through
the function. That is the weaker demand: paths that the run does not take may read what they like.
-/

set_option autoImplicit false

namespace SsaCompiler

namespace MachineFunction

variable {W : Type} {mf mf' : MachineFunction} {env : MachineEnv W} {v : Nat} {word : Word}

/-- Nothing is written behind a transfer. -/
def WritesBeforeTransfers (mf : MachineFunction) : Prop :=
  ∀ b pre i rest, mf.instsOf b = pre ++ i :: rest → i.isTransfer = true → ∀ j ∈ rest, j.defs = []

/-- Where only transfers follow transfers, nothing is written behind them. -/
theorem TransfersLast.writesBeforeTransfers (h : mf.TransfersLast) : mf.WritesBeforeTransfers :=
  fun b pre i rest hb hi j hj => defs_of_isTransfer (h b pre i rest hb hi j hj)

/-- The run from a state reads a virtual register that it has not written before. -/
inductive ReadsFirst (mf : MachineFunction) (env : MachineEnv W) (v : Nat) : MachineState W → Prop
  | read {s : MachineState W} {i : Instr} {rest : List Instr} : s.code = i :: rest →
      Operand.virtual v ∈ i.sources → ReadsFirst mf env v s
  | pass {s u : MachineState W} {i : Instr} {rest : List Instr} {events : List MachineEvent} :
      s.code = i :: rest → Operand.virtual v ∉ i.defs → mf.step env s = .next events u →
      ReadsFirst mf env v u → ReadsFirst mf env v s
  | fall {s u : MachineState W} {events : List MachineEvent} : s.code = [] → mf.step env s = .next events u →
      ReadsFirst mf env v u → ReadsFirst mf env v s

/-- A run that begins with writing a register does not read it first. -/
theorem not_readsFirst_of_writes {s : MachineState W} {i : Instr} {rest : List Instr} (hcode : s.code = i :: rest)
    (hread : Operand.virtual v ∉ i.sources) (hwrite : Operand.virtual v ∈ i.defs) : ¬ ReadsFirst mf env v s := by
  intro h
  cases h with
  | read hc hin =>
    obtain ⟨rfl, -⟩ := List.cons.inj (hcode.symm.trans hc)
    exact hread hin
  | pass hc hout =>
    obtain ⟨rfl, -⟩ := List.cons.inj (hcode.symm.trans hc)
    exact hout hwrite
  | fall hc =>
    rw [hcode] at hc
    cases hc

/-- A register is awaited where the run reads it before writing it. -/
theorem awaits_readsFirst : SpilledRun.Awaits mf env v (ReadsFirst mf env v) where
  read := .read
  pass := .pass
  fall := .fall

/-- The states of a function and of the same function with a spilled register, before the same
instruction: they agree but for the spilled register and its word, and the instruction reads the same
words on both sides, a temporary standing for the spilled register. -/
structure Counterpart (mf : MachineFunction) (v : Nat) (word : Word) (s s' : MachineState W) : Prop where
  alike : SpilledRun.Alike mf v word s s'
  code : (s.code = [] ∧ s'.code = []) ∨ ∃ i t rest rest', s.code = i :: rest ∧
    s'.code = i.replace (.virtual v) (.virtual t) :: rest' ∧ mf.vregCount ≤ t ∧
    ∀ op ∈ i.sources, s'.read (Instr.renamed v t op) = s.read op

/-- States that are ready for the next instruction are counterparts. -/
theorem counterpart_of_ready {awaited : MachineState W → Prop} {base : Word} {s s' : MachineState W}
    (hcount : mf.Counted) (h : SpilledRun.Ready env mf mf' v awaited base word s s') : Counterpart mf v word s s' := by
  refine ⟨h.alike, h.code.imp (fun hend => ⟨hend.1, hend.2.1⟩) ?_⟩
  rintro ⟨i, t, rest, rest', ⟨hc, hc', ht, hread⟩, -⟩
  have hi := h.place i (hc ▸ List.mem_cons_self)
  exact ⟨i, t, rest, rest', hc, hc', ht, fun op hop =>
    h.alike.read (fun n hn => hcount i hi n (.inl (hn ▸ hop))) fun hopv => hread (hopv ▸ hop)⟩

/-- There is room for a register whenever there is room for its word. -/
theorem exists_spill (v : Nat) (h : Word.add? mf.frameSize 4 ≠ none) : ∃ mf', mf.spill v = .ok mf' := by
  obtain ⟨size, hsize⟩ := Option.ne_none_iff_exists'.1 h
  unfold spill allocFrame
  rw [hsize]
  exact ⟨_, rfl⟩

/-- Spilled code does not mention the register. -/
theorem not_mem_mentions_of_spilled (hv : v < mf.vregCount) (hs : Spilled True mf v mf') {i : Instr}
    (hi : i ∈ mf'.placedInsts) : Operand.virtual v ∉ i.mentions := by
  obtain ⟨b, hb⟩ := mem_placedInsts.1 hi
  intro hmem
  rcases List.mem_append.1 hmem with hdef | huse
  · rcases (hs.code b).mem_defs i hb _ hdef with ⟨hne, -⟩ | ⟨t, ht, hfresh | htemp⟩
    · exact hne rfl
    · obtain rfl := Operand.virtual.inj ht
      exact absurd hfresh.1 (Nat.not_le.2 hv)
    · cases htemp
  · rcases (hs.code b).mem_sources i hb v (List.mem_of_mem_filter huse) with ⟨hne, -⟩ | hfresh | htemp
    · exact hne rfl
    · exact absurd hfresh.1 (Nat.not_le.2 hv)
    · cases htemp

/-- **A function runs the same with one register in the frame.** If the function writes nothing behind
transfers, a run of it writes the register before reading it, moves the stack pointer nowhere and does not touch
the new word, and callees and the system leave that word alone, then spilling gives a function that mentions the
register no more; its run shows the same but for loads and stores of the word, and passes through a counterpart
of each state of the run. -/
theorem sameRuns_spill (env : MachineEnv W) (mf : MachineFunction) (v : Nat) (regs : Register → Word)
    (vregs : Nat → Word) (m : Memory) (w : W) (hcount : mf.Counted) (hv : v < mf.vregCount)
    (hroom : Word.add? mf.frameSize 4 ≠ none) (hwrites : mf.WritesBeforeTransfers)
    (hfirst : ¬ ReadsFirst mf env v (mf.start regs vregs m w))
    (hsteady : SpilledRun.Steady mf env (regs .sp) (mf.start regs vregs m w))
    (henv : env.Respects [regs .sp + mf.frameSize])
    (hunt : Untouched (mf.step env) (regs .sp + mf.frameSize) (mf.start regs vregs m w)) :
    ∃ mf', mf.spill v = .ok mf' ∧ (∀ i ∈ mf'.placedInsts, Operand.virtual v ∉ i.mentions) ∧
      Runs.SameRuns (mf.step env) (mf.start regs vregs m w)
        (Runs.observe (MachineEvent.isOutside [regs .sp + mf.frameSize]) (mf'.step env))
        (mf'.start regs vregs m w) ∧
      ∀ t u, Runs.Steps (mf.step env) (mf.start regs vregs m w) t u →
        ∃ t' u', Runs.Steps (mf'.step env) (mf'.start regs vregs m w) t' u' ∧
          t'.filter (MachineEvent.isOutside [regs .sp + mf.frameSize]) = t ∧
          Counterpart mf v (regs .sp + mf.frameSize) u u' := by
  obtain ⟨mf', hspill⟩ := exists_spill v hroom
  have hs : Spilled True mf v mf' := by
    refine spilled_of_spill hspill fun b _ => .of_split fun pre i rest hb hi j hj op hop => ?_
    rw [hwrites b pre i rest hb hi j hj] at hop
    cases hop
  have hself : Runs.observe (MachineEvent.isOutside []) (mf.step env) = mf.step env :=
    Runs.observe_of_visible fun e => by cases e <;> rfl
  have hsim : Runs.Simulation (mf.step env)
      (Runs.observe (MachineEvent.isOutside [regs .sp + mf.frameSize]) (mf'.step env))
      (SpilledRun.Related env mf mf' v (ReadsFirst mf env v) (regs .sp) (regs .sp + mf.frameSize)) fun _ => 0 := by
    rw [← hself]
    exact SpilledRun.simulation henv (List.mem_singleton_self _) rfl hcount hv hs awaits_readsFirst
  have hstart := SpilledRun.related_start hs regs vregs m w hfirst hsteady hunt
  refine ⟨mf', hspill, fun i hi => not_mem_mentions_of_spilled hv hs hi,
    Runs.sameRuns_of_simulation hsim hstart, ?_⟩
  -- A related state is followed to the next instruction.
  rintro t u ⟨n, hrun⟩
  obtain ⟨r, ⟨k, hr⟩, hrel⟩ := hsim.steps hstart hrun
  obtain ⟨t₀, hr₀, rfl⟩ := hr.of_observe
  obtain ⟨quiet, u', hquiet, honly, hready⟩ := hrel.ready rfl hs awaits_readsFirst
  refine ⟨t₀ ++ quiet, u', .append ⟨k, hr₀⟩ hquiet, ?_, counterpart_of_ready hcount hready⟩
  rw [List.filter_append, honly.filter, List.append_nil]

/-- The function keeps its first value across a call in the new word. -/
theorem sameRuns_spill_twoValues :
    ∃ mf', AllocatedRun.twoValues.spill 0 = .ok mf' ∧
      (∀ i ∈ mf'.placedInsts, Operand.virtual 0 ∉ i.mentions) ∧
      Runs.SameRuns (AllocatedRun.twoValues.step AllocatedRun.echo)
        (AllocatedRun.twoValues.start (fun _ => 0) (fun _ => 0) (fun _ => 0) ())
        (Runs.observe (MachineEvent.isOutside [0 + 0]) (mf'.step AllocatedRun.echo))
        (mf'.start (fun _ => 0) (fun _ => 0) (fun _ => 0) ()) := by
  have hfirst : ¬ ReadsFirst AllocatedRun.twoValues AllocatedRun.echo 0
      (AllocatedRun.twoValues.start (fun _ => 0) (fun _ => 0) (fun _ => 0) ()) :=
    not_readsFirst_of_writes rfl (by decide) (by decide)
  obtain ⟨mf', hspill, hgone, hsame, -⟩ := sameRuns_spill AllocatedRun.echo AllocatedRun.twoValues 0
    (fun _ => 0) (fun _ => 0) (fun _ => 0) () (by decide) (by decide) (by decide)
    AllocatedRun.transfersLast_twoValues.writesBeforeTransfers hfirst
    (SpilledRun.steady_of_keepsSp (by decide) fun i hi => mem_placedInsts.2 ⟨0, hi⟩)
    (AllocatedRun.respects_echo _) (AllocatedRun.untouched_twoValues _)
  exact ⟨mf', hspill, hgone, hsame⟩

open AllocatedRun (entered echo overwriting movesSp twoValues)

/-- Spilling the first register changes what a function shows, although a run of the function writes the register
before it reads it and leaves the new word alone. -/
def SpillAlters (env : MachineEnv Unit) (mf : MachineFunction) : Prop :=
  mf.Counted ∧ 0 < mf.vregCount ∧ mf.WritesBeforeTransfers ∧ ¬ ReadsFirst mf env 0 (entered mf) ∧
    Untouched (mf.step env) (0 + mf.frameSize) (entered mf) ∧
    ∃ mf', mf.spill 0 = .ok mf' ∧ ¬ Runs.SameRuns (mf.step env) (entered mf)
      (Runs.observe (MachineEvent.isOutside [0 + mf.frameSize]) (mf'.step env)) (entered mf')

/-- Two functions that do something else with their first register in the frame. The first one moves the stack
pointer, the second one calls something that overwrites the new word. Each of them meets the other condition. -/
theorem not_sameRuns_spill :
    (SpillAlters echo movesSp ∧ echo.Respects [0 + movesSp.frameSize]) ∧
    SpillAlters overwriting twoValues ∧ SpilledRun.Steady twoValues overwriting 0 (entered twoValues) := by
  have hmoves : Runs.outcome? (movesSp.step echo) 10 (entered movesSp) = some ([], .returned 3) := rfl
  have hcalls : Runs.outcome? (twoValues.step overwriting) 10 (entered twoValues) =
      some ([.call "g" [2] []], .returned 3) := rfl
  refine ⟨⟨⟨by decide, by decide, ?_, not_readsFirst_of_writes rfl (by decide) (by decide), ?_,
      _, AllocatedRun.spill_movesSp, ?_⟩, AllocatedRun.respects_echo _⟩,
    ⟨by decide, by decide, AllocatedRun.transfersLast_twoValues.writesBeforeTransfers,
      not_readsFirst_of_writes rfl (by decide) (by decide), ?_, _, AllocatedRun.spill_twoValues, ?_⟩,
    SpilledRun.steady_of_keepsSp (by decide) fun i hi => mem_placedInsts.2 ⟨0, hi⟩⟩
  · have htransfers : movesSp.TransfersLast := .of_pairwise (by decide)
    exact htransfers.writesBeforeTransfers
  · exact .of_ends (Runs.ends_of_outcome? hmoves) (by decide) fun e he => by cases he
  · exact Runs.not_sameRuns_of_outcomes (n := 10) (m := 10) (o := .returned 3) rfl
      (by rfl : _ = some (.returned 79)) (by decide)
  · exact .of_ends (Runs.ends_of_outcome? hcalls) (by decide) fun e he => by cases he
  · exact Runs.not_sameRuns_of_outcomes (n := 10) (m := 10) (o := .returned 3) rfl
      (by rfl : _ = some (.returned 79)) (by decide)

end MachineFunction

end SsaCompiler
