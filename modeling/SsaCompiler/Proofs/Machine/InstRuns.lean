import SsaCompiler.Proofs.Machine.OperandRuns
import SsaCompiler.Proofs.Text.FilledPhis

/-!
# Running the code of instructions

The code of an instruction does what the instruction does: it shows the same loads, stores and calls, it changes memory
in the same way but for the words below the stack pointer that belong to calls, and it leaves the word of the result in
its register (`InstCode.run`). The code of a terminator goes to the block of the target (`ExitCode.run`).
-/

set_option autoImplicit false

namespace SsaCompiler

variable {W : Type}

/-! ## What is shown -/

/-- Whether an event of machine code is one of the function: neither an access to the words of calls nor to the words that
the caller passed. -/
def MachineEvent.isShown (hidden : List Word) : MachineEvent → Bool
  | .incoming .. => false
  | e => e.isOutside hidden

/-- The machine events of an event. -/
def IrEvent.lowered (m : Module) (ir : IrEnv W) (sp : Word) : IrEvent → List MachineEvent
  | .load a x => [.load a x]
  | .store a x => [.store a x]
  | .call callee args => [.call (m.calleeLabel callee) (args.take Register.arguments.length)
      ((Instr.outgoingPlaces sp (args.length - Register.arguments.length)).zip (args.drop Register.arguments.length))]
  | .print pieces args => (ir.pieceCalls pieces args).map fun c => .call c.1.label [c.2] []

/-- How a run ends, in the terms of the machine. -/
inductive Ending
  | returned (value : Option Word)
  | halted (last : List MachineEvent)
  | fault
  deriving DecidableEq

/-- The machine ending of an outcome. -/
def IrOutcome.lowered (m : Module) (ir : IrEnv W) (sp : Word) : IrOutcome → Ending
  | .returned value => .returned value
  | .halted last => .halted (last.lowered m ir sp)
  | .fault => .fault

/-- How machine code ends. A return that does not use the result register returns nothing. -/
def MachineState.ending (τ : MachineState W) : MachineOutcome → Ending
  | .returned v0 =>
    match τ.code with
    | .ret false :: _ => .returned none
    | _ => .returned (some v0)
  | .halted last => .halted [last]
  | .fault => .fault

/-! ## Arguments -/

/-- A word that was set. -/
theorem Memory.set_self (m : Memory) (a v : Word) : m.set a v a = v := if_pos rfl

variable {α β : Type}

/-- Operands of an instruction with one operand. -/
theorem mapM_one {g : α → Option β} {a : α} {values : List β} (h : [a].mapM g = some values) :
    ∃ x, values = [x] ∧ g a = some x := by
  cases ha : g a <;> simp_all

/-- Operands of an instruction with two operands. -/
theorem mapM_two {g : α → Option β} {a b : α} {values : List β} (h : [a, b].mapM g = some values) :
    ∃ x y, values = [x, y] ∧ g a = some x ∧ g b = some y := by
  cases ha : g a <;> cases hb : g b <;> simp_all

/-- Operands of an instruction with three operands. -/
theorem mapM_three {g : α → Option β} {a b c : α} {values : List β} (h : [a, b, c].mapM g = some values) :
    ∃ x y z, values = [x, y, z] ∧ g a = some x ∧ g b = some y ∧ g c = some z := by
  cases ha : g a <;> cases hb : g b <;> cases hc : g c <;> simp_all

/-- The first of some operands and the others. -/
theorem mapM_cons_eq_some {g : α → Option β} {a : α} {rest : List α} {values : List β}
    (h : (a :: rest).mapM g = some values) : ∃ x xs, values = x :: xs ∧ g a = some x ∧ rest.mapM g = some xs := by
  rw [List.mapM_cons] at h
  cases ha : g a <;> cases hrest : rest.mapM g <;> simp_all

variable {count : Nat} {lowest : Word}

namespace Select

/-- The place of the stack word of argument `k`, given that of the first one with such a word. -/
def stackPlace (first : Word) (k : Nat) : Word := first + 4 * (Int32.ofNat k + -4)

/-- The offset of a stack word. -/
theorem eq_of_stackOffset? {first offset : Word} {k : Nat} (h : stackOffset? first k = some offset) :
    offset = stackPlace first k := by
  obtain ⟨words, hwords, h₁⟩ := Option.bind_eq_some_iff.1 h
  obtain ⟨bytes, hbytes, h₂⟩ := Option.bind_eq_some_iff.1 h₁
  rw [Word.eq_of_add? h₂, Word.eq_of_mul? hbytes, Word.eq_of_add? hwords]
  rfl

/-- The stack words of a call are those below the stack pointer. -/
theorem stackPlace_eq (h : Word.mul? (-4) (Int32.ofNat count) = some lowest) (sp : Word) (j : Nat) :
    sp + stackPlace lowest (j + 4) = sp - Int32.ofNat (4 * count) + Int32.ofNat (4 * j) := by
  rw [stackPlace, Word.eq_of_mul? h, Int32.ofNat_add, Int32.ofNat_mul, Int32.ofNat_mul]
  change sp + (-4 * Int32.ofNat count + 4 * (Int32.ofNat j + 4 + -4)) = sp - 4 * Int32.ofNat count + 4 * Int32.ofNat j
  grind

/-- A call whose stack words are in range has not too many of them. -/
theorem count_le (h : Word.mul? (-4) (Int32.ofNat count) = some lowest)
    (hall : ∀ k, 4 ≤ k → k < count + 4 → ∃ offset, stackOffset? lowest k = some offset) : count ≤ 2 ^ 29 := by
  by_contra hlt
  have hword : ∀ n : Nat, n < 2 ^ 31 → (Int32.ofNat n).toInt = n := fun n hn => Int32.toInt_ofNat_of_lt hn
  by_cases hsmall : count < 2 ^ 31
  · -- The words take more bytes than there are.
    have hvalue := Word.toInt_of_ofInt? h
    rw [hword count hsmall, show (-4 : Word).toInt = -4 from rfl] at hvalue
    have hle := lowest.le_toInt
    omega
  · -- One of the places is too far.
    obtain ⟨offset, hoffset⟩ := hall (2 ^ 31) (by omega) (by omega)
    have hnone : Word.add? (Int32.ofNat (2 ^ 31)) (-4) = none := by decide
    rw [stackOffset?, hnone] at hoffset
    cases hoffset

end Select

/-- No two words of a call are at the same place. -/
theorem Instr.nodup_outgoingPlaces (sp : Word) (h : count ≤ 2 ^ 29) : (outgoingPlaces sp count).Nodup := by
  refine List.Nodup.map_on (fun j hj k hk heq => ?_) List.nodup_range
  rw [List.mem_range] at hj hk
  have hword : Int32.ofNat (4 * j) = Int32.ofNat (4 * k) := by
    generalize Int32.ofNat (4 * j) = a at heq ⊢
    generalize Int32.ofNat (4 * k) = b at heq ⊢
    grind
  have hbits := congrArg (fun w : Word => w.toBitVec.toNat) hword
  change (BitVec.ofNat 32 (4 * j)).toNat = (BitVec.ofNat 32 (4 * k)).toNat at hbits
  rw [BitVec.toNat_ofNat, BitVec.toNat_ofNat] at hbits
  omega

section Code

variable {ctx : SelectionContext} {s : Selection} {env : MachineEnv W} {low high mid : Nat} {code code' : List Instr}
  {ir : IrEnv W} {regs : Register → Word} {vals : ValueId → Option Word} {σ : MachineState W}
  (hsur : ctx.func.Surrounded ctx.module ir env regs) (hc : s.Carries ctx ir (regs .sp) vals σ) (hl : s.Loads env σ [])

include hsur hc hl

/-! ## Calls -/

/-- Code that stores arguments leaves them in their words. -/
theorem PushCode.run {lowest : Word} {args : List (ValueId × Nat)} {xs : List Word} (h : PushCode ctx s lowest args code)
    (hxs : args.mapM (fun a => ctx.func.read ir vals a.1) = some xs)
    (hplain : ∀ a ∈ args, ctx.Plain a.1) (hapart : (args.map fun a => regs .sp + Select.stackPlace lowest a.2).Nodup)
    (hhidden : ∀ a ∈ args, regs .sp + Select.stackPlace lowest a.2 ∈ ctx.func.outgoing (regs .sp)) :
    ∃ σ' t, Executes env s code σ t σ' ∧ t.filter (MachineEvent.isShown (ctx.func.outgoing (regs .sp))) = [] ∧
      s.Keeps σ σ' ∧ σ'.world = σ.world ∧
      args.map (fun a => σ'.memory (regs .sp + Select.stackPlace lowest a.2)) = xs ∧
      ∀ b, (∀ a ∈ args, b ≠ regs .sp + Select.stackPlace lowest a.2) → σ'.memory b = σ.memory b := by
  induction h generalizing σ xs with
  | nil =>
    cases hxs
    exact ⟨σ, [], .nil σ, rfl, .refl s σ, rfl, rfl, fun _ _ => rfl⟩
  | @cons v k low high rest code code' src offset hcode hoffset _ ih =>
    obtain ⟨x, xs, rfl, hx, hxs⟩ := mapM_cons_eq_some hxs
    obtain ⟨hplain₁, hplain'⟩ := List.forall_mem_cons.1 hplain
    obtain ⟨hhidden₁, hhidden'⟩ := List.forall_mem_cons.1 hhidden
    obtain ⟨hnew, hapart'⟩ := List.nodup_cons.1 hapart
    obtain ⟨σ₁, hrun, hsrc, -, hchanges⟩ := hcode.run hsur hc hl hx hplain₁
    have hplace : σ₁.read .sp + offset = regs .sp + Select.stackPlace lowest k := by
      rw [(hc.keeps hchanges.keeps).read_sp, Select.eq_of_stackOffset? hoffset]
    have hstore : Executes env s [.store src .sp offset] σ₁ [.store (regs .sp + Select.stackPlace lowest k) x]
        { σ₁ with memory := σ₁.memory.set (regs .sp + Select.stackPlace lowest k) x } := by
      have hrun : Executes env s _ _ _ _ := Executes.single (s := s) (σ := σ₁) (i := .store src .sp offset)
        (e := { memory := σ₁.memory.set (σ₁.read .sp + offset) (σ₁.read src), world := σ₁.world,
                events := [.store (σ₁.read .sp + offset) (σ₁.read src)] }) (fun _ h => nomatch h) rfl
      rw [hplace, hsrc] at hrun
      exact hrun
    have hkeeps : s.Keeps σ { σ₁ with memory := σ₁.memory.set (regs .sp + Select.stackPlace lowest k) x } :=
      hchanges.keeps.trans ⟨rfl, fun _ _ => rfl⟩
    obtain ⟨σ₂, t, hrun', hhide, hkeeps', hworld, hwords, hothers⟩ :=
      ih (hc.keeps hkeeps) (hl.keeps hkeeps) hxs hplain' hapart' hhidden'
    have hall := hrun.append (hstore.append hrun')
    rw [List.nil_append, List.singleton_append] at hall
    refine ⟨σ₂, _, hall, ?_, hkeeps.trans hkeeps', hworld.trans hchanges.world,
      ?_, fun b hb => ?_⟩
    · have hin : (MachineEvent.store (regs .sp + Select.stackPlace lowest k) x).isShown (ctx.func.outgoing (regs .sp)) =
          false := by simp [MachineEvent.isShown, MachineEvent.isOutside, hhidden₁]
      simp [hin, hhide]
    · rw [List.map_cons, hwords, hothers _ fun a ha heq => hnew (List.mem_map.2 ⟨a, ha, heq.symm⟩)]
      dsimp only
      rw [Memory.set_self]
    · obtain ⟨hb₁, hb'⟩ := List.forall_mem_cons.1 hb
      rw [hothers b hb', ← hchanges.memory]
      exact if_neg hb₁

/-- Code that moves arguments to registers leaves them there. -/
theorem PassCode.run {args : List (ValueId × Register)} {xs : List Word} (h : PassCode ctx s args code)
    (hxs : args.mapM (fun a => ctx.func.read ir vals a.1) = some xs)
    (hplain : ∀ a ∈ args, ctx.Plain a.1) (hapart : (args.map Prod.snd).Nodup) (hsp : Register.sp ∉ args.map Prod.snd) :
    ∃ σ', Executes env s code σ [] σ' ∧ s.Keeps σ σ' ∧ σ'.world = σ.world ∧ σ'.memory = σ.memory ∧
      args.map (fun a => σ'.regs a.2) = xs ∧ ∀ r ∉ args.map Prod.snd, σ'.regs r = σ.regs r := by
  induction h generalizing σ xs with
  | nil =>
    cases hxs
    exact ⟨σ, .nil σ, .refl s σ, rfl, rfl, rfl, fun _ _ => rfl⟩
  | @cons v r low high rest code code' src hcode _ ih =>
    obtain ⟨x, xs, rfl, hx, hxs⟩ := mapM_cons_eq_some hxs
    obtain ⟨hplain₁, hplain'⟩ := List.forall_mem_cons.1 hplain
    obtain ⟨hnew, hapart'⟩ := List.nodup_cons.1 hapart
    obtain ⟨hsp₁, hsp'⟩ := not_or.1 (fun h => hsp (List.mem_cons.2 h))
    obtain ⟨σ₁, hrun, hsrc, -, hchanges⟩ := hcode.run hsur hc hl hx hplain₁
    have hmove : Executes env s [.move (.fixed r) src] σ₁ [] (σ₁.write (.fixed r) x) :=
      .value rfl trivial (by rw [← hsrc]; rfl)
    have hkeeps : s.Keeps σ (σ₁.write (.fixed r) x) := hchanges.keeps.trans ⟨Function.update_of_ne hsp₁ _ _, fun _ _ => rfl⟩
    obtain ⟨σ₂, hrun', hkeeps', hworld, hmemory, hwords, hothers⟩ :=
      ih (hc.keeps hkeeps) (hl.keeps hkeeps) hxs hplain' hapart' hsp'
    refine ⟨σ₂, hrun.append (hmove.append hrun'), hkeeps.trans hkeeps', hworld.trans hchanges.world,
      hmemory.trans hchanges.memory, ?_, fun q hq => ?_⟩
    · rw [List.map_cons, hwords, hothers r hnew]
      change Function.update σ₁.regs r x r :: xs = x :: xs
      rw [Function.update_self]
    · obtain ⟨hq₁, hq'⟩ := not_or.1 (fun h => hq (List.mem_cons.2 h))
      rw [hothers q hq', ← hchanges.regs]
      exact Function.update_of_ne hq₁ x σ₁.regs

omit hsur hc hl in
/-- The words of arguments that are stored have offsets. -/
theorem PushCode.offsets {args : List (ValueId × Nat)} (h : PushCode ctx s lowest args code) :
    ∀ a ∈ args, ∃ offset, Select.stackOffset? lowest a.2 = some offset := by
  induction h with
  | nil => exact List.forall_mem_nil _
  | cons _ hoffset _ ih => exact List.forall_mem_cons.2 ⟨⟨_, hoffset⟩, ih⟩

/-- Code of a call leaves the arguments in the argument registers and in the words below the stack pointer. -/
theorem CallCode.run {label : String} {args : List ValueId} {xs : List Word} (h : CallCode ctx s label args code)
    (hxs : args.mapM (ctx.func.read ir vals) = some xs) (hplain : ∀ v ∈ args, ctx.Plain v)
    (hhidden : ∀ a ∈ Instr.outgoingPlaces (regs .sp) (args.length - Register.arguments.length),
      a ∈ ctx.func.outgoing (regs .sp)) :
    ∃ front σ' t, code = front ++ [.call label (min args.length Register.arguments.length)
        (args.length - Register.arguments.length)] ∧ Executes env s front σ t σ' ∧
      t.filter (MachineEvent.isShown (ctx.func.outgoing (regs .sp))) = [] ∧ s.Keeps σ σ' ∧ σ'.world = σ.world ∧
      σ.memory.AgreeOff (ctx.func.outgoing (regs .sp)) σ'.memory ∧
      (Register.arguments.take args.length).map σ'.plainRegs = xs.take Register.arguments.length ∧
      (Instr.outgoingPlaces (regs .sp) (args.length - Register.arguments.length)).map σ'.memory =
        xs.drop Register.arguments.length := by
  cases h with
  | @mk lowest code code' hlowest hpush hpass =>
    simp only [show Register.arguments.length = 4 from rfl] at hlowest hpush hpass hhidden ⊢
    have hwords := mapM_eq_some_iff.1 hxs
    -- Arguments with a word on the stack.
    have hfirst : ((args.drop 4).zipIdx 4).map Prod.fst = args.drop 4 := List.zipIdx_map_fst 4 _
    have hsecond : ((args.drop 4).zipIdx 4).map Prod.snd = (List.range (args.length - 4)).map (4 + ·) := by
      rw [List.zipIdx_map_snd, List.length_drop, List.range'_eq_map_range]
    have hplaces : ((args.drop 4).zipIdx 4).map (fun a => regs .sp + Select.stackPlace lowest a.2) =
        Instr.outgoingPlaces (regs .sp) (args.length - 4) := by
      have hmap := congrArg (List.map fun k => regs .sp + Select.stackPlace lowest k) hsecond
      rw [List.map_map, List.map_map] at hmap
      refine hmap.trans (List.map_congr_left fun j _ => ?_)
      change regs .sp + Select.stackPlace lowest (4 + j) = _
      rw [Nat.add_comm 4 j]
      exact Select.stackPlace_eq hlowest _ j
    have hcount : args.length - 4 ≤ 2 ^ 29 := Select.count_le hlowest fun k hle hlt => by
      have hmem : k ∈ ((args.drop 4).zipIdx 4).map Prod.snd := by
        rw [hsecond]
        exact List.mem_map.2 ⟨k - 4, List.mem_range.2 (by omega), by omega⟩
      obtain ⟨a, ha, rfl⟩ := List.mem_map.1 hmem
      exact hpush.offsets a ha
    have hnodup := Instr.nodup_outgoingPlaces (regs .sp) hcount
    have hpushed : ((args.drop 4).zipIdx 4).mapM (fun a => ctx.func.read ir vals a.1) = some (xs.drop 4) := by
      refine mapM_eq_some_iff.2 ((List.forall₂_map_left_iff (R := fun v x => ctx.func.read ir vals v = some x) (f := Prod.fst)).1 ?_)
      rw [hfirst]
      exact List.forall₂_drop 4 hwords
    obtain ⟨σ₁, t, hrun, hhide, hkeeps, hworld, hstored, hothers⟩ := hpush.run hsur hc hl hpushed
      (fun a ha => hplain a.1 (List.drop_subset 4 args (hfirst ▸ List.mem_map_of_mem ha))) (hplaces ▸ hnodup)
      (fun a ha => hhidden _ (hplaces ▸ List.mem_map_of_mem (f := fun a : ValueId × Nat =>
        regs .sp + Select.stackPlace lowest a.2) ha))
    -- Arguments in registers.
    have hfirst' : (args.zip Register.arguments).map Prod.fst = args.take 4 := by
      rw [List.zip_eq_zip_take_min, List.map_fst_zip (by simp), Nat.min_comm, ← List.take_eq_take_min]
      rfl
    have hsecond' : (args.zip Register.arguments).map Prod.snd = Register.arguments.take args.length := by
      rw [List.zip_eq_zip_take_min, List.map_snd_zip (by simp), ← List.take_eq_take_min]
    have hpassed : (args.zip Register.arguments).mapM (fun a => ctx.func.read ir vals a.1) = some (xs.take 4) := by
      refine mapM_eq_some_iff.2 ((List.forall₂_map_left_iff (R := fun v x => ctx.func.read ir vals v = some x) (f := Prod.fst)).1 ?_)
      rw [hfirst']
      exact List.forall₂_take 4 hwords
    obtain ⟨σ₂, hrun', hkeeps', hworld', hmemory, hregs, -⟩ := hpass.run hsur (hc.keeps hkeeps) (hl.keeps hkeeps) hpassed
      (fun a ha => hplain a.1 (List.take_subset 4 args (hfirst' ▸ List.mem_map_of_mem ha)))
      (hsecond' ▸ (List.take_sublist _ _).nodup (by decide))
      (hsecond' ▸ fun hmem => absurd (List.take_subset _ _ hmem) (by decide))
    refine ⟨_, σ₂, t, rfl, hrun.silent hrun', hhide, hkeeps.trans hkeeps', hworld'.trans hworld, fun b hb => ?_, ?_, ?_⟩
    · rw [hmemory]
      refine hothers b fun a ha heq => hb (hhidden b ?_)
      rw [heq]
      exact hplaces ▸ List.mem_map_of_mem (f := fun a : ValueId × Nat => regs .sp + Select.stackPlace lowest a.2) ha
    · rw [← hregs, ← Function.comp_def, ← List.map_map, hsecond']
      refine List.map_congr_left fun r hr => ?_
      have hplainReg : ∀ r ∈ Register.arguments, r.isGeneral = false ∧ r ≠ .zero := by decide
      obtain ⟨hgeneral, hzero⟩ := hplainReg r (List.take_subset _ _ hr)
      unfold MachineState.plainRegs MachineState.reg
      rw [hgeneral, if_neg Bool.false_ne_true, if_neg hzero]
    · rw [← hplaces, List.map_map, hmemory]
      exact hstored

omit hsur hc hl in
/-- A call leaves the stack pointer alone. -/
theorem MachineState.overwrite_sp (σ : MachineState W) (new : Register → Word) : (σ.overwrite new).regs .sp = σ.regs .sp :=
  (if_pos rfl : (if Register.sp.isGeneral || Register.sp == .sp then σ.regs .sp else new .sp) = σ.regs .sp)

omit hsur hc hl in
theorem run_call {label : String} {a b : Nat} {m' : Memory} {rs : Register → Word} {w' : W}
    (h : env.call label σ.plainRegs b σ.memory σ.world = some (m', rs, w')) :
    Executes env s [.call label a b] σ [.call label ((Register.arguments.take a).map σ.plainRegs)
      (Instr.outgoingWords (σ.plainRegs .sp) b σ.memory)] { σ.overwrite rs with memory := m', world := w' } := by
  have heffect : (Instr.call label a b).perform env ((Instr.call label a b).sources.map σ.read) σ.plainRegs σ.memory
      σ.world = .ok { overwritten := some rs, memory := m', world := w',
                      events := [.call label ((Register.arguments.take a).map σ.plainRegs)
                        (Instr.outgoingWords (σ.plainRegs .sp) b σ.memory)] } := by
    unfold Instr.perform
    dsimp only
    rw [h]
  exact .single (fun op hdst => by cases hdst) heffect

theorem PrintCode.run {pieces : List PrintPiece} {args : List ValueId} {xs : List Word} (h : PrintCode ctx s pieces args code)
    (hxs : args.mapM (ctx.func.read ir vals) = some xs) (hplain : ∀ v ∈ args, ctx.Plain v)
    {written : Builtin → Word → W → W}
    (hwritten : ∀ b, b = .putStr ∨ b = .putInt → ∀ rs m w, rs .sp = regs .sp → ∃ m' rs',
      env.call b.label rs 0 m w = some (m', rs', written b (rs .a0) w) ∧ m.AgreeOff (ctx.func.outgoing (regs .sp)) m') :
    ∃ σ', Executes env s code σ ((ir.pieceCalls pieces xs).map fun c => .call c.1.label [c.2] []) σ' ∧ s.Keeps σ σ' ∧
      σ.memory.AgreeOff (ctx.func.outgoing (regs .sp)) σ'.memory ∧
      σ'.world = (ir.pieceCalls pieces xs).foldl (fun w c => written c.1 c.2 w) σ.world := by
  -- One piece: the word is moved, and the call writes it.
  have hpiece : ∀ {σ₁ : MachineState W} (src : Operand) {x : Word} {b : Builtin}, (b = .putStr ∨ b = .putInt) →
      σ₁.regs .sp = regs .sp → σ₁.read src = x → ∃ σ₂, Executes env s [.move (.fixed .a0) src, .call b.label 1 0] σ₁
        [.call b.label [x] []] σ₂ ∧ s.Keeps σ₁ σ₂ ∧ σ₁.memory.AgreeOff (ctx.func.outgoing (regs .sp)) σ₂.memory ∧
        σ₂.world = written b x σ₁.world := by
    intro σ₁ src x b hb hsp hx
    have hmove : Executes env s [.move (.fixed .a0) src] σ₁ [] (σ₁.write (.fixed .a0) x) :=
      .value rfl trivial (by rw [← hx]; rfl)
    have ha0 : (σ₁.write (.fixed .a0) x).plainRegs .a0 = x := by
      change Function.update σ₁.regs Register.a0 x Register.a0 = x
      rw [Function.update_self]
    have hpointer : (σ₁.write (.fixed .a0) x).regs .sp = σ₁.regs .sp := by
      change Function.update σ₁.regs Register.a0 x Register.sp = σ₁.regs .sp
      exact Function.update_of_ne (by decide : Register.sp ≠ .a0) x σ₁.regs
    obtain ⟨m', rs, hcall, hagree⟩ := hwritten b hb (σ₁.write (.fixed .a0) x).plainRegs σ₁.memory σ₁.world
      (hpointer.trans hsp)
    rw [ha0] at hcall
    have hrun := hmove.append (run_call (s := s) (a := 1) hcall)
    have hevent : (Register.arguments.take 1).map (σ₁.write (.fixed .a0) x).plainRegs = [x] := congrArg (fun y => [y]) ha0
    rw [hevent] at hrun
    exact ⟨_, hrun, ⟨(MachineState.overwrite_sp _ rs).trans hpointer, fun _ _ => rfl⟩, hagree, rfl⟩
  induction h generalizing σ xs with
  | nil args => exact ⟨σ, .nil σ, .refl s σ, fun _ _ => rfl, rfl⟩
  | @str id name n pieces args code hname hn _ ih =>
    obtain ⟨string, hstring, rfl⟩ := Option.map_eq_some_iff.1 hname
    have haddr := (hl n _ hn).resolve_right List.not_mem_nil
    rw [hsur.str id string hstring] at haddr
    obtain ⟨σ₁, hrun, hkeeps, hmemory, hworld⟩ := hpiece (.virtual n) (.inl rfl) hc.pointer (Option.some.inj haddr).symm
    obtain ⟨σ₂, hrun', hkeeps', hmemory', hworld'⟩ := ih (hc.keeps hkeeps) (hl.keeps hkeeps) hxs hplain
    refine ⟨σ₂, hrun.append hrun', hkeeps.trans hkeeps', fun a ha => (hmemory' a ha).trans (hmemory a ha), ?_⟩
    rw [hworld', hworld]
    rfl
  | @arg v low high pieces args code code' src hcode _ ih =>
    obtain ⟨x, xs, rfl, hx, hxs⟩ := mapM_cons_eq_some hxs
    obtain ⟨hplain₁, hplain'⟩ := List.forall_mem_cons.1 hplain
    obtain ⟨σ₁, hrun, hsrc, -, hchanges⟩ := hcode.run hsur hc hl hx hplain₁
    have hc₁ := hc.keeps hchanges.keeps
    obtain ⟨σ₂, hrun', hkeeps, hmemory, hworld⟩ := hpiece src (.inr rfl) hc₁.pointer hsrc
    obtain ⟨σ₃, hrun'', hkeeps', hmemory', hworld'⟩ :=
      ih (hc₁.keeps hkeeps) ((hl.keeps hchanges.keeps).keeps hkeeps) hxs hplain'
    have hall := hrun.append (hrun'.append hrun'')
    refine ⟨σ₃, hall, (hchanges.keeps.trans hkeeps).trans hkeeps', fun a ha => ?_, ?_⟩
    · rw [hmemory' a ha, hmemory a ha, hchanges.memory]
    · rw [hworld', hworld, hchanges.world]
      rfl

end Code

/-! ## Instructions -/

section Action

variable (ctx : SelectionContext) (s : Selection) (ir : IrEnv W) (env : MachineEnv W) (sp : Word) (i : InstId)
  (code : List Instr) (σ : MachineState W)

/-- What the code of an instruction does where the instruction takes an action. -/
inductive Instructed : InstKind.Action W → Prop
  /-- The code shows the same, and leaves the result in its register. -/
  | effect {value : Option Word} {m : Memory} {w : W} {events : List IrEvent} {t : List MachineEvent} {σ' : MachineState W}
      (hrun : Executes env s code σ t σ')
      (hshown : t.filter (MachineEvent.isShown (ctx.func.outgoing sp)) = events.flatMap (IrEvent.lowered ctx.module ir sp))
      (hpointer : σ'.regs .sp = σ.regs .sp) (hmemory : m.AgreeOff (ctx.func.outgoing sp) σ'.memory) (hworld : σ'.world = w)
      (hothers : ∀ n, ¬ s.Scratch 0 s.code.vregCount n →
        (∀ v, ctx.func.result? i = some v → ¬ s.Belongs n (.value v)) → σ'.vregs n = σ.vregs n)
      (hresult : ∀ v x, ctx.func.result? i = some v → value = some x → s.slots.lookup v = none →
        ∃ n, s.Belongs n (.value v) ∧ σ'.vregs n = x) : Instructed (.effect value m w events)
  /-- One of the instructions of the code ends the run in the same way. -/
  | stop {o : IrOutcome} {front behind : List Instr} {j : Instr} {t : List MachineEvent} {σ' : MachineState W}
      {o' : MachineOutcome} (hcode : code = front ++ j :: behind) (hrun : Executes env s front σ t σ')
      (hshown : t.filter (MachineEvent.isShown (ctx.func.outgoing sp)) = [])
      (hdst : ∀ op, j.dst? = some op → s.Writable op) (hkeeps : s.Keeps σ σ')
      (hdone : j.perform env (j.sources.map σ'.read) σ'.plainRegs σ'.memory σ'.world = .error o')
      (hending : ∀ τ : MachineState W, τ.ending o' = o.lowered ctx.module ir sp) : Instructed (.stop o)

end Action

section Code

variable {ctx : SelectionContext} {s : Selection} {env : MachineEnv W} {code : List Instr}
  {ir : IrEnv W} {regs : Register → Word} {vals : ValueId → Option Word} {σ σ' : MachineState W} {i : InstId} {m : Memory}

variable {op : BinaryOp} {mop : MachineOp} {n : Nat} {v : ValueId} {x : Word}

/-- Code that computes a word into the register of the result. -/
theorem Instructed.computed {t : List MachineEvent} {events : List IrEvent} (hrun : Executes env s code σ t σ')
    (hvalue : σ'.vregs n = x) (hchanges : σ.ChangesOnly (fun k => k = n ∨ s.Scratch 0 s.code.vregCount k) σ')
    (hresult : ctx.func.result? i = some v) (hn : s.Belongs n (.value v))
    (hmemory : m.AgreeOff (ctx.func.outgoing (regs .sp)) σ.memory)
    (hshown : t.filter (MachineEvent.isShown (ctx.func.outgoing (regs .sp))) =
      events.flatMap (IrEvent.lowered ctx.module ir (regs .sp))) :
    Instructed ctx s ir env (regs .sp) i code σ (.effect (some x) m σ.world events) := by
  refine .effect hrun hshown (congrArg (· Register.sp) hchanges.regs) (fun a ha => ?_) hchanges.world
    (fun k hk hother => hchanges.vregs k ?_) (fun u y hu hy _ => ?_)
  · rw [hchanges.memory]
    exact hmemory a ha
  · rintro (rfl | hscratch)
    · exact hother v hresult hn
    · exact hk hscratch
  · cases hresult.symm.trans hu
    cases hy
    exact ⟨n, hn, hvalue⟩

/-- Code whose last instruction computes a word into the register of the result. -/
theorem Instructed.last {j : Instr} (hs : s.Sound) (hrun : Executes env s code σ [] σ')
    (hchanges : s.Scribbles 0 σ σ') (hresult : ctx.func.result? i = some v) (hn : s.Belongs n (.value v))
    (hmemory : m.AgreeOff (ctx.func.outgoing (regs .sp)) σ.memory) (hdst : j.dst? = some (.virtual n))
    (hvalue : j.perform env (j.sources.map σ'.read) σ'.plainRegs σ'.memory σ'.world =
      .ok { value := some x, memory := σ'.memory, world := σ'.world }) :
    Instructed ctx s ir env (regs .sp) i (code ++ [j]) σ (.effect (some x) m σ.world []) :=
  .computed (hrun.append (.value hdst (hs.writable hn) hvalue)) (σ'.vregs_write n x)
    ((MachineState.ChangesOnly.mono hchanges fun _ => .inr).trans ((σ'.changesOnly_write n x).mono fun _ => .inl))
    hresult hn hmemory rfl

/-- A machine operator is the operator that it is for. -/
theorem MachineOp.eval?_of_ofBinary? (h : MachineOp.ofBinary? op = some mop) (x y : Word) :
    mop.eval? x y = op.eval? x y := by
  cases op <;> cases h <;> rfl

/-- Subtracting a number adds its negation. -/
theorem Select.eval?_of_negatedConstant? {r : ValueId} {c y : Word} (hmop : MachineOp.ofBinary? op = some mop)
    (h : negatedConstant? ctx mop r = some c) (hy : ctx.func.read ir vals r = some y) :
    op = .sub ∧ op.eval? x y = some (x + c) := by
  unfold negatedConstant? at h
  split at h
  · rename_i k hconst
    obtain ⟨hneg, -⟩ := Option.filter_eq_some_iff.1 h
    obtain rfl := Option.some.inj ((Function.read_of_const hconst).symm.trans hy)
    rw [Word.eq_of_neg? hneg]
    cases op <;> cases hmop
    exact ⟨rfl, congrArg some (Int32.sub_eq_add_neg x _)⟩
  · cases h

variable (hsur : ctx.func.Surrounded ctx.module ir env regs) (hs : s.Sound) (hc : s.Carries ctx ir (regs .sp) vals σ)
  (hl : s.Loads env σ [])

include hsur hc hl hs

omit hsur hc hl hs in
/-- The words below the stack pointer that belong to a placed call. -/
theorem Function.outgoing_of_call {f : Function} {callee : Callee} (hplaced : i ∈ f.placedInsts)
    (hkind : f.kind i = .call callee) (sp : Word) :
    ∀ a ∈ Instr.outgoingPlaces sp ((f.operands i).length - Register.arguments.length), a ∈ f.outgoing sp := by
  intro a ha
  refine List.mem_flatMap.2 ⟨i, hplaced, ?_⟩
  rw [hkind]
  exact ha

omit hs in
/-- The code of a call makes the call, which comes back or not. -/
theorem CallCode.run_call {callee : Callee} {args : List ValueId} {xs : List Word}
    (h : CallCode ctx s (ctx.calleeLabel callee) args code) (hxs : args.mapM (ctx.func.read ir vals) = some xs)
    (hplain : ∀ v ∈ args, ctx.Plain v)
    (hhidden : ∀ a ∈ Instr.outgoingPlaces (regs .sp) (args.length - Register.arguments.length),
      a ∈ ctx.func.outgoing (regs .sp)) (hmemory : m.AgreeOff (ctx.func.outgoing (regs .sp)) σ.memory) :
    (ir.call callee xs m σ.world = none ∧ ∃ front j t σ', code = front ++ [j] ∧ Executes env s front σ t σ' ∧
      t.filter (MachineEvent.isShown (ctx.func.outgoing (regs .sp))) = [] ∧ (∀ op, j.dst? = some op → s.Writable op) ∧
      s.Keeps σ σ' ∧ ∃ last, (IrEvent.call callee xs).lowered ctx.module ir (regs .sp) = [last] ∧
        j.perform env (j.sources.map σ'.read) σ'.plainRegs σ'.memory σ'.world = .error (.halted last)) ∨
    ∃ m' z w' t σ', ir.call callee xs m σ.world = some (m', z, w') ∧ Executes env s code σ t σ' ∧
      t.filter (MachineEvent.isShown (ctx.func.outgoing (regs .sp))) =
        (IrEvent.call callee xs).lowered ctx.module ir (regs .sp) ∧
      s.Keeps σ σ' ∧ σ'.read .v0 = z ∧ m'.AgreeOff (ctx.func.outgoing (regs .sp)) σ'.memory ∧ σ'.world = w' := by
  obtain ⟨front, σ₁, t, rfl, hrun, hhide, hkeeps, hworld, hagree, hargs, hwords⟩ := h.run hsur hc hl hxs hplain hhidden
  have hlength : xs.length = args.length := (mapM_eq_some_iff.1 hxs).length_eq.symm
  have hlabel : ctx.calleeLabel callee = ctx.module.calleeLabel callee := by cases callee <;> rfl
  have hsp : σ₁.plainRegs .sp = regs .sp := hkeeps.pointer.trans hc.pointer
  have hback := hsur.call callee xs m σ₁.memory σ.world σ₁.plainRegs
    (fun a ha => (hagree a ha).trans (hmemory a ha)) hsp (by rw [hlength, hargs]) (by rw [hlength, hwords])
  rw [hlength, ← hlabel] at hback
  -- The event of the call is that of the instruction.
  have hevent : MachineEvent.call (ctx.calleeLabel callee)
      ((Register.arguments.take (min args.length Register.arguments.length)).map σ₁.plainRegs)
      (Instr.outgoingWords (σ₁.plainRegs .sp) (args.length - Register.arguments.length) σ₁.memory) =
      .call (ctx.module.calleeLabel callee) (xs.take Register.arguments.length)
        ((Instr.outgoingPlaces (regs .sp) (xs.length - Register.arguments.length)).zip
          (xs.drop Register.arguments.length)) := by
    rw [← List.take_eq_take_min, hargs, hsp, Instr.outgoingWords_eq, List.map_prod_left_eq_zip, hwords, hlabel, hlength]
  generalize hcall : env.call (ctx.calleeLabel callee) σ₁.plainRegs (args.length - Register.arguments.length) σ₁.memory
    σ.world = answer at hback
  rw [← hworld] at hcall
  cases hanswer : ir.call callee xs m σ.world with
  | none =>
    rw [hanswer] at hback
    cases hback
    refine .inl ⟨rfl, front, _, t, σ₁, rfl, hrun, hhide, fun op hop => (by cases hop), hkeeps, _, rfl, ?_⟩
    unfold Instr.perform
    dsimp only
    rw [hcall, hevent]
  | some r =>
    rw [hanswer] at hback
    obtain ⟨r', rfl, hagree', hv0, hworld'⟩ : ∃ r', answer = some r' ∧ r.1.AgreeOff (ctx.func.outgoing (regs .sp)) r'.1 ∧
        r'.2.1 .v0 = r.2.1 ∧ r'.2.2 = r.2.2 := by
      cases hback with
      | some hrel => exact ⟨_, rfl, hrel⟩
    have hlast := run_call (s := s) (a := min args.length Register.arguments.length) hcall
    rw [hevent] at hlast
    refine .inr ⟨r.1, r.2.1, r.2.2, _, _, rfl, hrun.append hlast, ?_,
      hkeeps.trans ⟨MachineState.overwrite_sp σ₁ r'.2.1, fun _ _ => rfl⟩, hv0, hagree', hworld'⟩
    rw [List.filter_append, hhide]
    rfl

/-- **The code of an instruction** does what the instruction does. -/
theorem InstCode.run {values : List Word} (h : InstCode ctx s i code)
    (hvalues : (ctx.func.operands i).mapM (ctx.func.read ir vals) = some values)
    (hplain : ∀ v ∈ ctx.func.operands i, ctx.Plain v)
    (hplaced : i ∈ ctx.func.placedInsts) (hfits : (ctx.func.kind i).fits (ctx.func.operands i).length = true)
    (hslot : ∀ words v, ctx.func.kind i = .alloca words → ctx.func.result? i = some v → s.slots.lookup v ≠ none)
    (hmemory : m.AgreeOff (ctx.func.outgoing (regs .sp)) σ.memory)
    (hout : ∀ value m' w events, (ctx.func.kind i).perform ir i values m σ.world = .effect value m' w events →
      ∀ e ∈ events, e.isOutside (ctx.func.outgoing (regs .sp)) = true) :
    Instructed ctx s ir env (regs .sp) i code σ ((ctx.func.kind i).perform ir i values m σ.world) := by
  cases h with
  | @compare op l r v n low high code cond lhs rhs hkind hcompare hops hresult hn hcode =>
    rw [hops] at hvalues hplain
    obtain ⟨x, y, rfl, hx, hy⟩ := mapM_two hvalues
    obtain ⟨σ₁, hrun, hchanges, heval⟩ := hcode.run hsur hc hl hx hy fun v hv => hplain v (by simpa using hv)
    rw [hkind, InstKind.perform, heval]
    exact .last hs hrun hchanges hresult hn hmemory rfl rfl
  | @arith op mop l r l' r' v n low mid high code code' lhs rhs hkind hops hmop hsame hresult hn hleft hright =>
    rw [hops] at hvalues hplain
    obtain ⟨x, y, rfl, hx, hy⟩ := mapM_two hvalues
    obtain ⟨σ₁, hrun, hchanges, heval⟩ : ∃ σ₁, Executes env s (code ++ code') σ [] σ₁ ∧ s.Scribbles 0 σ σ₁ ∧
        mop.eval? (σ₁.read lhs) (σ₁.read rhs) = op.eval? x y := by
      simp only [MachineOp.eval?_of_ofBinary? hmop]
      rcases hsame with ⟨rfl, rfl⟩ | ⟨hcomm, rfl, rfl⟩
      · obtain ⟨σ₁, hrun, hlhs, hrhs, hchanges⟩ :=
          hleft.run_right hsur hc hl hright hx hy fun v hv => hplain v (by simpa using hv)
        exact ⟨σ₁, hrun, hchanges, by rw [hlhs, hrhs]⟩
      · obtain ⟨σ₁, hrun, hlhs, hrhs, hchanges⟩ :=
          hleft.run_right hsur hc hl hright hy hx fun v hv => hplain v (by simpa using hv.symm)
        exact ⟨σ₁, hrun, hchanges, by rw [hlhs, hrhs, BinaryOp.eval?_comm hcomm]⟩
    have hperform : (Instr.binary mop (.virtual n) lhs rhs).perform env [σ₁.read lhs, σ₁.read rhs] σ₁.plainRegs σ₁.memory
        σ₁.world = ((mop.eval? (σ₁.read lhs) (σ₁.read rhs)).elim (.error .fault) fun v =>
          .ok { value := some v, memory := σ₁.memory, world := σ₁.world }) := by
      rw [Instr.perform]
      cases mop.eval? (σ₁.read lhs) (σ₁.read rhs) <;> rfl
    rw [heval] at hperform
    rw [hkind, InstKind.perform]
    cases hz : op.eval? x y with
    | none =>
      refine .stop (show code ++ _ ++ [_] = code ++ _ ++ _ :: [] from rfl) hrun rfl (fun op hop => ?_) hchanges.keeps
        (hperform.trans (by rw [hz]; rfl)) fun _ => rfl
      cases hop
      exact hs.writable hn
    | some z => exact .last hs hrun hchanges hresult hn hmemory rfl (hperform.trans (by rw [hz]; rfl))
  | @subtract op mop l r l' r' v n low high code lhs c hkind hops hmop hsame hresult hn hneg hleft =>
    rw [hops] at hvalues hplain
    obtain ⟨x, y, rfl, hx, hy⟩ := mapM_two hvalues
    obtain ⟨rfl, rfl⟩ : l' = l ∧ r' = r := by
      refine hsame.resolve_right fun hswap => ?_
      rw [hswap.2.2] at hneg
      rw [(Select.eval?_of_negatedConstant? (x := x) hmop hneg hx).1] at hswap
      exact Bool.noConfusion hswap.1
    obtain ⟨σ₁, hrun, hlhs, -, hchanges⟩ := hleft.run hsur hc hl hx (hplain _ List.mem_cons_self)
    have heval := (Select.eval?_of_negatedConstant? (x := x) hmop hneg hy).2
    rw [hkind, InstKind.perform, heval]
    refine .last hs hrun (hchanges.mono (Nat.zero_le _)) hresult hn hmemory rfl ?_
    rw [← hlhs]
    rfl
  | @gep multiplier base index v n code hkind hops hresult hn hcode =>
    rw [hops] at hvalues hplain
    obtain ⟨x, y, rfl, hx, hy⟩ := mapM_two hvalues
    obtain ⟨σ₁, hrun, hvalue, hchanges⟩ :=
      hcode.run hsur hc hl (hs.writable hn) hx hy fun v hv => hplain v (by simpa using hv)
    rw [hkind, InstKind.perform]
    exact .computed hrun (hvalue.trans (by rw [Int32.mul_assoc])) hchanges hresult hn hmemory rfl
  | @load base index v n low high code op offset hkind hops hresult hn hcode =>
    rw [hops] at hvalues hplain
    obtain ⟨x, y, rfl, hx, hy⟩ := mapM_two hvalues
    obtain ⟨σ₁, hrun, haddr, -, hchanges⟩ := hcode.run hsur hc hl hx hy fun v hv => hplain v (by simpa using hv)
    rw [hkind, InstKind.perform] at hout ⊢
    have hshown := hout _ _ _ _ rfl _ List.mem_cons_self
    have hword : σ₁.memory (x + y * 4) = m (x + y * 4) := by
      rw [hchanges.memory]
      exact hmemory _ (by simpa [IrEvent.isOutside] using hshown)
    have hload : Executes env s [.load (.virtual n) op offset false] σ₁ [.load (x + y * 4) (m (x + y * 4))]
        (σ₁.write (.virtual n) (m (x + y * 4))) := by
      rw [← hword, ← haddr]
      exact .single (i := .load (.virtual n) op offset false) (fun _ hop => Option.some.inj hop ▸ hs.writable hn) rfl
    refine .computed (hrun.append hload) (σ₁.vregs_write n _)
      ((MachineState.ChangesOnly.mono hchanges fun _ => .inr).trans ((σ₁.changesOnly_write n _).mono fun _ => .inl))
      hresult hn hmemory (List.filter_cons_of_pos hshown)
  | @store base index data low mid high code code' op src offset hkind hops hcode hdata =>
    rw [hops] at hvalues hplain
    obtain ⟨x, y, z, rfl, hx, hy, hz⟩ := mapM_three hvalues
    obtain ⟨σ₁, hrun, haddr, hbefore, hchanges⟩ := hcode.run hsur hc hl hx hy fun v hv => hplain v (by simp; tauto)
    obtain ⟨σ₂, hrun', hsrc, -, hchanges'⟩ := hdata.run hsur (hc.keeps hchanges.keeps) (hl.keeps hchanges.keeps) hz
      (hplain _ (by simp))
    rw [← hchanges'.read hbefore] at haddr
    rw [hkind, InstKind.perform] at hout ⊢
    have hshown := hout _ _ _ _ rfl _ List.mem_cons_self
    have hboth := hchanges.trans hchanges'
    have hstore : Executes env s [.store src op offset] σ₂ [.store (x + y * 4) z]
        { σ₂ with memory := σ₂.memory.set (x + y * 4) z } := by
      rw [← haddr, ← hsrc]
      exact .single (i := .store src op offset) (fun op hop => by cases hop) rfl
    refine .effect ((hrun.append hrun').append hstore) (List.filter_cons_of_pos hshown)
      (congrArg (· Register.sp) hboth.regs) (fun a ha => ?_) hboth.world (fun n hn _ => hboth.vregs n hn)
      (fun _ _ _ hvalue => absurd hvalue (Option.some_ne_none _).symm)
    change (if a = x + y * 4 then z else σ₂.memory a) = if a = x + y * 4 then z else m a
    rw [hboth.memory, hmemory a ha]
  | @call callee code hkind hresult hcode =>
    have hhidden := Function.outgoing_of_call hplaced hkind (regs .sp)
    rw [hkind, InstKind.perform]
    rcases hcode.run_call hsur hc hl hvalues hplain hhidden hmemory with
      ⟨hnone, front, j, t, σ', rfl, hrun, hshown, hdst, hkeeps, last, hlast, hdone⟩ |
      ⟨m', z, w', t, σ', hsome, hrun, hshown, hkeeps, -, hagree, hworld⟩
    · rw [hnone]
      exact .stop rfl hrun hshown hdst hkeeps hdone fun _ => congrArg Ending.halted hlast.symm
    · rw [hsome]
      refine .effect hrun (hshown.trans (List.flatMap_singleton ..).symm) hkeeps.pointer hagree hworld
        (fun n hn _ => hkeeps.vregs n hn) fun v _ hv => ?_
      rw [hresult] at hv
      cases hv
  | @callFor callee v n code hkind hresult hn hcode =>
    have hhidden := Function.outgoing_of_call hplaced hkind (regs .sp)
    rw [hkind, InstKind.perform]
    rcases hcode.run_call hsur hc hl hvalues hplain hhidden hmemory with
      ⟨hnone, front, j, t, σ', rfl, hrun, hshown, hdst, hkeeps, last, hlast, hdone⟩ |
      ⟨m', z, w', t, σ', hsome, hrun, hshown, hkeeps, hv0, hagree, hworld⟩
    · rw [hnone]
      exact .stop (List.append_assoc ..) hrun hshown hdst hkeeps hdone fun _ => congrArg Ending.halted hlast.symm
    · rw [hsome]
      have hmove : Executes env s [.move (.virtual n) .v0] σ' [] (σ'.write (.virtual n) z) :=
        .value rfl (hs.writable hn) (by rw [← hv0]; rfl)
      refine .effect (hrun.silent hmove) (hshown.trans (List.flatMap_singleton ..).symm) hkeeps.pointer hagree hworld
        (fun k hk hother => ?_) (fun u y hu hy _ => ?_)
      · exact ((σ'.changesOnly_write n z).vregs k fun heq => hother v hresult (heq ▸ hn)).trans (hkeeps.vregs k hk)
      · cases hresult.symm.trans hu
        cases hy
        exact ⟨n, hn, σ'.vregs_write n z⟩
  | @print pieces code hkind hcode =>
    obtain ⟨written, hwritten, hprint⟩ := hsur.print
    obtain ⟨σ', hrun, hkeeps, hagree, hworld⟩ := hcode.run hsur hc hl hvalues hplain hwritten
    rw [hkind, InstKind.perform]
    refine .effect hrun ?_ hkeeps.pointer (fun a ha => (hagree a ha).trans (hmemory a ha)) (hworld.trans (hprint _ _ _).symm)
      (fun n hn _ => hkeeps.vregs n hn) (fun _ _ _ hvalue => absurd hvalue (Option.some_ne_none _).symm)
    rw [List.filter_eq_self.2 fun e he => ?_, List.flatMap_singleton]
    · rfl
    · obtain ⟨c, -, rfl⟩ := List.mem_map.1 he
      rfl
  | @alloca words hkind =>
    rw [hkind] at hfits
    obtain rfl : values = [] := by
      rw [List.length_eq_zero_iff.1 (beq_iff_eq.1 hfits)] at hvalues
      exact (Option.some.inj hvalues).symm
    rw [hkind, InstKind.perform]
    exact .effect (.nil σ) rfl rfl hmemory rfl (fun _ _ _ => rfl)
      fun v _ hv _ hnone => absurd hnone (hslot words v hkind hv)

end Code

/-! ## Terminators -/

/-- What the code of a terminator does where the terminator takes an action. -/
inductive Exited (ctx : SelectionContext) (s : Selection) (env : MachineEnv W) (code transfers : List Instr)
    (σ : MachineState W) : InstKind.Action W → Prop
  /-- The transfers go to the block of the target. -/
  | goto {target : BlockId} {k : Nat} {σ' : MachineState W} (hrun : Executes env s code σ [] σ')
      (hchanges : s.Scribbles 0 σ σ') (htarget : ctx.func.layout[k]? = some target) (hleaves : σ'.leavesTo transfers = some k) :
      Exited ctx s env code transfers σ (.goto target)
  /-- The function returns, with the value in the result register if there is one. -/
  | ret {value : Option Word} {σ' : MachineState W} (hrun : Executes env s code σ [] σ')
      (htransfers : transfers = [.ret value.isSome]) (hvalue : ∀ x, value = some x → σ'.regs .v0 = x) :
      Exited ctx s env code transfers σ (.stop (.returned value))

section Code

variable {ctx : SelectionContext} {s : Selection} {env : MachineEnv W} {code transfers : List Instr}
  {ir : IrEnv W} {regs : Register → Word} {vals : ValueId → Option Word} {σ : MachineState W} {i : InstId}

/-- The transfers of a branch go to the block for the word that it reads. -/
theorem Exited.branch {thenBlock elseBlock : BlockId} {t e : Nat} {lhs rhs : Operand} {cond : Cond} {c : Word}
    {σ' : MachineState W} (hrun : Executes env s code σ [] σ') (hchanges : s.Scribbles 0 σ σ')
    (hthen : ctx.func.layout[t]? = some thenBlock) (helse : ctx.func.layout[e]? = some elseBlock)
    (hcond : cond.holds (σ'.read lhs) (σ'.read rhs) = true ↔ c ≠ 0) :
    Exited ctx s env code [.branch cond lhs rhs t, .jump e] σ (.goto (if c ≠ 0 then thenBlock else elseBlock)) := by
  split
  · rename_i hc
    exact .goto hrun hchanges hthen (if_pos (hcond.2 hc))
  · rename_i hc
    exact .goto hrun hchanges helse (if_neg fun h => hc (hcond.1 h))

variable (hsur : ctx.func.Surrounded ctx.module ir env regs) (hc : s.Carries ctx ir (regs .sp) vals σ)
  (hl : s.Loads env σ [])

include hsur hc hl

/-- **The code of a terminator** does what the terminator does. A branch on a comparison that became part of it compares
the words of the operands. -/
theorem ExitCode.run {values : List Word} {m : Memory} {w : W} (h : ExitCode ctx s i code transfers)
    (hvalues : (ctx.func.operands i).mapM (ctx.func.read ir vals) = some values)
    (hfits : (ctx.func.kind i).fits (ctx.func.operands i).length = true)
    (hplain : (ctx.func.kind i).isBranch = false → ∀ v ∈ ctx.func.operands i, ctx.Plain v)
    (hfused : ∀ v op l r, ctx.func.operands i = [v] → ∀ d, ctx.func.definingInst? v = some d → ctx.fused.contains d = true →
      ctx.func.kind d = .binary op → ctx.func.operands d = [l, r] → ∃ x y, ctx.func.read ir vals l = some x ∧
        ctx.func.read ir vals r = some y ∧ ctx.func.read ir vals v = op.eval? x y ∧
        ∀ u, u = l ∨ u = r → ctx.Plain u) :
    Exited ctx s env code transfers σ ((ctx.func.kind i).perform ir i values m w) := by
  cases h with
  | @jump target k hkind htarget =>
    rw [hkind] at hfits
    rw [List.length_eq_zero_iff.1 (beq_iff_eq.1 hfits)] at hvalues
    cases hvalues
    rw [hkind]
    exact .goto (.nil σ) (.refl s 0 σ) htarget rfl
  | ret hkind hops =>
    rw [hops] at hvalues
    cases hvalues
    rw [hkind]
    exact .ret (.nil σ) rfl fun _ hx => absurd hx (Option.some_ne_none _).symm
  | @give v low high code src hkind hops hcode =>
    rw [hops] at hvalues hplain
    obtain ⟨x, rfl, hx⟩ := mapM_one hvalues
    obtain ⟨σ', hrun, hread, -, hchanges⟩ := hcode.run hsur hc hl hx (hplain (by rw [hkind]; rfl) v List.mem_cons_self)
    rw [hkind]
    refine .ret (hrun.append (.value (o := .v0) (x := x) rfl trivial ?_)) rfl fun y hy => ?_
    · rw [← hread]
      rfl
    · cases hy
      exact Function.update_self Register.v0 x σ'.regs
  | @branch thenBlock elseBlock t e v low high code lhs hkind hops hthen helse hunfused hcode =>
    rw [hops] at hvalues
    obtain ⟨x, rfl, hx⟩ := mapM_one hvalues
    obtain ⟨σ', hrun, hread, -, hchanges⟩ := hcode.run hsur hc hl hx hunfused
    rw [hkind]
    refine Exited.branch hrun (hchanges.mono (Nat.zero_le _)) hthen helse ?_
    rw [hread]
    change (x != 0) = true ↔ x ≠ 0
    exact bne_iff_ne
  | @fused thenBlock elseBlock t e d v l r op low high code cond lhs rhs hkind hops hthen helse hd hcontains hcompare hargs
      hcode =>
    obtain ⟨x, y, hx, hy, hv, hunfused⟩ := hfused v op l r hops d hd hcontains hcompare hargs
    rw [hops] at hvalues
    obtain ⟨z, rfl, hz⟩ := mapM_one hvalues
    obtain ⟨σ', hrun, hchanges, heval⟩ := hcode.run hsur hc hl hx hy hunfused
    rw [hkind]
    refine Exited.branch hrun hchanges hthen helse ?_
    obtain rfl : z = Word.ofBool (cond.holds (σ'.read lhs) (σ'.read rhs)) :=
      Option.some.inj (hz.symm.trans (hv.trans heval))
    cases cond.holds (σ'.read lhs) (σ'.read rhs) <;> decide

end Code

end SsaCompiler
