import SsaCompiler.Proofs.Machine.EncodableCode
import SsaCompiler.Proofs.Machine.StraightRuns

/-!
# Running the code of operands

Straight code for an operand leaves the word of its value in the operand, code for two operands leaves both, and code for
the base and the offset of an element leaves its address as their sum. All of it writes scratch only, so what was there
before is still there: the words of values and labels (`Selection.Carries`), and operands that come from earlier code
(`Operand.Before`).
-/

set_option autoImplicit false

namespace SsaCompiler

variable {W : Type}

/-! ## Words -/

variable {cond : Cond} {scale : Word}

namespace Word

variable {a b c : Word}

/-- A sum in range is the wrapped sum. -/
theorem eq_of_add? (h : Word.add? a b = some c) : c = a + b := by
  rw [← Int32.ofInt_toInt c, Word.toInt_of_ofInt? h, Int32.ofInt_add, Int32.ofInt_toInt, Int32.ofInt_toInt]

/-- A product in range is the wrapped product. -/
theorem eq_of_mul? (h : Word.mul? a b = some c) : c = a * b := by
  rw [← Int32.ofInt_toInt c, Word.toInt_of_ofInt? h, Int32.ofInt_mul, Int32.ofInt_toInt, Int32.ofInt_toInt]

/-- A negation in range is the wrapped negation. -/
theorem eq_of_neg? (h : Word.neg? a = some c) : c = -a := by
  rw [← Int32.ofInt_toInt c, Word.toInt_of_ofInt? h, Int32.ofInt_neg, Int32.ofInt_toInt]

variable {k : Nat}

/-- Shifting multiplies by a power of two. -/
theorem shiftLeft_eq_mul (hk : k < 32) (a : Word) : a <<< Int32.ofNat k = a * Int32.ofNat (2 ^ k) := by
  have hamount : ∀ k < 32, (BitVec.ofNat 32 k).smod 32 = BitVec.ofNat 32 k := by decide
  apply Int32.toBitVec_inj.1
  rw [Int32.toBitVec_shiftLeft, Int32.toBitVec_mul]
  change a.toBitVec <<< (BitVec.ofNat 32 k).smod 32 = a.toBitVec * BitVec.ofNat 32 (2 ^ k)
  rw [hamount k hk, BitVec.shiftLeft_eq', BitVec.shiftLeft_eq_mul_twoPow, BitVec.toNat_ofNat, Nat.mod_eq_of_lt (by omega)]
  congr 1
  apply BitVec.eq_of_toNat_eq
  rw [BitVec.toNat_twoPow, BitVec.toNat_ofNat]

/-- Shifting by the exponent of a scale multiplies by the scale. -/
theorem shiftLeft_powerOfTwo (h : powerOfTwo? scale.toInt.toNat = some k) (a : Word) :
    a <<< Int32.ofNat k = a * scale := by
  have hvalue : scale.toInt.toNat = 2 ^ k := by
    unfold powerOfTwo? at h
    split at h
    · rename_i hpower
      cases h
      rw [Bool.and_eq_true, decide_eq_true_iff, decide_eq_true_iff, Nat.one_shiftLeft] at hpower
      exact hpower.2.symm
    · cases h
  have hle : scale.toInt < 2 ^ 31 := scale.toInt_lt
  have hpow : 2 ^ k < 2 ^ 31 := by omega
  have hk : k < 31 := (Nat.pow_lt_pow_iff_right (by omega)).1 hpow
  have hscale : scale = Int32.ofNat (2 ^ k) := by
    have hpos : 0 < 2 ^ k := Nat.two_pow_pos k
    rw [← hvalue, ← Int32.ofInt_eq_ofNat, Int.toNat_of_nonneg (by omega), Int32.ofInt_toInt]
  rw [shiftLeft_eq_mul (by omega), hscale]

end Word

/-- An operator with its operands exchanged. -/
theorem BinaryOp.eval?_swapped {op op' : BinaryOp} (h : op.swapped? = some op') (x y : Word) :
    op.eval? x y = op'.eval? y x := by
  cases op <;> cases h <;>
    simp only [eval?, Int32.add_comm, Int32.mul_comm, Int32.and_comm, Int32.or_comm, bne, Bool.beq_comm]

/-- A commutative operator is its own mirror image. -/
theorem BinaryOp.eval?_comm {op : BinaryOp} (h : op.isCommutative = true) (x y : Word) : op.eval? x y = op.eval? y x := by
  refine eval?_swapped ?_ x y
  cases op <;> first | rfl | cases h

/-- A comparison sets the truth of its condition. -/
theorem Cond.eval?_of_ofBinary? {op : BinaryOp} (h : Cond.ofBinary? op = some cond) (x y : Word) :
    op.eval? x y = some (Word.ofBool (cond.holds x y)) := by
  cases op <;> cases h <;> rfl

/-! ## States that carry the words of values -/

/-- The addresses of the words below the stack pointer that belong to a call. -/
def Instr.outgoingPlaces (sp : Word) (count : Nat) : List Word :=
  (List.range count).map fun j => sp - Int32.ofNat (4 * count) + Int32.ofNat (4 * j)

/-- The words that belong to a call are at these places. -/
theorem Instr.outgoingWords_eq (sp : Word) (count : Nat) (m : Memory) :
    outgoingWords sp count m = (outgoingPlaces sp count).map fun a => (a, m a) := by
  rw [outgoingPlaces, List.map_map]
  rfl

/-- The words below the stack pointer that belong to the calls of a function. -/
def Function.outgoing (f : Function) (sp : Word) : List Word :=
  f.placedInsts.flatMap fun i =>
    match f.kind i with
    | .call _ => Instr.outgoingPlaces sp ((f.operands i).length - Register.arguments.length)
    | _ => []

/-- The label that a call goes to. -/
def Module.calleeLabel (m : Module) : Callee → String
  | .func id => functionLabel (m.function id).name
  | .builtin b => b.label

/-- The calls that print pieces, with the words for them. -/
def IrEnv.pieceCalls (ir : IrEnv W) : List PrintPiece → List Word → List (Builtin × Word)
  | [], _ => []
  | .str id :: pieces, args => (.putStr, ir.str id) :: ir.pieceCalls pieces args
  | .arg :: pieces, x :: args => (.putInt, x) :: ir.pieceCalls pieces args
  | .arg :: _, [] => []

/-- What surrounds a function and what surrounds its machine code are the same. A slot is at its offset from the stack
pointer, globals and strings are at the addresses of their labels, and the arguments are in the argument registers and in
the words that the caller passed. Callees know their arguments from the argument registers and from the words below the
stack pointer, and apart from that they neither read nor write these words of the function. A print is a sequence of
calls. -/
structure Function.Surrounded (f : Function) (m : Module) (ir : IrEnv W) (env : MachineEnv W) (regs : Register → Word) :
    Prop where
  slot : ∀ i, ir.slot i = regs .sp + Int32.ofInt (f.slotOffset i)
  global : ∀ g global, m.globals[g]? = some global → env.address (globalLabel global.name) = some (ir.global g)
  str : ∀ id string, m.strings[id]? = some string → env.address (stringLabel string.name) = some (ir.str id)
  arg : ∀ k r, Register.arguments[k]? = some r → ir.arg k = regs r
  passed : ∀ k, k + Register.arguments.length < f.params.length →
    ir.arg (k + Register.arguments.length) = env.incoming (regs .sp + Int32.ofNat (4 * k))
  call : ∀ callee args m₁ m₂ w rs, m₁.AgreeOff (f.outgoing (regs .sp)) m₂ → rs .sp = regs .sp →
    (Register.arguments.take args.length).map rs = args.take Register.arguments.length →
    (Instr.outgoingPlaces (regs .sp) (args.length - Register.arguments.length)).map m₂ =
      args.drop Register.arguments.length →
    Option.Rel (fun r r' => r.1.AgreeOff (f.outgoing (regs .sp)) r'.1 ∧ r'.2.1 .v0 = r.2.1 ∧ r'.2.2 = r.2.2)
      (ir.call callee args m₁ w) (env.call (m.calleeLabel callee) rs (args.length - Register.arguments.length) m₂ w)
  print : ∃ written : Builtin → Word → W → W,
    (∀ b, b = .putStr ∨ b = .putInt → ∀ rs m w, rs .sp = regs .sp → ∃ m' rs',
      env.call b.label rs 0 m w = some (m', rs', written b (rs .a0) w) ∧ m.AgreeOff (f.outgoing (regs .sp)) m') ∧
    ∀ pieces args w, ir.print pieces args w = (ir.pieceCalls pieces args).foldl (fun w c => written c.1 c.2 w) w

/-- A value is not the result of a comparison that became part of its branch. -/
def SelectionContext.Plain (ctx : SelectionContext) (v : ValueId) : Prop :=
  ∀ d, ctx.func.definingInst? v = some d → ctx.fused.contains d = false

/-- A state carries the words of values: the slots are at their offsets from the stack pointer, and the words of other
values are in their registers, but for those of comparisons that became part of their branch. -/
structure Selection.Carries (ctx : SelectionContext) (s : Selection) (ir : IrEnv W) (sp : Word)
    (vals : ValueId → Option Word) (σ : MachineState W) : Prop where
  pointer : σ.regs .sp = sp
  slots : ∀ v offset x, s.slots.lookup v = some offset → ctx.func.read ir vals v = some x → x = sp + offset
  values : ∀ v n x, (ctx.func.value v).kind.isComputed = true →
    ctx.Plain v → s.slots.lookup v = none →
    s.Belongs n (.value v) → ctx.func.read ir vals v = some x → σ.vregs n = x

/-- Some code changes nothing but scratch from some register on. -/
def Selection.Scribbles (s : Selection) (low : Nat) (σ σ' : MachineState W) : Prop :=
  σ.ChangesOnly (s.Scratch low s.code.vregCount) σ'

/-- Some code keeps the stack pointer and all registers with owners. -/
structure Selection.Keeps (s : Selection) (σ σ' : MachineState W) : Prop where
  pointer : σ'.regs .sp = σ.regs .sp
  vregs : ∀ n, ¬ s.Scratch 0 s.code.vregCount n → σ'.vregs n = σ.vregs n

/-- An operand that later code does not write: its register has an owner, or it is of earlier code. -/
def Operand.Before (s : Selection) (bound : Nat) (op : Operand) : Prop :=
  ∀ n, op = .virtual n → n < bound ∨ ∃ o, s.Belongs n o

variable {v : ValueId} {x : Word}

/-- A number is its own word. -/
theorem Function.read_of_const {f : Function} {ir : IrEnv W} {vals : ValueId → Option Word} {c : Word}
    (h : f.const? v = some c) : f.read ir vals v = some c := by
  unfold read
  unfold const? at h
  cases hkind : (f.value v).kind <;> simp_all [ValueData.const?]

section States

variable {ctx : SelectionContext} {s : Selection} {ir : IrEnv W} {env : MachineEnv W} {sp : Word}
  {vals : ValueId → Option Word} {σ σ₁ σ₂ : MachineState W} {low low' high n : Nat} {op : Operand}

/-- A register without owner can be written. -/
theorem Selection.Scratch.writable (h : s.Scratch low high n) : s.Writable (.virtual n) := fun name => h.free (.label name)

/-- The register of a value can be written. -/
theorem Selection.Sound.writable (hs : s.Sound) (hn : s.Belongs n (.value v)) : s.Writable (.virtual n) :=
  fun _ hlabel => nomatch hs.single _ _ _ hn hlabel

/-- Scratch of a part is scratch from an earlier register on. -/
theorem Selection.Scratch.onward (h : s.Scratch low high n) (hle : low' ≤ low) : s.Scratch low' s.code.vregCount n :=
  ⟨hle.trans h.low, h.counted, h.counted, h.free⟩

theorem Selection.Scribbles.refl (s : Selection) (low : Nat) (σ : MachineState W) : s.Scribbles low σ σ :=
  MachineState.ChangesOnly.refl _ σ

theorem Selection.Scribbles.mono (h : s.Scribbles low σ σ₁) (hle : low' ≤ low) : s.Scribbles low' σ σ₁ :=
  MachineState.ChangesOnly.mono h fun _ hn => hn.onward hle

theorem Selection.Scribbles.trans (h : s.Scribbles low σ σ₁) (h' : s.Scribbles low' σ₁ σ₂) : s.Scribbles 0 σ σ₂ :=
  MachineState.ChangesOnly.trans (h.mono (Nat.zero_le _)) (h'.mono (Nat.zero_le _))

theorem Operand.Before.mono (h : op.Before s low) (hle : low ≤ high) : op.Before s high :=
  fun n hn => (h n hn).imp_left fun hlt => hlt.trans_le hle

theorem Operand.Before.scratch (h : op.Before s low) : ∀ n, op = .virtual n → ¬ s.Scratch low high n := by
  rintro n rfl hn
  rcases h n rfl with hlt | ⟨o, ho⟩
  · exact absurd hn.low (Nat.not_le.2 hlt)
  · exact hn.free o ho

/-- Scratch of later code does not touch an operand. -/
theorem Selection.Scribbles.read (h : s.Scribbles low σ σ₁) (hop : op.Before s low) : σ₁.read op = σ.read op :=
  MachineState.ChangesOnly.read h hop.scratch

theorem Operand.before_fixed (s : Selection) (low : Nat) (r : Register) : (Operand.fixed r).Before s low := fun _ h => nomatch h

theorem Operand.before_immediate (s : Selection) (low : Nat) (c : Word) : (Operand.immediate c).Before s low :=
  fun _ h => nomatch h

theorem Selection.Keeps.refl (s : Selection) (σ : MachineState W) : s.Keeps σ σ := ⟨rfl, fun _ _ => rfl⟩

theorem Selection.Keeps.trans (h : s.Keeps σ σ₁) (h' : s.Keeps σ₁ σ₂) : s.Keeps σ σ₂ :=
  ⟨h'.pointer.trans h.pointer, fun n hn => (h'.vregs n hn).trans (h.vregs n hn)⟩

/-- Scratch is nobody's. -/
theorem Selection.Scribbles.keeps (h : s.Scribbles low σ σ₁) : s.Keeps σ σ₁ :=
  ⟨congrArg (· Register.sp) h.regs, (h.mono (Nat.zero_le _)).vregs⟩

/-- Values keep their words. -/
theorem Selection.Carries.keeps (h : s.Carries ctx ir sp vals σ) (hkeeps : s.Keeps σ σ₁) : s.Carries ctx ir sp vals σ₁ where
  pointer := hkeeps.pointer.trans h.pointer
  slots := h.slots
  values v n x hkind hplain hslot hn hx := (hkeeps.vregs n fun hscratch => hscratch.free _ hn).trans
    (h.values v n x hkind hplain hslot hn hx)

/-- Labels keep their addresses. -/
theorem Selection.Loads.keeps (h : s.Loads env σ []) (hkeeps : s.Keeps σ σ₁) : s.Loads env σ₁ [] := by
  intro n name hn
  rw [hkeeps.vregs n fun hscratch => hscratch.free _ hn]
  exact h n name hn

/-- A label that is the word of a value has it in its register. -/
theorem Selection.Loads.address {regs : Register → Word} (hl : s.Loads env σ [])
    (hsur : ctx.func.Surrounded ctx.module ir env regs) {name : String}
    (hname : ctx.module.label? (ctx.func.value v).kind = some name) (hn : s.Belongs n (.label name))
    (hx : ctx.func.read ir vals v = some x) : σ.vregs n = x := by
  have haddr := (hl n name hn).resolve_right List.not_mem_nil
  unfold Function.read at hx
  cases hkind : (ctx.func.value v).kind with
  | inst | param | const =>
    rw [hkind] at hname
    cases hname
  | global g =>
    rw [hkind] at hname hx
    obtain ⟨global, hglobal, rfl⟩ := Option.map_eq_some_iff.1 hname
    rw [hsur.global g global hglobal] at haddr
    exact (Option.some.inj haddr).symm.trans (Option.some.inj hx)
  | str id =>
    rw [hkind] at hname hx
    obtain ⟨string, hstring, rfl⟩ := Option.map_eq_some_iff.1 hname
    rw [hsur.str id string hstring] at haddr
    exact (Option.some.inj haddr).symm.trans (Option.some.inj hx)

/-- Writing a register. -/
theorem MachineState.changesOnly_write (σ : MachineState W) (n : Nat) (x : Word) :
    σ.ChangesOnly (· = n) (σ.write (.virtual n) x) := by
  refine ⟨rfl, rfl, rfl, fun k hk => ?_⟩
  change Function.update σ.vregs n x k = σ.vregs k
  exact Function.update_of_ne hk x σ.vregs

@[simp] theorem MachineState.vregs_write (σ : MachineState W) (n : Nat) (x : Word) :
    (σ.write (.virtual n) x).vregs n = x := by
  change Function.update σ.vregs n x n = x
  exact Function.update_self n x σ.vregs

/-- The stack pointer as an operand. -/
theorem Selection.Carries.read_sp (h : s.Carries ctx ir sp vals σ) : σ.read .sp = sp := h.pointer

end States

/-! ## Operands -/

section Code

variable {ctx : SelectionContext} {s : Selection} (env : MachineEnv W) {low high mid : Nat} {code code' : List Instr}

variable {src : Operand}

variable {t : Nat} {lhs op rhs : Operand} {c y : Word}

/-- Code that adds a number. -/
theorem AddCode.run (h : AddCode s low high (.virtual t) src c code) (ht : s.Writable (.virtual t))
    (hsrc : src.Before s low) (σ : MachineState W) : ∃ σ', Executes env s code σ [] σ' ∧ σ'.vregs t = σ.read src + c ∧
      σ.ChangesOnly (fun n => n = t ∨ s.Scratch low s.code.vregCount n) σ' := by
  cases h with
  | near =>
    exact ⟨σ.write (.virtual t) (σ.read src + c), .value rfl ht rfl, σ.vregs_write t _,
      (σ.changesOnly_write t _).mono fun _ => .inl⟩
  | @far n hn =>
    have hfirst := σ.changesOnly_write n c
    have hread : (σ.write (.virtual n) c).read src = σ.read src := hfirst.read fun k hk heq => hsrc.scratch k hk (heq ▸ hn)
    have hsum : (σ.write (.virtual n) c).read src + (σ.write (.virtual n) c).read (.virtual n) = σ.read src + c := by
      rw [hread]
      exact congrArg (_ + ·) (σ.vregs_write n c)
    refine ⟨_, (Executes.value rfl hn.writable rfl).append (.value rfl ht rfl), ?_, ?_⟩
    · exact (MachineState.vregs_write _ t _).trans hsum
    · exact (hfirst.mono fun k hk => .inr (hk ▸ hn.onward (Nat.le_refl _))).trans ((MachineState.changesOnly_write _ t _).mono fun _ => .inl)

/-- Code that adds a number and writes the sum to scratch. -/
theorem AddCode.scratch (h : AddCode s low high (.virtual t) src c code) (ht : s.Scratch low high t)
    (hsrc : src.Before s low) (σ : MachineState W) :
    ∃ σ', Executes env s code σ [] σ' ∧ σ'.read (.virtual t) = σ.read src + c ∧ s.Scribbles low σ σ' := by
  obtain ⟨σ', hrun, hsum, hchanges⟩ := h.run env ht.writable hsrc σ
  refine ⟨σ', hrun, hsum, hchanges.mono ?_⟩
  rintro n (rfl | hn)
  · exact ht.onward (Nat.le_refl _)
  · exact hn

/-- Code that brings an offset into range keeps the sum of base and offset. -/
theorem FoldCode.run {base : Operand} {offset offset' : Word} (h : FoldCode s low high base offset code op offset')
    (hbase : base.Before s low) (hle : low ≤ high) (σ : MachineState W) : ∃ σ', Executes env s code σ [] σ' ∧
      σ'.read op + offset' = σ.read base + offset ∧ op.Before s high ∧ s.Scribbles low σ σ' := by
  cases h with
  | near => exact ⟨σ, .nil σ, rfl, hbase.mono hle, .refl s low σ⟩
  | @far n code hn hcode =>
    obtain ⟨σ', hrun, hsum, hchanges⟩ := hcode.scratch env hn hbase σ
    refine ⟨σ', hrun, ?_, fun k hk => .inl (Operand.virtual.inj hk ▸ hn.high), hchanges⟩
    rw [hsum, Int32.add_zero]

theorem ScaleCode.run {n : Nat} (h : ScaleCode s low high (.virtual n) src scale code) (hn : s.Scratch low high n)
    (hsrc : src.Before s low) (σ : MachineState W) : ∃ σ', Executes env s code σ [] σ' ∧
      σ'.vregs n = σ.read src * scale ∧ s.Scribbles low σ σ' := by
  cases h with
  | @shift k hk =>
    refine ⟨σ.write (.virtual n) (σ.read src <<< Int32.ofNat k), .value rfl hn.writable rfl, ?_, ?_⟩
    · rw [MachineState.vregs_write, Word.shiftLeft_powerOfTwo hk]
    · exact (σ.changesOnly_write n _).mono fun _ hk => hk ▸ hn.onward (Nat.le_refl _)
  | @factor t ht =>
    have hfirst : s.Scribbles low σ (σ.write (.virtual t) scale) :=
      (σ.changesOnly_write t scale).mono fun _ hk => hk ▸ ht.onward (Nat.le_refl _)
    refine ⟨_, (Executes.value rfl ht.writable rfl).append (.value rfl hn.writable rfl), ?_, ?_⟩
    · refine (MachineState.vregs_write _ n _).trans ?_
      change (σ.write (.virtual t) scale).read src * (σ.write (.virtual t) scale).vregs t = _
      rw [hfirst.read hsrc, MachineState.vregs_write]
    · exact MachineState.ChangesOnly.trans hfirst
        ((MachineState.changesOnly_write _ n _).mono fun _ hk => hk ▸ hn.onward (Nat.le_refl _))

/-- An index is scaled, and a start is added to it. -/
theorem run_scaled {n : Nat} (idx : Operand) {start : Operand} (hn : s.Scratch low high n) (ht : s.Scratch low high t)
    (hstart : start.Before s low) (σ : MachineState W) : ∃ σ', Executes env s
      [.binary .sll (.virtual n) idx (.immediate 2), .binary .addu (.virtual t) (.virtual n) start] σ [] σ' ∧
      σ'.read (.virtual t) = σ.read idx * 4 + σ.read start ∧ s.Scribbles low σ σ' := by
  have hfirst : s.Scribbles low σ (σ.write (.virtual n) (σ.read idx <<< 2)) :=
    (σ.changesOnly_write n _).mono fun _ hk => hk ▸ hn.onward (Nat.le_refl _)
  refine ⟨_, (Executes.value (i := .binary .sll (.virtual n) idx (.immediate 2)) rfl hn.writable rfl).append
    (.value (i := .binary .addu (.virtual t) (.virtual n) start) rfl ht.writable rfl), ?_, ?_⟩
  · refine (MachineState.vregs_write _ t _).trans ?_
    change (σ.write (.virtual n) (σ.read idx <<< 2)).vregs n + (σ.write (.virtual n) (σ.read idx <<< 2)).read start = _
    rw [hfirst.read hstart, MachineState.vregs_write]
    exact congrArg (· + _) (Word.shiftLeft_eq_mul (by decide : 2 < 32) _)
  · exact MachineState.ChangesOnly.trans hfirst
      ((MachineState.changesOnly_write _ t _).mono fun _ hk => hk ▸ ht.onward (Nat.le_refl _))

variable {env} {ir : IrEnv W} {regs : Register → Word} {vals : ValueId → Option Word} {σ : MachineState W}
  (hsur : ctx.func.Surrounded ctx.module ir env regs) (hc : s.Carries ctx ir (regs .sp) vals σ)
  (hl : s.Loads env σ [])

include hsur hc hl

theorem OperandCode.run (h : OperandCode ctx s low high v code op) (hx : ctx.func.read ir vals v = some x)
    (hplain : ctx.Plain v) :
    ∃ σ', Executes env s code σ [] σ' ∧ σ'.read op = x ∧ op.Before s high ∧ s.Scribbles low σ σ' := by
  cases h with
  | @number c hslot hkind =>
    refine ⟨σ, .nil σ, ?_, Operand.before_immediate s high c, .refl s low σ⟩
    unfold Function.read at hx
    rw [hkind] at hx
    exact Option.some.inj hx
  | @address n name hslot hname hn =>
    exact ⟨σ, .nil σ, hl.address hsur hname hn hx, fun k hk => .inr ⟨_, Operand.virtual.inj hk ▸ hn⟩, .refl s low σ⟩
  | @register n hslot hkind hn =>
    exact ⟨σ, .nil σ, hc.values v n x hkind hplain hslot hn hx, fun k hk => .inr ⟨_, Operand.virtual.inj hk ▸ hn⟩,
      .refl s low σ⟩
  | @slot n offset code hslot hn hcode =>
    obtain ⟨σ', hrun, hsum, hchanges⟩ := hcode.scratch env hn (Operand.before_fixed s low _) σ
    refine ⟨σ', hrun, ?_, fun k hk => .inl (Operand.virtual.inj hk ▸ hn.high), hchanges⟩
    rw [hsum, hc.slots v offset x hslot hx, hc.read_sp]

theorem RegisterCode.run {v : ValueId} {op : Operand} {x : Word} (h : RegisterCode ctx s low high v code op)
    (hx : ctx.func.read ir vals v = some x) (hplain : ctx.Plain v) :
    ∃ σ', Executes env s code σ [] σ' ∧ σ'.read op = x ∧ op.Before s high ∧ s.Scribbles low σ σ' := by
  have hnumber : ∀ {c}, (ctx.func.value v).kind = .const c → x = c := by
    intro c hkind
    unfold Function.read at hx
    rw [hkind] at hx
    exact (Option.some.inj hx).symm
  cases h with
  | zero hslot hkind => exact ⟨σ, .nil σ, (hnumber hkind).symm, Operand.before_fixed s high _, .refl s low σ⟩
  | @number c n hslot hkind hn =>
    refine ⟨σ.write (.virtual n) c, .value rfl hn.writable rfl, ?_,
      fun k hk => .inl (Operand.virtual.inj hk ▸ hn.high), (σ.changesOnly_write n c).mono fun k hk => ?_⟩
    · exact (σ.vregs_write n c).trans (hnumber hkind).symm
    · exact hk ▸ hn.onward (Nat.le_refl _)
  | operand h => exact h.run hsur hc hl hx hplain

theorem RightCode.run {v : ValueId} {op : Operand} {x : Word} (h : RightCode ctx s low high v code op)
    (hx : ctx.func.read ir vals v = some x) (hplain : ctx.Plain v) :
    ∃ σ', Executes env s code σ [] σ' ∧ σ'.read op = x ∧ s.Scribbles low σ σ' := by
  cases h with
  | @number c hconst =>
    refine ⟨σ, .nil σ, ?_, .refl s low σ⟩
    exact Option.some.inj ((Function.read_of_const hconst).symm.trans hx)
  | register h =>
    obtain ⟨σ', hrun, hread, -, hchanges⟩ := h.run hsur hc hl hx hplain
    exact ⟨σ', hrun, hread, hchanges⟩

theorem RegisterCode.run_right {l r : ValueId} (h : RegisterCode ctx s low mid l code lhs)
    (h' : RightCode ctx s mid high r code' rhs) (hx : ctx.func.read ir vals l = some x)
    (hy : ctx.func.read ir vals r = some y) (hplain : ∀ v, v = l ∨ v = r → ctx.Plain v) :
    ∃ σ', Executes env s (code ++ code') σ [] σ' ∧ σ'.read lhs = x ∧ σ'.read rhs = y ∧ s.Scribbles 0 σ σ' := by
  obtain ⟨σ₁, hrun, hlhs, hbefore, hchanges⟩ := h.run hsur hc hl hx (hplain l (.inl rfl))
  obtain ⟨σ₂, hrun', hrhs, hchanges'⟩ :=
    h'.run hsur (hc.keeps hchanges.keeps) (hl.keeps hchanges.keeps) hy (hplain r (.inr rfl))
  exact ⟨σ₂, hrun.append hrun', (hchanges'.read hbefore).trans hlhs, hrhs, hchanges.trans hchanges'⟩

/-- Code of the operands of a comparison leaves two words whose condition is the word of the comparison. -/
theorem CompareCode.run {op : BinaryOp} {l r : ValueId} (h : CompareCode ctx s low high op l r code cond lhs rhs)
    (hx : ctx.func.read ir vals l = some x) (hy : ctx.func.read ir vals r = some y)
    (hplain : ∀ v, v = l ∨ v = r → ctx.Plain v) : ∃ σ', Executes env s code σ [] σ' ∧ s.Scribbles 0 σ σ' ∧
      op.eval? x y = some (Word.ofBool (cond.holds (σ'.read lhs) (σ'.read rhs))) := by
  cases h with
  | mk hsame hcond hleft hright =>
    rcases hsame with ⟨rfl, rfl, rfl⟩ | ⟨hswapped, rfl, rfl⟩
    · obtain ⟨σ', hrun, hlhs, hrhs, hchanges⟩ := hleft.run_right hsur hc hl hright hx hy hplain
      exact ⟨σ', hrun, hchanges, by rw [hlhs, hrhs, Cond.eval?_of_ofBinary? hcond]⟩
    · obtain ⟨σ', hrun, hlhs, hrhs, hchanges⟩ := hleft.run_right hsur hc hl hright hy hx fun v hv => hplain v hv.symm
      exact ⟨σ', hrun, hchanges, by rw [hlhs, hrhs, BinaryOp.eval?_swapped hswapped, Cond.eval?_of_ofBinary? hcond]⟩

/-! ## Addresses -/

theorem StartCode.run {base : ValueId} {op : Operand} {offset x : Word} (h : StartCode ctx s low high base code op offset)
    (hx : ctx.func.read ir vals base = some x) (hplain : ctx.Plain base) :
    ∃ σ', Executes env s code σ [] σ' ∧ σ'.read op + offset = x ∧ op.Before s high ∧ s.Scribbles low σ σ' := by
  cases h with
  | slot hslot =>
    refine ⟨σ, .nil σ, ?_, Operand.before_fixed s high _, .refl s low σ⟩
    rw [hc.slots base offset x hslot hx, hc.read_sp]
  | register hslot h =>
    obtain ⟨σ', hrun, hread, hbefore, hchanges⟩ := h.run hsur hc hl hx hplain
    exact ⟨σ', hrun, by rw [hread, Int32.add_zero], hbefore, hchanges⟩

/-- Code of the base and the offset of an element. -/
theorem AddressCode.run {base index : ValueId} {op : Operand} {offset x y : Word}
    (h : AddressCode ctx s low high base index code op offset) (hx : ctx.func.read ir vals base = some x)
    (hy : ctx.func.read ir vals index = some y) (hplain : ∀ v, v = base ∨ v = index → ctx.Plain v) :
    ∃ σ', Executes env s code σ [] σ' ∧ σ'.read op + offset = x + y * 4 ∧ op.Before s high ∧ s.Scribbles 0 σ σ' := by
  cases h with
  | fixed hconst hstart hle hfold =>
    obtain ⟨σ₁, hrun, hsum, hbefore, hchanges⟩ := hstart.run hsur hc hl hx (hplain base (.inl rfl))
    obtain ⟨σ₂, hrun', hsum', hbefore', hchanges'⟩ := hfold.run env hbefore hle σ₁
    refine ⟨σ₂, hrun.append hrun', ?_, hbefore', hchanges.trans hchanges'⟩
    obtain rfl := Option.some.inj ((Function.read_of_const hconst).symm.trans hy)
    rw [hsum', ← Int32.add_assoc, hsum]
  | @scaled offset₁ _ mid mid' top n t code code' code'' start idx op hstart hle hindex hn ht htop hfold =>
    obtain ⟨σ₁, hrun, hsum, hbefore, hchanges⟩ := hstart.run hsur hc hl hx (hplain base (.inl rfl))
    obtain ⟨σ₂, hrun', hread, hbefore', hchanges'⟩ :=
      hindex.run hsur (hc.keeps hchanges.keeps) (hl.keeps hchanges.keeps) hy (hplain index (.inr rfl))
    obtain ⟨σ₃, hrun'', htotal, hchanges''⟩ := run_scaled env idx hn ht (hbefore.mono hle) σ₂
    obtain ⟨σ₄, hrun''', hsum', hbefore'', hchanges'''⟩ :=
      hfold.run env (fun k hk => .inl (Operand.virtual.inj hk ▸ ht.high)) htop σ₃
    refine ⟨σ₄, ((hrun.append hrun').append hrun'').append hrun''', ?_, hbefore'',
      ((hchanges.trans hchanges').trans hchanges'').trans hchanges'''⟩
    rw [hsum', htotal, hread, hchanges'.read hbefore, ← hsum]
    grind

theorem ElementCode.run {t : Nat} {base index : ValueId} {scale x y : Word}
    (h : ElementCode ctx s (.virtual t) base index scale code) (ht : s.Writable (.virtual t))
    (hx : ctx.func.read ir vals base = some x) (hy : ctx.func.read ir vals index = some y)
    (hplain : ∀ v, v = base ∨ v = index → ctx.Plain v) :
    ∃ σ', Executes env s code σ [] σ' ∧ σ'.vregs t = x + y * scale ∧
      σ.ChangesOnly (fun n => n = t ∨ s.Scratch 0 s.code.vregCount n) σ' := by
  have hfirst : ∀ {low σ₁}, s.Scribbles low σ σ₁ → σ.ChangesOnly (fun n => n = t ∨ s.Scratch 0 s.code.vregCount n) σ₁ :=
    fun hchanges => MachineState.ChangesOnly.mono hchanges fun _ hn => .inr (hn.onward (Nat.zero_le _))
  cases h with
  | fixed hconst hstart hadd =>
    obtain ⟨σ₁, hrun, hsum, hbefore, hchanges⟩ := hstart.run hsur hc hl hx (hplain base (.inl rfl))
    obtain ⟨σ₂, hrun', hsum', hchanges'⟩ := hadd.run env ht hbefore σ₁
    refine ⟨σ₂, hrun.append hrun', ?_, (hfirst hchanges).trans (hchanges'.mono fun _ hn => hn.imp_right fun hn => ?_)⟩
    · obtain rfl := Option.some.inj ((Function.read_of_const hconst).symm.trans hy)
      rw [hsum', ← Int32.add_assoc, hsum]
    · exact hn.onward (Nat.zero_le _)
  | @scaled _ mid mid' _ n _ _ _ idx start hindex hn hscale hstart =>
    obtain ⟨σ₁, hrun, hread, hbefore, hchanges⟩ := hindex.run hsur hc hl hy (hplain index (.inr rfl))
    obtain ⟨σ₂, hrun', hproduct, hchanges'⟩ := hscale.run env hn hbefore σ₁
    have hboth := hchanges.trans hchanges'
    obtain ⟨σ₃, hrun'', hread', -, hchanges''⟩ :=
      hstart.run hsur (hc.keeps hboth.keeps) (hl.keeps hboth.keeps) hx (hplain base (.inl rfl))
    have hkept : σ₃.read (.virtual n) = σ₂.vregs n := hchanges''.read fun k hk => .inl (Operand.virtual.inj hk ▸ hn.high)
    refine ⟨_, ((hrun.append hrun').append hrun'').append (.value rfl ht rfl),
      ?_, (hfirst (hboth.trans hchanges'')).trans ((σ₃.changesOnly_write t _).mono fun _ => .inl)⟩
    refine (σ₃.vregs_write t _).trans ?_
    rw [hread', hkept, hproduct, hread]

end Code

end SsaCompiler
