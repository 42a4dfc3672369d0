import SsaCompiler.Proofs.Ir.SuccessfulEdits
import SsaCompiler.Proofs.Machine.SelectedCode

/-!
# The code of an instruction

What selection emits for operands and instructions, as relations between an instruction and its code. The registers
in the code belong to the values and labels that they are for, or they are scratch of this one instruction. So what
the code of an instruction is stays true in all later states of the selection.
-/

set_option autoImplicit false

namespace SsaCompiler

/-! ## Functions that can be selected -/

/-- The label of a value that is an address. -/
def Module.label? (m : Module) : ValueKind → Option String
  | .global g => m.globals[g]?.map fun global => globalLabel global.name
  | .str id => m.strings[id]?.map fun string => stringLabel string.name
  | .inst _ | .param _ | .const _ => none

variable {m : Module} {dst src : Operand} {id : StringId} {offset : Word}

variable {f : Function} {g : GlobalId} {code' : List Instr}

/-- The label of a global that was found. -/
theorem Module.label?_global {global : GlobalVar} (h : m.global g = .ok global) :
    m.label? (.global g) = some (globalLabel global.name) := by
  rw [label?, Outcome.ofOption_eq_ok.1 h]
  rfl

/-- The label of a string that was found. -/
theorem Module.label?_str {string : StringConst} (h : m.string id = .ok string) :
    m.label? (.str id) = some (stringLabel string.name) := by
  rw [label?, Outcome.ofOption_eq_ok.1 h]
  rfl

/-- A function of a module with its records in order. -/
structure Function.Selectable (f : Function) (m : Module) : Prop where
  sound : f.Sound
  shaped : f.Shaped
  agreeing : f.AgreeingPhis
  valued : ∀ i, f.blockOf? i ≠ none → (f.kind i).alwaysGives = true → f.result? i ≠ none
  linked : f.Linked m.globals.size m.strings.size

/-- A function with its records in order, whatever its phis and its references. -/
structure Function.Orderly (f : Function) : Prop where
  sound : f.Sound
  shaped : f.Shaped
  valued : ∀ i, f.blockOf? i ≠ none → (f.kind i).alwaysGives = true → f.result? i ≠ none
  params : ∀ v ∈ f.params, v < f.values.size

theorem Function.Selectable.orderly (h : f.Selectable m) : f.Orderly :=
  ⟨h.sound, h.shaped, h.valued, h.linked.params⟩

namespace SelectionContext

/-- What selection takes for granted. Its failures tell of references that lead nowhere and of phis that do not agree,
so it asks for neither where they are allowed. -/
structure Selectable (ctx : SelectionContext) (allowed : Failure → Prop) : Prop extends ctx.func.Orderly where
  fused : ∀ i, ctx.fused.contains i = true → ∃ b ∈ ctx.func.layout, ctx.func.fusableCompare? b = .ok (some i)
  linked : ctx.func.Linked ctx.module.globals.size ctx.module.strings.size ∨ allowed (.crash none)
  agreeing : ctx.func.AgreeingPhis ∨ ∀ cause, allowed (.error cause)

variable {ctx : SelectionContext} {allowed : Failure → Prop} (h : ctx.Selectable allowed) {b : BlockId} {i : InstId}

include h

variable {v : ValueId}

/-- A value that is read exists. -/
theorem Selectable.lt_size (hv : v ∈ ctx.func.operands i) : v < ctx.func.values.size :=
  Edit.lt_size_of_mem_operands h.sound.indexed hv

/-- A placed instruction that always gives a value has a result. -/
theorem Selectable.exists_result (hi : i ∈ ctx.func.instsOf b) (hgives : (ctx.func.kind i).alwaysGives = true) :
    ∃ v, ctx.func.result? i = some v ∧ v < ctx.func.values.size := by
  have hplaced : ctx.func.blockOf? i ≠ none := by
    rw [(h.sound.placed b i).1 hi]
    exact Option.some_ne_none b
  obtain ⟨v, hv⟩ := Option.ne_none_iff_exists'.1 (h.valued i hplaced hgives)
  exact ⟨v, hv, (h.sound.kind_of_result i v hv).1⟩

/-- A target of a placed instruction has a machine block. -/
theorem Selectable.exists_blockIndex (hb : b ∈ ctx.func.layout) (hi : i ∈ ctx.func.instsOf b) {t : BlockId}
    (ht : t ∈ (ctx.func.kind i).targets) : ∃ k, Select.blockIndex ctx t = .ok k ∧ ctx.func.layout[k]? = some t := by
  have hterm : (ctx.func.kind i).isTerminator = true := by
    cases hkind : ctx.func.kind i with
    | branch | jump => rfl
    | _ =>
      rw [hkind] at ht
      cases ht
  have harm := (h.shaped.mem_arms_iff hb).2 ⟨i, hi, hterm, ht⟩
  have hmem := (h.sound.mem_layout t).2 ⟨h.sound.bounded b i hi t ht, h.shaped.targets b hb t harm⟩
  unfold Select.blockIndex
  cases hidx : ctx.func.layout.idxOf? t with
  | none => exact absurd hmem (List.idxOf?_eq_none_iff.1 hidx)
  | some k =>
    obtain ⟨hlt, hget, -⟩ := List.idxOf?_eq_some_iff.1 hidx
    exact ⟨k, rfl, by rw [List.getElem?_eq_getElem hlt, hget]⟩

/-- Looking for the global that a value refers to. -/
theorem Selectable.failsOnly_global (hkind : (ctx.func.value v).kind = .global g) :
    (ctx.module.global g).FailsOnly allowed := by
  refine .ofOption fun hnone => h.linked.resolve_left fun hlinked => ?_
  have hlt := hlinked.values v
  rw [hkind] at hlt
  exact absurd (Array.getElem?_eq_none_iff.1 hnone) (Nat.not_le.2 hlt)

/-- Looking for the string that a value refers to. -/
theorem Selectable.failsOnly_string (hkind : (ctx.func.value v).kind = .str id) :
    (ctx.module.string id).FailsOnly allowed := by
  refine .ofOption fun hnone => h.linked.resolve_left fun hlinked => ?_
  have hlt := hlinked.values v
  rw [hkind] at hlt
  exact absurd (Array.getElem?_eq_none_iff.1 hnone) (Nat.not_le.2 hlt)

/-- Looking for a string that an instruction prints. -/
theorem Selectable.failsOnly_piece {pieces : List PrintPiece} (hkind : ctx.func.kind i = .print pieces)
    (hid : PrintPiece.str id ∈ pieces) : (ctx.module.string id).FailsOnly allowed := by
  refine .ofOption fun hnone => h.linked.resolve_left fun hlinked => ?_
  have hlt := hlinked.insts i
  rw [hkind] at hlt
  exact absurd (Array.getElem?_eq_none_iff.1 hnone) (Nat.not_le.2 (hlt id hid))

/-- Instructions with one operand. -/
theorem Selectable.operands_one (hi : i ∈ ctx.func.instsOf b) (hfits : (ctx.func.kind i).fits = (· == 1)) :
    ∃ v, ctx.func.operands i = [v] := by
  have hlength := h.sound.fits b i hi
  rw [hfits, beq_iff_eq] at hlength
  exact List.length_eq_one_iff.1 hlength

/-- Instructions with two operands. -/
theorem Selectable.operands_two (hi : i ∈ ctx.func.instsOf b) (hfits : (ctx.func.kind i).fits = (· == 2)) :
    ∃ l r, ctx.func.operands i = [l, r] := by
  have hlength := h.sound.fits b i hi
  rw [hfits, beq_iff_eq] at hlength
  exact List.length_eq_two.1 hlength

/-- Instructions with three operands. -/
theorem Selectable.operands_three (hi : i ∈ ctx.func.instsOf b) (hfits : (ctx.func.kind i).fits = (· == 3)) :
    ∃ base index data, ctx.func.operands i = [base, index, data] := by
  have hlength := h.sound.fits b i hi
  rw [hfits, beq_iff_eq] at hlength
  exact List.length_eq_three.1 hlength

end SelectionContext

/-- A comparison that can be fused stands right before a branch that is the only one to read it. -/
theorem Function.fusableCompare?_eq_some {b : BlockId} {d : InstId} (h : f.fusableCompare? b = .ok (some d)) :
    ∃ before term op, f.instsOf b = before ++ [d, term] ∧
      f.kind d = .binary op ∧ op.isCompare = true ∧ (f.kind term).isBranch = true ∧
      ∃ v, f.operand term 0 = .ok v ∧ f.definingInst? v = some d ∧ (f.uses v).length = 1 := by
  unfold fusableCompare? at h
  dsimp only at h
  split at h
  · cases h
  · obtain ⟨term, hterm, h₁⟩ := Outcome.bind_eq_ok.1 h
    split at h₁
    · cases h₁
    · rename_i hbranch
      obtain ⟨v, hv, h₂⟩ := Outcome.bind_eq_ok.1 h₁
      split at h₂
      · cases h₂
      · rename_i d' hd
        split at h₂
        · rename_i op hop
          have h₃ := Except.ok.inj h₂
          split at h₃
          · rename_i hcond
            cases h₃
            simp only [Bool.and_eq_true, decide_eq_true_eq] at hcond
            obtain ⟨⟨hcompare, huses⟩, hlast⟩ := hcond
            have hterm' : (f.instsOf b).getLast? = some term := by
              unfold terminator at hterm
              split at hterm
              · rename_i i hi
                split at hterm
                · cases hterm
                  exact hi
                · cases hterm
              · cases hterm
            refine ⟨(f.instsOf b).dropLast.dropLast, term, op, ?_, hop, hcompare, by simpa using hbranch, v, hv, hd, huses⟩
            conv_lhs => rw [← List.dropLast_append_getLast? term hterm', ← List.dropLast_append_getLast? d hlast]
            simp
          · cases h₃
        · cases h₂

/-! ## Code -/

section Code

variable (ctx : SelectionContext) (s : Selection)

/-- Code that adds a number to a register. -/
inductive AddCode (low high : Nat) (dst src : Operand) (c : Word) : List Instr → Prop
  | near : AddCode low high dst src c [.binary .addu dst src (.immediate c)]
  | far {n : Nat} (hn : s.Scratch low high n) :
      AddCode low high dst src c [.move (.virtual n) (.immediate c), .binary .addu dst src (.virtual n)]

/-- Code after which an operand is the word of a value. -/
inductive OperandCode (low high : Nat) (v : ValueId) : List Instr → Operand → Prop
  | number {c : Word} (hslot : s.slots.lookup v = none) (hkind : (ctx.func.value v).kind = .const c) :
      OperandCode low high v [] (.immediate c)
  | address {n : Nat} {name : String} (hslot : s.slots.lookup v = none)
      (hname : ctx.module.label? (ctx.func.value v).kind = some name) (hn : s.Belongs n (.label name)) :
      OperandCode low high v [] (.virtual n)
  | register {n : Nat} (hslot : s.slots.lookup v = none) (hkind : (ctx.func.value v).kind.isComputed = true)
      (hn : s.Belongs n (.value v)) : OperandCode low high v [] (.virtual n)
  | slot {n : Nat} {offset : Word} {code : List Instr} (hslot : s.slots.lookup v = some offset)
      (hn : s.Scratch low high n) (hcode : AddCode s low high (.virtual n) .sp offset code) :
      OperandCode low high v code (.virtual n)

/-- Code after which a register holds the word of a value. -/
inductive RegisterCode (low high : Nat) (v : ValueId) : List Instr → Operand → Prop
  | zero (hslot : s.slots.lookup v = none) (hkind : (ctx.func.value v).kind = .const 0) : RegisterCode low high v [] .zero
  | number {c : Word} {n : Nat} (hslot : s.slots.lookup v = none) (hkind : (ctx.func.value v).kind = .const c)
      (hn : s.Scratch low high n) : RegisterCode low high v [.move (.virtual n) (.immediate c)] (.virtual n)
  | operand {n : Nat} {code : List Instr} (h : OperandCode ctx s low high v code (.virtual n)) :
      RegisterCode low high v code (.virtual n)

/-- Code after which a register or a number that is part of the instruction is the word of a value. -/
inductive RightCode (low high : Nat) (v : ValueId) : List Instr → Operand → Prop
  | number {c : Word} (hconst : ctx.func.const? v = some c) : RightCode low high v [] (.immediate c)
  | register {code : List Instr} {op : Operand} (h : RegisterCode ctx s low high v code op) : RightCode low high v code op

/-- Code for the operands of a comparison, which may be exchanged. -/
inductive CompareCode (low high : Nat) (op : BinaryOp) (l r : ValueId) : List Instr → Cond → Operand → Operand → Prop
  | mk {op' : BinaryOp} {l' r' : ValueId} {cond : Cond} {mid : Nat} {code code' : List Instr} {lhs rhs : Operand}
      (hsame : op' = op ∧ l' = l ∧ r' = r ∨ op.swapped? = some op' ∧ l' = r ∧ r' = l)
      (hcond : Cond.ofBinary? op' = some cond) (hl : RegisterCode ctx s low mid l' code lhs)
      (hr : RightCode ctx s mid high r' code' rhs) : CompareCode low high op l r (code ++ code') cond lhs rhs

/-- Code that brings an offset into the range of an access instruction. -/
inductive FoldCode (low high : Nat) (base : Operand) (offset : Word) : List Instr → Operand → Word → Prop
  | near : FoldCode low high base offset [] base offset
  | far {n : Nat} {code : List Instr} (hn : s.Scratch low high n)
      (hcode : AddCode s low high (.virtual n) base offset code) : FoldCode low high base offset code (.virtual n) 0

/-- Code for the start of an array: the stack pointer with the offset of a slot, or a register. -/
inductive StartCode (low high : Nat) (base : ValueId) : List Instr → Operand → Word → Prop
  | slot {offset : Word} (hslot : s.slots.lookup base = some offset) : StartCode low high base [] .sp offset
  | register {code : List Instr} {op : Operand} (hslot : s.slots.lookup base = none)
      (h : RegisterCode ctx s low high base code op) : StartCode low high base code op 0

/-- Code for the base and the offset of an element. -/
inductive AddressCode (low high : Nat) (base index : ValueId) : List Instr → Operand → Word → Prop
  | fixed {c offset offset' : Word} {mid : Nat} {code code' : List Instr} {start op : Operand}
      (hconst : ctx.func.const? index = some c) (hstart : StartCode ctx s low mid base code start offset)
      (hle : mid ≤ high) (hfold : FoldCode s mid high start (offset + c * 4) code' op offset') :
      AddressCode low high base index (code ++ code') op offset'
  | scaled {offset offset' : Word} {mid mid' top n m : Nat} {code code' code'' : List Instr} {start idx op : Operand}
      (hstart : StartCode ctx s low mid base code start offset) (hle : mid ≤ mid')
      (hindex : RegisterCode ctx s mid mid' index code' idx) (hn : s.Scratch mid' top n) (hm : s.Scratch mid' top m)
      (htop : top ≤ high) (hfold : FoldCode s top high (.virtual m) offset code'' op offset') :
      AddressCode low high base index
        (code ++ code' ++ [.binary .sll (.virtual n) idx (.immediate 2), .binary .addu (.virtual m) (.virtual n) start] ++
          code'') op offset'

/-- Code that multiplies by a number. -/
inductive ScaleCode (low high : Nat) (dst src : Operand) (scale : Word) : List Instr → Prop
  | shift {k : Nat} (hk : powerOfTwo? scale.toInt.toNat = some k) :
      ScaleCode low high dst src scale [.binary .sll dst src (.immediate (Int32.ofNat k))]
  | factor {n : Nat} (hn : s.Scratch low high n) :
      ScaleCode low high dst src scale [.move (.virtual n) (.immediate scale), .binary .mul dst src (.virtual n)]

/-- Code that computes the address of an element. -/
inductive ElementCode (dst : Operand) (base index : ValueId) (scale : Word) : List Instr → Prop
  | fixed {c offset : Word} {low mid high : Nat} {code code' : List Instr} {start : Operand}
      (hconst : ctx.func.const? index = some c) (hstart : StartCode ctx s low mid base code start offset)
      (hadd : AddCode s mid high dst start (offset + c * scale) code') : ElementCode dst base index scale (code ++ code')
  | scaled {low mid mid' high n : Nat} {code code' code'' : List Instr} {idx start : Operand}
      (hindex : RegisterCode ctx s low mid index code idx) (hn : s.Scratch mid mid' n)
      (hscale : ScaleCode s mid mid' (.virtual n) idx scale code') (hstart : RegisterCode ctx s mid' high base code'' start) :
      ElementCode dst base index scale (code ++ code' ++ code'' ++ [.binary .addu dst start (.virtual n)])

/-- Code that stores arguments below the stack pointer. -/
inductive PushCode (lowest : Word) : List (ValueId × Nat) → List Instr → Prop
  | nil : PushCode lowest [] []
  | cons {v : ValueId} {k low high : Nat} {rest : List (ValueId × Nat)} {code code' : List Instr} {src : Operand}
      {offset : Word} (hcode : RegisterCode ctx s low high v code src) (hoffset : Select.stackOffset? lowest k = some offset)
      (hrest : PushCode lowest rest code') : PushCode lowest ((v, k) :: rest) (code ++ .store src .sp offset :: code')

/-- Code that moves arguments to registers. -/
inductive PassCode : List (ValueId × Register) → List Instr → Prop
  | nil : PassCode [] []
  | cons {v : ValueId} {r : Register} {low high : Nat} {rest : List (ValueId × Register)} {code code' : List Instr}
      {src : Operand} (hcode : OperandCode ctx s low high v code src) (hrest : PassCode rest code') :
      PassCode ((v, r) :: rest) (code ++ .move (.fixed r) src :: code')

/-- Code of a call with its arguments. -/
inductive CallCode (label : String) (args : List ValueId) : List Instr → Prop
  | mk {lowest : Word} {code code' : List Instr}
      (hlowest : Word.mul? (-4) (Int32.ofNat (args.length - Register.arguments.length)) = some lowest)
      (hpush : PushCode ctx s lowest ((args.drop Register.arguments.length).zipIdx Register.arguments.length) code)
      (hpass : PassCode ctx s (args.zip Register.arguments) code') :
      CallCode label args (code ++ code' ++
        [.call label (min args.length Register.arguments.length) (args.length - Register.arguments.length)])

/-- Code of the pieces of a print. -/
inductive PrintCode : List PrintPiece → List ValueId → List Instr → Prop
  | nil (args : List ValueId) : PrintCode [] args []
  | str {id : StringId} {name : String} {n : Nat} {pieces : List PrintPiece} {args : List ValueId} {code : List Instr}
      (hname : ctx.module.label? (.str id) = some name) (hn : s.Belongs n (.label name)) (hrest : PrintCode pieces args code) :
      PrintCode (.str id :: pieces) args
        (.move (.fixed .a0) (.virtual n) :: .call Builtin.putStr.label 1 0 :: code)
  | arg {v : ValueId} {low high : Nat} {pieces : List PrintPiece} {args : List ValueId} {code code' : List Instr}
      {src : Operand} (hcode : OperandCode ctx s low high v code src) (hrest : PrintCode pieces args code') :
      PrintCode (.arg :: pieces) (v :: args)
        (code ++ .move (.fixed .a0) src :: .call Builtin.putInt.label 1 0 :: code')

/-- The label that a call goes to. -/
def SelectionContext.calleeLabel (ctx : SelectionContext) : Callee → String
  | .func id => functionLabel (ctx.module.function id).name
  | .builtin b => b.label

/-- The code of an instruction that is neither a terminator nor a phi. -/
inductive InstCode (i : InstId) : List Instr → Prop
  | compare {op : BinaryOp} {l r v : ValueId} {n low high : Nat} {code : List Instr} {cond : Cond} {lhs rhs : Operand}
      (hkind : ctx.func.kind i = .binary op) (hcompare : op.isCompare = true) (hops : ctx.func.operands i = [l, r])
      (hresult : ctx.func.result? i = some v) (hn : s.Belongs n (.value v))
      (hcode : CompareCode ctx s low high op l r code cond lhs rhs) :
      InstCode i (code ++ [.compare cond (.virtual n) lhs rhs])
  | arith {op : BinaryOp} {mop : MachineOp} {l r l' r' v : ValueId} {n low mid high : Nat} {code code' : List Instr}
      {lhs rhs : Operand} (hkind : ctx.func.kind i = .binary op) (hops : ctx.func.operands i = [l, r])
      (hmop : MachineOp.ofBinary? op = some mop)
      (hsame : l' = l ∧ r' = r ∨ op.isCommutative = true ∧ l' = r ∧ r' = l)
      (hresult : ctx.func.result? i = some v) (hn : s.Belongs n (.value v))
      (hl : RegisterCode ctx s low mid l' code lhs) (hr : RightCode ctx s mid high r' code' rhs) :
      InstCode i (code ++ code' ++ [.binary mop (.virtual n) lhs rhs])
  | subtract {op : BinaryOp} {mop : MachineOp} {l r l' r' v : ValueId} {n low high : Nat} {code : List Instr}
      {lhs : Operand} {c : Word} (hkind : ctx.func.kind i = .binary op) (hops : ctx.func.operands i = [l, r])
      (hmop : MachineOp.ofBinary? op = some mop)
      (hsame : l' = l ∧ r' = r ∨ op.isCommutative = true ∧ l' = r ∧ r' = l)
      (hresult : ctx.func.result? i = some v) (hn : s.Belongs n (.value v))
      (hneg : Select.negatedConstant? ctx mop r' = some c) (hl : RegisterCode ctx s low high l' code lhs) :
      InstCode i (code ++ [.binary .addu (.virtual n) lhs (.immediate c)])
  | gep {multiplier : Word} {base index v : ValueId} {n : Nat} {code : List Instr}
      (hkind : ctx.func.kind i = .gep multiplier) (hops : ctx.func.operands i = [base, index])
      (hresult : ctx.func.result? i = some v) (hn : s.Belongs n (.value v))
      (hcode : ElementCode ctx s (.virtual n) base index (multiplier * 4) code) : InstCode i code
  | load {base index v : ValueId} {n low high : Nat} {code : List Instr} {op : Operand} {offset : Word}
      (hkind : ctx.func.kind i = .load) (hops : ctx.func.operands i = [base, index])
      (hresult : ctx.func.result? i = some v) (hn : s.Belongs n (.value v))
      (hcode : AddressCode ctx s low high base index code op offset) :
      InstCode i (code ++ [.load (.virtual n) op offset false])
  | store {base index data : ValueId} {low mid high : Nat} {code code' : List Instr} {op src : Operand} {offset : Word}
      (hkind : ctx.func.kind i = .store) (hops : ctx.func.operands i = [base, index, data])
      (hcode : AddressCode ctx s low mid base index code op offset)
      (hdata : RegisterCode ctx s mid high data code' src) : InstCode i (code ++ code' ++ [.store src op offset])
  | call {callee : Callee} {code : List Instr} (hkind : ctx.func.kind i = .call callee)
      (hresult : ctx.func.result? i = none)
      (hcode : CallCode ctx s (ctx.calleeLabel callee) (ctx.func.operands i) code) : InstCode i code
  | callFor {callee : Callee} {v : ValueId} {n : Nat} {code : List Instr} (hkind : ctx.func.kind i = .call callee)
      (hresult : ctx.func.result? i = some v) (hn : s.Belongs n (.value v))
      (hcode : CallCode ctx s (ctx.calleeLabel callee) (ctx.func.operands i) code) :
      InstCode i (code ++ [.move (.virtual n) .v0])
  | print {pieces : List PrintPiece} {code : List Instr} (hkind : ctx.func.kind i = .print pieces)
      (hcode : PrintCode ctx s pieces (ctx.func.operands i) code) : InstCode i code
  | alloca {words : Nat} (hkind : ctx.func.kind i = .alloca words) : InstCode i []

/-- The code of a terminator: what it computes first, and the transfers. -/
inductive ExitCode (i : InstId) : List Instr → List Instr → Prop
  | jump {target : BlockId} {k : Nat} (hkind : ctx.func.kind i = .jump target)
      (htarget : ctx.func.layout[k]? = some target) : ExitCode i [] [.jump k]
  | ret (hkind : ctx.func.kind i = .ret) (hops : ctx.func.operands i = []) : ExitCode i [] [.ret false]
  | give {v : ValueId} {low high : Nat} {code : List Instr} {src : Operand} (hkind : ctx.func.kind i = .ret)
      (hops : ctx.func.operands i = [v]) (hcode : OperandCode ctx s low high v code src) :
      ExitCode i (code ++ [.move .v0 src]) [.ret true]
  | branch {thenBlock elseBlock : BlockId} {t e : Nat} {v : ValueId} {low high : Nat} {code : List Instr} {lhs : Operand}
      (hkind : ctx.func.kind i = .branch thenBlock elseBlock) (hops : ctx.func.operands i = [v])
      (hthen : ctx.func.layout[t]? = some thenBlock) (helse : ctx.func.layout[e]? = some elseBlock)
      (hfused : ∀ d, ctx.func.definingInst? v = some d → ctx.fused.contains d = false)
      (hcode : RegisterCode ctx s low high v code lhs) : ExitCode i code [.branch .ne lhs .zero t, .jump e]
  | fused {thenBlock elseBlock : BlockId} {t e d : Nat} {v l r : ValueId} {op : BinaryOp} {low high : Nat}
      {code : List Instr} {cond : Cond} {lhs rhs : Operand} (hkind : ctx.func.kind i = .branch thenBlock elseBlock)
      (hops : ctx.func.operands i = [v]) (hthen : ctx.func.layout[t]? = some thenBlock)
      (helse : ctx.func.layout[e]? = some elseBlock) (hd : ctx.func.definingInst? v = some d)
      (hfused : ctx.fused.contains d = true) (hcompare : ctx.func.kind d = .binary op)
      (hargs : ctx.func.operands d = [l, r]) (hcode : CompareCode ctx s low high op l r code cond lhs rhs) :
      ExitCode i code [.branch cond lhs rhs t, .jump e]

end Code

/-- One more argument is stored. -/
theorem PushCode.snoc {ctx : SelectionContext} {s : Selection} {lowest : Word} {args : List (ValueId × Nat)}
    {arg : ValueId × Nat} {low high : Nat} {code : List Instr} (h : PushCode ctx s lowest args code)
    (hcode : RegisterCode ctx s low high arg.1 code' src) (hoffset : Select.stackOffset? lowest arg.2 = some offset) :
    PushCode ctx s lowest (args ++ [arg]) (code ++ (code' ++ [.store src .sp offset])) := by
  induction h with
  | nil => exact .cons hcode hoffset .nil
  | cons hfirst hfirst' _ ih =>
    rw [List.append_assoc, List.cons_append]
    exact .cons hfirst hfirst' ih

/-- One more argument is moved. -/
theorem PassCode.snoc {ctx : SelectionContext} {s : Selection} {args : List (ValueId × Register)}
    {arg : ValueId × Register} {low high : Nat} {code : List Instr} (h : PassCode ctx s args code)
    (hcode : OperandCode ctx s low high arg.1 code' src) :
    PassCode ctx s (args ++ [arg]) (code ++ (code' ++ [.move (.fixed arg.2) src])) := by
  induction h with
  | nil => exact .cons hcode .nil
  | cons hfirst _ ih =>
    rw [List.append_assoc, List.cons_append]
    exact .cons hfirst ih

/-! ## Later states -/

section Mono

variable {ctx : SelectionContext} {s s' : Selection} (hext : s.Extends s') {low high : Nat} {code : List Instr}

include hext

theorem AddCode.mono {dst src : Operand} {c : Word} (h : AddCode s low high dst src c code) :
    AddCode s' low high dst src c code := by
  cases h with
  | near => exact .near
  | far hn => exact .far (hn.mono hext)

theorem OperandCode.mono {v : ValueId} {op : Operand} (h : OperandCode ctx s low high v code op) :
    OperandCode ctx s' low high v code op := by
  cases h with
  | number hslot hkind => exact .number (hext.slots ▸ hslot) hkind
  | address hslot hname hn => exact .address (hext.slots ▸ hslot) hname (hext.kept _ _ hn)
  | register hslot hkind hn => exact .register (hext.slots ▸ hslot) hkind (hext.kept _ _ hn)
  | slot hslot hn hcode => exact .slot (hext.slots ▸ hslot) (hn.mono hext) (hcode.mono hext)

theorem RegisterCode.mono {v : ValueId} {op : Operand} (h : RegisterCode ctx s low high v code op) :
    RegisterCode ctx s' low high v code op := by
  cases h with
  | zero hslot hkind => exact .zero (hext.slots ▸ hslot) hkind
  | number hslot hkind hn => exact .number (hext.slots ▸ hslot) hkind (hn.mono hext)
  | operand h => exact .operand (h.mono hext)

theorem RightCode.mono {v : ValueId} {op : Operand} (h : RightCode ctx s low high v code op) :
    RightCode ctx s' low high v code op := by
  cases h with
  | number hconst => exact .number hconst
  | register h => exact .register (h.mono hext)

theorem CompareCode.mono {op : BinaryOp} {l r : ValueId} {cond : Cond} {lhs rhs : Operand}
    (h : CompareCode ctx s low high op l r code cond lhs rhs) : CompareCode ctx s' low high op l r code cond lhs rhs := by
  cases h with
  | mk hsame hcond hl hr => exact .mk hsame hcond (hl.mono hext) (hr.mono hext)

theorem FoldCode.mono {base op : Operand} {offset offset' : Word} (h : FoldCode s low high base offset code op offset') :
    FoldCode s' low high base offset code op offset' := by
  cases h with
  | near => exact .near
  | far hn hcode => exact .far (hn.mono hext) (hcode.mono hext)

theorem StartCode.mono {base : ValueId} {op : Operand} {offset : Word} (h : StartCode ctx s low high base code op offset) :
    StartCode ctx s' low high base code op offset := by
  cases h with
  | slot hslot => exact .slot (hext.slots ▸ hslot)
  | register hslot h => exact .register (hext.slots ▸ hslot) (h.mono hext)

theorem AddressCode.mono {base index : ValueId} {op : Operand} {offset : Word}
    (h : AddressCode ctx s low high base index code op offset) : AddressCode ctx s' low high base index code op offset := by
  cases h with
  | fixed hconst hstart hle hfold => exact .fixed hconst (hstart.mono hext) hle (hfold.mono hext)
  | scaled hstart hle hindex hn hm htop hfold =>
    exact .scaled (hstart.mono hext) hle (hindex.mono hext) (hn.mono hext) (hm.mono hext) htop (hfold.mono hext)

theorem ScaleCode.mono {dst src : Operand} {scale : Word} (h : ScaleCode s low high dst src scale code) :
    ScaleCode s' low high dst src scale code := by
  cases h with
  | shift hk => exact .shift hk
  | factor hn => exact .factor (hn.mono hext)

theorem ElementCode.mono {dst : Operand} {base index : ValueId} {scale : Word}
    (h : ElementCode ctx s dst base index scale code) : ElementCode ctx s' dst base index scale code := by
  cases h with
  | fixed hconst hstart hadd => exact .fixed hconst (hstart.mono hext) (hadd.mono hext)
  | scaled hindex hn hscale hstart =>
    exact .scaled (hindex.mono hext) (hn.mono hext) (hscale.mono hext) (hstart.mono hext)

theorem PushCode.mono {lowest : Word} {args : List (ValueId × Nat)} (h : PushCode ctx s lowest args code) :
    PushCode ctx s' lowest args code := by
  induction h with
  | nil => exact .nil
  | cons hcode hoffset _ ih => exact .cons (hcode.mono hext) hoffset ih

theorem PassCode.mono {args : List (ValueId × Register)} (h : PassCode ctx s args code) : PassCode ctx s' args code := by
  induction h with
  | nil => exact .nil
  | cons hcode _ ih => exact .cons (hcode.mono hext) ih

theorem CallCode.mono {label : String} {args : List ValueId} (h : CallCode ctx s label args code) :
    CallCode ctx s' label args code := by
  cases h with
  | mk hlowest hpush hpass => exact .mk hlowest (hpush.mono hext) (hpass.mono hext)

theorem PrintCode.mono {pieces : List PrintPiece} {args : List ValueId} (h : PrintCode ctx s pieces args code) :
    PrintCode ctx s' pieces args code := by
  induction h with
  | nil args => exact .nil args
  | str hname hn _ ih => exact .str hname (hext.kept _ _ hn) ih
  | arg hcode _ ih => exact .arg (hcode.mono hext) ih

theorem InstCode.mono {i : InstId} (h : InstCode ctx s i code) : InstCode ctx s' i code := by
  cases h with
  | compare hkind hcompare hops hresult hn hcode =>
    exact .compare hkind hcompare hops hresult (hext.kept _ _ hn) (hcode.mono hext)
  | arith hkind hops hmop hsame hresult hn hl hr =>
    exact .arith hkind hops hmop hsame hresult (hext.kept _ _ hn) (hl.mono hext) (hr.mono hext)
  | subtract hkind hops hmop hsame hresult hn hneg hl =>
    exact .subtract hkind hops hmop hsame hresult (hext.kept _ _ hn) hneg (hl.mono hext)
  | gep hkind hops hresult hn hcode => exact .gep hkind hops hresult (hext.kept _ _ hn) (hcode.mono hext)
  | load hkind hops hresult hn hcode => exact .load hkind hops hresult (hext.kept _ _ hn) (hcode.mono hext)
  | store hkind hops hcode hdata => exact .store hkind hops (hcode.mono hext) (hdata.mono hext)
  | call hkind hresult hcode => exact .call hkind hresult (hcode.mono hext)
  | callFor hkind hresult hn hcode => exact .callFor hkind hresult (hext.kept _ _ hn) (hcode.mono hext)
  | print hkind hcode => exact .print hkind (hcode.mono hext)
  | alloca hkind => exact .alloca hkind

theorem ExitCode.mono {i : InstId} {transfers : List Instr} (h : ExitCode ctx s i code transfers) :
    ExitCode ctx s' i code transfers := by
  cases h with
  | jump hkind htarget => exact .jump hkind htarget
  | ret hkind hops => exact .ret hkind hops
  | give hkind hops hcode => exact .give hkind hops (hcode.mono hext)
  | branch hkind hops hthen helse hfused hcode => exact .branch hkind hops hthen helse hfused (hcode.mono hext)
  | fused hkind hops hthen helse hd hfused hcompare hargs hcode =>
    exact .fused hkind hops hthen helse hd hfused hcompare hargs (hcode.mono hext)

end Mono

theorem AddCode.widen {s : Selection} {low low' high high' : Nat} {dst src : Operand} {c : Word} {code : List Instr}
    (h : AddCode s low high dst src c code) (hlow : low' ≤ low) (hhigh : high ≤ high') :
    AddCode s low' high' dst src c code := by
  cases h with
  | near => exact .near
  | far hn => exact .far (hn.widen hlow hhigh)

/-! ## Counted registers -/

/-- An operand that is no virtual register beyond a count. -/
def Operand.Within (count : Nat) (op : Operand) : Prop := ∀ n, op = .virtual n → n < count

/-- An instruction that does not leave the block and mentions no virtual register beyond a count. -/
def Instr.Calm (count : Nat) (i : Instr) : Prop :=
  i.isTransfer = false ∧ ∀ op ∈ i.sources ++ i.defs, op.Within count

namespace Instr

variable {count : Nat}

@[simp] theorem within_virtual {n : Nat} : (Operand.virtual n).Within count ↔ n < count :=
  ⟨fun h => h n rfl, fun h _ heq => Operand.virtual.inj heq ▸ h⟩

@[simp] theorem within_fixed (r : Register) : (Operand.fixed r).Within count := fun _ h => nomatch h

@[simp] theorem within_immediate (c : Word) : (Operand.immediate c).Within count := fun _ h => nomatch h

variable {base lhs rhs : Operand}

/-- An instruction that reads and writes the operands of two lists is calm when all of them are within the count. -/
theorem calm_iff (i : Instr) (reads writes : List Operand) (htransfer : i.isTransfer = false) (hreads : i.sources = reads)
    (hwrites : i.defs = writes) :
    i.Calm count ↔ (∀ op ∈ reads, op.Within count) ∧ ∀ op ∈ writes, op.Within count := by
  rw [Calm, hreads, hwrites, List.forall_mem_append, and_iff_right htransfer]

@[simp] theorem calm_binary {op : MachineOp} :
    (binary op dst lhs rhs).Calm count ↔ lhs.Within count ∧ rhs.Within count ∧ dst.Within count := by
  simp [calm_iff (.binary op dst lhs rhs) [lhs, rhs] [dst] rfl rfl rfl, and_assoc]

@[simp] theorem calm_compare {cond : Cond} :
    (compare cond dst lhs rhs).Calm count ↔ lhs.Within count ∧ rhs.Within count ∧ dst.Within count := by
  simp [calm_iff (.compare cond dst lhs rhs) [lhs, rhs] [dst] rfl rfl rfl, and_assoc]

@[simp] theorem calm_move : (move dst src).Calm count ↔ src.Within count ∧ dst.Within count := by
  simp [calm_iff (.move dst src) [src] [dst] rfl rfl rfl]

@[simp] theorem calm_loadAddr {name : String} : (loadAddr dst name).Calm count ↔ dst.Within count := by
  simp [calm_iff (.loadAddr dst name) [] [dst] rfl rfl rfl]

@[simp] theorem calm_load {isIncoming : Bool} :
    (load dst base offset isIncoming).Calm count ↔ base.Within count ∧ dst.Within count := by
  simp [calm_iff (.load dst base offset isIncoming) [base] [dst] rfl rfl rfl]

@[simp] theorem calm_store : (store src base offset).Calm count ↔ src.Within count ∧ base.Within count := by
  simp [calm_iff (.store src base offset) [src, base] [] rfl rfl rfl]

@[simp] theorem calm_call {callee : String} {argRegs stackArgs : Nat} : (call callee argRegs stackArgs).Calm count := by
  refine ⟨rfl, fun op hop => ?_⟩
  rcases List.mem_append.1 hop with hop | hop
  · obtain ⟨r, -, rfl⟩ := List.mem_map.1 hop
    exact within_fixed r
  · obtain ⟨r, -, rfl⟩ := List.mem_map.1 hop
    exact within_fixed r

theorem Calm.mono {i : Instr} {count' : Nat} (h : i.Calm count) (hle : count ≤ count') : i.Calm count' :=
  ⟨h.1, fun op hop n hn => (h.2 op hop n hn).trans_le hle⟩

end Instr

/-- The transfers of a terminator lead to its targets. -/
theorem ExitCode.mem_targets {ctx : SelectionContext} {s : Selection} {i : InstId} {code transfers : List Instr}
    (h : ExitCode ctx s i code transfers) {j : Instr} (hj : j ∈ transfers) {t : Nat} (ht : j.target? = some t) :
    ∃ b ∈ (ctx.func.kind i).targets, ctx.func.layout[t]? = some b := by
  cases h with
  | jump hkind htarget =>
    obtain rfl := List.mem_singleton.1 hj
    obtain rfl := Option.some.inj ht
    exact ⟨_, by rw [hkind]; exact List.mem_cons_self, htarget⟩
  | ret | give =>
    obtain rfl := List.mem_singleton.1 hj
    cases ht
  | branch hkind _ hthen helse | fused hkind _ hthen helse =>
    rcases List.mem_cons.1 hj with rfl | hj
    · obtain rfl := Option.some.inj ht
      exact ⟨_, by rw [hkind]; exact List.mem_cons_self, hthen⟩
    · obtain rfl := List.mem_singleton.1 hj
      obtain rfl := Option.some.inj ht
      exact ⟨_, by rw [hkind]; exact List.mem_cons_of_mem _ List.mem_cons_self, helse⟩

section Calm

variable {ctx : SelectionContext} {s : Selection} (hs : s.Sound) {low high : Nat} {code : List Instr}

theorem AddCode.calm {c : Word} (h : AddCode s low high dst src c code) (hdst : dst.Within s.code.vregCount)
    (hsrc : src.Within s.code.vregCount) : ∀ i ∈ code, i.Calm s.code.vregCount := by
  cases h with
  | near => simp [hdst, hsrc]
  | far hn => simp [hdst, hsrc, hn.counted]

include hs

theorem OperandCode.calm {v : ValueId} {op : Operand} (h : OperandCode ctx s low high v code op) :
    (∀ i ∈ code, i.Calm s.code.vregCount) ∧ op.Within s.code.vregCount := by
  cases h with
  | number => simp
  | address _ _ hn => simp [hs.counted _ _ hn]
  | register _ _ hn => simp [hs.counted _ _ hn]
  | slot _ hn hcode =>
    have hwithin := Instr.within_virtual.2 hn.counted
    exact ⟨hcode.calm hwithin (Instr.within_fixed _), hwithin⟩

theorem RegisterCode.calm {v : ValueId} {op : Operand} (h : RegisterCode ctx s low high v code op) :
    (∀ i ∈ code, i.Calm s.code.vregCount) ∧ op.Within s.code.vregCount := by
  cases h with
  | zero => simp [Operand.zero]
  | number _ _ hn => simp [hn.counted]
  | operand h => exact h.calm hs

theorem RightCode.calm {v : ValueId} {op : Operand} (h : RightCode ctx s low high v code op) :
    (∀ i ∈ code, i.Calm s.code.vregCount) ∧ op.Within s.code.vregCount := by
  cases h with
  | number => simp
  | register h => exact h.calm hs

theorem CompareCode.calm {op : BinaryOp} {l r : ValueId} {cond : Cond} {lhs rhs : Operand}
    (h : CompareCode ctx s low high op l r code cond lhs rhs) :
    (∀ i ∈ code, i.Calm s.code.vregCount) ∧ lhs.Within s.code.vregCount ∧ rhs.Within s.code.vregCount := by
  cases h with
  | mk _ _ hl hr =>
    obtain ⟨hcode, hlhs⟩ := hl.calm hs
    obtain ⟨hcode', hrhs⟩ := hr.calm hs
    exact ⟨fun i hi => (List.mem_append.1 hi).elim (hcode i) (hcode' i), hlhs, hrhs⟩

omit hs in
theorem FoldCode.calm {base op : Operand} {offset offset' : Word} (h : FoldCode s low high base offset code op offset')
    (hbase : base.Within s.code.vregCount) : (∀ i ∈ code, i.Calm s.code.vregCount) ∧ op.Within s.code.vregCount := by
  cases h with
  | near => simp [hbase]
  | far hn hcode =>
    have hwithin := Instr.within_virtual.2 hn.counted
    exact ⟨hcode.calm hwithin hbase, hwithin⟩

theorem StartCode.calm {base : ValueId} {op : Operand} {offset : Word} (h : StartCode ctx s low high base code op offset) :
    (∀ i ∈ code, i.Calm s.code.vregCount) ∧ op.Within s.code.vregCount := by
  cases h with
  | slot => simp [Operand.sp]
  | register _ h => exact h.calm hs

theorem AddressCode.calm {base index : ValueId} {op : Operand} {offset : Word}
    (h : AddressCode ctx s low high base index code op offset) :
    (∀ i ∈ code, i.Calm s.code.vregCount) ∧ op.Within s.code.vregCount := by
  cases h with
  | fixed _ hstart _ hfold =>
    obtain ⟨hcode, hop⟩ := hstart.calm hs
    obtain ⟨hcode', hop'⟩ := hfold.calm hop
    exact ⟨fun i hi => (List.mem_append.1 hi).elim (hcode i) (hcode' i), hop'⟩
  | scaled hstart _ hindex hn hm _ hfold =>
    obtain ⟨hcode, hop⟩ := hstart.calm hs
    obtain ⟨hcode', hidx⟩ := hindex.calm hs
    obtain ⟨hcode'', hop'⟩ := hfold.calm (Instr.within_virtual.2 hm.counted)
    simp only [List.forall_mem_append]
    exact ⟨⟨⟨⟨hcode, hcode'⟩, by simp [hidx, hop, hn.counted, hm.counted]⟩, hcode''⟩, hop'⟩

theorem ElementCode.calm {dst : Operand} {base index : ValueId} {scale : Word}
    (h : ElementCode ctx s dst base index scale code) (hdst : dst.Within s.code.vregCount) :
    ∀ i ∈ code, i.Calm s.code.vregCount := by
  cases h with
  | fixed _ hstart hadd =>
    obtain ⟨hcode, hop⟩ := hstart.calm hs
    exact List.forall_mem_append.2 ⟨hcode, hadd.calm hdst hop⟩
  | scaled hindex hn hscale hstart =>
    obtain ⟨hcode, hidx⟩ := hindex.calm hs
    obtain ⟨hcode'', hop⟩ := hstart.calm hs
    simp only [List.forall_mem_append]
    refine ⟨⟨⟨hcode, ?_⟩, hcode''⟩, by simp [hop, hdst, hn.counted]⟩
    cases hscale with
    | shift => simp [hidx, hn.counted]
    | factor ht => simp [hidx, hn.counted, ht.counted]

theorem PushCode.calm {lowest : Word} {args : List (ValueId × Nat)} (h : PushCode ctx s lowest args code) :
    ∀ i ∈ code, i.Calm s.code.vregCount := by
  induction h with
  | nil => simp
  | cons hcode _ _ ih =>
    obtain ⟨hcalm, hsrc⟩ := hcode.calm hs
    exact List.forall_mem_append.2 ⟨hcalm, List.forall_mem_cons.2 ⟨by simp [hsrc, Operand.sp], ih⟩⟩

theorem PassCode.calm {args : List (ValueId × Register)} (h : PassCode ctx s args code) :
    ∀ i ∈ code, i.Calm s.code.vregCount := by
  induction h with
  | nil => simp
  | cons hcode _ ih =>
    obtain ⟨hcalm, hsrc⟩ := hcode.calm hs
    exact List.forall_mem_append.2 ⟨hcalm, List.forall_mem_cons.2 ⟨by simp [hsrc], ih⟩⟩

theorem CallCode.calm {label : String} {args : List ValueId} (h : CallCode ctx s label args code) :
    ∀ i ∈ code, i.Calm s.code.vregCount := by
  cases h with
  | mk _ hpush hpass =>
    simp only [List.forall_mem_append]
    exact ⟨⟨hpush.calm hs, hpass.calm hs⟩, by simp⟩

theorem PrintCode.calm {pieces : List PrintPiece} {args : List ValueId} (h : PrintCode ctx s pieces args code) :
    ∀ i ∈ code, i.Calm s.code.vregCount := by
  induction h with
  | nil => simp
  | str _ hn _ ih =>
    exact List.forall_mem_cons.2 ⟨by simp [hs.counted _ _ hn], List.forall_mem_cons.2 ⟨Instr.calm_call, ih⟩⟩
  | arg hcode _ ih =>
    obtain ⟨hcalm, hsrc⟩ := hcode.calm hs
    exact List.forall_mem_append.2 ⟨hcalm, List.forall_mem_cons.2 ⟨by simp [hsrc], List.forall_mem_cons.2
      ⟨Instr.calm_call, ih⟩⟩⟩

/-- The code of an instruction does not leave the block, and its registers are counted. -/
theorem InstCode.calm {i : InstId} (h : InstCode ctx s i code) : ∀ j ∈ code, j.Calm s.code.vregCount := by
  cases h with
  | compare _ _ _ _ hn hcode =>
    obtain ⟨hcalm, hlhs, hrhs⟩ := hcode.calm hs
    exact List.forall_mem_append.2 ⟨hcalm, by simp [hlhs, hrhs, hs.counted _ _ hn]⟩
  | arith _ _ _ _ _ hn hl hr =>
    obtain ⟨hcalm, hlhs⟩ := hl.calm hs
    obtain ⟨hcalm', hrhs⟩ := hr.calm hs
    simp only [List.forall_mem_append]
    exact ⟨⟨hcalm, hcalm'⟩, by simp [hlhs, hrhs, hs.counted _ _ hn]⟩
  | subtract _ _ _ _ _ hn _ hl =>
    obtain ⟨hcalm, hlhs⟩ := hl.calm hs
    exact List.forall_mem_append.2 ⟨hcalm, by simp [hlhs, hs.counted _ _ hn]⟩
  | gep _ _ _ hn hcode => exact hcode.calm hs (Instr.within_virtual.2 (hs.counted _ _ hn))
  | load _ _ _ hn hcode =>
    obtain ⟨hcalm, hop⟩ := hcode.calm hs
    exact List.forall_mem_append.2 ⟨hcalm, by simp [hop, hs.counted _ _ hn]⟩
  | store _ _ hcode hdata =>
    obtain ⟨hcalm, hop⟩ := hcode.calm hs
    obtain ⟨hcalm', hsrc⟩ := hdata.calm hs
    simp only [List.forall_mem_append]
    exact ⟨⟨hcalm, hcalm'⟩, by simp [hop, hsrc]⟩
  | call _ _ hcode => exact hcode.calm hs
  | callFor _ _ hn hcode =>
    exact List.forall_mem_append.2 ⟨hcode.calm hs, by simp [Operand.v0, hs.counted _ _ hn]⟩
  | print _ hcode => exact hcode.calm hs
  | alloca => simp

/-- The code of a terminator ends with transfers to blocks of the layout, and its registers are counted. -/
theorem ExitCode.calm {i : InstId} {transfers : List Instr} (h : ExitCode ctx s i code transfers) :
    (∀ j ∈ code, j.Calm s.code.vregCount) ∧ ∀ j ∈ transfers, j.isTransfer = true ∧
      (∀ op ∈ j.sources ++ j.defs, op.Within s.code.vregCount) ∧
      ∀ t, j.target? = some t → t < ctx.func.layout.length := by
  have hlt : ∀ {k : Nat} {b : BlockId}, ctx.func.layout[k]? = some b → k < ctx.func.layout.length :=
    fun hk => (List.getElem?_eq_some_iff.1 hk).1
  cases h with
  | jump _ htarget => simp [Instr.isTransfer, Instr.sources, Instr.defs, Instr.target?, hlt htarget]
  | ret => simp [Instr.isTransfer, Instr.sources, Instr.defs, Instr.target?, Operand.ra]
  | give _ _ hcode =>
    obtain ⟨hcalm, hsrc⟩ := hcode.calm hs
    refine ⟨List.forall_mem_append.2 ⟨hcalm, by simp [hsrc, Operand.v0]⟩, ?_⟩
    simp [Instr.isTransfer, Instr.sources, Instr.defs, Instr.target?, Operand.ra, Operand.v0]
  | branch _ _ hthen helse _ hcode =>
    obtain ⟨hcalm, hlhs⟩ := hcode.calm hs
    refine ⟨hcalm, ?_⟩
    simp [Instr.isTransfer, Instr.sources, Instr.defs, Instr.target?, Operand.zero, hlhs, hlt hthen, hlt helse]
  | fused _ _ hthen helse _ _ _ _ hcode =>
    obtain ⟨hcalm, hlhs, hrhs⟩ := hcode.calm hs
    refine ⟨hcalm, ?_⟩
    simp [Instr.isTransfer, Instr.sources, Instr.defs, Instr.target?, hlhs, hrhs, hlt hthen, hlt helse]

end Calm

end SsaCompiler
