import SsaCompiler.Proofs.Machine.LoweredPhis

/-!
# Strict code

Code is strict over a set of virtual registers when it reads none of the others before it writes it. The code of an
operand, of an instruction or of a terminator is strict over the registers of its values and of the labels, since what
else it reads is scratch that it has written just before; and behind the code of an instruction the register of its
result is written (`InstCode.strict`, `ExitCode.strict`).
-/

set_option autoImplicit false

namespace SsaCompiler

/-- An operand that is no virtual register outside a set. -/
def Operand.Among (set : Nat → Prop) (op : Operand) : Prop := ∀ n, op = .virtual n → set n

variable {op : Operand}

namespace Operand

variable {set set' : Nat → Prop}

@[simp] theorem among_virtual {n : Nat} : (Operand.virtual n).Among set ↔ set n :=
  ⟨fun h => h n rfl, fun h _ heq => Operand.virtual.inj heq ▸ h⟩

@[simp] theorem among_fixed (r : Register) : (Operand.fixed r).Among set := fun _ h => nomatch h

@[simp] theorem among_immediate (c : Word) : (Operand.immediate c).Among set := fun _ h => nomatch h

theorem Among.mono (h : op.Among set) (hle : ∀ n, set n → set' n) : op.Among set' :=
  fun n hn => hle n (h n hn)

end Operand

/-! ## Strictness -/

/-- A set of virtual registers with those that code writes. -/
def After (set : Nat → Prop) : List Instr → Nat → Prop
  | [] => set
  | i :: rest => After (fun n => set n ∨ .virtual n ∈ i.defs) rest

/-- Code reads no virtual register outside a set before it writes it. -/
def StrictOver (set : Nat → Prop) : List Instr → Prop
  | [] => True
  | i :: rest => (∀ op ∈ i.sources, op.Among set) ∧ StrictOver (fun n => set n ∨ .virtual n ∈ i.defs) rest

section Strict

variable {set set' : Nat → Prop} {code code' : List Instr} {i : Instr} {n : Nat}

@[simp] theorem after_nil : After set [] = set := rfl

@[simp] theorem after_cons : After set (i :: code) = After (fun n => set n ∨ .virtual n ∈ i.defs) code := rfl

@[simp] theorem strictOver_nil : StrictOver set [] := trivial

@[simp] theorem strictOver_cons : StrictOver set (i :: code) ↔
    (∀ op ∈ i.sources, op.Among set) ∧ StrictOver (fun n => set n ∨ .virtual n ∈ i.defs) code := Iff.rfl

/-- Registers are in the set or written. -/
theorem after_iff : After set code n ↔ set n ∨ ∃ i ∈ code, .virtual n ∈ i.defs := by
  induction code generalizing set with
  | nil => simp
  | cons i rest ih => simp [ih, or_assoc]

theorem After.of_set (h : set n) : After set code n := after_iff.2 (.inl h)

theorem After.of_mem (hi : i ∈ code) (hn : .virtual n ∈ i.defs) : After set code n := after_iff.2 (.inr ⟨i, hi, hn⟩)

theorem After.mono (h : After set code n) (hset : ∀ n, set n → set' n) (hcode : ∀ i ∈ code, i ∈ code') :
    After set' code' n := after_iff.2 ((after_iff.1 h).imp (hset n) fun ⟨i, hi, hn⟩ => ⟨i, hcode i hi, hn⟩)

@[simp] theorem after_append : After set (code ++ code') = After (After set code) code' := by
  induction code generalizing set with
  | nil => rfl
  | cons i rest ih => exact ih

@[simp] theorem strictOver_append :
    StrictOver set (code ++ code') ↔ StrictOver set code ∧ StrictOver (After set code) code' := by
  induction code generalizing set with
  | nil => simp
  | cons i rest ih => rw [List.cons_append, strictOver_cons, strictOver_cons, ih, and_assoc, after_cons]

theorem StrictOver.mono (h : StrictOver set code) (hle : ∀ n, set n → set' n) : StrictOver set' code := by
  induction code generalizing set set' with
  | nil => trivial
  | cons i rest ih =>
    exact ⟨fun op hop => (h.1 op hop).mono hle, ih h.2 fun n => Or.imp_left (hle n)⟩

/-- What is read at a place of strict code is in the set or written in front of the place. -/
theorem StrictOver.read {before after : List Instr} {i : Instr} (h : StrictOver set (before ++ i :: after))
    (hn : .virtual n ∈ i.sources) : After set before n :=
  (strictOver_append.1 h).2.1 _ hn n rfl

variable {base : List Instr} {s : Selection}

/-- Loads of addresses among strict code read nothing. -/
theorem LoadedCode.strict (h : LoadedCode s base code) (hbase : StrictOver set base) : StrictOver set code := by
  induction h generalizing set with
  | nil => exact hbase
  | load _ _ ih => exact ⟨List.forall_mem_nil _, ih (hbase.mono fun _ => .inl)⟩
  | keep _ ih => exact ⟨hbase.1, ih hbase.2⟩

/-- Nothing of the code is lost among loads. -/
theorem LoadedCode.subset (h : LoadedCode s base code) : ∀ i ∈ base, i ∈ code := by
  induction h with
  | nil => exact fun _ hi => hi
  | load _ _ ih => exact fun i hi => List.mem_cons_of_mem _ (ih i hi)
  | keep _ ih =>
    refine List.forall_mem_cons.2 ⟨List.mem_cons_self, fun i hi => List.mem_cons_of_mem _ (ih i hi)⟩

end Strict

/-! ## The registers of a selection -/

/-- An owner has one register. -/
theorem Selection.Belongs.unique {s : Selection} {o : Owner} {n n' : Nat} (h : s.Belongs n o) (h' : s.Belongs n' o) : n = n' := by
  cases o with
  | value v => exact Operand.virtual.inj (Option.some.inj (Eq.trans (Eq.symm h) h'))
  | label name => exact Operand.virtual.inj (Option.some.inj (Eq.trans (Eq.symm h) h'))

/-- A set has the register of a value, if it needs one. -/
def Selection.Supplies (ctx : SelectionContext) (s : Selection) (set : Nat → Prop) (v : ValueId) : Prop :=
  s.slots.lookup v = none → (ctx.func.value v).kind.isComputed = true → ∀ n, s.Belongs n (.value v) → set n

theorem Selection.Supplies.mono {ctx : SelectionContext} {s : Selection} {set set' : Nat → Prop} {v : ValueId}
    (h : s.Supplies ctx set v) (hle : ∀ n, set n → set' n) : s.Supplies ctx set' v :=
  fun hslot hkind n hn => hle n (h hslot hkind n hn)

/-- Some value has its register in a set. -/
def Selection.Stores (s : Selection) (set : Nat → Prop) (v : ValueId) : Prop := ∃ n, s.Belongs n (.value v) ∧ set n

namespace Selection.Stores

variable {s s' : Selection} {set set' : Nat → Prop} {v : ValueId}

/-- A value has no other register. -/
theorem supplies (h : s.Stores set v) (ctx : SelectionContext) : s.Supplies ctx set v := by
  intro _ _ n hn
  obtain ⟨n', hn', hset⟩ := h
  exact hn.unique hn' ▸ hset

theorem mono (h : s.Stores set v) (hle : ∀ n, set n → set' n) : s.Stores set' v := h.imp fun n => And.imp_right (hle n)

/-- A later state. -/
theorem extend (h : s.Stores set v) (hext : s.Extends s') : s'.Stores set v :=
  h.imp fun n => And.imp_left (hext.kept n (.value v))

end Selection.Stores

/-- A set has the registers of all labels. -/
def Selection.HasLabels (s : Selection) (set : Nat → Prop) : Prop := ∀ n name, s.Belongs n (.label name) → set n

section Code

variable {ctx : SelectionContext} {s : Selection} {set : Nat → Prop} {low high : Nat} {code : List Instr}

/-- A call reads no virtual register. -/
theorem among_call {callee : String} {argRegs stackArgs : Nat} :
    ∀ op ∈ (Instr.call callee argRegs stackArgs).sources, op.Among set := by
  intro op hop
  obtain ⟨r, -, rfl⟩ := List.mem_map.1 hop
  exact Operand.among_fixed r

variable {dst lhs rhs src : Operand}

theorem AddCode.strict {c : Word} (h : AddCode s low high dst src c code) (hsrc : src.Among set) :
    StrictOver set code ∧ dst.Among (After set code) := by
  cases h with
  | near => exact ⟨by simp [Instr.sources, hsrc], fun n hn => by simp [Instr.defs, hn]⟩
  | @far t _ =>
    have hsrc' : src.Among fun n => set n ∨ n = t := hsrc.mono fun _ => .inl
    exact ⟨by simp [Instr.sources, Instr.defs, hsrc'], fun n hn => by simp [Instr.defs, hn]⟩

variable (hlabels : s.HasLabels set)

include hlabels

theorem OperandCode.strict {v : ValueId} {op : Operand} (h : OperandCode ctx s low high v code op)
    (hv : s.Supplies ctx set v) : StrictOver set code ∧ op.Among (After set code) := by
  cases h with
  | number => simp
  | address _ _ hn => simp [hlabels _ _ hn]
  | register hslot hkind hn => simp [hv hslot hkind _ hn]
  | slot _ _ hcode => exact hcode.strict (Operand.among_fixed _)

theorem RegisterCode.strict {v : ValueId} {op : Operand} (h : RegisterCode ctx s low high v code op)
    (hv : s.Supplies ctx set v) : StrictOver set code ∧ op.Among (After set code) := by
  cases h with
  | zero => simp [Operand.zero]
  | number => simp [Instr.sources, Instr.defs]
  | operand h => exact h.strict hlabels hv

theorem RightCode.strict {v : ValueId} {op : Operand} (h : RightCode ctx s low high v code op)
    (hv : s.Supplies ctx set v) : StrictOver set code ∧ op.Among (After set code) := by
  cases h with
  | number => simp
  | register h => exact h.strict hlabels hv

omit hlabels in
theorem Selection.HasLabels.after (hlabels : s.HasLabels set) (code : List Instr) : s.HasLabels (After set code) :=
  fun n name hn => .of_set (hlabels n name hn)

omit hlabels in
theorem Selection.Supplies.after {v : ValueId} (hv : s.Supplies ctx set v) (code : List Instr) :
    s.Supplies ctx (After set code) v := hv.mono fun _ => After.of_set

omit hlabels in
theorem Operand.Among.after (h : op.Among set) (code : List Instr) : op.Among (After set code) :=
  h.mono fun _ => After.of_set

theorem RegisterCode.strict_right {mid mid' : Nat} {code' : List Instr} {l r : ValueId}
    (hl : RegisterCode ctx s low mid l code lhs) (hr : RightCode ctx s mid' high r code' rhs)
    (hl' : s.Supplies ctx set l) (hr' : s.Supplies ctx set r) : StrictOver set (code ++ code') ∧
      lhs.Among (After set (code ++ code')) ∧ rhs.Among (After set (code ++ code')) := by
  obtain ⟨hcode, hlhs⟩ := hl.strict hlabels hl'
  obtain ⟨hcode', hrhs⟩ := hr.strict (hlabels.after code) (hr'.after code)
  rw [strictOver_append, after_append]
  exact ⟨⟨hcode, hcode'⟩, hlhs.after code', hrhs⟩

theorem CompareCode.strict {op : BinaryOp} {l r : ValueId} {cond : Cond}
    (h : CompareCode ctx s low high op l r code cond lhs rhs) (hl : s.Supplies ctx set l) (hr : s.Supplies ctx set r) :
    StrictOver set code ∧ lhs.Among (After set code) ∧ rhs.Among (After set code) := by
  cases h with
  | mk hsame _ hleft hright =>
    rcases hsame with ⟨-, rfl, rfl⟩ | ⟨-, rfl, rfl⟩
    · exact hleft.strict_right hlabels hright hl hr
    · exact hleft.strict_right hlabels hright hr hl

omit hlabels in
theorem FoldCode.strict {base op : Operand} {offset offset' : Word} (h : FoldCode s low high base offset code op offset')
    (hbase : base.Among set) : StrictOver set code ∧ op.Among (After set code) := by
  cases h with
  | near => exact ⟨trivial, hbase⟩
  | far _ hcode => exact hcode.strict hbase

theorem StartCode.strict {base : ValueId} {op : Operand} {offset : Word} (h : StartCode ctx s low high base code op offset)
    (hbase : s.Supplies ctx set base) : StrictOver set code ∧ op.Among (After set code) := by
  cases h with
  | slot => simp [Operand.sp]
  | register _ h => exact h.strict hlabels hbase

theorem AddressCode.strict {base index : ValueId} {op : Operand} {offset : Word}
    (h : AddressCode ctx s low high base index code op offset) (hbase : s.Supplies ctx set base)
    (hindex : s.Supplies ctx set index) : StrictOver set code ∧ op.Among (After set code) := by
  cases h with
  | fixed _ hstart _ hfold =>
    obtain ⟨hcode, hop⟩ := hstart.strict hlabels hbase
    obtain ⟨hcode', hop'⟩ := hfold.strict hop
    rw [strictOver_append, after_append]
    exact ⟨⟨hcode, hcode'⟩, hop'⟩
  | @scaled _ _ _ _ _ n m code code' _ start idx _ hstart _ hidx _ _ _ hfold =>
    obtain ⟨hcode, hop⟩ := hstart.strict hlabels hbase
    obtain ⟨hcode', hidx'⟩ := hidx.strict (hlabels.after code) (hindex.after code)
    have hop' : start.Among fun k => After (After set code) code' k ∨ k = n := (hop.after code').mono fun _ => .inl
    have hm : (Operand.virtual m).Among (After (After (After set code) code')
        [.binary .sll (.virtual n) idx (.immediate 2), .binary .addu (.virtual m) (.virtual n) start]) := by
      simp [Instr.defs]
    obtain ⟨hcode'', hop''⟩ := hfold.strict hm
    simp only [strictOver_append, after_append]
    exact ⟨⟨⟨⟨hcode, hcode'⟩, by simp [Instr.sources, Instr.defs, hidx', hop']⟩, hcode''⟩, hop''⟩

omit hlabels in
theorem ScaleCode.strict {scale : Word} (h : ScaleCode s low high dst src scale code) (hsrc : src.Among set) :
    StrictOver set code ∧ dst.Among (After set code) := by
  cases h with
  | shift => exact ⟨by simp [Instr.sources, hsrc], fun n hn => by simp [Instr.defs, hn]⟩
  | @factor t _ =>
    have hsrc' : src.Among fun n => set n ∨ n = t := hsrc.mono fun _ => .inl
    exact ⟨by simp [Instr.sources, Instr.defs, hsrc'], fun n hn => by simp [Instr.defs, hn]⟩

theorem ElementCode.strict {dst : Operand} {base index : ValueId} {scale : Word}
    (h : ElementCode ctx s dst base index scale code) (hbase : s.Supplies ctx set base)
    (hindex : s.Supplies ctx set index) : StrictOver set code ∧ dst.Among (After set code) := by
  cases h with
  | fixed _ hstart hadd =>
    obtain ⟨hcode, hop⟩ := hstart.strict hlabels hbase
    obtain ⟨hcode', hdst⟩ := hadd.strict hop
    rw [strictOver_append, after_append]
    exact ⟨⟨hcode, hcode'⟩, hdst⟩
  | @scaled _ _ _ _ n code code' code'' _ _ hidx _ hscale hstart =>
    obtain ⟨hcode, hidx'⟩ := hidx.strict hlabels hindex
    obtain ⟨hcode', hn⟩ := hscale.strict hidx'
    obtain ⟨hcode'', hstart'⟩ := hstart.strict ((hlabels.after code).after code') ((hbase.after code).after code')
    have hn' := hn.after code''
    simp only [strictOver_append, after_append]
    exact ⟨⟨⟨⟨hcode, hcode'⟩, hcode''⟩, by simp [Instr.sources, hstart', Operand.among_virtual.1 hn']⟩,
      fun k hk => by simp [Instr.defs, hk]⟩

theorem PushCode.strict {lowest : Word} {args : List (ValueId × Nat)} (h : PushCode ctx s lowest args code)
    (hargs : ∀ a ∈ args, s.Supplies ctx set a.1) : StrictOver set code := by
  induction h generalizing set with
  | nil => trivial
  | @cons _ _ _ _ _ code code' src _ hcode _ _ ih =>
    obtain ⟨hv, hrest⟩ := List.forall_mem_cons.1 hargs
    obtain ⟨hstrict, hsrc⟩ := hcode.strict hlabels hv
    refine strictOver_append.2 ⟨hstrict, by simp [Instr.sources, hsrc, Operand.sp], ?_⟩
    exact (ih (hlabels.after code) fun a ha => (hrest a ha).after code).mono fun _ => .inl

theorem PassCode.strict {args : List (ValueId × Register)} (h : PassCode ctx s args code)
    (hargs : ∀ a ∈ args, s.Supplies ctx set a.1) : StrictOver set code := by
  induction h generalizing set with
  | nil => trivial
  | @cons _ _ _ _ _ code code' src hcode _ ih =>
    obtain ⟨hv, hrest⟩ := List.forall_mem_cons.1 hargs
    obtain ⟨hstrict, hsrc⟩ := hcode.strict hlabels hv
    refine strictOver_append.2 ⟨hstrict, by simp [Instr.sources, hsrc], ?_⟩
    exact (ih (hlabels.after code) fun a ha => (hrest a ha).after code).mono fun _ => .inl

theorem CallCode.strict {label : String} {args : List ValueId} (h : CallCode ctx s label args code)
    (hargs : ∀ v ∈ args, s.Supplies ctx set v) : StrictOver set code := by
  cases h with
  | @mk _ code code' _ hpush hpass =>
    simp only [strictOver_append]
    refine ⟨⟨hpush.strict hlabels fun a ha => ?_, hpass.strict (hlabels.after code) fun a ha => ?_⟩, among_call, trivial⟩
    · exact hargs _ (List.mem_of_mem_drop (List.fst_mem_of_mem_zipIdx ha))
    · exact (hargs _ (List.of_mem_zip ha).1).after code

theorem PrintCode.strict {pieces : List PrintPiece} {args : List ValueId} (h : PrintCode ctx s pieces args code)
    (hargs : ∀ v ∈ args, s.Supplies ctx set v) : StrictOver set code := by
  induction h generalizing set with
  | nil => trivial
  | str _ hn _ ih =>
    refine ⟨by simp [Instr.sources, hlabels _ _ hn], among_call, ?_⟩
    exact (ih hlabels hargs).mono fun _ hk => .inl (.inl hk)
  | @arg _ _ _ _ _ code _ _ hcode _ ih =>
    obtain ⟨hv, hrest⟩ := List.forall_mem_cons.1 hargs
    obtain ⟨hstrict, hsrc⟩ := hcode.strict hlabels hv
    refine strictOver_append.2 ⟨hstrict, by simp [Instr.sources, hsrc], among_call, ?_⟩
    exact (ih (hlabels.after code) fun a ha => (hrest a ha).after code).mono fun _ hk => .inl (.inl hk)

/-- The code of an instruction is strict over the registers of its operands, and it writes that of its result, unless the
result is a slot. -/
theorem InstCode.strict (hf : ctx.func.Sound) {i : InstId} (h : InstCode ctx s i code)
    (hops : ∀ v ∈ ctx.func.operands i, s.Supplies ctx set v)
    (hslot : ∀ words, ctx.func.kind i = .alloca words → ∀ v, ctx.func.result? i = some v → s.slots.lookup v ≠ none) :
    StrictOver set code ∧ ∀ v, ctx.func.result? i = some v → s.slots.lookup v = none → s.Stores (After set code) v := by
  have hwrites : ∀ {v n : Nat} {code : List Instr} {j : Instr}, ctx.func.result? i = some v → s.Belongs n (.value v) →
      j.defs = [.virtual n] → ∀ w, ctx.func.result? i = some w → s.slots.lookup w = none →
        s.Stores (After set (code ++ [j])) w := by
    intro v n code j hv hn hdefs w hw _
    obtain rfl := Option.some.inj (hv.symm.trans hw)
    exact ⟨n, hn, .of_mem (List.mem_append_right _ List.mem_cons_self) (by rw [hdefs]; exact List.mem_cons_self)⟩
  cases h with
  | compare _ _ hargs hresult hn hcode =>
    rw [hargs] at hops
    obtain ⟨hstrict, hlhs, hrhs⟩ := hcode.strict hlabels (hops _ (by simp)) (hops _ (by simp))
    exact ⟨by simp [hstrict, Instr.sources, hlhs, hrhs], hwrites hresult hn rfl⟩
  | arith _ hargs _ hsame hresult hn hl hr =>
    rw [hargs] at hops
    obtain ⟨hstrict, hlhs, hrhs⟩ := hl.strict_right hlabels hr (hops _ (by rcases hsame with ⟨rfl, -⟩ | ⟨-, rfl, -⟩ <;> simp))
      (hops _ (by rcases hsame with ⟨-, rfl⟩ | ⟨-, -, rfl⟩ <;> simp))
    exact ⟨strictOver_append.2 ⟨hstrict, List.forall_mem_cons.2 ⟨hlhs, List.forall_mem_singleton.2 hrhs⟩, trivial⟩,
      hwrites hresult hn rfl⟩
  | subtract _ hargs _ hsame hresult hn _ hl =>
    rw [hargs] at hops
    obtain ⟨hstrict, hlhs⟩ := hl.strict hlabels (hops _ (by rcases hsame with ⟨rfl, -⟩ | ⟨-, rfl, -⟩ <;> simp))
    exact ⟨by simp [hstrict, Instr.sources, hlhs], hwrites hresult hn rfl⟩
  | gep _ hargs hresult hn hcode =>
    rw [hargs] at hops
    obtain ⟨hstrict, hdst⟩ := hcode.strict hlabels (hops _ (by simp)) (hops _ (by simp))
    refine ⟨hstrict, fun w hw _ => ?_⟩
    obtain rfl := Option.some.inj (hresult.symm.trans hw)
    exact ⟨_, hn, Operand.among_virtual.1 hdst⟩
  | load _ hargs hresult hn hcode =>
    rw [hargs] at hops
    obtain ⟨hstrict, hop⟩ := hcode.strict hlabels (hops _ (by simp)) (hops _ (by simp))
    exact ⟨by simp [hstrict, Instr.sources, hop], hwrites hresult hn rfl⟩
  | @store _ _ _ _ _ _ code code' _ _ _ hkind hargs hcode hdata =>
    rw [hargs] at hops
    obtain ⟨hstrict, hop⟩ := hcode.strict hlabels (hops _ (by simp)) (hops _ (by simp))
    obtain ⟨hstrict', hsrc⟩ := hdata.strict (hlabels.after code) ((hops _ (by simp)).after code)
    have hop' := hop.after code'
    rw [← after_append] at hsrc hop'
    refine ⟨strictOver_append.2 ⟨strictOver_append.2 ⟨hstrict, hstrict'⟩,
      List.forall_mem_cons.2 ⟨hsrc, List.forall_mem_singleton.2 hop'⟩, trivial⟩, fun v hv => ?_⟩
    have hgives := hf.gives i v hv
    rw [hkind] at hgives
    cases hgives
  | call _ hresult hcode =>
    refine ⟨hcode.strict hlabels hops, fun v hv => ?_⟩
    cases hresult.symm.trans hv
  | callFor _ hresult hn hcode =>
    exact ⟨by simp [hcode.strict hlabels hops, Instr.sources, Operand.v0], hwrites hresult hn rfl⟩
  | print hkind hcode =>
    refine ⟨hcode.strict hlabels hops, fun v hv => ?_⟩
    have hgives := hf.gives i v hv
    rw [hkind] at hgives
    cases hgives
  | alloca hkind => exact ⟨trivial, fun v hv hnone => absurd hnone (hslot _ hkind v hv)⟩

/-- The code of a terminator is strict over the registers of its operands, those of a fused comparison in place of its
result, and what its transfers read is among them or written. -/
theorem ExitCode.strict {i : InstId} {transfers : List Instr} (h : ExitCode ctx s i code transfers)
    (hops : ∀ v ∈ ctx.func.operands i, (∀ d, ctx.func.definingInst? v = some d → ctx.fused.contains d = false) →
      s.Supplies ctx set v)
    (hfused : ∀ v ∈ ctx.func.operands i, ∀ d, ctx.func.definingInst? v = some d → ctx.fused.contains d = true →
      (ctx.func.kind i).isBranch = true ∧ ∀ w ∈ ctx.func.operands d, s.Supplies ctx set w) :
    StrictOver set (code ++ transfers) := by
  cases h with
  | jump => simp [Instr.sources]
  | ret => simp [Instr.sources, Operand.ra]
  | @give v _ _ _ _ hkind hargs hcode =>
    rw [hargs] at hops hfused
    obtain ⟨hstrict, hsrc⟩ := hcode.strict hlabels (hops v List.mem_cons_self fun d hd => by
      by_contra hin
      have hbranch := (hfused v List.mem_cons_self d hd (by rwa [Bool.not_eq_false] at hin)).1
      rw [hkind] at hbranch
      cases hbranch)
    simp [hstrict, Instr.sources, hsrc, Operand.ra, Operand.v0]
  | branch _ hargs _ _ hplain hcode =>
    rw [hargs] at hops
    obtain ⟨hstrict, hlhs⟩ := hcode.strict hlabels (hops _ List.mem_cons_self hplain)
    simp [hstrict, Instr.sources, hlhs, Operand.zero]
  | fused _ hargs _ _ hd hin _ hoperands hcode =>
    rw [hargs] at hfused
    have hsupplied := (hfused _ List.mem_cons_self _ hd hin).2
    rw [hoperands] at hsupplied
    obtain ⟨hstrict, hlhs, hrhs⟩ := hcode.strict hlabels (hsupplied _ (by simp)) (hsupplied _ (by simp))
    simp [hstrict, Instr.sources, hlhs, hrhs]

end Code

/-! ## Code of blocks -/

/-- A value is the result of one of some instructions, phis left out. -/
def Function.Gives (f : Function) (insts : List InstId) (v : ValueId) : Prop :=
  ∃ i ∈ insts, (f.kind i).isPhi = false ∧ f.result? i = some v

/-- The result of one more instruction. -/
theorem Function.gives_cons {f : Function} {i : InstId} {insts : List InstId} {v : ValueId} :
    f.Gives (i :: insts) v ↔ ((f.kind i).isPhi = false ∧ f.result? i = some v) ∨ f.Gives insts v := by
  simp [Gives]

section Block

variable {ctx : SelectionContext} {s : Selection} {set : Nat → Prop} {code : List Instr}

/-- The code for parameters reads no virtual register, and it writes those of the parameters. -/
theorem ParamsCode.strict {params : List (ValueId × Nat)} (h : ParamsCode s params code) :
    StrictOver set code ∧ ∀ p ∈ params, s.Stores (After set code) p.1 := by
  induction h generalizing set with
  | nil => exact ⟨trivial, List.forall_mem_nil _⟩
  | register _ hn _ ih | stack _ _ hn _ ih =>
    refine ⟨⟨by simp [Instr.sources, Operand.sp], ih.1⟩, List.forall_mem_cons.2 ⟨⟨_, hn, ?_⟩, ih.2⟩⟩
    exact .of_mem List.mem_cons_self List.mem_cons_self

/-- Phis have no code of their own. -/
theorem InstCode.not_isPhi {i : InstId} (h : InstCode ctx s i code) : (ctx.func.kind i).isPhi = false := by
  cases h <;> simp_all [InstKind.isPhi]

/-- Instructions one after the other: each reads what is in the set or what those in front of it have written. -/
theorem InstsCode.strict (hf : ctx.func.Sound) {insts : List InstId} (h : InstsCode ctx s insts code)
    (hlabels : s.HasLabels set)
    (hops : ∀ before i after, insts = before ++ i :: after → (ctx.func.kind i).isPhi = false →
      ∀ v ∈ ctx.func.operands i, s.Supplies ctx set v ∨ ctx.func.Gives before v)
    (hslot : ∀ i ∈ insts, ∀ words, ctx.func.kind i = .alloca words → ∀ v, ctx.func.result? i = some v →
      s.slots.lookup v ≠ none) :
    StrictOver set code ∧ ∀ v, ctx.func.Gives insts v → s.slots.lookup v = none → s.Stores (After set code) v := by
  induction h generalizing set with
  | nil => exact ⟨trivial, fun v ⟨i, hi, _⟩ => absurd hi List.not_mem_nil⟩
  | @phi i rest code hphi _ ih =>
    have hgives : ∀ {insts v}, ctx.func.Gives (i :: insts) v → ctx.func.Gives insts v := fun h =>
      (Function.gives_cons.1 h).resolve_left fun hi => absurd hphi (Bool.eq_false_iff.1 hi.1)
    obtain ⟨hstrict, hresults⟩ := ih hlabels (fun before j after hlist hplain v hv =>
      (hops (i :: before) j after (congrArg (i :: ·) hlist) hplain v hv).imp_right hgives) (List.forall_mem_cons.1 hslot).2
    exact ⟨hstrict, fun v hv => hresults v (hgives hv)⟩
  | @cons i rest code code' hcode _ ih =>
    obtain ⟨hslot₁, hslot'⟩ := List.forall_mem_cons.1 hslot
    obtain ⟨hstrict, hresult⟩ := hcode.strict hlabels hf (fun v hv =>
      (hops [] i rest rfl hcode.not_isPhi v hv).resolve_right fun ⟨j, hj, _⟩ => absurd hj List.not_mem_nil) hslot₁
    have hbehind : ∀ before j after, rest = before ++ j :: after → (ctx.func.kind j).isPhi = false →
        ∀ v ∈ ctx.func.operands j, s.Supplies ctx (After set code) v ∨ ctx.func.Gives before v := by
      intro before j after hlist hplain v hv
      rcases hops (i :: before) j after (congrArg (i :: ·) hlist) hplain v hv with hin | hgives
      · exact .inl (hin.after code)
      · refine (Function.gives_cons.1 hgives).imp_left fun ⟨_, hi⟩ hnone => ?_
        exact (hresult v hi hnone).supplies ctx hnone
    obtain ⟨hstrict', hresults⟩ := ih (hlabels.after code) hbehind hslot'
    refine ⟨strictOver_append.2 ⟨hstrict, hstrict'⟩, fun v hv hnone => ?_⟩
    rw [after_append]
    rcases Function.gives_cons.1 hv with ⟨-, hi⟩ | hrest
    · exact (hresult v hi hnone).mono fun _ => After.of_set
    · exact hresults v hrest hnone

/-- Moves into phis read the registers that they take. -/
theorem TakeCode.strict {taken : List (Nat × Nat)} (h : TakeCode s taken code) (htaken : ∀ e ∈ taken, set e.2) :
    StrictOver set code ∧ ∀ e ∈ taken, After set code e.1 := by
  induction h generalizing set with
  | nil => exact ⟨trivial, List.forall_mem_nil _⟩
  | load _ _ ih =>
    exact ⟨⟨List.forall_mem_nil _, (ih fun e he => .inl (htaken e he)).1⟩, (ih fun e he => .inl (htaken e he)).2⟩
  | @move n t taken code _ ih =>
    obtain ⟨ht, hrest⟩ := List.forall_mem_cons.1 htaken
    have hrest' : ∀ e ∈ taken, set e.2 ∨ .virtual e.2 ∈ (Instr.move (.virtual n) (.virtual t)).defs :=
      fun e he => .inl (hrest e he)
    refine ⟨⟨by simpa [Instr.sources] using ht, (ih hrest').1⟩, List.forall_mem_cons.2 ⟨?_, (ih hrest').2⟩⟩
    exact .of_mem List.mem_cons_self List.mem_cons_self

variable {i : Instr} {t : Nat} {v : ValueId}

/-- A copy writes its register. -/
theorem CopyCode.mem_defs (h : CopyCode ctx s t v i) : .virtual t ∈ i.defs := by
  cases h <;> exact List.mem_cons_self

theorem CopyCode.among (h : CopyCode ctx s t v i) (hlabels : s.HasLabels set) (hv : s.Supplies ctx set v) :
    ∀ op ∈ i.sources, op.Among set := by
  cases h with
  | slot => simp [Instr.sources, Operand.sp]
  | plain hcode => simpa [Instr.sources] using (hcode.strict hlabels hv).2

/-- Code that reads nothing outside a set is strict over it. -/
theorem StrictOver.of_sources (h : ∀ i ∈ code, ∀ op ∈ i.sources, op.Among set) : StrictOver set code := by
  induction code with
  | nil => trivial
  | cons i rest ih =>
    obtain ⟨hi, hrest⟩ := List.forall_mem_cons.1 h
    exact ⟨hi, (ih hrest).mono fun _ => .inl⟩

end Block

end SsaCompiler
