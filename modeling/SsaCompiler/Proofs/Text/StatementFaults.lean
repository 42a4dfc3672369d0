import SsaCompiler.Proofs.Text.DistinctNames
import SsaCompiler.Proofs.Text.GrownCode

/-!
# Faults of statements

A statement is built at a block without terminator. The only faults are those that the statement has by itself: it
names a symbol, a block or a callee that is not there, or it does not fit the callee or the function (`SourceOp.Fault`);
it reads a value that has no name yet, or it gives a name again. Otherwise it appends its instruction and leads where
it says. No promise of an edit is ever broken on the way.
-/

set_option autoImplicit false

namespace SsaCompiler

open Edits Stateful

/-- The blocks that an operation names. -/
def SourceOp.targets : SourceOp → List String
  | jump target => [target]
  | branch _ thenBlock elseBlock => [thenBlock, elseBlock]
  | _ => []

/-- The number of arguments that a callee takes, and whether it returns a value. -/
def Module.signature? (m : Module) (callee : String) : Option (Nat × Bool) :=
  match Builtin.ofName? callee with
  | some builtin => some (builtin.paramCount, builtin.returnsValue)
  | none => (m.functionByName? callee).map fun id => ((m.function id).params.length, (m.function id).returnsValue)

/-- What is wrong with an operation whatever the values are; `labels` are the blocks of the function. -/
inductive SourceOp.Fault (m : Module) (returns : Bool) (labels : List String) (named : Bool) (op : SourceOp) :
    TextFault → Prop
  | symbol {name : String} (hmem : .symbol name ∈ op.operands) (hfree : m.Free name) :
    Fault m returns labels named op (.unknownSymbol name)
  | block {name : String} (hmem : name ∈ op.targets) (hnot : name ∉ labels) :
    Fault m returns labels named op (.unknownBlock name)
  | callee {callee : String} {args : List SourceOperand} (hop : op = .call callee args)
    (hnone : m.signature? callee = none) : Fault m returns labels named op (.unknownCallee callee)
  | arity {callee : String} {args : List SourceOperand} {arity : Nat} {gives : Bool} (hop : op = .call callee args)
    (hsome : m.signature? callee = some (arity, gives)) (hne : arity ≠ args.length) :
    Fault m returns labels named op (.callArity callee arity args.length)
  | voidCall {callee : String} {args : List SourceOperand} {arity : Nat} (hop : op = .call callee args)
    (hsome : m.signature? callee = some (arity, false)) (hnamed : named = true) :
    Fault m returns labels named op (.voidCallResult callee)
  | voidReturn {v : SourceOperand} (hop : op = .ret (some v)) (hvoid : returns = false) :
    Fault m returns labels named op .voidReturnsValue
  | missingReturn (hop : op = .ret none) (hvalue : returns = true) :
    Fault m returns labels named op .missingReturnValue

variable {name : String}

namespace Module.Built

variable {id : FuncId} {m m' : Module}

variable (h : Built Function.BuildStep id m m')

include h

/-- Building leaves the globals where they are. -/
theorem globalByName? (name : String) : m'.globalByName? name = m.globalByName? name := by
  unfold Module.globalByName?
  rw [h.symbols.globals]

/-- Building frees no symbol. -/
theorem free (hfree : m'.Free name) : m.Free name := by
  refine ⟨h.globalByName? name ▸ hfree.1, Array.findIdx?_eq_none_iff.2 fun s hs => ?_⟩
  obtain ⟨k, hk, rfl⟩ := Array.mem_iff_getElem.1 hs
  have hold := h.symbols.old k hk
  rw [Array.getElem?_eq_getElem hk] at hold
  exact Array.findIdx?_eq_none_iff.1 hfree.2 _ (Array.mem_of_getElem? hold)

/-- Building leaves the functions where they are. -/
theorem functionByName? (name : String) : m'.functionByName? name = m.functionByName? name := by
  have hnames : m'.functions.toList.map (·.name) = m.functions.toList.map (·.name) := by
    have hheadings := congrArg (List.map Heading.name) h.headings
    unfold Module.headings at hheadings
    rwa [List.map_map, List.map_map] at hheadings
  have hfind : ∀ n : Module, n.functionByName? name = (n.functions.toList.map (·.name)).findIdx? (· == name) := by
    intro n
    unfold Module.functionByName?
    rw [List.findIdx?_map, ← List.findIdx?_toArray, Array.toArray_toList]
    rfl
  rw [hfind, hfind, hnames]

/-- Building leaves the signatures alone. -/
theorem signature? (callee : String) : m'.signature? callee = m.signature? callee := by
  unfold Module.signature?
  rw [h.functionByName?]
  have hheading : ∀ j, ((m'.function j).params.length, (m'.function j).returnsValue) =
      ((m.function j).params.length, (m.function j).returnsValue) := fun j =>
    congrArg (fun heading : Heading => (heading.params.length, heading.returnsValue)) (h.heading j)
  simp only [hheading]

end Module.Built

/-- The names of the values of the function under construction. -/
def Reading.names (r : Reading) : List String := r.values.map (·.1)

/-- A state on the way of building one function, where every named value is one of the function. -/
structure Reading.From (m : Module) (id : FuncId) (r : Reading) : Prop where
  func_lt : id < r.module.functions.size
  sound : (r.module.function id).Sound
  built : Module.Built Function.BuildStep id m r.module
  values_lt : ∀ e ∈ r.values, e.2 < (r.module.function id).values.size

/-- A state with more values in the function and otherwise as before. -/
structure Reading.ReadOn (m : Module) (id : FuncId) (r r' : Reading) : Prop where
  start : r'.From m id
  values : r'.values = r.values
  more : (r.module.function id).MoreValues (r'.module.function id)

variable {v : ValueId}

namespace Reading

variable {m : Module} {id : FuncId} {r r' r'' : Reading}

/-- Building goes on. -/
theorem From.step (h : r.From m id) (hbuilt : Module.Built Function.BuildStep id r.module r'.module)
    (hvalues : ∀ e ∈ r'.values, e ∈ r.values ∨ e.2 < (r'.module.function id).values.size) : r'.From m id where
  func_lt := hbuilt.size ▸ h.func_lt
  sound := Function.BuildSteps.sound hbuilt.steps h.sound
  built := h.built.trans hbuilt
  values_lt e he := (hvalues e he).elim
    (fun hold => Nat.lt_of_lt_of_le (h.values_lt e hold) (Function.BuildSteps.outlines hbuilt.steps).size) fun hlt => hlt

theorem ReadOn.refl (h : r.From m id) : ReadOn m id r r := ⟨h, rfl, .refl _⟩

theorem ReadOn.trans (h : ReadOn m id r r') (h' : ReadOn m id r' r'') : ReadOn m id r r'' :=
  ⟨h'.start, h'.values.trans h.values, h.more.trans h'.more⟩

/-- Changes of the module that add values only. -/
theorem From.readOn (h : r.From m id) {m' : Module} (hbuilt : Module.Built Function.MoreValues id r.module m') :
    ReadOn m id r { r with module := m' } :=
  ⟨h.step hbuilt.code.body fun _ he => .inl he, rfl, Function.moreValues_of_steps hbuilt.steps⟩

/-- Values that were there before. -/
theorem ReadOn.lt (h : ReadOn m id r r') (hv : v < (r.module.function id).values.size) :
    v < (r'.module.function id).values.size := Nat.lt_of_lt_of_le hv h.more.values_size

/-- Reading leaves a builder open. -/
theorem ReadOn.isOpen {b : Builder} {c : BlockId} (h : ReadOn m b.func r r') (hr : r.From m b.func)
    (hopen : b.Open r.module c) : b.Open r'.module c :=
  hopen.of_moreValues (h.start.built.size.trans hr.built.size.symm) h.more

end Reading

namespace Reader

variable {m : Module} {b : Builder} {r r₁ : Reading} {allowed : Failure → Prop} {α : Type}

/-! ## Operands -/

/-- The faults of reading operands are allowed: names that no value has, and symbols that are not declared. -/
structure Readable (allowed : Failure → Prop) (m : Module) (names : List String) (line : Nat)
    (operands : List SourceOperand) : Prop where
  locals : ∀ name, .localName name ∈ operands → name ∉ names → allowed (.error (.parse line (.undefinedValue name)))
  symbols : ∀ name, .symbol name ∈ operands → m.Free name → allowed (.error (.parse line (.unknownSymbol name)))

variable {operands : List SourceOperand} {op : SourceOp} {post : α → Reading → Prop}

variable {edit : ModuleEdit α}

/-- A change of the module that succeeds. -/
theorem meets_change {a : α} {m' : Module} (hrun : edit.run r.module = (.ok a, m'))
    (hpost : post a { r with module := m' }) : Meets allowed (change edit) r post := by
  unfold change
  refine .bind (.get ?_)
  rw [hrun]
  exact .bind (.modify (.pure hpost))

theorem meets_fault {line : Nat} {fault : TextFault} (h : allowed (.error (.parse line fault))) :
    Meets allowed (Reader.fault line fault) r post := h

/-- The value that stands for something of the module, if it was found. -/
theorem meets_found (h : r.From m b.func) {edit : ModuleEdit (Option ValueId)} (found : Option Nat)
    (kind : Nat → ValueKind) (hkind : ∀ k, (kind k).isComputed = false)
    (hwithin : ∀ k, found = some k → (kind k).Within r.module.globals.size r.module.strings.size)
    (hnone : found = none → edit.run r.module = (.ok none, r.module))
    (hsome : ∀ k, found = some k → edit.run r.module = (some <$> b.edit (Edit.internValue (kind k))).run r.module) :
    Meets allowed (change edit) r fun v r' => Reading.ReadOn m b.func r r' ∧ (v = none → found = none) ∧
      ∀ w, v = some w → w < (r'.module.function b.func).values.size := by
  cases found with
  | none => exact meets_change (hnone rfl) ⟨.refl h, fun _ => rfl, fun w hw => nomatch hw⟩
  | some k =>
    obtain ⟨v, f', hintern⟩ := Edit.succeeds_internValue (f := r.module.function b.func) (kind k)
    obtain ⟨m', hrun, hat⟩ := ModuleEdit.exists_editFunction h.func_lt hintern
    have hedit : edit.run r.module = (.ok (some v), m') := by
      rw [hsome k rfl, ← bind_pure_comp, run_bind, show (b.edit (Edit.internValue (kind k))).run r.module = _ from hrun]
      rfl
    refine meets_change hedit ⟨h.readOn (b.built_internValue (hkind k) (hwithin k rfl) hrun), nofun,
      fun w hw => ?_⟩
    cases hw
    change v < (m'.function b.func).values.size
    rw [hat]
    exact (Edit.internValue_spec (hkind k) hintern).2.1

theorem meets_global (h : r.From m b.func) (name : String) :
    Meets allowed (change (b.global name)) r fun v r' => Reading.ReadOn m b.func r r' ∧
      (v = none → r.module.globalByName? name = none) ∧ ∀ w, v = some w → w < (r'.module.function b.func).values.size := by
  refine meets_found h (r.module.globalByName? name) .global (fun _ => rfl)
    (fun g hg => (Array.findIdx?_eq_some_iff_getElem.1 hg).1) (fun hnone => ?_) fun g hg => ?_
  · unfold Builder.global
    rw [run_get_bind, hnone]
    rfl
  · unfold Builder.global
    rw [run_get_bind, hg]
    rfl

theorem meets_string (h : r.From m b.func) (name : String) :
    Meets allowed (change (b.string name)) r fun v r' => Reading.ReadOn m b.func r r' ∧
      (v = none → r.module.stringByName? name = none) ∧ ∀ w, v = some w → w < (r'.module.function b.func).values.size := by
  refine meets_found h (r.module.stringByName? name) .str (fun _ => rfl)
    (fun s hs => (Array.findIdx?_eq_some_iff_getElem.1 hs).1) (fun hnone => ?_) fun s hs => ?_
  · unfold Builder.string
    rw [run_get_bind, hnone]
    rfl
  · unfold Builder.string
    rw [run_get_bind, hs]
    rfl

/-- Reading an operand gives a value of the function. -/
theorem meets_value {line : Nat} (hread : Readable allowed m r.names line operands) (h : Reading.ReadOn m b.func r r₁)
    {operand : SourceOperand} (hmem : operand ∈ operands) :
    Meets allowed (value b line operand) r₁ fun v r₂ => Reading.ReadOn m b.func r r₂ ∧
      Reading.ReadOn m b.func r₁ r₂ ∧ v < (r₂.module.function b.func).values.size := by
  suffices hvalue : Meets allowed (value b line operand) r₁ fun v r₂ => Reading.ReadOn m b.func r₁ r₂ ∧
      v < (r₂.module.function b.func).values.size from hvalue.mono fun v r₂ hv => ⟨h.trans hv.1, hv⟩
  cases operand with
  | int c =>
    obtain ⟨v, f', hintern⟩ := Edit.succeeds_internValue (f := r₁.module.function b.func) (.const c)
    obtain ⟨m', hrun, hat⟩ := ModuleEdit.exists_editFunction h.start.func_lt hintern
    refine meets_change hrun ⟨h.start.readOn (b.built_internValue rfl (by trivial) hrun), ?_⟩
    change v < (m'.function b.func).values.size
    rw [hat]
    exact (Edit.internValue_spec rfl hintern).2.1
  | localName name =>
    refine .bind (.get ?_)
    split
    · rename_i v hv
      exact .pure ⟨.refl h.start, h.start.values_lt (name, v) (mem_of_lookup hv)⟩
    · rename_i hnone
      rw [h.values] at hnone
      exact meets_fault (hread.locals name hmem (not_mem_of_lookup hnone))
  | symbol name =>
    refine .bind ((meets_global h.start name).mono fun v r₂ hv => ?_)
    obtain ⟨hread₂, hglobal, hlt⟩ := hv
    split
    · exact .pure ⟨hread₂, hlt _ rfl⟩
    · refine .bind ((meets_string hread₂.start name).mono fun w r₃ hw => ?_)
      obtain ⟨hread₃, hstring, hlt'⟩ := hw
      split
      · exact .pure ⟨hread₂.trans hread₃, hlt' _ rfl⟩
      · refine meets_fault (hread.symbols name hmem (hread₂.start.built.free ⟨?_, hstring rfl⟩))
        rw [hread₂.start.built.globalByName?, ← h.start.built.globalByName?]
        exact hglobal rfl

theorem meets_pair {line : Nat} (h : r.From m b.func) (hread : Readable allowed m r.names line operands)
    {first second : SourceOperand} (hfirst : first ∈ operands) (hsecond : second ∈ operands)
    {next : ValueId → ValueId → Reader α}
    (hnext : ∀ v w r₂, Reading.ReadOn m b.func r r₂ → (∀ x ∈ [v, w], x < (r₂.module.function b.func).values.size) →
      Meets allowed (next v w) r₂ post) : Meets allowed (do
      let v ← value b line first
      let w ← value b line second
      next v w) r post := by
  refine .bind ((meets_value hread (.refl h) hfirst).mono fun v r₁ hv => ?_)
  obtain ⟨hread₁, -, hv⟩ := hv
  refine .bind ((meets_value hread hread₁ hsecond).mono fun w r₂ hw => hnext v w r₂ hw.1 fun x hx => ?_)
  rcases List.mem_cons.1 hx with rfl | hx
  · exact hw.2.1.lt hv
  · exact List.mem_singleton.1 hx ▸ hw.2.2

/-- Reading operands gives values of the function. -/
theorem meets_values {line : Nat} (hread : Readable allowed m r.names line operands) (h : r.From m b.func) :
    Meets allowed (operands.mapM (value b line)) r fun vs r₁ =>
      Reading.ReadOn m b.func r r₁ ∧ vs.length = operands.length ∧ ∀ v ∈ vs, v < (r₁.module.function b.func).values.size := by
  refine .mapM (I := fun done vs r₁ => Reading.ReadOn m b.func r r₁ ∧ vs.length = done.length ∧
    ∀ v ∈ vs, v < (r₁.module.function b.func).values.size) operands (fun done operand rest vs r₁ hall hvs => ?_)
    ⟨.refl h, rfl, fun v hv => absurd hv List.not_mem_nil⟩
  obtain ⟨hread₁, hlength, hlt⟩ := hvs
  refine (meets_value hread hread₁ (hall ▸ List.mem_append_right _ List.mem_cons_self)).mono fun v r₂ hv => ?_
  obtain ⟨hread₂, hmore, hv⟩ := hv
  refine ⟨hread₂, by rw [List.length_append, List.length_append, hlength]; rfl, fun w hw => ?_⟩
  rcases List.mem_append.1 hw with hw | hw
  · exact hmore.lt (hlt w hw)
  · exact List.mem_singleton.1 hw ▸ hv

theorem meets_blockNamed {blocks : List (String × BlockId)} {line : Nat} {post : BlockId → Reading → Prop}
    (hnone : name ∉ blocks.map (·.1) → allowed (.error (.parse line (.unknownBlock name))))
    (hsome : ∀ t, blocks.lookup name = some t → post t r) : Meets allowed (blockNamed blocks line name) r post := by
  unfold blockNamed
  split
  · rename_i t ht
    exact .pure (hsome t ht)
  · rename_i hlookup
    exact meets_fault (hnone (not_mem_of_lookup hlookup))

/-! ## Operations -/

/-- The blocks to which an operation leads. -/
def leadsTo (blocks : List (String × BlockId)) (op : SourceOp) : List BlockId :=
  op.targets.filterMap fun name => blocks.lookup name

/-- What building an operation in a block leaves. -/
structure OpBuilt (id : FuncId) (blocks : List (String × BlockId)) (c : BlockId) (named : Bool) (op : SourceOp)
    (r : Reading) (result : Option ValueId) (r' : Reading) : Prop where
  values : r'.values = r.values
  grown : (r.module.function id).Grown (r'.module.function id) c (leadsTo blocks op) op.isTerminator
  placed : ∀ v, result = some v → ∃ i, (r'.module.function id).result? i = some v
  /-- What has a name has a result. -/
  gives : named = true → op.producesValue = true ∨ op.isCall = true → result ≠ none

variable {c : BlockId} {blocks : List (String × BlockId)} {line : Nat} {named : Bool}

theorem meets_emitValue (h : r.From m b.func) (hopen : b.Open r.module c) (hread : Reading.ReadOn m b.func r r₁)
    {kind : InstKind} {operands : List ValueId} (hphi : kind.isPhi = false) (htargets : kind.targets = [])
    (hop : op.targets = []) (hterm : op.isTerminator = kind.isTerminator)
    (hoperands : ∀ v ∈ operands, v < (r₁.module.function b.func).values.size) :
    Meets allowed (some <$> change (b.emitValue kind operands)) r₁ (OpBuilt b.func blocks c named op r) := by
  obtain ⟨v, i, m', hrun, hgrown, hresult⟩ := (hread.isOpen h hopen).emitValue kind operands hphi htargets hoperands
  rw [← bind_pure_comp]
  refine .bind (meets_change hrun (.pure ⟨hread.values, ?_, fun w hw => ?_, fun _ _ => nofun⟩))
  · unfold leadsTo
    rw [hop, hterm]
    exact (hread.more.grown c).trans hgrown
  · cases hw
    exact ⟨i, hresult⟩

theorem meets_emitted (hread : Reading.ReadOn m b.func r r₁) (hnone : op.producesValue = false)
    (hcall : op.isCall = false) (hrun : ∃ a m', edit.run r₁.module = (.ok a, m') ∧
      (r₁.module.function b.func).Grown (m'.function b.func) c (leadsTo blocks op) op.isTerminator) :
    Meets allowed (do
      let _ ← change edit
      return none) r₁ (OpBuilt b.func blocks c named op r) := by
  obtain ⟨a, m', hrun, hgrown⟩ := hrun
  refine .bind (meets_change hrun (.pure ⟨hread.values, (hread.more.grown c).trans hgrown, nofun, fun _ hgives => ?_⟩))
  rw [hnone, hcall] at hgives
  exact absurd hgives (by simp)

theorem meets_buildCall (h : r.From m b.func) (hopen : b.Open r.module c) {returns : Bool} {callee : String}
    {args : List SourceOperand} (hread : Readable allowed m r.names line args)
    (hop : ∀ fault, (SourceOp.call callee args).Fault m returns (blocks.map (·.1)) named fault →
      allowed (.error (.parse line fault))) :
    Meets allowed (buildCall b line named callee args) r (OpBuilt b.func blocks c named (.call callee args) r) := by
  refine .bind ((meets_values hread h).mono fun values r₁ hvalues => .bind (.get ?_))
  obtain ⟨hread₁, hlength, hlt⟩ := hvalues
  have hopen₁ := hread₁.isOpen h hopen
  have hsignature := (hread₁.start.built.signature? callee).symm
  -- either sort of callee is checked against its signature, and a call has a result when the signature says so
  have hcheck : ∀ (arity : Nat) (gives : Bool) {edit : ModuleEdit (Option ValueId)},
      m.signature? callee = some (arity, gives) →
      (∃ result i m', edit.run r₁.module = (.ok result, m') ∧
        (r₁.module.function b.func).Grown (m'.function b.func) c [] false ∧
        result = (m'.function b.func).result? i ∧ result.isSome = gives) →
      Meets allowed (do
        (do
          if arity ≠ values.length then Reader.fault line (.callArity callee arity values.length)
          if named && !gives then Reader.fault line (.voidCallResult callee) : Reader Unit)
        change edit : Reader (Option ValueId)) r₁ (OpBuilt b.func blocks c named (.call callee args) r) := by
    intro arity gives edit hsome hrun
    obtain ⟨result, i, m', hrun, hgrown, hresult, hgives⟩ := hrun
    refine .bind ?_
    dsimp only
    split
    · rename_i hne
      exact .bind (meets_fault (hlength ▸ hop _ (.arity rfl hsome (hlength ▸ hne))))
    · split
      · rename_i hvoid
        rw [Bool.and_eq_true, Bool.not_eq_true'] at hvoid
        exact meets_fault (hop _ (.voidCall rfl (hvoid.2 ▸ hsome) hvoid.1))
      · rename_i hfits
        refine .pure (meets_change hrun ⟨hread₁.values, (hread₁.more.grown c).trans hgrown, fun v hv => ?_, fun hnamed _ => ?_⟩)
        · exact ⟨i, hresult ▸ hv⟩
        · rw [hnamed, Bool.true_and, Bool.not_eq_true', Bool.not_eq_false, ← hgives] at hfits
          exact Option.isSome_iff_ne_none.1 hfits
  dsimp only
  split
  · rename_i builtin hbuiltin
    refine hcheck _ _ (hsignature.trans ?_) (hopen₁.callBuiltin builtin hlt)
    unfold Module.signature?
    rw [hbuiltin]
  · rename_i hbuiltin
    split
    · rename_i id hid
      refine hcheck _ _ (hsignature.trans ?_) (hopen₁.call id hlt)
      unfold Module.signature?
      rw [hbuiltin, hid]
      rfl
    · rename_i hid
      refine meets_fault (hop _ (.callee rfl (hsignature.trans ?_)))
      unfold Module.signature?
      rw [hbuiltin, hid]
      rfl

/-- An operation fails by a fault of its own or at a name that no value has. -/
theorem meets_buildOp (h : r.From m b.func) (hopen : b.Open r.module c)
    (hblocks : ∀ e ∈ blocks, e.2 < (r.module.function b.func).blocks.size) (hphi : op.isPhi = false)
    (hlocals : ∀ name, .localName name ∈ op.operands → name ∉ r.names →
      allowed (.error (.parse line (.undefinedValue name))))
    (hop : ∀ fault, op.Fault m (m.function b.func).returnsValue (blocks.map (·.1)) named fault →
      allowed (.error (.parse line fault))) :
    Meets allowed (buildOp b blocks line named op) r (OpBuilt b.func blocks c named op r) := by
  have hread : Readable allowed m r.names line op.operands := ⟨hlocals, fun name hmem hfree => hop _ (.symbol hmem hfree)⟩
  have hlt : ∀ {name t}, blocks.lookup name = some t → t < (r.module.function b.func).blocks.size := fun ht =>
    hblocks _ (mem_of_lookup ht)
  cases op with
  | binary op l rhs =>
    refine meets_pair h hread List.mem_cons_self (List.mem_cons_of_mem _ List.mem_cons_self) fun v w r₂ hread₂ hlt₂ => ?_
    exact meets_emitValue h hopen hread₂ rfl rfl rfl rfl hlt₂
  | alloca words => exact meets_emitValue h hopen (.refl h) rfl rfl rfl rfl fun x hx => absurd hx List.not_mem_nil
  | load base index =>
    refine meets_pair h hread List.mem_cons_self (List.mem_cons_of_mem _ List.mem_cons_self) fun v w r₂ hread₂ hlt₂ => ?_
    exact meets_emitValue h hopen hread₂ rfl rfl rfl rfl hlt₂
  | gep base index multiplier =>
    refine meets_pair h hread List.mem_cons_self (List.mem_cons_of_mem _ List.mem_cons_self) fun v w r₂ hread₂ hlt₂ => ?_
    exact meets_emitValue h hopen hread₂ rfl rfl rfl rfl hlt₂
  | store base index data =>
    refine meets_pair h hread List.mem_cons_self (List.mem_cons_of_mem _ List.mem_cons_self) fun v w r₂ hread₂ hlt₂ => ?_
    refine .bind ((meets_value hread hread₂ (List.mem_cons_of_mem _ (List.mem_cons_of_mem _ List.mem_cons_self))).mono
      fun x r₃ hx => ?_)
    obtain ⟨hread₃, hmore, hx⟩ := hx
    obtain ⟨i, m', hrun, hgrown, -⟩ := (hread₃.isOpen h hopen).emitAlone .store [v, w, x] false rfl rfl nofun fun y hy => by
      rcases List.mem_append.1 (show y ∈ [v, w] ++ [x] from hy) with hy | hy
      · exact hmore.lt (hlt₂ y hy)
      · exact List.mem_singleton.1 hy ▸ hx
    exact meets_emitted hread₃ rfl rfl ⟨i, m', hrun, hgrown⟩
  | call callee args => exact meets_buildCall h hopen hread hop
  | print format args =>
    refine .bind ((meets_values hread h).mono fun values r₁ hvalues => ?_)
    obtain ⟨hread₁, -, hlt₁⟩ := hvalues
    exact meets_emitted hread₁ rfl rfl ((hread₁.isOpen h hopen).print format hlt₁)
  | phi => cases hphi
  | jump target =>
    refine .bind (meets_blockNamed (fun hnot => hop _ (.block List.mem_cons_self hnot)) fun t ht => ?_)
    obtain ⟨i, m', hrun, hgrown⟩ := hopen.jump (hlt ht)
    refine meets_emitted (.refl h) rfl rfl ⟨i, m', hrun, ?_⟩
    unfold leadsTo
    rw [SourceOp.targets, List.filterMap_cons, ht]
    exact hgrown
  | branch cond thenBlock elseBlock =>
    refine .bind ((meets_value hread (.refl h) List.mem_cons_self).mono fun v r₁ hv => ?_)
    obtain ⟨hread₁, -, hv⟩ := hv
    have hsize := hread₁.more.blocks_size
    refine .bind (meets_blockNamed (fun hnot => hop _ (.block List.mem_cons_self hnot)) fun t ht => ?_)
    refine .bind (meets_blockNamed (fun hnot => hop _ (.block (List.mem_cons_of_mem _ List.mem_cons_self) hnot)) fun e he => ?_)
    obtain ⟨i, m', hrun, hgrown⟩ := (hread₁.isOpen h hopen).branch hv (hsize ▸ hlt ht) (hsize ▸ hlt he)
    refine meets_emitted hread₁ rfl rfl ⟨i, m', hrun, ?_⟩
    unfold leadsTo
    rw [SourceOp.targets, List.filterMap_cons, ht, List.filterMap_cons, he]
    exact hgrown
  | ret given =>
    have hreturns : (r.module.function b.func).returnsValue = (m.function b.func).returnsValue :=
      congrArg Heading.returnsValue (h.built.heading b.func)
    have hret : ∀ {v : Option ValueId} {r₁ : Reading}, Reading.ReadOn m b.func r r₁ →
        (∀ w ∈ v, w < (r₁.module.function b.func).values.size) → Meets allowed (do
          let _ ← Reader.change (b.ret v)
          return none) r₁ (OpBuilt b.func blocks c named (.ret given) r) := fun hread₁ hv =>
      meets_emitted hread₁ rfl rfl ((hread₁.isOpen h hopen).ret hv)
    refine .bind (.get ?_)
    dsimp only
    split
    · refine .bind ?_
      rw [← bind_pure_comp]
      refine .bind ((meets_value hread (.refl h) List.mem_cons_self).mono fun v r₁ hv => .pure ?_)
      exact hret hv.1 fun w hw => Option.mem_some_iff.1 hw ▸ hv.2.2
    · exact .bind (.pure (hret (.refl h) fun _ hw => by cases hw))
    · rename_i hvoid
      exact .bind (meets_fault (hop _ (.voidReturn rfl (hreturns ▸ hvoid))))
    · rename_i hvalue
      exact .bind (meets_fault (hop _ (.missingReturn rfl (hreturns ▸ hvalue))))

/-! ## Statements -/

theorem meets_define (h : r.From m b.func) (hv : v < (r.module.function b.func).values.size)
    (htaken : name ∈ r.names → allowed (.error (.parse line (.redefinedValue name)))) :
    Meets allowed (define b line name v) r fun _ r' => r'.From m b.func ∧ r'.values = (name, v) :: r.values ∧
      (r.module.function b.func).MoreValues (r'.module.function b.func) := by
  obtain ⟨⟨⟩, f', hname⟩ := Edit.succeeds_modifyValue hv fun d => { d with name := some name }
  obtain ⟨m', hrun, hat⟩ := ModuleEdit.exists_editFunction h.func_lt hname
  have hmore : (r.module.function b.func).MoreValues (m'.function b.func) := hat ▸ Edit.setValueName_spec hname
  refine .bind (meets_change hrun (.bind (.get ?_)))
  dsimp only
  split
  · rename_i htwice
    refine .bind (meets_fault (htaken ?_))
    obtain ⟨w, hw⟩ := Option.isSome_iff_exists.1 htwice
    exact List.mem_map.2 ⟨(name, w), mem_of_lookup hw, rfl⟩
  · refine .modify ⟨?_, rfl, hmore⟩
    have hbuilt : Module.Built Function.BuildStep b.func r.module m' :=
      ((ModuleEdit.Builds.of_edit (S := Function.MoreValues) (fun f f' _ h => Edit.setValueName_spec h) fun _ _ =>
        Edit.brings_modifyValue _ fun _ => rfl) hrun).code.body
    refine h.step hbuilt fun e he => (List.mem_cons.1 he).elim (fun heq => .inr ?_) .inl
    rw [heq]
    exact Nat.lt_of_lt_of_le hv hmore.values_size

end Reader

/-- A statement as lines give it. -/
@[mk_iff]
structure Statement.Formed (s : Statement) : Prop where
  fits : s.op.Fits
  /-- Only what may have a result has a name. -/
  named : s.result.isSome = true → s.op.producesValue = true ∨ s.op.isCall = true

/-- The names that statements define. -/
def Statement.results (statements : List Statement) : List String := statements.filterMap (·.result)

/-- The names that a statement and those behind it define. -/
theorem Statement.results_cons (s : Statement) (rest : List Statement) :
    Statement.results (s :: rest) = s.result.toList ++ Statement.results rest := by
  unfold Statement.results
  rw [List.filterMap_cons]
  cases s.result <;> rfl

/-- The names that some statements and others behind them define. -/
theorem Statement.results_append (before after : List Statement) :
    Statement.results (before ++ after) = Statement.results before ++ Statement.results after := List.filterMap_append

namespace Reader

variable {m : Module} {b : Builder} {r r₁ : Reading} {allowed : Failure → Prop} {c : BlockId}
  {blocks : List (String × BlockId)}

/-- What building statements in a block leaves. -/
structure StatementsBuilt (m : Module) (id : FuncId) (blocks : List (String × BlockId)) (c : BlockId)
    (statements : List Statement) (r r' : Reading) : Prop where
  start : r'.From m id
  names : r'.names = (Statement.results statements).reverse ++ r.names
  grown : (r.module.function id).Grown (r'.module.function id) c (statements.flatMap fun s => leadsTo blocks s.op)
    (statements.any fun s => s.op.isTerminator)

/-- A statement fails by a fault of its operation, at a name that no value has, or because it gives a name again. -/
theorem meets_buildStatement (h : r.From m b.func) (hopen : b.Open r.module c)
    (hblocks : ∀ e ∈ blocks, e.2 < (r.module.function b.func).blocks.size) {s : Statement} (hs : s.Formed)
    (hphi : s.op.isPhi = false) (hlocals : ∀ name, .localName name ∈ s.op.operands → name ∉ r.names →
      allowed (.error (.parse s.line (.undefinedValue name))))
    (htaken : ∀ name, s.result = some name → name ∈ r.names → allowed (.error (.parse s.line (.redefinedValue name))))
    (hop : ∀ fault, s.op.Fault m (m.function b.func).returnsValue (blocks.map (·.1)) s.result.isSome fault →
      allowed (.error (.parse s.line fault))) :
    Meets allowed (buildStatement b blocks s) r fun _ r' => StatementsBuilt m b.func blocks c [s] r r' := by
  refine .bind (((meets_buildOp h hopen hblocks hphi hlocals hop).and
    fun v r₁ hrun => (builds_buildOp b blocks s.line _ hs.fits hrun).body).mono fun v r₁ hv => ?_)
  obtain ⟨hv, hbuilt⟩ := hv
  have hstart : r₁.From m b.func := h.step hbuilt fun e he => .inl (hv.values ▸ he)
  have hnames : r₁.names = r.names := congrArg (List.map Prod.fst) hv.values
  have hgrown : (r.module.function b.func).Grown (r₁.module.function b.func) c
      ([s].flatMap fun s => leadsTo blocks s.op) ([s].any fun s => s.op.isTerminator) := by
    rw [List.flatMap_singleton, List.any_cons, List.any_nil, Bool.or_false]
    exact hv.grown
  split
  · rename_i name v hresult
    obtain ⟨i, hi⟩ := hv.placed v rfl
    refine (meets_define hstart (hstart.sound.kind_of_result i v hi).1 fun htwice =>
      htaken name hresult (hnames ▸ htwice)).mono fun _ r₂ hr₂ => ⟨hr₂.1, ?_, ?_⟩
    · unfold Reading.names Statement.results
      rw [hr₂.2.1, List.filterMap_cons, hresult]
      exact congrArg (name :: ·) hnames
    · have htrans := hgrown.trans (hr₂.2.2.grown c)
      rwa [List.append_nil, Bool.or_false] at htrans
  · rename_i hnot
    refine .pure ⟨hstart, ?_, hgrown⟩
    have hnone : s.result = none := by
      cases hresult : s.result with
      | none => rfl
      | some name =>
        have hsome := hv.gives (by rw [hresult]; rfl) (hs.named (by rw [hresult]; rfl))
        obtain ⟨w, rfl⟩ := Option.ne_none_iff_exists'.1 hsome
        exact absurd rfl (hnot name w hresult)
    rw [Statement.results, List.filterMap_cons, hnone]
    exact hnames

end Reader

end SsaCompiler
