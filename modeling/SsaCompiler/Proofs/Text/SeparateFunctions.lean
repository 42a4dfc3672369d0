import SsaCompiler.Proofs.Text.FinishedBodies

/-!
# Functions that are built apart

The body of a function is built from the function itself, from the globals and strings, and from the headings of the
other functions. So it is built in the same way in two modules that differ in the insides of other functions only
(`Module.Abreast`), and these modules stay abreast. An action that is closed in this way is `Separate`; alongside it is
said what the action keeps of the function, such as the names of its values.
-/

set_option autoImplicit false

namespace SsaCompiler

open Edits

/-! ## Outcomes that agree -/

namespace Outcome

variable {α β γ δ : Type} {R : α → β → Prop} {S : γ → δ → Prop}

/-- Both computations fail, or both succeed with related results. -/
def Agree (R : α → β → Prop) : Outcome α → Outcome β → Prop
  | .ok a, .ok b => R a b
  | .error _, .error _ => True
  | _, _ => False

namespace Agree

variable {x : Outcome α} {y : Outcome β}

variable {next : α → Outcome γ} {next' : β → Outcome δ}

theorem bind (h : Agree R x y) (hnext : ∀ a b, R a b → Agree S (next a) (next' b)) :
    Agree S (x >>= next) (y >>= next') := by
  cases x <;> cases y
  · trivial
  · exact h.elim
  · exact h.elim
  · exact hnext _ _ h

/-- What follows may depend on how both computations ended. -/
theorem bind_of_ok (h : Agree R x y) (hnext : ∀ a b, x = .ok a → y = .ok b → R a b → Agree S (next a) (next' b)) :
    Agree S (x >>= next) (y >>= next') := by
  cases x <;> cases y
  · trivial
  · exact h.elim
  · exact h.elim
  · exact hnext _ _ rfl rfl h

theorem refl {R : α → α → Prop} (h : ∀ a, R a a) (x : Outcome α) : Agree R x x := by
  cases x
  · trivial
  · exact h _

/-- Computations that agree succeed together. -/
theorem exists_ok_iff (h : Agree R x y) : (∃ a, x = .ok a) ↔ ∃ b, y = .ok b := by
  cases x <;> cases y
  · exact iff_of_false nofun nofun
  · exact h.elim
  · exact h.elim
  · exact iff_of_true ⟨_, rfl⟩ ⟨_, rfl⟩

/-- Computations that agree and succeed have related results. -/
theorem of_ok (h : Agree R x y) {a : α} {b : β} (hx : x = .ok a) (hy : y = .ok b) : R a b := by
  subst hx hy
  exact h

theorem mapM {σ τ : Type} {T : σ → τ → Prop} {l : List σ} {l' : List τ} {act : σ → Outcome α} {act' : τ → Outcome β}
    (hl : List.Forall₂ T l l') (h : ∀ c c', T c c' → Agree R (act c) (act' c')) :
    Agree (List.Forall₂ R) (l.mapM act) (l'.mapM act') := by
  induction hl with
  | nil => exact .nil
  | cons hc _ ih =>
    rw [List.mapM_cons, List.mapM_cons]
    exact (h _ _ hc).bind fun a b hab => ih.bind fun as bs habs => .cons hab habs

theorem foldlM {σ τ : Type} {T : σ → τ → Prop} {l : List σ} {l' : List τ} {act : α → σ → Outcome α}
    {act' : β → τ → Outcome β} (hl : List.Forall₂ T l l')
    (h : ∀ a b c c', R a b → T c c' → Agree R (act a c) (act' b c')) :
    ∀ {a : α} {b : β}, R a b → Agree R (l.foldlM act a) (l'.foldlM act' b) := by
  induction hl with
  | nil => exact id
  | cons hc _ ih =>
    intro a b hab
    rw [List.foldlM_cons, List.foldlM_cons]
    exact (h _ _ _ _ hab hc).bind fun a' b' hab' => ih hab'

end Agree

end Outcome

/-! ## Modules -/

namespace Module

variable {id : FuncId} {m m' : Module}

/-- What calls of a function depend on: its name, the number of its parameters, and whether it returns a value. -/
def signatureOf (m : Module) (j : FuncId) : String × Nat × Bool :=
  ((m.function j).name, (m.function j).params.length, (m.function j).returnsValue)

/-- Two modules that look the same to the one who builds the function `id`. -/
structure Abreast (id : FuncId) (m m' : Module) : Prop where
  globals : m'.globals = m.globals
  strings : m'.strings = m.strings
  size : m'.functions.size = m.functions.size
  signatures : ∀ j, m'.signatureOf j = m.signatureOf j
  function : m'.function id = m.function id

/-- The module with another function at a number. -/
def withFunction (id : FuncId) (f : Function) (m : Module) : Module :=
  { m with functions := m.functions.setIfInBounds id f }

theorem function_withFunction (f : Function) (hid : id < m.functions.size) (j : FuncId) :
    (m.withFunction id f).function j = if j = id then f else m.function j := by
  unfold withFunction Module.function
  rw [Array.getD_eq_getD_getElem?, Array.getD_eq_getD_getElem?]
  by_cases hj : j = id
  · rw [if_pos hj, hj, Array.getElem?_setIfInBounds_self_of_lt hid]
    rfl
  · rw [if_neg hj, Array.getElem?_setIfInBounds_ne (Ne.symm hj)]

theorem size_withFunction (f : Function) : (m.withFunction id f).functions.size = m.functions.size :=
  Array.size_setIfInBounds ..

theorem getElem?_function (m : Module) (id : FuncId) :
    m.functions[id]? = if id < m.functions.size then some (m.function id) else none := by
  unfold Module.function
  rw [Array.getD_eq_getD_getElem?]
  split
  · rename_i hid
    rw [Array.getElem?_eq_getElem hid]
    rfl
  · rename_i hid
    exact Array.getElem?_eq_none (Nat.le_of_not_lt hid)

namespace Abreast

variable (h : m.Abreast id m')

include h

theorem globalByName? (name : String) : m'.globalByName? name = m.globalByName? name := by
  unfold Module.globalByName?
  rw [h.globals]

theorem stringByName? (name : String) : m'.stringByName? name = m.stringByName? name := by
  unfold Module.stringByName?
  rw [h.strings]

/-- A function is found by its name in both modules. -/
theorem functionByName? (name : String) : m'.functionByName? name = m.functionByName? name := by
  have hnames : m'.functions.map (·.name) = m.functions.map (·.name) := by
    refine Array.ext (by rw [Array.size_map, Array.size_map, h.size]) fun j hj hj' => ?_
    rw [Array.size_map] at hj hj'
    have hat := congrArg Prod.fst (h.signatures j)
    unfold signatureOf Module.function at hat
    rw [Array.getElem_map, Array.getElem_map]
    rwa [Array.getD_eq_getD_getElem?, Array.getD_eq_getD_getElem?, Array.getElem?_eq_getElem hj,
      Array.getElem?_eq_getElem hj'] at hat
  have hfind : ∀ n : Module, n.functionByName? name = (n.functions.map (·.name)).findIdx? (· == name) := fun n => by
    rw [Array.findIdx?_map]
    rfl
  rw [hfind, hfind, hnames]

theorem withFunction (f : Function) : (m.withFunction id f).Abreast id (m'.withFunction id f) := by
  refine ⟨h.globals, h.strings, ?_, fun j => ?_, ?_⟩
  · rw [size_withFunction, size_withFunction, h.size]
  · by_cases hid : id < m.functions.size
    · unfold signatureOf
      rw [function_withFunction f hid, function_withFunction f (h.size ▸ hid)]
      split
      · rfl
      · exact h.signatures j
    · unfold Module.withFunction
      rw [Array.setIfInBounds_eq_of_size_le (Nat.le_of_not_lt hid),
        Array.setIfInBounds_eq_of_size_le (h.size ▸ Nat.le_of_not_lt hid)]
      exact h.signatures j
  · by_cases hid : id < m.functions.size
    · rw [function_withFunction f hid, function_withFunction f (h.size ▸ hid), if_pos rfl, if_pos rfl]
    · unfold Module.withFunction
      rw [Array.setIfInBounds_eq_of_size_le (Nat.le_of_not_lt hid),
        Array.setIfInBounds_eq_of_size_le (h.size ▸ Nat.le_of_not_lt hid)]
      exact h.function

theorem addString (literal : String) :
    (m'.addString literal).1 = (m.addString literal).1 ∧ (m.addString literal).2.Abreast id (m'.addString literal).2 := by
  unfold Module.addString
  rw [h.strings]
  dsimp only
  split
  · exact ⟨rfl, h⟩
  · exact ⟨rfl, h.globals, rfl, h.size, h.signatures, h.function⟩

end Abreast

end Module

namespace ModuleEdit

variable {id : FuncId} {P Q : Function → Prop} {α β : Type}

/-- A change of a module that is the same in modules which are abreast, and that keeps something of the function under
construction. -/
structure Separate (P : Function → Prop) (id : FuncId) (edit : ModuleEdit α) : Prop where
  same : ∀ m m' : Module, m.Abreast id m' → (edit.run m').1 = (edit.run m).1 ∧ (edit.run m).2.Abreast id (edit.run m').2
  keeps : ∀ m m' a, edit.run m = (.ok a, m') → P (m.function id) → P (m'.function id)

theorem run_editFunction (e : Edit α) (m : Module) : (editFunction id e).run m =
    if id < m.functions.size then ((e.run (m.function id)).1, m.withFunction id (e.run (m.function id)).2)
    else (.error (.crash none), m) := by
  unfold editFunction
  rw [run_get_bind, m.getElem?_function]
  by_cases hid : id < m.functions.size
  · rw [if_pos hid, if_pos hid]
    dsimp only
    cases hrun : e.run (m.function id) with
    | mk result f => cases result <;> rfl
  · rw [if_neg hid, if_neg hid]
    rfl

namespace Separate

theorem pure (a : α) : Separate P id (pure a : ModuleEdit α) where
  same _ _ h := ⟨rfl, h⟩
  keeps m m' b hrun hP := by
    cases hrun
    exact hP

theorem crash (text : Option String) : Separate P id (crash text : ModuleEdit α) where
  same _ _ h := ⟨rfl, h⟩
  keeps _ _ _ hrun := nomatch hrun

variable {edit : ModuleEdit α}

theorem bind {next : α → ModuleEdit β} (h : Separate P id edit) (hnext : ∀ a, Separate P id (next a)) :
    Separate P id (edit >>= next) where
  same m m' habreast := by
    obtain ⟨hresult, hmodules⟩ := h.same m m' habreast
    rw [run_bind, run_bind]
    cases hrun : edit.run m with
    | mk result m₁ =>
      cases hrun' : edit.run m' with
      | mk result' m₁' =>
        rw [hrun, hrun'] at hresult hmodules
        obtain rfl : result' = result := hresult
        cases result' with
        | ok a => exact (hnext a).same m₁ m₁' hmodules
        | error e => exact ⟨rfl, hmodules⟩
  keeps m m' b hrun hP := by
    obtain ⟨a, m₁, hfirst, hrest⟩ := bind_eq_ok hrun
    exact (hnext a).keeps m₁ m' b hrest (h.keeps m m₁ a hfirst hP)

theorem get_bind {next : Module → ModuleEdit α} (hsame : ∀ m m', m.Abreast id m' → next m' = next m)
    (h : ∀ m, Separate P id (next m)) : Separate P id (get >>= next) where
  same m m' habreast := by
    rw [run_get_bind, run_get_bind, hsame m m' habreast]
    exact (h m).same m m' habreast
  keeps m m' a hrun hP := (h m).keeps m m' a hrun hP

/-- An edit of the function. -/
theorem editFunction {e : Edit α} (he : Preserves P e) : Separate P id (editFunction id e) where
  same m m' habreast := by
    rw [run_editFunction, run_editFunction, habreast.size, habreast.function]
    split
    · exact ⟨rfl, habreast.withFunction _⟩
    · exact ⟨rfl, habreast⟩
  keeps m m' a hrun hP := by
    obtain ⟨f', he', -, -, rfl⟩ := editFunction_eq_ok hrun
    exact he hP he'

theorem map (h : Separate P id edit) (f : α → β) : Separate P id (f <$> edit) := by
  rw [map_eq_pure_bind]
  exact h.bind fun a => .pure _

theorem addString (literal : String) : Separate P id (addString literal) where
  same _ _ habreast := ⟨congrArg Except.ok (habreast.addString literal).1, (habreast.addString literal).2⟩
  keeps m m' a hrun hP := by
    have hm' : (m.addString literal).2 = m' := congrArg Prod.snd hrun
    have hsame : (m.addString literal).2.functions = m.functions := by
      unfold Module.addString
      dsimp only
      split <;> rfl
    unfold Module.function at hP ⊢
    rwa [← hm', hsame]

end Separate

end ModuleEdit

/-! ## Building code -/

namespace Edit

theorem keepsMarks_pushBack (b : BlockId) (i : InstId) : KeepsMarks (pushBack b i) := by
  refine keepsMarks_bind keepsMarks_get fun f => keepsMarks_bind (keepsMarks_demand _ _) fun _ => ?_
  split
  · exact keepsMarks_bind (keepsMarks_throw _) fun _ => keepsMarks_place b _ i
  · exact keepsMarks_place b _ i

theorem keepsMarks_insertPhi (b : BlockId) (i : InstId) : KeepsMarks (insertPhi b i) := by
  refine keepsMarks_bind keepsMarks_get fun f => ?_
  split
  · exact keepsMarks_place b _ i
  · exact keepsMarks_throw _

theorem keepsMarks_addCallee (callee : FuncId) : KeepsMarks (addCallee callee) := by
  intro marks f f' _ hf hrun
  cases hrun
  exact hf

end Edit

namespace Builder

open ModuleEdit Edit

variable (b : Builder) {marks : ValueId → Bool × Option String}

theorem separate_edit {α : Type} {e : Edit α} (he : KeepsMarks e) :
    Separate (Function.Marked marks) b.func (b.edit e) := .editFunction (he marks)

theorem separate_current : Separate (Function.Marked marks) b.func b.current := by
  unfold current
  split
  · exact .pure _
  · exact .crash _

theorem separate_emit (kind : InstKind) (operands : List ValueId) (hasResult : Bool) :
    Separate (Function.Marked marks) b.func (b.emit kind operands hasResult) :=
  b.separate_current.bind fun block => b.separate_edit (keepsMarks_bind (keepsMarks_createInst kind operands hasResult)
    fun i => keepsMarks_bind (keepsMarks_pushBack block i) fun _ => keepsMarks_pure i)

theorem separate_emitResult (kind : InstKind) (operands : List ValueId) (hasResult : Bool) :
    Separate (Function.Marked marks) b.func (b.emitResult kind operands hasResult) :=
  (b.separate_emit kind operands hasResult).bind fun i =>
    .get_bind (fun m m' h => by rw [h.function]) fun _ => .pure _

theorem separate_emitValue (kind : InstKind) (operands : List ValueId) :
    Separate (Function.Marked marks) b.func (b.emitValue kind operands) := by
  refine (b.separate_emitResult kind operands true).bind fun result => ?_
  split
  · exact .pure _
  · exact .crash _

theorem separate_param (index : Nat) : Separate (Function.Marked marks) b.func (b.param index) := by
  refine .get_bind (fun m m' h => by rw [h.function]) fun m => ?_
  split
  · exact .pure _
  · exact .crash _

theorem separate_global (name : String) : Separate (Function.Marked marks) b.func (b.global name) := by
  refine .get_bind (fun m m' h => by rw [h.globalByName?]) fun m => ?_
  split
  · exact (b.separate_edit (keepsMarks_internValue _)).map _
  · exact .pure _

theorem separate_string (name : String) : Separate (Function.Marked marks) b.func (b.string name) := by
  refine .get_bind (fun m m' h => by rw [h.stringByName?]) fun m => ?_
  split
  · exact (b.separate_edit (keepsMarks_internValue _)).map _
  · exact .pure _

theorem separate_call (callee : FuncId) (args : List ValueId) :
    Separate (Function.Marked marks) b.func (b.call callee args) := by
  refine .get_bind (fun m m' h => ?_) fun m => ?_
  · rw [show (m'.function callee).returnsValue = (m.function callee).returnsValue from
      congrArg (fun s : String × Nat × Bool => s.2.2) (h.signatures callee)]
  · exact (b.separate_edit (keepsMarks_addCallee callee)).bind fun _ => b.separate_emitResult _ _ _

theorem separate_callBuiltin (callee : Builtin) (args : List ValueId) :
    Separate (Function.Marked marks) b.func (b.callBuiltin callee args) := b.separate_emitResult _ _ _

theorem separate_formatPieces (chunks : List (List Char)) :
    Separate (Function.Marked marks) b.func (formatPieces chunks) := by
  induction chunks with
  | nil => exact .pure _
  | cons chunk rest ih =>
    unfold formatPieces
    dsimp only
    split
    · exact (Separate.pure _).bind fun _ => ih.bind fun _ => .pure _
    · exact (Separate.addString _).bind fun _ => (Separate.pure _).bind fun _ => ih.bind fun _ => .pure _

theorem separate_print (format : String) (args : List ValueId) :
    Separate (Function.Marked marks) b.func (b.print format args) :=
  (b.separate_formatPieces _).bind fun _ => b.separate_emit _ _ _

theorem separate_jump (target : BlockId) : Separate (Function.Marked marks) b.func (b.jump target) :=
  b.separate_current.bind fun source => (b.separate_emit _ _ _).bind fun i =>
    (b.separate_edit (keepsMarks_addPred target source)).bind fun _ => .pure i

theorem separate_branch (cond : ValueId) (thenBlock elseBlock : BlockId) :
    Separate (Function.Marked marks) b.func (b.branch cond thenBlock elseBlock) :=
  b.separate_current.bind fun source => (b.separate_emit _ _ _).bind fun i =>
    (b.separate_edit (keepsMarks_bind (keepsMarks_addPred thenBlock source) fun _ =>
      keepsMarks_addPred elseBlock source)).bind fun _ => .pure i

theorem separate_ret (value : Option ValueId) : Separate (Function.Marked marks) b.func (b.ret value) :=
  b.separate_emit _ _ _

theorem separate_emptyPhi (block : BlockId) : Separate (Function.Marked marks) b.func (b.emptyPhi block) :=
  b.separate_edit (keepsMarks_bind (keepsMarks_createInst .phi [] true) fun i =>
    keepsMarks_bind (keepsMarks_insertPhi block i) fun _ => keepsMarks_bind (keepsMarks_ask _) fun _ => keepsMarks_pure _)

end Builder

/-! ## Readers -/

/-- Two states that look the same to the one who builds the function `id`. -/
structure Reading.Abreast (id : FuncId) (r r' : Reading) : Prop where
  values : r'.values = r.values
  module : r.module.Abreast id r'.module

/-- The names and marks of the values of a function, and the table of names. -/
def Reading.Held (id : FuncId) (marks : ValueId → Bool × Option String) (table : List (String × ValueId)) (r : Reading) :
    Prop :=
  r.values = table ∧ (r.module.function id).Marked marks

namespace Reader

variable {id : FuncId} {P : Reading → Prop} {α β γ δ : Type} {R : α → β → Prop} {S : γ → δ → Prop}

/-- Two actions end in the same way in states that are abreast, and their states stay abreast. -/
def Agrees (id : FuncId) (R : α → β → Prop) (act : Reader α) (act' : Reader β) : Prop :=
  ∀ r r' : Reading, r.Abreast id r' →
    Outcome.Agree (fun x y => R x.1 y.1 ∧ x.2.Abreast id y.2) (act.run r) (act'.run r')

variable {act : Reader α}

variable {next : Reading → Reader α}

namespace Agrees

theorem pure {a : α} {b : β} (h : R a b) : Agrees id R (pure a) (pure b) := fun _ _ habreast => ⟨h, habreast⟩

theorem fault (line line' : Nat) (f f' : TextFault) : Agrees id R (fault line f : Reader α) (fault line' f' : Reader β) :=
  fun _ _ _ => trivial

theorem bind {act' : Reader β} {next : α → Reader γ} {next' : β → Reader δ} (h : Agrees id R act act')
    (hnext : ∀ a b, R a b → Agrees id S (next a) (next' b)) : Agrees id S (act >>= next) (act' >>= next') := by
  intro r r' habreast
  rw [StateT.run_bind, StateT.run_bind]
  exact (h r r' habreast).bind fun x y hxy => hnext x.1 y.1 hxy.1 x.2 y.2 hxy.2

theorem get_bind {next' : Reading → Reader β} (h : ∀ r r', r.Abreast id r' → Agrees id R (next r) (next' r')) :
    Agrees id R (get >>= next) (get >>= next') :=
  fun r r' habreast => h r r' habreast r r' habreast

theorem modify {change : Reading → Reading} (h : ∀ r r', r.Abreast id r' → (change r).Abreast id (change r')) :
    Agrees id Eq (modify change : Reader PUnit) (modify change) := fun r r' habreast => ⟨rfl, h r r' habreast⟩

theorem mapM {σ τ : Type} {T : σ → τ → Prop} {l : List σ} {l' : List τ} {act : σ → Reader α} {act' : τ → Reader β}
    (hl : List.Forall₂ T l l') (h : ∀ c c', T c c' → Agrees id R (act c) (act' c')) :
    Agrees id (List.Forall₂ R) (l.mapM act) (l'.mapM act') := by
  induction hl with
  | nil => exact .pure .nil
  | cons hc _ ih =>
    rw [List.mapM_cons, List.mapM_cons]
    exact (h _ _ hc).bind fun a b hab => ih.bind fun as bs habs => .pure (.cons hab habs)

theorem forM {l : List α} {act : α → Reader PUnit} (h : ∀ a ∈ l, Agrees id Eq (act a) (act a)) :
    Agrees id Eq (l.forM act) (l.forM act) := by
  induction l with
  | nil => exact .pure rfl
  | cons a rest ih =>
    exact (h a List.mem_cons_self).bind fun _ _ _ => ih fun c hc => h c (List.mem_cons_of_mem _ hc)

end Agrees

/-- An action that ends in the same way in states which are abreast, and that keeps something. -/
structure Separate (P : Reading → Prop) (id : FuncId) (act : Reader α) : Prop where
  agrees : Agrees id Eq act act
  keeps : ∀ r r' a, act.run r = .ok (a, r') → P r → P r'

theorem run_change (edit : ModuleEdit α) (r : Reading) : (change edit).run r =
    (edit.run r.module).1.map fun a => (a, { r with module := (edit.run r.module).2 }) := by
  unfold change
  rw [StateT.run_bind, StateT.run_get, pure_bind]
  dsimp only
  cases hrun : edit.run r.module with
  | mk result m => cases result <;> rfl

variable {edit : ModuleEdit α}

/-- A change of the module that is the same in modules which are abreast. -/
theorem agrees_change {Q : Function → Prop} (h : ModuleEdit.Separate Q id edit) :
    Agrees id Eq (change edit) (change edit) := by
  intro r r' habreast
  obtain ⟨hresult, hmodules⟩ := h.same r.module r'.module habreast.module
  rw [run_change, run_change, hresult]
  cases (edit.run r.module).1 with
  | ok a => exact ⟨rfl, habreast.values, hmodules⟩
  | error e => trivial

namespace Separate

theorem pure (a : α) : Separate P id (pure a : Reader α) where
  agrees := .pure rfl
  keeps r r' b hrun hP := by
    cases hrun
    exact hP

theorem fault (line : Nat) (f : TextFault) : Separate P id (fault line f : Reader α) where
  agrees := .fault _ _ _ _
  keeps _ _ _ hrun := nomatch hrun

theorem bind {next : α → Reader β} (h : Separate P id act) (hnext : ∀ a, Separate P id (next a)) :
    Separate P id (act >>= next) where
  agrees := h.agrees.bind fun a _ hab => hab ▸ (hnext a).agrees
  keeps r r' b hrun hP := by
    obtain ⟨a, r₁, hfirst, hrest⟩ := bind_eq_ok hrun
    exact (hnext a).keeps r₁ r' b hrest (h.keeps r r₁ a hfirst hP)

theorem get_bind (hsame : ∀ r r', r.Abreast id r' → next r' = next r) (h : ∀ r, Separate P id (next r)) :
    Separate P id (get >>= next) where
  agrees := .get_bind fun r r' habreast => hsame r r' habreast ▸ (h r).agrees
  keeps r r' a hrun hP := (h r).keeps r r' a hrun hP

theorem map (h : Separate P id act) (f : α → β) : Separate P id (f <$> act) := by
  rw [map_eq_pure_bind]
  exact h.bind fun a => .pure _

theorem mapM {act : α → Reader β} (h : ∀ a, Separate P id (act a)) (list : List α) : Separate P id (list.mapM act) := by
  induction list with
  | nil => exact .pure _
  | cons a rest ih =>
    rw [List.mapM_cons]
    exact (h a).bind fun _ => ih.bind fun _ => .pure _

end Separate

variable (b : Builder) {marks : ValueId → Bool × Option String} {table : List (String × ValueId)}

theorem separate_change (h : ModuleEdit.Separate (Function.Marked marks) id edit) :
    Separate (Reading.Held id marks table) id (change edit) where
  agrees := agrees_change h
  keeps r r' a hrun hheld := by
    obtain ⟨m', hedit, rfl⟩ := change_eq_ok hrun
    exact ⟨hheld.1, h.keeps _ _ a hedit hheld.2⟩

theorem separate_value (line : Nat) (operand : SourceOperand) :
    Separate (Reading.Held b.func marks table) b.func (value b line operand) := by
  cases operand with
  | int c => exact separate_change (b.separate_edit (Edit.keepsMarks_internValue _))
  | localName name =>
    refine .get_bind (fun r r' h => by rw [h.values]) fun r => ?_
    split
    · exact .pure _
    · exact .fault _ _
  | symbol name =>
    refine (separate_change (b.separate_global name)).bind fun found => ?_
    split
    · exact .pure _
    · refine (separate_change (b.separate_string name)).bind fun found => ?_
      split
      · exact .pure _
      · exact .fault _ _

theorem separate_blockNamed (blocks : List (String × BlockId)) (line : Nat) (name : String) :
    Separate P id (blockNamed blocks line name) := by
  unfold blockNamed
  split
  · exact .pure _
  · exact .fault _ _

/-- Checking a call against the heading of the function that is called. -/
theorem separate_callCheck (line : Nat) (named : Bool) (callee : String) (given arity : Nat) (returns : Bool) :
    Separate P id (do
      if arity ≠ given then fault line (.callArity callee arity given)
      if named && !returns then fault line (.voidCallResult callee)) := by
  extract_lets named?
  have hnamed : Separate P id (named? ()) := by
    change Separate _ _ (if named && !returns then _ else _)
    split
    · exact .fault _ _
    · exact .pure _
  split
  · exact (Separate.fault _ _).bind fun _ => hnamed
  · exact hnamed

theorem separate_buildCall (line : Nat) (named : Bool) (callee : String) (args : List SourceOperand) :
    Separate (Reading.Held b.func marks table) b.func (buildCall b line named callee args) := by
  refine (Separate.mapM (separate_value b line) args).bind fun values => ?_
  refine .get_bind (fun r r' h => ?_) fun r => ?_
  · have hparams : ∀ j, (r'.module.function j).params.length = (r.module.function j).params.length := fun j =>
      congrArg (fun s : String × Nat × Bool => s.2.1) (h.module.signatures j)
    have hreturns : ∀ j, (r'.module.function j).returnsValue = (r.module.function j).returnsValue := fun j =>
      congrArg (fun s : String × Nat × Bool => s.2.2) (h.module.signatures j)
    simp only [h.module.functionByName?, hparams, hreturns]
  dsimp only
  split
  · exact (separate_callCheck ..).bind fun _ => separate_change (b.separate_callBuiltin _ _)
  · split
    · exact (separate_callCheck ..).bind fun _ => separate_change (b.separate_call _ _)
    · exact .fault _ _

theorem separate_buildOp (blocks : List (String × BlockId)) (line : Nat) (named : Bool) (op : SourceOp) :
    Separate (Reading.Held b.func marks table) b.func (buildOp b blocks line named op) := by
  cases op with
  | binary op l r =>
    exact (separate_value b line l).bind fun l => (separate_value b line r).bind fun r =>
      (separate_change (b.separate_emitValue _ _)).map _
  | alloca words => exact (separate_change (b.separate_emitValue _ _)).map _
  | load base index =>
    exact (separate_value b line base).bind fun base => (separate_value b line index).bind fun index =>
      (separate_change (b.separate_emitValue _ _)).map _
  | store base index data =>
    exact (separate_value b line base).bind fun base => (separate_value b line index).bind fun index =>
      (separate_value b line data).bind fun data => (separate_change (b.separate_emit _ _ _)).bind fun _ => .pure _
  | gep base index multiplier =>
    exact (separate_value b line base).bind fun base => (separate_value b line index).bind fun index =>
      (separate_change (b.separate_emitValue _ _)).map _
  | call callee args => exact separate_buildCall b line named callee args
  | print format args =>
    exact (Separate.mapM (separate_value b line) args).bind fun values =>
      (separate_change (b.separate_print _ _)).bind fun _ => .pure _
  | jump target =>
    exact (separate_blockNamed blocks line target).bind fun target =>
      (separate_change (b.separate_jump _)).bind fun _ => .pure _
  | branch cond thenBlock elseBlock =>
    exact (separate_value b line cond).bind fun cond => (separate_blockNamed blocks line thenBlock).bind fun thenBlock =>
      (separate_blockNamed blocks line elseBlock).bind fun elseBlock =>
        (separate_change (b.separate_branch _ _ _)).bind fun _ => .pure _
  | ret given =>
    refine .get_bind (fun r r' h => by rw [h.module.function]) fun r => ?_
    have hret : ∀ v, Separate (Reading.Held b.func marks table) b.func (do
        let _ ← change (b.ret v)
        return none : Reader (Option ValueId)) := fun v =>
      (separate_change (b.separate_ret v)).bind fun _ => .pure _
    dsimp only
    split
    · exact ((separate_value b line _).map _).bind hret
    · exact (Separate.pure _).bind hret
    · exact (Separate.fault _ _).bind hret
    · exact (Separate.fault _ _).bind hret
  | phi pairs => exact .pure _

theorem agrees_define (line : Nat) (name : String) (v : ValueId) :
    Agrees b.func Eq (define b line name v) (define b line name v) := by
  have hname : ModuleEdit.Separate (fun _ => True) b.func (b.edit (Edit.setValueName v name)) :=
    .editFunction fun _ _ _ _ _ => trivial
  refine (agrees_change hname).bind fun _ _ _ => .get_bind fun r r' h => ?_
  rw [h.values]
  have hset : Agrees b.func Eq (modify fun r : Reading => { r with values := (name, v) :: r.values } : Reader PUnit)
      (modify fun r : Reading => { r with values := (name, v) :: r.values }) :=
    .modify fun r r' h => ⟨congrArg ((name, v) :: ·) h.values, h.module⟩
  split
  · exact Agrees.bind (R := Eq) (.fault _ _ _ _) fun _ _ _ => hset
  · exact hset

theorem agrees_buildStatement (blocks : List (String × BlockId)) (s : Statement) :
    Agrees b.func Eq (buildStatement b blocks s) (buildStatement b blocks s) := by
  have hop : Separate (Reading.Held b.func (fun _ => default) []) b.func
      (buildOp b blocks s.line s.result.isSome s.op) := separate_buildOp b ..
  refine hop.agrees.bind fun result _ heq => ?_
  subst heq
  split
  · exact agrees_define b _ _ _
  · exact .pure rfl

theorem agrees_defineParams (line : Nat) (params : List String) :
    Agrees b.func Eq (defineParams b line params) (defineParams b line params) :=
  have hparam : ∀ i, ModuleEdit.Separate (Function.Marked fun _ => default) b.func (b.param i) := b.separate_param
  .forM fun (name, i) _ => (agrees_change (hparam i)).bind fun v _ hv => hv ▸ agrees_define b line name v

end Reader

end SsaCompiler
