import SsaCompiler.Proofs.Text.StatementFaults

/-!
# Faults of bodies

Building a body fails only for what is wrong with the body as it is written (`FunctionSource.Fault`): a name is given
twice, a statement has a fault of its own, a phi does not fit the blocks that lead to its block, or some blocks are left
of which each reads a value that none of the others defines. At every time before the phis are filled, the state is told
by the blocks that are done (`Placed`): they account for the names, for the edges and for the blocks without terminator.
-/

set_option autoImplicit false

namespace SsaCompiler

open Edits Stateful

/-! ## Bodies as they are written -/

namespace BlockSource

/-- The phis of a block. -/
def phis (b : BlockSource) : List Statement := b.statements.filter fun s => s.op.isPhi

/-- The statements of a block but for the phis. -/
def code (b : BlockSource) : List Statement := b.statements.filter fun s => !s.op.isPhi

/-- The names of the blocks to which a block leads. -/
def targets (b : BlockSource) : List String := b.code.flatMap fun s => s.op.targets

/-- A block as lines give it: it ends in its only terminator. -/
structure Formed (b : BlockSource) : Prop where
  statements : ∀ s ∈ b.statements, s.Formed
  ended : b.isTerminated = true
  single : ∀ s ∈ b.statements.dropLast, s.op.isTerminator = false

end BlockSource

/-- Code ends in its only terminator. -/
theorem BlockSource.Formed.code_single {b : BlockSource} (h : b.Formed) :
    ∀ s ∈ b.code.dropLast, s.op.isTerminator = false := by
  obtain ⟨before, last, heq, hlast⟩ : ∃ before last, b.statements = before ++ [last] ∧ last.op.isTerminator = true := by
    have hended := h.ended
    unfold BlockSource.isTerminated at hended
    split at hended
    · rename_i last hlast
      obtain ⟨before, hbefore⟩ := List.getLast?_eq_some_iff.1 hlast
      exact ⟨before, last, hbefore, hended⟩
    · cases hended
  have hphi : last.op.isPhi = false := by
    cases hop : last.op with
    | jump | branch | ret => rfl
    | binary | alloca | load | store | gep | call | print | phi =>
      rw [hop] at hlast
      cases hlast
  intro s hs
  unfold BlockSource.code at hs
  rw [heq, List.filter_append, List.filter_cons_of_pos (by rw [hphi]; rfl), List.filter_nil, List.dropLast_concat] at hs
  refine h.single s ?_
  rw [heq, List.dropLast_concat]
  exact (List.mem_filter.1 hs).1

namespace FunctionSource

/-- All names that a body defines. -/
def definitions (source : FunctionSource) : List String :=
  source.params ++ source.blocks.flatMap fun b => Statement.results b.statements

/-- The names of the blocks. -/
def labels (source : FunctionSource) : List String := source.blocks.map (·.name)

/-- The names that the phis define. -/
def phiResults (source : FunctionSource) : List String := source.blocks.flatMap fun b => Statement.results b.phis

/-- The names that have values when the parameters, the phis and the code of some blocks have them. -/
def known (source : FunctionSource) (done : List BlockSource) : List String :=
  source.params ++ source.phiResults ++ done.flatMap fun b => Statement.results b.code

/-- A block leads to a block. -/
def Edge (source : FunctionSource) (p t : String) : Prop := ∃ b ∈ source.blocks, b.name = p ∧ t ∈ b.targets

/-- What is wrong with a body, with the line that is reported. -/
inductive Fault (m : Module) (source : FunctionSource) : Nat → TextFault → Prop
  | param {name : String} (hmem : name ∈ source.params) (htwice : 2 ≤ source.definitions.count name) :
    Fault m source source.line (.redefinedValue name)
  | value {b : BlockSource} {s : Statement} {name : String} (hb : b ∈ source.blocks) (hs : s ∈ b.statements)
    (hname : s.result = some name) (htwice : 2 ≤ source.definitions.count name) :
    Fault m source s.line (.redefinedValue name)
  | block {b : BlockSource} (hb : b ∈ source.blocks) (htwice : 2 ≤ source.labels.count b.name) :
    Fault m source b.line (.redefinedBlock b.name)
  | op {b : BlockSource} {s : Statement} {fault : TextFault} (hb : b ∈ source.blocks) (hs : s ∈ b.statements)
    (hop : s.op.Fault m (m.function source.id).returnsValue source.labels s.result.isSome fault) :
    Fault m source s.line fault
  /-- Each of the blocks that are left reads a name that is not known without them. -/
  | stuck {done left : List BlockSource} {b : BlockSource} {line : Nat} {name : String}
    (hparts : (done ++ left).Perm source.blocks)
    (hstuck : ∀ b ∈ left, Reader.unknownOperand? (source.known done) b.statements ≠ none) (hb : b ∈ left)
    (hname : Reader.unknownOperand? (source.known done) b.statements = some (line, name)) :
    Fault m source line (.undefinedValue name)
  | phiSource {b : BlockSource} {s : Statement} {pairs : List (String × SourceOperand)} {name : String}
    (hb : b ∈ source.blocks) (hs : s ∈ b.statements) (hop : s.op = .phi pairs) (hmem : name ∈ pairs.map (·.1))
    (hnot : name ∉ source.labels) : Fault m source s.line (.unknownBlock name)
  | notAPredecessor {b : BlockSource} {s : Statement} {pairs : List (String × SourceOperand)} {name label : String}
    (hb : b ∈ source.blocks) (hs : s ∈ b.statements) (hop : s.op = .phi pairs) (hmem : name ∈ pairs.map (·.1))
    (hnot : ¬ source.Edge name b.name) : Fault m source s.line (.notAPredecessor name label)
  | phiValue {b : BlockSource} {s : Statement} {pairs : List (String × SourceOperand)} {name : String}
    (hb : b ∈ source.blocks) (hs : s ∈ b.statements) (hop : s.op = .phi pairs)
    (hmem : .localName name ∈ pairs.map (·.2)) (hnot : name ∉ source.definitions) :
    Fault m source s.line (.undefinedValue name)
  | missing {b : BlockSource} {s : Statement} {pairs : List (String × SourceOperand)} {name label : String}
    (hb : b ∈ source.blocks) (hs : s ∈ b.statements) (hop : s.op = .phi pairs) (hedge : source.Edge name b.name)
    (hnot : name ∉ pairs.map (·.1)) : Fault m source s.line (.missingIncoming label)

/-- The results of phis and code are the results of a block. -/
theorem results_perm (b : BlockSource) :
    (Statement.results b.phis ++ Statement.results b.code).Perm (Statement.results b.statements) := by
  unfold Statement.results BlockSource.phis BlockSource.code
  rw [← List.filterMap_append]
  exact (List.filter_append_perm _ _).filterMap _

/-- The names that are known and those that the other blocks define are all names. -/
theorem known_perm {source : FunctionSource} {done left : List BlockSource} (hparts : (done ++ left).Perm source.blocks) :
    (source.known done ++ left.flatMap fun b => Statement.results b.code).Perm source.definitions := by
  unfold known definitions phiResults
  rw [List.append_assoc, List.append_assoc, ← List.flatMap_append]
  refine List.Perm.append_left _ (((hparts.flatMap_right _).append_left _).trans ?_)
  exact (List.flatMap_append_perm _ _ _).trans (List.Perm.flatMap_left _ fun b _ => results_perm b)

end FunctionSource

variable {s : Statement} {name : String}

variable {names : List String}

namespace Reader

/-! ## Operands that are not known -/

variable {rest statements : List Statement}

/-- Only the members of what is known count. -/
theorem unknownOperand?_congr : ∀ {known known' : List String},
    (∀ name, name ∈ known ↔ name ∈ known') → unknownOperand? known statements = unknownOperand? known' statements := by
  induction statements with
  | nil => exact fun _ => rfl
  | cons s rest ih =>
    intro known known' h
    have hcontains : ∀ name, known.contains name = known'.contains name := fun name => by
      rw [Bool.eq_iff_iff, List.contains_iff_mem, List.contains_iff_mem, h]
    have hrest : unknownOperand? (s.result.toList ++ known) rest = unknownOperand? (s.result.toList ++ known') rest :=
      ih fun name => by rw [List.mem_append, List.mem_append, h]
    unfold unknownOperand?
    simp only [hcontains, hrest, ih h]

/-- Phis do not count. -/
theorem unknownOperand?_code (known : List String) (b : BlockSource) :
    unknownOperand? known b.code = unknownOperand? known b.statements := by
  unfold BlockSource.code
  induction b.statements generalizing known with
  | nil => rfl
  | cons s rest ih =>
    cases hphi : s.op.isPhi with
    | true =>
      rw [List.filter_cons_of_neg (by rw [hphi]; exact Bool.false_ne_true), ih]
      conv => rhs; unfold unknownOperand?
      rw [if_pos hphi]
    | false =>
      rw [List.filter_cons_of_pos (by rw [hphi]; rfl)]
      conv => lhs; unfold unknownOperand?
      conv => rhs; unfold unknownOperand?
      simp only [ih]

/-- A statement reads known names only, and so do those behind it. -/
theorem unknownOperand?_cons_eq_none {known : List String} (hphi : s.op.isPhi = false) :
    unknownOperand? known (s :: rest) = none ↔
      (∀ name, .localName name ∈ s.op.operands → name ∈ known) ∧ unknownOperand? (s.result.toList ++ known) rest = none := by
  rw [unknownOperand?, if_neg (by rw [hphi]; exact Bool.false_ne_true)]
  dsimp only
  split
  · rename_i missing hmissing
    obtain ⟨operand, hmem, hoperand⟩ := List.exists_of_findSome?_eq_some hmissing
    refine iff_of_false (Option.some_ne_none _) fun h => ?_
    cases operand with
    | localName name =>
      have hin := h.1 name hmem
      simp [hin] at hoperand
    | symbol | int => cases hoperand
  · rename_i hnone
    rw [List.findSome?_eq_none_iff] at hnone
    refine ⟨fun h => ⟨fun name hmem => ?_, h⟩, fun h => h.2⟩
    have hname := hnone _ hmem
    simpa using hname

/-! ## Statements of a block -/

variable {m : Module} {b : Builder} {r r₁ : Reading} {allowed : Failure → Prop} {c : BlockId}
  {blocks : List (String × BlockId)}

/-- A name that is given again occurs twice. -/
theorem two_le_count {definitions : List String} (h : (name :: names).Subperm definitions) (hmem : name ∈ names) :
    2 ≤ definitions.count name := by
  have hle := h.count_le name
  have hpos := List.count_pos_iff.2 hmem
  rw [List.count_cons_self] at hle
  omega

/-- Statements after a statement. -/
theorem StatementsBuilt.cons {id : FuncId} {r r₁ r₂ : Reading} (h : StatementsBuilt m id blocks c [s] r r₁)
    (h' : StatementsBuilt m id blocks c rest r₁ r₂) : StatementsBuilt m id blocks c (s :: rest) r r₂ := by
  have hgrown := h.grown.trans h'.grown
  rw [← List.flatMap_append, ← List.any_append] at hgrown
  refine ⟨h'.start, ?_, hgrown⟩
  rw [h'.names, h.names, ← List.append_assoc, ← List.reverse_append, ← Statement.results_append]
  rfl

/-- The code of a block, when it reads known names only. -/
theorem meets_statements {definitions : List String} :
    ∀ {r : Reading}, r.From m b.func → b.Open r.module c → (∀ e ∈ blocks, e.2 < (r.module.function b.func).blocks.size) →
      (∀ s ∈ statements, s.Formed ∧ s.op.isPhi = false) → (∀ s ∈ statements.dropLast, s.op.isTerminator = false) →
      unknownOperand? r.names statements = none → (Statement.results statements ++ r.names).Subperm definitions →
      (∀ s ∈ statements, ∀ name, s.result = some name → 2 ≤ definitions.count name →
        allowed (.error (.parse s.line (.redefinedValue name)))) →
      (∀ s ∈ statements, ∀ fault, s.op.Fault m (m.function b.func).returnsValue (blocks.map (·.1)) s.result.isSome fault →
        allowed (.error (.parse s.line fault))) →
      Meets allowed (statements.forM (buildStatement b blocks)) r fun _ r' =>
        StatementsBuilt m b.func blocks c statements r r' := by
  induction statements with
  | nil =>
    intro r h _ _ _ _ _ _ _ _
    exact .pure ⟨h, rfl, .of_same (fun _ => rfl) (fun _ => rfl) rfl⟩
  | cons s rest ih =>
    intro r h hopen hblocks hformed hsingle hunknown hdefinitions htwice hop
    obtain ⟨hs, hphi⟩ := hformed s List.mem_cons_self
    obtain ⟨hlocals, hrest⟩ := (unknownOperand?_cons_eq_none hphi).1 hunknown
    rw [Statement.results_cons, List.append_assoc] at hdefinitions
    refine .bind ((meets_buildStatement h hopen hblocks hs hphi (fun name hmem hnot => absurd (hlocals name hmem) hnot)
      (fun name hname hmem => htwice s List.mem_cons_self name hname (@two_le_count _ (Statement.results rest ++ r.names) _
        ?_ (List.mem_append_right _ hmem))) (hop s List.mem_cons_self)).mono fun _ r₁ hs₁ => ?_)
    · rw [hname] at hdefinitions
      exact hdefinitions
    have hnames : r₁.names = s.result.toList ++ r.names := by
      rw [hs₁.names, Statement.results_cons]
      cases s.result <;> rfl
    cases rest with
    | nil => exact .pure hs₁
    | cons next rest =>
      have hcontinues : s.op.isTerminator = false := hsingle s List.mem_cons_self
      have hsize := hs₁.grown.blocks_size
      have hopen₁ : b.Open r₁.module c :=
        { block := hopen.block
          func_lt := hs₁.start.func_lt
          sound := hs₁.start.sound
          block_lt := hsize ▸ hopen.block_lt
          unended := hs₁.grown.stays c hopen.unended fun _ => by
            rw [List.any_cons, List.any_nil, Bool.or_false, hcontinues] }
      refine (ih hs₁.start hopen₁ (fun e he => hsize ▸ hblocks e he) (fun t ht => hformed t (List.mem_cons_of_mem _ ht))
        (fun t ht => hsingle t (List.mem_cons_of_mem _ ht)) (hnames ▸ hrest) ?_
        (fun t ht => htwice t (List.mem_cons_of_mem _ ht)) fun t ht => hop t (List.mem_cons_of_mem _ ht)).mono
        fun _ r₂ hrest₂ => hs₁.cons hrest₂
      refine (List.Perm.subperm ?_).trans hdefinitions
      rw [hnames, ← List.append_assoc, ← List.append_assoc]
      exact List.perm_append_comm.append_right _

end Reader

/-! ## Parameters, blocks and phis -/

namespace Function

variable {f f' : Function}

/-- No block leads anywhere, and none has its terminator. -/
structure Unlinked (f : Function) : Prop where
  preds : ∀ t p, p ∉ f.preds t
  unended : ∀ d, Edit.isTerminated f d = false

/-- Code that leads nowhere. -/
theorem Unlinked.grown (h : f.Unlinked) {c : BlockId} (hgrown : f.Grown f' c [] false) : f'.Unlinked :=
  ⟨fun t p hp => ((hgrown.preds t p).1 hp).elim (h.preds t p) fun hnew => absurd hnew.2 List.not_mem_nil,
    fun d => hgrown.stays d (h.unended d) fun _ => rfl⟩

/-- A function without blocks. -/
theorem Blank.unlinked (h : f.Blank) : f.Unlinked := by
  refine ⟨fun t p => ?_, fun d => ?_⟩
  · unfold Function.preds
    rw [h.block]
    exact List.not_mem_nil
  · unfold Edit.isTerminated Function.instsOf
    rw [h.block]
    rfl

/-- A new block is empty. -/
theorem Unlinked.createBlock (h : f.Unlinked) {b : BlockId} (hcreate : (Edit.createBlock name).run f = (.ok b, f')) :
    f'.Unlinked := by
  have hsame := fun c => sameBlock_createBlock hcreate c
  obtain ⟨rfl, rfl⟩ := Edit.createBlock_spec hcreate
  refine ⟨fun t p => ?_, fun d => ?_⟩
  · rw [(hsame t).preds]
    exact h.preds t p
  · rw [isTerminated_congr (congrArg _ (hsame d).insts) fun _ _ => rfl]
    exact h.unended d

end Function

namespace Reader

variable {m : Module} {b : Builder} {r r₁ : Reading} {allowed : Failure → Prop}

variable {block : BlockSource} {line size : Nat}

/-- Naming the parameters fails at a name that is repeated. -/
theorem meets_defineParams {params : List String} (h : r.From m b.func) (hnone : r.values = [])
    (hheaded : (r.module.function b.func).Headed) (hcount : (r.module.function b.func).params.length = params.length)
    (htwice : ∀ name ∈ params, 2 ≤ params.count name → allowed (.error (.parse line (.redefinedValue name)))) :
    Meets allowed (defineParams b line params) r fun _ r' => r'.From m b.func ∧ r'.names.Perm params ∧
      (r.module.function b.func).MoreValues (r'.module.function b.func) := by
  have hfst : params.zipIdx.map Prod.fst = params := List.zipIdx_map_fst 0 params
  refine (Meets.forM (I := fun done r₁ => r₁.From m b.func ∧ r₁.names = (done.map Prod.fst).reverse ∧
      (r.module.function b.func).MoreValues (r₁.module.function b.func)) params.zipIdx
    (fun done entry rest r₁ hlist hI => ?_) ⟨h, congrArg (List.map Prod.fst) hnone, .refl _⟩).mono fun _ r₁ hI => ?_
  · obtain ⟨hstart, hnames, hmore⟩ := hI
    obtain ⟨name, i⟩ := entry
    have hat : params[i]? = some name :=
      List.mk_mem_zipIdx_iff_getElem?.1 (hlist ▸ List.mem_append_right _ List.mem_cons_self)
    have hi : i < (r.module.function b.func).params.length := hcount ▸ (List.getElem?_eq_some_iff.1 hat).1
    have hparams : (r₁.module.function b.func).params[i]? = some (r.module.function b.func).params[i] := by
      rw [show (r₁.module.function b.func).params = (r.module.function b.func).params from
        congrArg Heading.params hmore.heading, List.getElem?_eq_getElem hi]
    have hrun : (b.param i).run r₁.module = (.ok (r.module.function b.func).params[i], r₁.module) := by
      unfold Builder.param
      rw [run_get_bind, hparams]
      rfl
    have hlt := Nat.lt_of_lt_of_le (hheaded.params _ (List.getElem_mem hi)) hmore.values_size
    refine .bind (meets_change hrun ((meets_define hstart hlt fun hmem => htwice name (List.mem_of_getElem? hat) ?_).mono
      fun _ r₂ hr₂ => ⟨hr₂.1, ?_, hmore.trans hr₂.2.2⟩))
    · have hperm : (name :: r₁.names ++ rest.map Prod.fst).Perm params := by
        rw [← hfst, hlist, hnames, List.map_append, List.map_cons, List.cons_append]
        exact (((List.reverse_perm _).append_right _).cons name).trans List.perm_middle.symm
      exact two_le_count ((List.sublist_append_left _ _).subperm.trans hperm.subperm) hmem
    · unfold Reading.names
      rw [hr₂.2.1, List.map_cons, List.map_append, List.reverse_append]
      exact congrArg (name :: ·) hnames
  · refine ⟨hI.1, ?_, hI.2.2⟩
    rw [hI.2.1, hfst]
    exact List.reverse_perm _

/-- Creating blocks fails at a name that is repeated. -/
theorem meets_createBlocks {sources : List BlockSource} : ∀ {created : List (String × BlockId)} {r : Reading},
    r.From m b.func → (r.module.function b.func).Unlinked → (created.map Prod.fst).Nodup →
    (∀ source ∈ sources, 2 ≤ (created.map Prod.fst ++ sources.map (·.name)).count source.name →
      allowed (.error (.parse source.line (.redefinedBlock source.name)))) →
    Meets allowed (createBlocks b sources created) r fun blocks r' => r'.From m b.func ∧ r'.values = r.values ∧
      (r'.module.function b.func).Unlinked ∧ blocks.map Prod.fst = created.map Prod.fst ++ sources.map (·.name) ∧
      (blocks.map Prod.fst).Nodup := by
  induction sources with
  | nil => exact fun h hunlinked hnodup _ => .pure ⟨h, rfl, hunlinked, (List.append_nil _).symm, hnodup⟩
  | cons source rest ih =>
    intro created r h hunlinked hnodup htwice
    unfold createBlocks
    split
    · rename_i htaken
      obtain ⟨id, hid⟩ := Option.isSome_iff_exists.1 htaken
      refine .bind (meets_fault (htwice source List.mem_cons_self ?_))
      have hmem : source.name ∈ created.map Prod.fst := List.mem_map.2 ⟨_, mem_of_lookup hid, rfl⟩
      rw [List.map_cons]
      exact two_le_count (List.perm_middle.symm.subperm) (List.mem_append_left _ hmem)
    · rename_i hfree
      have hnot : source.name ∉ created.map Prod.fst := not_mem_of_lookup (Option.not_isSome_iff_eq_none.1 hfree)
      obtain ⟨m₁, hrun, hat⟩ := ModuleEdit.exists_editFunction (e := Edit.createBlock source.name) h.func_lt rfl
      have hbuilt : Module.Built Function.BuildStep b.func r.module m₁ :=
        ModuleEdit.Builds.of_edit (fun f f' _ h => .block h) (fun _ _ => Edit.brings_createBlock _) hrun
      have hnames : ∀ id : BlockId, (created ++ [(source.name, id)]).map Prod.fst ++ rest.map (·.name) =
          created.map Prod.fst ++ (source :: rest).map (·.name) := fun id => by
        rw [List.map_append, List.append_assoc]
        rfl
      have hstart : Reading.From m b.func { r with module := m₁ } := h.step hbuilt fun e he => .inl he
      have hunlinked₁ : (m₁.function b.func).Unlinked := by
        rw [hat]
        exact hunlinked.createBlock rfl
      refine .bind (meets_change hrun ((ih hstart hunlinked₁ ?_ fun other hother hcount => ?_).mono fun blocks r' hr' => ?_))
      · rw [List.map_append, List.nodup_append_comm]
        exact List.nodup_cons.2 ⟨hnot, hnodup⟩
      · rw [hnames] at hcount
        exact htwice other (List.mem_cons_of_mem _ hother) hcount
      · rw [hnames] at hr'
        exact hr'

/-- Phis were created, which define some names. -/
structure PhisCreated (m : Module) (source : FunctionSource) (all : List (BlockSource × BlockId)) (size : Nat)
    (names : List String) (found : List (BlockId × InstId × Statement)) (r : Reading) : Prop where
  start : r.From m source.id
  names : r.names.Perm (source.params ++ names)
  size : (r.module.function source.id).blocks.size = size
  unlinked : (r.module.function source.id).Unlinked
  phi : ∀ e ∈ found, ((r.module.function source.id).kind e.2.1).isPhi = true ∧
    ∃ block, (block, e.1) ∈ all ∧ e.2.2 ∈ block.statements

variable {source : FunctionSource} {all : List (BlockSource × BlockId)}

/-- Creating a phi fails at a name that is given twice. -/
theorem meets_createPhi {found : List (BlockId × InstId × Statement)} {id : BlockId}
    (h : PhisCreated m source all size names found r) (hmem : (block, id) ∈ all) (hs : s ∈ block.statements)
    (hid : id < size) (hnames : (s.result.toList ++ (source.params ++ names)).Subperm source.definitions)
    (htwice : ∀ name, s.result = some name → 2 ≤ source.definitions.count name →
      allowed (.error (.parse s.line (.redefinedValue name)))) :
    Meets allowed (createPhi ⟨source.id, none⟩ id s) r fun phi r' =>
      PhisCreated m source all size (names ++ s.result.toList) (found ++ [(id, phi, s)]) r' := by
  obtain ⟨phi, v, m₁, hrun, hgrown, hv⟩ := Builder.exists_emptyPhi (b := ⟨source.id, none⟩) (c := id) h.start.func_lt
    h.start.sound (h.size ▸ hid)
  obtain ⟨hbuilt, hphi⟩ := Builder.emptyPhi_spec _ hrun
  have hstart : Reading.From m source.id { r with module := m₁ } := h.start.step hbuilt fun e he => .inl he
  have hold : ∀ {r₂ : Reading}, Module.Built Function.BuildStep source.id m₁ r₂.module →
      ∀ e ∈ found ++ [(id, phi, s)], ((r₂.module.function source.id).kind e.2.1).isPhi = true ∧
        ∃ block, (block, e.1) ∈ all ∧ e.2.2 ∈ block.statements := fun hmore e he => by
    rcases List.mem_append.1 he with he | he
    · exact ⟨hmore.isPhi (hbuilt.isPhi (h.phi e he).1), (h.phi e he).2⟩
    · rw [List.mem_singleton.1 he]
      exact ⟨hmore.isPhi hphi, block, hmem, hs⟩
  refine .bind (meets_change hrun ?_)
  dsimp only
  split
  · rename_i name hname
    rw [hname] at hnames
    have htaken : name ∈ Reading.names { r with module := m₁ } → allowed (.error (.parse s.line (.redefinedValue name))) := fun hin =>
      htwice name hname (two_le_count hnames (h.names.mem_iff.1 hin))
    refine .bind (((meets_define hstart hv htaken).and fun _ r₂ hrun =>
      (builds_define ⟨source.id, none⟩ s.line name v hrun).code.body).mono fun _ r₂ hr₂ => .pure ?_)
    obtain ⟨⟨hstart₂, hvalues, hmore⟩, hbuilt₂⟩ := hr₂
    refine ⟨hstart₂, ?_, hmore.blocks_size.trans (hgrown.blocks_size.trans h.size),
      (h.unlinked.grown hgrown).grown (hmore.grown id), hold hbuilt₂⟩
    unfold Reading.names
    rw [hvalues, List.map_cons, hname, ← List.append_assoc]
    exact (h.names.cons name).trans (List.perm_append_singleton _ _).symm
  · rename_i hname
    refine .bind (.pure (.pure ⟨hstart, ?_, hgrown.blocks_size.trans h.size, h.unlinked.grown hgrown, hold (.refl _ _)⟩))
    rw [hname]
    change r.names.Perm _
    simpa using h.names

theorem meets_createPhis (hsources : all.map Prod.fst = source.blocks) (hids : ∀ e ∈ all, e.2 < size)
    (hfault : ∀ line fault, source.Fault m line fault → allowed (.error (.parse line fault)))
    (h : PhisCreated m source all size [] [] r) :
    Meets allowed (all.mapM fun (p : BlockSource × BlockId) => (p.1.statements.filter fun s => s.op.isPhi).mapM fun s => do
        return (p.2, ← createPhi ⟨source.id, none⟩ p.2 s, s) : Reader _) r fun phis r' =>
      PhisCreated m source all size source.phiResults phis.flatten r' := by
  have hall : all.flatMap (fun p => Statement.results p.1.phis) = source.phiResults := by
    unfold FunctionSource.phiResults
    rw [← hsources, List.flatMap_map]
  have hdefinitions : (source.params ++ source.phiResults).Subperm source.definitions := by
    have hperm := @FunctionSource.known_perm source [] source.blocks (.refl _)
    unfold FunctionSource.known at hperm
    rw [List.flatMap_nil, List.append_nil] at hperm
    exact (List.sublist_append_left _ _).subperm.trans hperm.subperm
  rw [← hall] at hdefinitions ⊢
  refine .mapM (I := fun done found r => PhisCreated m source all size (done.flatMap fun p => Statement.results p.1.phis)
    found.flatten r) all (fun done p rest found r hlist hI => ?_) h
  have hmem : p ∈ all := hlist ▸ List.mem_append_right _ List.mem_cons_self
  have hsource : p.1 ∈ source.blocks := hsources ▸ List.mem_map.2 ⟨p, hmem, rfl⟩
  rw [List.flatMap_append, List.flatMap_singleton]
  refine (Meets.mapM (I := fun passed new r => PhisCreated m source all size
    ((done.flatMap fun p => Statement.results p.1.phis) ++ Statement.results passed) (found.flatten ++ new) r) p.1.phis
    (fun passed s behind new r hphis hI => ?_) ?_).mono fun new r hI => ?_
  · have hs : s ∈ p.1.statements := (List.mem_filter.1 (hphis ▸ List.mem_append_right _ List.mem_cons_self)).1
    refine .bind ((meets_createPhi hI hmem hs (hids p hmem) ?_ fun name hname htwice =>
      hfault _ _ (.value hsource hs hname htwice)).mono fun phi r₁ hr₁ => .pure ?_)
    · -- the names so far and this one stand at the front of all names of phis
      refine (List.Perm.subperm ?_).trans ((List.Sublist.subperm (List.sublist_append_left
        (source.params ++ ((done.flatMap fun p => Statement.results p.1.phis) ++ Statement.results passed ++ s.result.toList))
        (Statement.results behind ++ rest.flatMap fun p => Statement.results p.1.phis))).trans ?_)
      · rw [← List.append_assoc source.params _ s.result.toList]
        exact List.perm_append_comm
      · rw [hlist, List.flatMap_append, List.flatMap_cons, hphis, Statement.results_append, Statement.results_cons]
          at hdefinitions
        simpa only [List.append_assoc] using hdefinitions
    · rw [Statement.results_append, ← List.append_assoc, ← List.append_assoc, Statement.results_cons]
      simpa [Statement.results] using hr₁
  · simpa [Statement.results] using hI
  · simpa using hI

/-! ## Blocks that are ready -/

/-- The table of blocks by name. -/
def entries (all : List (BlockSource × BlockId)) : List (String × BlockId) := all.map fun e => (e.1.name, e.2)

/-- The blocks of a body with their numbers. -/
structure Numbered (source : FunctionSource) (all : List (BlockSource × BlockId)) : Prop where
  sources : all.map Prod.fst = source.blocks
  names : source.labels.Nodup
  ids : (all.map Prod.snd).Nodup

variable {e : BlockSource × BlockId}

namespace Numbered

variable (hn : Numbered source all)

include hn

theorem names_eq : (entries all).map Prod.fst = source.labels := by
  unfold entries FunctionSource.labels
  rw [← hn.sources, List.map_map, List.map_map]
  rfl

/-- A block is found by its name. -/
theorem lookup_eq_some_iff {t : BlockId} :
    (entries all).lookup name = some t ↔ ∃ e ∈ all, e.1.name = name ∧ e.2 = t := by
  constructor
  · intro h
    obtain ⟨e, he, heq⟩ := List.mem_map.1 (mem_of_lookup h)
    exact ⟨e, he, congrArg Prod.fst heq, congrArg Prod.snd heq⟩
  · rintro ⟨e, he, rfl, rfl⟩
    refine lookup_eq_some_of_mem ?_ (List.mem_map.2 ⟨e, he, rfl⟩)
    rw [hn.names_eq]
    exact hn.names

variable {e' : BlockSource × BlockId}

/-- Numbers tell blocks apart. -/
theorem eq_of_id (he : e ∈ all) (he' : e' ∈ all) (heq : e.2 = e'.2) : e = e' :=
  List.inj_on_of_nodup_map hn.ids he he' heq

/-- Names tell blocks apart. -/
theorem eq_of_name (he : e ∈ all) (he' : e' ∈ all) (heq : e.1.name = e'.1.name) : e = e' := by
  have hnodup := hn.names
  unfold FunctionSource.labels at hnodup
  rw [← hn.sources, List.map_map] at hnodup
  exact List.inj_on_of_nodup_map hnodup he he' heq

theorem mem_source (he : e ∈ all) : e.1 ∈ source.blocks :=
  hn.sources ▸ List.mem_map.2 ⟨e, he, rfl⟩

end Numbered

/-- The blocks to which the code of a block leads. -/
def exits (all : List (BlockSource × BlockId)) (block : BlockSource) : List BlockId :=
  block.code.flatMap fun s => leadsTo (entries all) s.op

/-- A body of which some blocks are built and others are left. -/
structure Placed (m : Module) (source : FunctionSource) (all done left : List (BlockSource × BlockId)) (r : Reading) :
    Prop where
  start : r.From m source.id
  parts : (done ++ left).Perm all
  names : r.names.Perm (source.known (done.map Prod.fst))
  ids_lt : ∀ e ∈ all, e.2 < (r.module.function source.id).blocks.size
  preds : ∀ t p, p ∈ (r.module.function source.id).preds t ↔ ∃ e ∈ done, e.2 = p ∧ t ∈ exits all e.1
  unended : ∀ e ∈ left, Edit.isTerminated (r.module.function source.id) e.2 = false

/-- The blocks that are built and those that are left are the blocks of the body. -/
theorem Placed.sources {done left : List (BlockSource × BlockId)} (h : Placed m source all done left r)
    (hn : Numbered source all) : (done.map Prod.fst ++ left.map Prod.fst).Perm source.blocks := by
  rw [← List.map_append, ← hn.sources]
  exact h.parts.map _

section

variable (hn : Numbered source all) (hformed : ∀ e ∈ all, e.1.Formed)
    (hfault : ∀ line fault, source.Fault m line fault → allowed (.error (.parse line fault)))

include hn hformed hfault

theorem meets_block {done before after : List (BlockSource × BlockId)}
    (h : Placed m source all done (before ++ e :: after) r) (hready : unknownOperand? r.names e.1.statements = none) :
    Meets allowed (e.1.code.forM (buildStatement { func := source.id, block := some e.2 } (entries all))) r fun _ r' =>
      Placed m source all (e :: done) (before ++ after) r' := by
  have hmem : e ∈ all := h.parts.mem_iff.1 (List.mem_append_right _ (List.mem_append_right _ List.mem_cons_self))
  have hsource := hn.mem_source hmem
  have hcode : ∀ s ∈ e.1.code, s ∈ e.1.statements ∧ s.op.isPhi = false := fun s hs => by
    obtain ⟨hs, hphi⟩ := List.mem_filter.1 hs
    exact ⟨hs, by simpa using hphi⟩
  have hopen : Builder.Open { func := source.id, block := some e.2 } r.module e.2 :=
    ⟨rfl, h.start.func_lt, h.start.sound, h.ids_lt e hmem,
      h.unended e (List.mem_append_right _ List.mem_cons_self)⟩
  have hentries : ∀ x ∈ entries all, x.2 < (r.module.function source.id).blocks.size := fun x hx => by
    obtain ⟨e', he', rfl⟩ := List.mem_map.1 hx
    exact h.ids_lt e' he'
  have hparts : (e :: done ++ (before ++ after)).Perm all :=
    List.perm_middle.symm.trans ((List.perm_middle.symm.append_left done).trans h.parts)
  have hknown := FunctionSource.known_perm (h.sources hn)
  have hdefinitions : (Statement.results e.1.code ++ r.names).Subperm source.definitions := by
    refine ((List.perm_append_comm.trans (h.names.append_right _)).subperm).trans (List.Subperm.trans ?_ hknown.subperm)
    rw [List.map_append, List.map_cons, List.flatMap_append, List.flatMap_cons]
    exact ((List.sublist_append_left _ _).trans (List.sublist_append_right _ _)).append_left _ |>.subperm
  refine (meets_statements (b := ⟨source.id, some e.2⟩) (c := e.2) h.start hopen hentries
    (fun s hs => ⟨(hformed e hmem).statements s (hcode s hs).1, (hcode s hs).2⟩) (hformed e hmem).code_single
    (unknownOperand?_code _ _ ▸ hready) hdefinitions
    (fun s hs name hname htwice => hfault _ _ (.value hsource (hcode s hs).1 hname htwice))
    fun s hs fault hop => hfault _ _ (.op hsource (hcode s hs).1 (hn.names_eq ▸ hop))).mono fun _ r' hr' => ?_
  refine ⟨hr'.start, hparts, ?_, fun x hx => ?_, fun t p => ?_, fun x hx => ?_⟩
  · rw [hr'.names]
    unfold FunctionSource.known
    rw [List.map_cons, List.flatMap_cons]
    refine (((List.reverse_perm _).append h.names).trans List.perm_append_comm).trans ?_
    unfold FunctionSource.known
    rw [List.append_assoc]
    exact List.perm_append_comm.append_left _
  · rw [hr'.grown.blocks_size]
    exact h.ids_lt x hx
  · rw [hr'.grown.preds, h.preds, or_comm, List.exists_mem_cons_iff]
    exact or_congr (and_congr_left fun _ => eq_comm) Iff.rfl
  · refine hr'.grown.stays x.2 (h.unended x ?_) fun heq => absurd heq fun heq => ?_
    · exact List.mem_append.2 ((List.mem_append.1 hx).imp id (List.mem_cons_of_mem _))
    · have hnodup : ((e :: done ++ (before ++ after)).map Prod.snd).Nodup := (hparts.map _).nodup_iff.2 hn.ids
      rw [List.cons_append, List.map_cons, List.nodup_cons] at hnodup
      exact hnodup.1 (List.mem_map.2 ⟨x, List.mem_append_right _ hx, heq⟩)

/-- When no more blocks can be built, each of those that are left reads a name that is not known. -/
theorem meets_buildReady {limit : Nat} :
    ∀ {done left : List (BlockSource × BlockId)} {r : Reading}, Placed m source all done left r → left.length ≤ limit →
      Meets allowed (buildReady source.id (entries all) limit left) r fun rest r' =>
        ∃ done', Placed m source all done' rest r' ∧ ∀ e ∈ rest, unknownOperand? r'.names e.1.statements ≠ none := by
  induction limit with
  | zero =>
    intro done left r h hlength
    rw [List.eq_nil_of_length_eq_zero (Nat.le_zero.1 hlength)] at h ⊢
    exact .pure ⟨done, h, fun e he => absurd he List.not_mem_nil⟩
  | succ limit ih =>
    intro done left r h hlength
    refine .bind (.get ?_)
    dsimp only
    split
    · rename_i hstuck
      refine .pure ⟨done, h, fun e he hnone => ?_⟩
      have hready := List.findIdx?_eq_none_iff.1 hstuck e he
      rw [show unknownOperand? (r.values.map (·.1)) e.1.statements = none from hnone] at hready
      cases hready
    · rename_i k hk
      obtain ⟨hlt, hready, -⟩ := List.findIdx?_eq_some_iff_getElem.1 hk
      have hsplit : left = left.take k ++ left[k] :: left.drop (k + 1) := by
        rw [List.getElem_cons_drop, List.take_append_drop]
      rw [List.getElem?_eq_getElem hlt]
      rw [hsplit] at h
      refine .bind ((meets_block hn hformed hfault h (Option.isNone_iff_eq_none.1 hready)).mono fun _ r₁ h₁ => ?_)
      rw [← List.eraseIdx_eq_take_drop_succ] at h₁
      refine ih h₁ ?_
      rw [List.length_eraseIdx_of_lt hlt]
      omega

end

/-! ## Filling the phis -/

/-- A block leads to the blocks that it names. -/
theorem Numbered.mem_exits_iff (hn : Numbered source all) (he : e ∈ all) :
    e.2 ∈ exits all block ↔ e.1.name ∈ block.targets := by
  unfold exits leadsTo BlockSource.targets
  rw [List.mem_flatMap, List.mem_flatMap]
  refine exists_congr fun s => and_congr_right fun _ => ?_
  rw [List.mem_filterMap]
  constructor
  · rintro ⟨name, hname, hlookup⟩
    obtain ⟨e', he', rfl, hid⟩ := hn.lookup_eq_some_iff.1 hlookup
    rwa [← hn.eq_of_id he' he hid]
  · exact fun hname => ⟨_, hname, hn.lookup_eq_some_iff.2 ⟨e, he, rfl, rfl⟩⟩

namespace Placed

variable {done : List (BlockSource × BlockId)}

variable (h : Placed m source all done [] r)

include h

/-- When all blocks are built, the predecessors are the blocks that lead somewhere by name. -/
theorem mem_preds_iff (hn : Numbered source all) (he : e ∈ all) (p : BlockId) :
    p ∈ (r.module.function source.id).preds e.2 ↔
      ∃ d ∈ all, d.2 = p ∧ source.Edge d.1.name e.1.name := by
  have hparts := h.parts
  rw [List.append_nil] at hparts
  rw [h.preds]
  refine exists_congr fun d => ?_
  rw [hparts.mem_iff]
  refine and_congr_right fun hd => and_congr_right fun _ => ?_
  rw [hn.mem_exits_iff he]
  constructor
  · exact fun hedge => ⟨d.1, hn.mem_source hd, rfl, hedge⟩
  · rintro ⟨block, hblock, hname, hedge⟩
    obtain ⟨d', hd', rfl⟩ := List.mem_map.1 (hn.sources ▸ hblock)
    rwa [hn.eq_of_name hd' hd hname] at hedge

variable {r' : Reading}

/-- A change that touches no block and no name. -/
theorem of_blocks (hstart : r'.From m source.id) (hvalues : r'.values = r.values)
    (hblock : ∀ t, (r'.module.function source.id).block t = (r.module.function source.id).block t)
    (hsize : (r'.module.function source.id).blocks.size = (r.module.function source.id).blocks.size) :
    Placed m source all done [] r' where
  start := hstart
  parts := h.parts
  names := by
    unfold Reading.names
    rw [hvalues]
    exact h.names
  ids_lt e he := hsize ▸ h.ids_lt e he
  preds t p := by
    unfold Function.preds
    rw [hblock]
    exact h.preds t p
  unended e he := absurd he List.not_mem_nil

/-- Reading operands. -/
theorem readOn (hread : Reading.ReadOn m source.id r r') :
    Placed m source all done [] r' := h.of_blocks hread.start hread.values hread.more.block hread.more.blocks_size

/-- All names of the body are known. -/
theorem names_perm (hn : Numbered source all) : r.names.Perm source.definitions := by
  have hperm := FunctionSource.known_perm (h.sources hn)
  rw [List.map_nil, List.flatMap_nil, List.append_nil] at hperm
  exact h.names.trans hperm

end Placed

theorem meets_incomingPairs {done : List (BlockSource × BlockId)} (hn : Numbered source all) (he : e ∈ all)
    {pairs : List (String × SourceOperand)} : ∀ {r : Reading}, Placed m source all done [] r →
      (∀ name ∈ pairs.map Prod.fst, name ∉ source.labels → allowed (.error (.parse line (.unknownBlock name)))) →
      (∀ name ∈ pairs.map Prod.fst, ¬ source.Edge name e.1.name → ∀ label,
        allowed (.error (.parse line (.notAPredecessor name label)))) →
      Readable allowed m r.names line (pairs.map Prod.snd) →
      Meets allowed (incomingPairs ⟨source.id, none⟩ (entries all) line e.2 pairs) r fun incoming r' =>
        Reading.ReadOn m source.id r r' ∧ (∀ x ∈ incoming, x.2 < (r'.module.function source.id).values.size) ∧
        ∀ d ∈ all, d.1.name ∈ pairs.map Prod.fst → d.2 ∈ incoming.map Prod.fst := by
  induction pairs with
  | nil =>
    exact fun h _ _ _ => .pure ⟨.refl h.start, fun x hx => absurd hx List.not_mem_nil,
      fun d _ hd => absurd hd List.not_mem_nil⟩
  | cons pair rest ih =>
    intro r h hsource hpred hread
    obtain ⟨name, operand⟩ := pair
    unfold incomingPairs
    refine .bind (meets_blockNamed (fun hnot => hsource name List.mem_cons_self (hn.names_eq ▸ hnot)) fun t ht => .bind (.get ?_))
    obtain ⟨d, hd, rfl, rfl⟩ := hn.lookup_eq_some_iff.1 ht
    dsimp only
    split
    · rename_i hcontains
      refine .bind (meets_fault (hpred _ List.mem_cons_self (fun hedge => ?_) _))
      rw [List.contains_iff_mem.2 ((h.mem_preds_iff hn he d.2).2 ⟨d, hd, rfl, hedge⟩)] at hcontains
      cases hcontains
    · refine .bind ((meets_value (b := ⟨source.id, none⟩) hread (.refl h.start) List.mem_cons_self).mono fun v r₁ hv => ?_)
      obtain ⟨hread₁, -, hv⟩ := hv
      have hnames : r₁.names = r.names := congrArg (List.map Prod.fst) hread₁.values
      refine .bind ((ih (h.readOn hread₁) (fun name hname => hsource name (List.mem_cons_of_mem _ hname))
        (fun name hname => hpred name (List.mem_cons_of_mem _ hname)) ?_).mono fun incoming r₂ hincoming => .pure ?_)
      · rw [hnames]
        exact ⟨fun name hname => hread.locals name (List.mem_cons_of_mem _ hname),
          fun name hname => hread.symbols name (List.mem_cons_of_mem _ hname)⟩
      · obtain ⟨hread₂, hlt, hall⟩ := hincoming
        refine ⟨hread₁.trans hread₂, fun x hx => ?_, fun d' hd' hname => ?_⟩
        · rcases List.mem_cons.1 hx with rfl | hx
          · exact hread₂.lt hv
          · exact hlt x hx
        · rcases List.mem_cons.1 hname with hname | hname
          · exact List.mem_cons.2 (.inl (congrArg Prod.snd (hn.eq_of_name hd' hd hname)))
          · exact List.mem_cons_of_mem _ (hall d' hd' hname)

/-- Filling a phi fails when it does not fit its block or reads a name that is not defined. -/
theorem meets_fillPhi {done : List (BlockSource × BlockId)} (hn : Numbered source all)
    (hfault : ∀ line fault, source.Fault m line fault → allowed (.error (.parse line fault))) (he : e ∈ all)
    (hs : s ∈ e.1.statements) {phi : InstId} (h : Placed m source all done [] r)
    (hphi : ((r.module.function source.id).kind phi).isPhi = true) :
    Meets allowed (fillPhi ⟨source.id, none⟩ (entries all) e.2 phi s) r fun _ r' => Placed m source all done [] r' := by
  unfold fillPhi
  split
  · rename_i pairs hop
    have hsource := hn.mem_source he
    refine .bind ((meets_incomingPairs hn he h (fun name hname hnot => hfault _ _ (.phiSource hsource hs hop hname hnot))
      (fun name hname hnot label => hfault _ _ (.notAPredecessor hsource hs hop hname hnot)) ?_).mono
      fun incoming r₁ hincoming => .bind (.get ?_))
    · refine ⟨fun name hname hnot => hfault _ _ (.phiValue hsource hs hop hname fun hin => ?_), fun name hname hfree =>
        hfault _ _ (.op hsource hs (.symbol ?_ hfree))⟩
      · exact hnot ((h.names_perm hn).mem_iff.2 hin)
      · rw [hop]
        exact hname
    · obtain ⟨hread, hlt, hall⟩ := hincoming
      have h₁ := h.readOn hread
      -- the slots change neither the values nor what is a phi
      refine (Meets.forM (I := fun _ r₂ => Placed m source all done [] r₂ ∧
        ((r₂.module.function source.id).kind phi).isPhi = true ∧
        (r₁.module.function source.id).values.size ≤ (r₂.module.function source.id).values.size) _
        (fun passed pred rest r₂ hpreds hI => ?_) ⟨h₁, ?_, Nat.le_refl _⟩).mono fun _ r₂ hI => hI.1
      · obtain ⟨h₂, hphi₂, hsize⟩ := hI
        split
        · rename_i v hv
          obtain ⟨⟨⟩, f', hpush⟩ := Edit.succeeds_pushOperand (Function.lt_size_of_isPhi hphi₂)
            (Nat.lt_of_lt_of_le (hlt _ (mem_of_lookup hv)) hsize)
          obtain ⟨m₃, hrun, hat⟩ := ModuleEdit.exists_editFunction h₂.start.func_lt hpush
          obtain ⟨hkind, -, -, -, hblock, hblocks, -⟩ := Function.pushOperand_same hpush
          have hbuilt : Module.Built Function.BuildStep source.id r₂.module m₃ := by
            obtain ⟨f₃, hpush₃, hfunctions, hothers, hat₃⟩ := ModuleEdit.editFunction_eq_ok hrun
            refine ⟨hfunctions, hothers, ?_, ModuleEdit.symbols_editFunction hrun,
              ModuleEdit.linked_editFunction hrun (Edit.brings_pushOperand _ _)⟩
            rw [hat₃]
            exact Relation.ReflTransGen.single (.slot hphi₂ hpush₃)
          have hstart : Reading.From m source.id { r₂ with module := m₃ } := h₂.start.step hbuilt fun x hx => .inl hx
          refine meets_change hrun ⟨h₂.of_blocks hstart rfl (fun t => hat ▸ hblock t) (hat ▸ hblocks), hbuilt.isPhi hphi₂,
            Nat.le_trans hsize (Function.BuildSteps.outlines hbuilt.steps).size⟩
        · rename_i hnone
          obtain ⟨d, hd, rfl, hedge⟩ := (h₁.mem_preds_iff hn he pred).1 (hpreds ▸ List.mem_append_right _ List.mem_cons_self)
          exact meets_fault (hfault _ _ (.missing hsource hs hop hedge fun hname =>
            not_mem_of_lookup hnone (hall d hd hname)))
      · rw [Function.kind, hread.more.inst]
        exact hphi
  · exact .pure h

/-! ## Bodies -/

section

variable (hid : source.id < r.module.functions.size) (hs : (r.module.function source.id).Sound)
    (hheaded : (r.module.function source.id).Headed) (hblank : (r.module.function source.id).Blank)
    (hcount : (r.module.function source.id).params.length = source.params.length)
    (hformed : ∀ b ∈ source.blocks, b.Formed)
    (hfault : ∀ line fault, source.Fault r.module line fault → allowed (.error (.parse line fault)))

include hid hs hheaded hblank hcount hformed hfault

/-- Building the body of a blank function but for the operands of its phis fails only for what is wrong with the body,
and places all its blocks. -/
theorem meets_openBody : Meets allowed (openBody source) r fun body r' => ∃ all done,
    Numbered source all ∧ body.1 = entries all ∧ Placed r.module source all done [] r' ∧
      ∀ e ∈ body.2, ((r'.module.function source.id).kind e.2.1).isPhi = true ∧
        ∃ block, (block, e.1) ∈ all ∧ e.2.2 ∈ block.statements := by
  have hstart : Reading.From r.module source.id { r with values := [] } :=
    ⟨hid, hs, .refl _ _, fun e he => absurd he List.not_mem_nil⟩
  refine .bind (.modify (.bind ((meets_defineParams (b := ⟨source.id, none⟩) hstart rfl hheaded hcount
    fun name hname htwice => hfault _ _ (.param hname ?_)).mono fun _ r₁ hr₁ => ?_)))
  · refine Nat.le_trans htwice (List.Sublist.count_le _ ?_)
    exact List.sublist_append_left _ _
  obtain ⟨hstart₁, hnames₁, hmore⟩ := hr₁
  have hunlinked : (r₁.module.function source.id).Unlinked := hblank.unlinked.grown (hmore.grown 0)
  have hnone : (([] : List (String × BlockId)).map Prod.fst).Nodup := List.nodup_nil
  refine .bind (((meets_createBlocks (b := ⟨source.id, none⟩) hstart₁ hunlinked hnone
    fun b hb htwice => hfault _ _ (.block hb htwice)).and fun blocks r₂ hrun => createBlocks_spec ⟨source.id, none⟩ hrun).mono
    fun blocks r₂ hr₂ => ?_)
  obtain ⟨⟨hstart₂, hvalues₂, hunlinked₂, hlabels, hnodup⟩, hids, hsize₂, -⟩ := hr₂
  have hlabels : blocks.map Prod.fst = source.labels := hlabels
  rw [List.map_nil, List.nil_append] at hids
  rw [hmore.blocks_size, hblank.blocks, Nat.zero_add] at hsize₂
  have hlength : blocks.length = source.blocks.length := by
    rw [← List.length_map Prod.fst, hlabels]
    exact List.length_map _
  -- from here on the table of the blocks is told by the blocks with their numbers
  obtain ⟨all, hall⟩ : ∃ all, all = source.blocks.zip (blocks.map (·.2)) := ⟨_, rfl⟩
  have hn : Numbered source all := by
    rw [hall]
    refine ⟨List.map_fst_zip (by rw [List.length_map, hlength]), hlabels ▸ hnodup, ?_⟩
    rw [List.map_snd_zip (by rw [List.length_map, hlength]), hids]
    exact List.nodup_range'
  have hentries : blocks = entries all := by
    refine (List.zip_of_prod hlabels rfl).trans ?_
    unfold FunctionSource.labels entries
    rw [hall, List.zip_map_left]
    rfl
  have hlt : ∀ e ∈ all, e.2 < source.blocks.length := fun e he => by
    have hmem : e.2 ∈ blocks.map (·.2) := (List.of_mem_zip (hall ▸ he)).2
    rw [hids, hmore.blocks_size, hblank.blocks] at hmem
    simpa using hmem
  have hnames₂ : r₂.names = r₁.names := congrArg (List.map Prod.fst) hvalues₂
  dsimp only
  rw [← hall, hentries]
  have hcreated : PhisCreated r.module source all source.blocks.length [] [] r₂ :=
    ⟨hstart₂, by rw [hnames₂, List.append_nil]; exact hnames₁, hsize₂, hunlinked₂, fun e he => absurd he List.not_mem_nil⟩
  refine .bind ((meets_createPhis hn.sources hlt hfault hcreated).mono fun phis r₃ hr₃ => ?_)
  have hplaced : Placed r.module source all [] all r₃ :=
    { start := hr₃.start
      parts := .refl _
      names := by
        unfold FunctionSource.known
        rw [List.map_nil, List.flatMap_nil, List.append_nil]
        exact hr₃.names
      ids_lt := fun e he => hr₃.size ▸ hlt e he
      preds := fun t p => ⟨fun hp => absurd hp (hr₃.unlinked.preds t p), fun ⟨e, he, _⟩ => absurd he List.not_mem_nil⟩
      unended := fun e _ => hr₃.unlinked.unended e.2 }
  have hformed' : ∀ e ∈ all, e.1.Formed := fun e he => hformed _ (hn.mem_source he)
  refine .bind (((meets_buildReady hn hformed' hfault hplaced (Nat.le_refl _)).and fun left r₄ hrun =>
    (builds_buildReady source.id _ _ _ (fun p hp s hs => ((hformed' p hp).statements s hs).fits) hrun).body).mono
    fun left r₄ hr₄ => ?_)
  obtain ⟨⟨done, hplaced₄, hstuck⟩, hbuilt₄⟩ := hr₄
  have hnames₄ : ∀ b : BlockSource, unknownOperand? r₄.names b.statements =
      unknownOperand? (source.known (done.map Prod.fst)) b.statements := fun b =>
    unknownOperand?_congr fun name => hplaced₄.names.mem_iff
  cases left with
  | cons e rest =>
    refine .bind (.get ?_)
    split
    · rename_i line name hname
      refine meets_fault (hfault _ _ (.stuck (hplaced₄.sources hn) (fun b hb => ?_)
        (List.mem_map.2 ⟨e, List.mem_cons_self, rfl⟩) ((hnames₄ e.1).symm.trans hname)))
      obtain ⟨e', he', rfl⟩ := List.mem_map.1 hb
      rw [← hnames₄]
      exact hstuck e' he'
    · rename_i hnone
      exact absurd hnone (hstuck e List.mem_cons_self)
  | nil =>
    exact .pure ⟨all, done, hn, rfl, hplaced₄, fun e he => ⟨hbuilt₄.isPhi (hr₃.phi e he).1, (hr₃.phi e he).2⟩⟩

/-- Building the body of a blank function fails only for what is wrong with the body, and then the values of the function
have the names that the body defines. -/
theorem meets_buildFunction :
    Meets allowed (buildFunction source) r fun _ r' => r'.From r.module source.id ∧ r'.names.Perm source.definitions := by
  refine .bind ((meets_openBody hid hs hheaded hblank hcount hformed hfault).mono fun body r₁ hopen => ?_)
  obtain ⟨blocks, phis⟩ := body
  obtain ⟨all, done, hn, rfl, hplaced, hphis⟩ := hopen
  refine (Meets.forM (I := fun _ r₂ => Placed r.module source all done [] r₂ ∧
    ∀ e ∈ phis, ((r₂.module.function source.id).kind e.2.1).isPhi = true) phis
    (fun passed e rest r₂ hlist hI => ?_) ⟨hplaced, fun e he => (hphis e he).1⟩).mono
    fun _ r₂ hI => ⟨hI.1.start, hI.1.names_perm hn⟩
  obtain ⟨hplaced₂, hkinds⟩ := hI
  have hmem : e ∈ phis := hlist ▸ List.mem_append_right _ List.mem_cons_self
  obtain ⟨-, block, hblock, hs⟩ := hphis e hmem
  refine ((meets_fillPhi (e := (block, e.1)) hn hfault hblock hs hplaced₂ (hkinds e hmem)).and fun _ r₃ hrun =>
    fillPhi_spec ⟨source.id, none⟩ (hkinds e hmem) hrun).mono fun _ r₃ hr₃ =>
      ⟨hr₃.1, fun x hx => hr₃.2.isPhi (hkinds x hx)⟩

end

end Reader

/-- A body whose function was declared fails only for what is wrong with it, and nothing happens to other functions. -/
theorem FunctionSource.Declared.meets_buildFunction {source : FunctionSource} {r : Reading} {allowed : Failure → Prop}
    (h : source.Declared r.module) (hformed : ∀ b ∈ source.blocks, b.Formed)
    (hfault : ∀ line fault, source.Fault r.module line fault → allowed (.error (.parse line fault))) :
    Meets allowed (Reader.buildFunction source) r fun _ r' =>
      r'.module.functions.size = r.module.functions.size ∧
        ∀ id, id ≠ source.id → r'.module.function id = r.module.function id := by
  obtain ⟨name, returns, hnew⟩ := h.blank
  have hcount : (r.module.function source.id).params.length = source.params.length := by
    rw [hnew]
    exact List.length_range
  have hfits : ∀ b ∈ source.blocks, b.Fits := fun b hb s hs => ((hformed b hb).statements s hs).fits
  refine ((Reader.meets_buildFunction h.id_lt (hnew ▸ Function.sound_new _ _ _) (hnew ▸ Function.headed_new _ _ _)
    (hnew ▸ Function.blank_new _ _ _) hcount hformed hfault).and fun _ _ hrun =>
      Reader.builds_buildFunction hfits hrun).mono fun _ _ hr => ⟨hr.2.size, hr.2.others⟩

end SsaCompiler
