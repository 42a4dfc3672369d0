import SsaCompiler.Proofs.Text.BuiltFunctions

/-!
# Functions that come from text

The declarations of a text give functions without blocks, and the bodies are built into them. So all
functions of a module that was read are sound, and so are the functions that passes make of them.
-/

set_option autoImplicit false

namespace SsaCompiler

/-! ## Declarations -/

variable {f : Function} {sources : List FunctionSource} {rest tokens : List Token} {lines : List TokenLine}
variable {m m' : Module} {P : Module → Prop} {line : Nat} {name text : String}

/-- Declaring a sound function keeps a module sound. -/
theorem Module.sound_addFunction (hm : m.Sound) (hf : f.Sound) : (m.addFunction f).2.Sound := by
  intro id hid
  unfold Module.addFunction at hid ⊢
  rw [Array.size_push] at hid
  unfold Module.function
  rw [Array.getD_eq_getD_getElem?, Array.getElem?_push]
  split
  · exact hf
  · rename_i hne
    have hs := hm id (Nat.lt_of_le_of_ne (Nat.lt_succ_iff.1 hid) hne)
    unfold Module.function at hs
    rwa [Array.getD_eq_getD_getElem?] at hs

/-- A function without a body refers to nothing. -/
theorem Function.linked_new (name : String) (paramCount : Nat) (returnsValue : Bool) (globals strings : Nat) :
    (Function.new name paramCount returnsValue).Linked globals strings := by
  refine ⟨fun v hv => ?_, fun v => ?_, fun _ => trivial⟩
  · rw [show (Function.new name paramCount returnsValue).values.size = paramCount from Array.size_ofFn]
    exact List.mem_range.1 hv
  unfold Function.value Function.new
  rw [Array.getD_eq_getD_getElem?, Array.getElem?_ofFn]
  split <;> trivial

/-- The values of a function without a body are its parameters. -/
theorem Function.headed_new (name : String) (paramCount : Nat) (returnsValue : Bool) :
    (Function.new name paramCount returnsValue).Headed := by
  refine ⟨(Function.linked_new name paramCount returnsValue 0 0).params, List.nodup_range, fun k v hv => ?_,
    fun v k hk => ?_⟩
  · have hrange : (List.range paramCount)[k]? = some v := hv
    have hk : k < paramCount := by simpa using (List.getElem?_eq_some_iff.1 hrange).1
    obtain rfl : k = v := by simpa [hk] using hrange
    unfold Function.value Function.new
    rw [Array.getD_eq_getD_getElem?, Array.getElem?_ofFn, dif_pos hk]
    rfl
  · unfold Function.value Function.new at hk
    rw [Array.getD_eq_getD_getElem?, Array.getElem?_ofFn] at hk
    split at hk
    · rename_i hv
      exact List.mem_range.2 hv
    · cases hk

/-- A name that neither a global nor a string has. -/
def Module.Free (m : Module) (name : String) : Prop := m.globalByName? name = none ∧ m.stringByName? name = none

/-- A module with one global more, under a free name. -/
def Module.GlobalAdded (m : Module) (constant : Bool) (m' : Module) : Prop :=
  ∃ name words init, m.Free name ∧ m' = (m.addGlobal name words init constant).2

/-- A module with one string more, under a free name. -/
def Module.StringAdded (m m' : Module) : Prop :=
  ∃ name literal, m.Free name ∧ m' = (m.addNamedString name literal).2

variable {constant : Bool} {lines' : List TokenLine}

/-- Declaring a global changes no function. -/
theorem Module.GlobalAdded.functions (h : m.GlobalAdded constant m') : m'.functions = m.functions := by
  obtain ⟨name, words, init, -, rfl⟩ := h
  rfl

/-- Declaring a string changes no function. -/
theorem Module.StringAdded.functions (h : m.StringAdded m') : m'.functions = m.functions := by
  obtain ⟨name, literal, -, rfl⟩ := h
  rfl

namespace LineReader

variable {α β : Type}

variable {reader : LineReader β} {next : β → LineReader α}

variable {c : Char} {a : α}

/-- Two readers succeed one after the other when both do. -/
theorem bind_eq_ok (h : StateT.run (reader >>= next) tokens = .ok (a, rest)) :
    ∃ b behind, StateT.run reader tokens = .ok (b, behind) ∧ StateT.run (next b) behind = .ok (a, rest) := by
  rw [StateT.run_bind] at h
  cases hfirst : StateT.run reader tokens with
  | error e =>
    rw [hfirst] at h
    cases h
  | ok result =>
    rw [hfirst] at h
    exact ⟨result.1, result.2, rfl, h⟩

/-- A reader that succeeds on a line. -/
theorem exists_run {reader : LineReader α} (h : reader.run line tokens = .ok a) :
    ∃ rest, StateT.run reader tokens = .ok (a, rest) := by
  unfold LineReader.run at h
  split at h
  · rename_i b rest hb
    cases h
    exact ⟨rest, hb⟩
  · cases h

/-- A symbol is taken from the front of the line. -/
theorem symbol_eq_ok (h : StateT.run symbol tokens = .ok (name, rest)) : tokens = .symbol name :: rest := by
  cases tokens with
  | nil => cases h
  | cons t tail =>
    cases t with
    | symbol found =>
      cases h
      rfl
    | _ => cases h

/-- Looking for a separator takes nothing else. -/
theorem subset_of_eat {found : Bool} (h : StateT.run (eat c) tokens = .ok (found, rest)) : rest ⊆ tokens := by
  cases tokens with
  | nil =>
    cases h
    exact List.Subset.refl _
  | cons t tail =>
    change (Except.ok (if t = .punct c then (true, tail) else (false, t :: tail)) : Except TextFault _) = _ at h
    split at h <;> cases h
    · exact List.subset_cons_self _ _
    · exact List.Subset.refl _

/-- So does taking one. -/
theorem subset_of_expect {u : Unit} (h : StateT.run (expect c) tokens = .ok (u, rest)) : rest ⊆ tokens := by
  obtain ⟨found, behind, heat, hrest⟩ := bind_eq_ok h
  split at hrest
  · cases hrest
    exact subset_of_eat heat
  · cases hrest

/-- The parameters that are read stand in the line. -/
theorem mem_of_paramsToClose {params : List String} : ∀ {seen : List String} {tokens : List Token},
    paramsToClose seen tokens = .ok (params, rest) → ∀ name ∈ params, name ∈ seen ∨ .localName name ∈ tokens := by
  intro seen tokens
  induction hn : tokens.length using Nat.strongRecOn generalizing seen tokens with
  | ind n ih =>
    subst hn
    intro h name hname
    unfold paramsToClose at h
    split at h
    · rename_i p tail
      have hone : ∀ {more : List Token}, name ∈ seen ++ [p] ∨ .localName name ∈ more → more ⊆ tail →
          name ∈ seen ∨ .localName name ∈ Token.localName p :: tail := by
        rintro more (hin | hin) hmore
        · rcases List.mem_append.1 hin with hin | hin
          · exact .inl hin
          · exact .inr (List.mem_singleton.1 hin ▸ List.mem_cons_self)
        · exact .inr (List.mem_cons_of_mem _ (hmore hin))
      split at h
      · split at h
        · cases h
        · cases h
          exact @hone [] (.inl hname) (List.nil_subset _)
      · split at h
        · cases h
        · exact hone (ih _ (by simp only [List.length_cons]; omega) rfl h name hname) (List.subset_cons_self _ _)
      · split at h <;> cases h
    · cases h

/-- Whatever a line reader gives has a property. -/
def Gives (Q : α → Prop) (reader : LineReader α) : Prop :=
  ∀ ⦃tokens a rest⦄, StateT.run reader tokens = .ok (a, rest) → Q a

namespace Gives

variable {Q : α → Prop}

theorem pure {a : α} (h : Q a) : Gives Q (pure a : LineReader α) := by
  intro tokens b rest hrun
  cases hrun
  exact h

theorem throw (fault : TextFault) : Gives Q (throw fault : LineReader α) := by
  intro tokens b rest hrun
  cases hrun

/-- What follows a reader whose result is known. -/
theorem bind_of {B : β → Prop} (hreader : Gives B reader) (h : ∀ b, B b → Gives Q (next b)) :
    Gives Q (reader >>= next) := by
  intro tokens a rest hrun
  obtain ⟨b, behind, hfirst, hrest⟩ := bind_eq_ok hrun
  exact h b (hreader hfirst) hrest

theorem bind (h : ∀ b, Gives Q (next b)) :
    Gives Q (reader >>= next) := bind_of (B := fun _ => True) (fun _ _ _ _ => trivial) fun b _ => h b

/-- What a line gives. -/
theorem of_run {reader : LineReader α} (h : Gives Q reader) (hrun : reader.run line tokens = .ok a) : Q a := by
  obtain ⟨rest, hrest⟩ := exists_run hrun
  exact h hrest

end Gives

/-- What follows a check that passes. -/
theorem gives_guard {Q : α → Prop} {c : Prop} [Decidable c] {fault : TextFault} {next : PUnit → LineReader α}
    (h : Gives Q (next ⟨⟩)) : Gives Q (if c then throw fault >>= next else next ⟨⟩) := by
  split
  · exact .bind_of (.throw (Q := fun _ => False) fault) fun _ => False.elim
  · exact h

/-- An operation that was read has an argument for each mark of its format. -/
theorem fits_operation (opcode : String) : Gives SourceOp.Fits (operation opcode) := by
  unfold operation
  dsimp only
  split
  case h_6 =>
    refine .bind fun format => .bind fun args => ?_
    split
    · exact .throw _
    · rename_i hmarks
      have heq : countMarks format.toList = args.length := Decidable.of_not_not hmarks
      exact .pure heq
  all_goals
    repeat first
      | exact .pure trivial
      | exact .throw _
      | refine .bind fun _ => ?_
      | split

/-- The operation of a statement that was read. -/
theorem fits_statement (line : Nat) : Gives (fun s => s.op.Fits) (statement line) := by
  refine .bind fun result => .bind fun opcode => .bind_of (fits_operation opcode) fun op hop => .bind fun _ => ?_
  dsimp only
  repeat first
    | exact .pure hop
    | exact .throw _
    | refine .bind fun _ => ?_
    | split

/-- The name of the result of a statement that was read stands in the line. -/
theorem localName_mem_of_statement {s : Statement} (h : StateT.run (statement line) tokens = .ok (s, rest))
    (hname : s.result = some name) : .localName name ∈ tokens := by
  obtain ⟨result, behind, hresult, hrest⟩ := bind_eq_ok h
  have hsame : s.result = result := by
    refine (?_ : Gives (fun s => s.result = result) _) hrest
    refine .bind fun opcode => .bind fun op => .bind fun _ => ?_
    dsimp only
    repeat first
      | exact .pure rfl
      | exact .throw _
      | refine .bind fun _ => ?_
      | split
  rw [hsame] at hname
  subst hname
  unfold resultName at hresult
  change (Except.ok _ : Except TextFault _) = _ at hresult
  dsimp only at hresult
  split at hresult
  · cases hresult
    exact List.mem_cons_self
  · cases hresult

end LineReader

namespace Source

open LineReader

theorem gives_symbolFree (m : Module) (name : String) : Gives (fun _ => m.Free name) (symbolFree m name) := by
  unfold symbolFree
  split
  · exact .throw _
  · rename_i hfree
    refine .pure ?_
    simpa [Module.Free] using hfree

/-- A declaration of a global adds it under a free name that stands in the line. -/
theorem exists_globalDecl (h : StateT.run (globalDecl m constant) tokens = .ok (m', rest)) :
    ∃ name words init, .symbol name ∈ tokens ∧
      m.Free name ∧ m' = (m.addGlobal name words init constant).2 := by
  obtain ⟨name, behind, hname, hrest⟩ := bind_eq_ok h
  have hadded : ∃ words init, m.Free name ∧ m' = (m.addGlobal name words init constant).2 := by
    let Added := fun m' => ∃ words init, m.Free name ∧ m' = (m.addGlobal name words init constant).2
    refine (?_ : Gives Added _) hrest
    refine .bind_of (gives_symbolFree m name) fun _ hfree => .bind fun isArray => ?_
    -- The ways through the size of an array meet, and so do those through the words.
    extract_lets fill
    have hfill : ∀ words, Gives Added (fill words) := by
      refine fun words => .bind fun hasInit => ?_
      extract_lets add
      have hadd : ∀ init, Gives Added (add init) := fun init =>
        .bind fun _ => gives_guard (gives_guard (.pure ⟨words, init, hfree, rfl⟩))
      split
      · exact .bind fun _ => .bind fun _ => .bind hadd
      · exact .bind hadd
    split
    · exact .bind fun n => gives_guard (.bind fun _ => .bind hfill)
    · exact .bind hfill
  obtain ⟨words, init, hadded⟩ := hadded
  exact ⟨name, words, init, symbol_eq_ok hname ▸ List.mem_cons_self, hadded⟩

/-- A declaration of a string adds it under a free name that stands in the line. -/
theorem exists_stringDecl (h : StateT.run (stringDecl m) tokens = .ok (m', rest)) :
    ∃ name literal, .symbol name ∈ tokens ∧
      m.Free name ∧ m' = (m.addNamedString name literal).2 := by
  obtain ⟨name, behind, hname, hrest⟩ := bind_eq_ok h
  have hadded : ∃ literal, m.Free name ∧ m' = (m.addNamedString name literal).2 := by
    refine (?_ : Gives (fun m' => ∃ literal, m.Free name ∧ m' = (m.addNamedString name literal).2) _) hrest
    exact .bind_of (gives_symbolFree m name) fun _ hfree => .bind fun _ => .bind fun literal => .bind fun _ =>
      .pure ⟨literal, hfree, rfl⟩
  obtain ⟨literal, hadded⟩ := hadded
  exact ⟨name, literal, symbol_eq_ok hname ▸ List.mem_cons_self, hadded⟩

theorem gives_globalDecl (m : Module) (constant : Bool) : Gives (m.GlobalAdded constant) (globalDecl m constant) := by
  intro tokens m' rest h
  obtain ⟨name, words, init, -, hadded⟩ := exists_globalDecl h
  exact ⟨name, words, init, hadded⟩

theorem gives_stringDecl (m : Module) : Gives m.StringAdded (stringDecl m) := by
  intro tokens m' rest h
  obtain ⟨name, literal, -, hadded⟩ := exists_stringDecl h
  exact ⟨name, literal, hadded⟩

/-- A function is declared under a new name. Its name and its parameters stand in the line. -/
theorem exists_signature {s : Signature} (h : StateT.run (signature m) tokens = .ok (s, rest)) :
    .symbol s.name ∈ tokens ∧
      (∀ name ∈ s.params, .localName name ∈ tokens) ∧ m.functionByName? s.name = none := by
  obtain ⟨name, behind, hname, h₁⟩ := bind_eq_ok h
  obtain rfl := symbol_eq_ok hname
  split at h₁
  · obtain ⟨_, _, hfault, -⟩ := bind_eq_ok h₁
    cases hfault
  rename_i hfree
  have hnew : m.functionByName? name = none := by
    cases hfound : m.functionByName? name with
    | none => rfl
    | some id => exact absurd (by simp [hfound]) hfree
  obtain ⟨_, behind₁, hexpect, h₂⟩ := bind_eq_ok h₁
  obtain ⟨closed, behind₂, heat, h₃⟩ := bind_eq_ok h₂
  have hbehind : behind₂ ⊆ behind := List.Subset.trans (subset_of_eat heat) (subset_of_expect hexpect)
  -- Whatever the type is, the name and the parameters are those that were read.
  extract_lets typed at h₃
  have htyped : ∀ params, Gives (fun s => s.name = name ∧ s.params = params) (typed params) := by
    refine fun params => .bind fun arrow => ?_
    extract_lets opened named
    have hopened : ∀ returnsValue, Gives (fun s => s.name = name ∧ s.params = params) (opened returnsValue) :=
      fun _ => .bind fun _ => .bind fun _ => .pure ⟨rfl, rfl⟩
    have hnamed : Gives (fun s => s.name = name ∧ s.params = params) (named ()) := by
      refine .bind fun type => ?_
      split <;> exact .bind hopened
    split
    · exact hnamed
    · exact .bind fun _ => hnamed
  have hparams : ∃ params, s.name = name ∧ s.params = params ∧ ∀ param ∈ params, .localName param ∈ behind := by
    split at h₃
    · obtain ⟨params, behind₃, hnone, h₄⟩ := bind_eq_ok h₃
      cases hnone
      exact ⟨_, (htyped _ h₄).1, (htyped _ h₄).2, fun _ hparam => absurd hparam List.not_mem_nil⟩
    · obtain ⟨params, behind₃, hread, h₄⟩ := bind_eq_ok h₃
      refine ⟨_, (htyped _ h₄).1, (htyped _ h₄).2, fun param hparam => hbehind ?_⟩
      exact (mem_of_paramsToClose hread param hparam).resolve_left List.not_mem_nil
  obtain ⟨params, rfl, rfl, hparams⟩ := hparams
  exact ⟨List.mem_cons_self, fun param hparam => List.mem_cons_of_mem _ (hparams param hparam), hnew⟩

theorem gives_signature (m : Module) : Gives (fun s => m.functionByName? s.name = none) (signature m) :=
  fun _ _ _ h => (exists_signature h).2.2

/-- The tokens of lines. -/
def written (lines : List TokenLine) : List Token := lines.flatMap (·.tokens)

variable {closed : Bool} {blocks' : List BlockSource} {l : TokenLine}

theorem mem_written (hl : l ∈ lines) {t : Token} (ht : t ∈ l.tokens) :
    t ∈ written lines := List.mem_flatMap.2 ⟨l, hl, ht⟩

theorem written_subset (h : lines ⊆ lines') : written lines ⊆ written lines' := by
  intro t ht
  obtain ⟨l, hl, ht⟩ := List.mem_flatMap.1 ht
  exact mem_written (h hl) ht

/-- What every declaration of some lines keeps holds of the module with all declarations. -/
theorem declarations_keep_written
    (hglobal : ∀ {m m' constant line tokens}, tokens ⊆ written lines → (globalDecl m constant).run line tokens = .ok m' →
      P m → P m')
    (hstring : ∀ {m m' line tokens}, tokens ⊆ written lines → (stringDecl m).run line tokens = .ok m' → P m → P m')
    (hfunction : ∀ {m s line tokens}, tokens ⊆ written lines → (signature m).run line tokens = .ok s → P m →
      P (m.addFunction (Function.new s.name s.params.length s.returnsValue)).2) (hm : P m)
    (h : declarations m lines = .ok (m', sources)) : P m' := by
  suffices hkeep : ∀ n, ∀ left : List TokenLine, left.length = n → left ⊆ lines → ∀ {m m' sources}, P m →
      declarations m left = .ok (m', sources) → P m' from hkeep _ lines rfl (List.Subset.refl lines) hm h
  clear hm h
  intro n
  induction n using Nat.strongRecOn with
  | ind n ih =>
    intro left hn hleft m m' sources hm h
    subst hn
    cases left with
    | nil =>
      rw [declarations] at h
      cases h
      exact hm
    | cons l rest =>
      have hrest : rest ⊆ lines := fun k hk => hleft (List.mem_cons_of_mem _ hk)
      have htokens : l.tokens.tail ⊆ written lines := fun t ht =>
        mem_written (hleft List.mem_cons_self) (List.mem_of_mem_tail ht)
      rw [declarations] at h
      obtain ⟨keyword, -, h₁⟩ := Outcome.bind_eq_ok.1 h
      dsimp only at h₁
      split at h₁
      · obtain ⟨m₁, hdecl, h₂⟩ := Outcome.bind_eq_ok.1 h₁
        exact ih _ (Nat.lt_succ_self _) rest rfl hrest (hglobal htokens hdecl hm) h₂
      · obtain ⟨m₁, hdecl, h₂⟩ := Outcome.bind_eq_ok.1 h₁
        exact ih _ (Nat.lt_succ_self _) rest rfl hrest (hglobal htokens hdecl hm) h₂
      · obtain ⟨m₁, hdecl, h₂⟩ := Outcome.bind_eq_ok.1 h₁
        exact ih _ (Nat.lt_succ_self _) rest rfl hrest (hstring htokens hdecl hm) h₂
      · obtain ⟨s, hs, h₂⟩ := Outcome.bind_eq_ok.1 h₁
        obtain ⟨blocks, -, h₃⟩ := Outcome.bind_eq_ok.1 h₂
        obtain ⟨⟨m₁, more⟩, hmore, h₄⟩ := Outcome.bind_eq_ok.1 h₃
        cases h₄
        refine ih _ ?_ _ rfl (fun k hk => hrest (List.mem_of_mem_drop hk)) (hfunction htokens hs hm) hmore
        simp only [List.length_drop, List.length_cons]
        omega
      · cases h₁

/-- What every declaration keeps holds of the module with all declarations. -/
theorem declarations_keep
    (hglobal : ∀ {m m' constant line tokens}, (globalDecl m constant).run line tokens = .ok m' → P m → P m')
    (hstring : ∀ {m m' line tokens}, (stringDecl m).run line tokens = .ok m' → P m → P m')
    (hfunction : ∀ {m s line tokens}, (signature m).run line tokens = .ok s → P m →
      P (m.addFunction (Function.new s.name s.params.length s.returnsValue)).2) (hm : P m)
    (h : declarations m lines = .ok (m', sources)) : P m' :=
  declarations_keep_written (fun _ => hglobal) (fun _ => hstring) (fun _ => hfunction) hm h

theorem sound_declarations (hm : m.Sound) (h : declarations m lines = .ok (m', sources)) : m'.Sound := by
  have hsame : ∀ {n n' : Module}, n'.functions = n.functions → n.Sound → n'.Sound := by
    intro n n' heq hn id hid
    unfold Module.function
    rw [heq] at hid ⊢
    exact hn id hid
  exact declarations_keep (fun hdecl => hsame ((gives_globalDecl _ _).of_run hdecl).functions)
    (fun hdecl => hsame ((gives_stringDecl _).of_run hdecl).functions)
    (fun _ hn => Module.sound_addFunction hn (Function.sound_new _ _ _)) hm h

/-- The declared functions have their parameters. -/
theorem headed_declarations (hm : m.Headed) (h : declarations m lines = .ok (m', sources)) : m'.Headed := by
  have hsame : ∀ {n n' : Module}, n'.functions = n.functions → n.Headed → n'.Headed := by
    intro n n' heq hn id
    unfold Module.function
    rw [heq]
    exact hn id
  refine declarations_keep (fun hdecl => hsame ((gives_globalDecl _ _).of_run hdecl).functions)
    (fun hdecl => hsame ((gives_stringDecl _).of_run hdecl).functions) (fun _ hn id => ?_) hm h
  unfold Module.function Module.addFunction
  rw [Array.getD_eq_getD_getElem?, Array.getElem?_push]
  split
  · exact Function.headed_new _ _ _
  · have hold := hn id
    unfold Module.function at hold
    rwa [Array.getD_eq_getD_getElem?] at hold

/-- The declared functions refer to no global and to no string. -/
theorem linked_declarations (hm : m.Linked) (h : declarations m lines = .ok (m', sources)) : m'.Linked := by
  -- Declaring a global or a string changes no function and takes none of them away.
  have hmore : ∀ {n n' : Module}, n.Linked → n'.functions = n.functions → n.globals.size ≤ n'.globals.size →
      n.strings.size ≤ n'.strings.size → n'.Linked := by
    intro n n' hn heq hglobals hstrings id
    have hid := (hn id).mono hglobals hstrings
    unfold Module.function at hid ⊢
    rwa [heq]
  refine declarations_keep (fun hdecl hn => ?_) (fun hdecl hn => ?_) (fun _ hn id => ?_) hm h
  · obtain ⟨name, words, init, -, rfl⟩ := (gives_globalDecl _ _).of_run hdecl
    exact hmore hn rfl (by simp [Module.addGlobal]) (Nat.le_refl _)
  · obtain ⟨name, literal, -, rfl⟩ := (gives_stringDecl _).of_run hdecl
    exact hmore hn rfl (Nat.le_refl _) (by simp [Module.addNamedString])
  · unfold Module.function Module.addFunction
    rw [Array.getD_eq_getD_getElem?, Array.getElem?_push]
    split
    · exact Function.linked_new _ _ _ _ _
    · have hold := hn id
      unfold Module.function at hold
      rwa [Array.getD_eq_getD_getElem?] at hold

variable {blocks : List BlockSource}

/-- What a line of a body does: it opens a block, or it puts a statement into the last block, if that has no terminator
yet. -/
theorem bodyLine_eq_ok (h : bodyLine blocks l = .ok blocks') :
    (∃ label, .ident label ∈ l.tokens ∧ blocks' = blocks ++ [{ name := label, line := l.number, statements := [] }]) ∨
      ∃ s before block, (statement l.number).run l.number l.tokens = .ok s ∧ blocks = before ++ [block] ∧
        block.isTerminated = false ∧ blocks' = before ++ [{ block with statements := block.statements ++ [s] }] := by
  unfold bodyLine at h
  split at h
  · rename_i label htokens
    cases h
    exact .inl ⟨label, htokens ▸ List.mem_cons_self, rfl⟩
  · obtain ⟨s, hs, h₁⟩ := Outcome.bind_eq_ok.1 h
    split at h₁
    · cases h₁
    · rename_i block hlast
      obtain ⟨before, rfl⟩ := List.getLast?_eq_some_iff.1 hlast
      obtain ⟨hopen, h₂⟩ := Outcome.guard_eq_ok.1 h₁
      obtain ⟨-, h₃⟩ := Outcome.guard_eq_ok.1 h₂
      cases h₃
      rw [List.dropLast_concat]
      exact .inr ⟨s, before, block, hs, rfl, by simpa using hopen, rfl⟩

/-- What lines of a body keep holds of all blocks. -/
theorem foldlM_bodyLine {Q : BlockSource → Prop}
    (hlabel : ∀ l ∈ lines, ∀ label, .ident label ∈ l.tokens → Q { name := label, line := l.number, statements := [] })
    (hstatement : ∀ l ∈ lines, ∀ s b, (statement l.number).run l.number l.tokens = .ok s → b.isTerminated = false →
      Q b → Q { b with statements := b.statements ++ [s] }) (hblocks : ∀ b ∈ blocks, Q b)
    (h : lines.foldlM bodyLine blocks = .ok blocks') : ∀ b ∈ blocks', Q b := by
  induction lines generalizing blocks with
  | nil =>
    cases h
    exact hblocks
  | cons l rest ih =>
    rw [List.foldlM_cons] at h
    obtain ⟨next, hnext, hrest⟩ := Outcome.bind_eq_ok.1 h
    refine ih (fun k hk => hlabel k (List.mem_cons_of_mem _ hk)) (fun k hk => hstatement k (List.mem_cons_of_mem _ hk))
      (fun b hb => ?_) hrest
    rcases bodyLine_eq_ok hnext with ⟨label, hlabels, rfl⟩ | ⟨s, before, block, hs, rfl, hopen, rfl⟩
    · rcases List.mem_append.1 hb with hb | hb
      · exact hblocks b hb
      · cases List.mem_singleton.1 hb
        exact hlabel l List.mem_cons_self label hlabels
    · rcases List.mem_append.1 hb with hb | hb
      · exact hblocks b (List.mem_append_left _ hb)
      · cases List.mem_singleton.1 hb
        exact hstatement l List.mem_cons_self s block hs hopen
          (hblocks block (List.mem_append_right _ List.mem_cons_self))

/-- What a body is: the blocks of its lines, at least one, which all end in terminators. -/
theorem body_eq_ok (h : body line name lines closed = .ok blocks) :
    lines.foldlM bodyLine [] = .ok blocks ∧ blocks ≠ [] ∧ ∀ b ∈ blocks, b.isTerminated = true := by
  unfold body at h
  obtain ⟨found, hfound, h₁⟩ := Outcome.bind_eq_ok.1 h
  obtain ⟨-, h₂⟩ := Outcome.guard_eq_ok.1 h₁
  obtain ⟨hsome, h₃⟩ := Outcome.guard_eq_ok.1 h₂
  split at h₃
  · cases h₃
  · rename_i hnone
    cases h₃
    exact ⟨hfound, fun hnil => hsome (List.isEmpty_iff.2 hnil), fun b hb => by simpa using List.find?_eq_none.1 hnone b hb⟩

/-- The blocks of a body are made of statements that were read. -/
theorem fits_body (h : body line name lines closed = .ok blocks) : ∀ b ∈ blocks, b.Fits := by
  refine foldlM_bodyLine (fun _ _ _ _ s hs => absurd hs List.not_mem_nil) (fun l _ s b hs _ hb t ht => ?_)
    (fun b hb => absurd hb List.not_mem_nil) (body_eq_ok h).1
  rcases List.mem_append.1 ht with ht | ht
  · exact hb t ht
  · cases List.mem_singleton.1 ht
    exact (fits_statement _).of_run hs

end Source

namespace FunctionSource

/-- The function of a body as it is declared. -/
structure Declared (m : Module) (source : FunctionSource) : Prop where
  id_lt : source.id < m.functions.size
  blank : ∃ name returns, m.function source.id = Function.new name source.params.length returns

/-- A body that was collected from lines. -/
structure Collected (lines : List TokenLine) (source : FunctionSource) : Prop where
  heading : ∃ l ∈ lines, l.number = source.line
  params : ∀ name ∈ source.params, .localName name ∈ Source.written lines
  body : ∃ name inner closed, inner ⊆ lines ∧ Source.body source.line name inner closed = .ok source.blocks

theorem Collected.mono {source : FunctionSource} (h : source.Collected lines) (hlines : lines ⊆ lines') :
    source.Collected lines' := by
  obtain ⟨l, hl, hnumber⟩ := h.heading
  obtain ⟨name, inner, closed, hinner, hbody⟩ := h.body
  exact ⟨⟨l, hlines hl, hnumber⟩, fun name hname => Source.written_subset hlines (h.params name hname), name, inner,
    closed, List.Subset.trans hinner hlines, hbody⟩

end FunctionSource

namespace Source

/-- The declarations give one function for every body, in order, and leave the functions that there are alone. -/
theorem declared (h : declarations m lines = .ok (m', sources)) :
    sources.map (·.id) = List.range' m.functions.size sources.length ∧
      m'.functions.size = m.functions.size + sources.length ∧
      (∀ id, id < m.functions.size → m'.function id = m.function id) ∧
      ∀ source ∈ sources, source.Declared m' ∧ source.Collected lines := by
  induction hn : lines.length using Nat.strongRecOn generalizing lines m m' sources with
  | ind n ih =>
    subst hn
    cases lines with
    | nil =>
      rw [declarations] at h
      cases h
      exact ⟨rfl, rfl, fun _ _ => rfl, fun source hsource => absurd hsource List.not_mem_nil⟩
    | cons l rest =>
      have hrest : rest.length < (l :: rest).length := Nat.lt_succ_self _
      -- a global or a string changes no function
      have hsame : ∀ {n : Module}, n.functions = m.functions → declarations n rest = .ok (m', sources) →
          sources.map (·.id) = List.range' m.functions.size sources.length ∧
            m'.functions.size = m.functions.size + sources.length ∧
            (∀ id, id < m.functions.size → m'.function id = m.function id) ∧
            ∀ source ∈ sources, source.Declared m' ∧ source.Collected (l :: rest) := by
        intro n hfunctions hdecl
        obtain ⟨hids, hsize, hold, hall⟩ := ih _ hrest hdecl rfl
        unfold Module.function at hold ⊢
        rw [hfunctions] at hids hsize hold
        exact ⟨hids, hsize, hold, fun source hsource =>
          ⟨(hall source hsource).1, (hall source hsource).2.mono (List.subset_cons_self l rest)⟩⟩
      rw [declarations] at h
      obtain ⟨keyword, -, h₁⟩ := Outcome.bind_eq_ok.1 h
      dsimp only at h₁
      split at h₁
      · obtain ⟨m₁, hdecl, h₂⟩ := Outcome.bind_eq_ok.1 h₁
        exact hsame ((gives_globalDecl m false).of_run hdecl).functions h₂
      · obtain ⟨m₁, hdecl, h₂⟩ := Outcome.bind_eq_ok.1 h₁
        exact hsame ((gives_globalDecl m true).of_run hdecl).functions h₂
      · obtain ⟨m₁, hdecl, h₂⟩ := Outcome.bind_eq_ok.1 h₁
        exact hsame ((gives_stringDecl m).of_run hdecl).functions h₂
      · obtain ⟨s, hs, h₂⟩ := Outcome.bind_eq_ok.1 h₁
        obtain ⟨blocks, hbody, h₃⟩ := Outcome.bind_eq_ok.1 h₂
        obtain ⟨⟨m₁, more⟩, hmore, h₄⟩ := Outcome.bind_eq_ok.1 h₃
        cases h₄
        obtain ⟨hids, hsize, hold, hall⟩ := ih _ (by simp only [List.length_drop, List.length_cons]; omega) hmore rfl
        have hadded : (m.addFunction (Function.new s.name s.params.length s.returnsValue)).2.functions.size =
            m.functions.size + 1 := Array.size_push ..
        rw [hadded] at hids hsize hold
        refine ⟨?_, ?_, fun id hid => ?_, fun source hsource => ?_⟩
        · rw [List.map_cons, hids, List.length_cons, List.range'_succ]
          rfl
        · rw [hsize]
          exact Nat.add_right_comm m.functions.size 1 more.length
        · rw [hold id (by omega)]
          unfold Module.function Module.addFunction
          rw [Array.getD_eq_getD_getElem?, Array.getElem?_push, if_neg (Nat.ne_of_lt hid), Array.getD_eq_getD_getElem?]
        · rcases List.mem_cons.1 hsource with rfl | hsource
          · refine ⟨⟨?_, s.name, s.returnsValue, ?_⟩, ⟨l, List.mem_cons_self, rfl⟩, fun name hname => ?_, s.name, _, _, ?_,
              hbody⟩
            · change m.functions.size < m₁.functions.size
              omega
            · change m₁.function m.functions.size = _
              rw [hold _ (Nat.lt_succ_self _)]
              unfold Module.function Module.addFunction
              rw [Array.getD_eq_getD_getElem?, Array.getElem?_push, if_pos rfl]
              rfl
            · obtain ⟨behind, hrun⟩ := LineReader.exists_run hs
              exact mem_written List.mem_cons_self (List.mem_of_mem_tail ((exists_signature hrun).2.1 name hname))
            · exact fun k hk => List.mem_cons_of_mem _ ((List.takeWhile_sublist _).subset hk)
          · exact ⟨(hall source hsource).1, (hall source hsource).2.mono fun k hk =>
              List.mem_cons_of_mem _ (List.mem_of_mem_drop hk)⟩
      · cases h₁

/-- The bodies of the declarations are made of statements that were read. -/
theorem fits_declarations (h : declarations m lines = .ok (m', sources)) :
    ∀ source ∈ sources, ∀ b ∈ source.blocks, b.Fits := by
  intro source hsource
  obtain ⟨-, -, -, hall⟩ := declared h
  obtain ⟨name, inner, closed, -, hbody⟩ := (hall source hsource).2.body
  exact fits_body hbody

end Source

/-- What building one function keeps, building all bodies keeps. -/
theorem Reader.forM_buildFunction (hkeep : ∀ id m m', Module.Built Function.BuildStep id m m' → P m → P m')
    (hfits : ∀ source ∈ sources, ∀ b ∈ source.blocks, b.Fits) {r r' : Reading} (hr : P r.module)
    (hrun : (sources.forM Reader.buildFunction).run r = .ok (⟨⟩, r')) : P r'.module := by
  induction sources generalizing r with
  | nil =>
    cases hrun
    exact hr
  | cons source rest ih =>
    obtain ⟨⟨⟩, r₁, hfirst, hrest⟩ := Reader.bind_eq_ok hrun
    have hbuilt := Reader.builds_buildFunction (hfits source List.mem_cons_self) hfirst
    exact ih (fun other hother => hfits other (List.mem_cons_of_mem _ hother)) (hkeep _ _ _ hbuilt hr) hrest

section

variable (h : Module.parse text = .ok m)

include h

/-- A module that was read is what building the bodies makes of the declarations. -/
theorem Module.built_of_parse :
    ∃ lines m₀ sources, Source.tokenLines text = .ok lines ∧ Source.declarations {} lines = .ok (m₀, sources) ∧
      ∀ P : Module → Prop, (∀ id m m', Module.Built Function.BuildStep id m m' → P m → P m') → P m₀ → P m := by
  unfold Module.parse at h
  obtain ⟨lines, hlines, h₁⟩ := Outcome.bind_eq_ok.1 h
  obtain ⟨⟨m₀, sources⟩, hdecl, h₂⟩ := Outcome.bind_eq_ok.1 h₁
  obtain ⟨⟨_, reading⟩, hbuild, h₃⟩ := Outcome.bind_eq_ok.1 h₂
  cases h₃
  refine ⟨lines, m₀, sources, hlines, hdecl, fun P hkeep hm₀ => ?_⟩
  exact Reader.forM_buildFunction (r := ⟨m₀, []⟩) hkeep (Source.fits_declarations hdecl) hm₀ hbuild

/-- The functions of a module that was read are sound. -/
theorem Module.sound_parse : m.Sound := by
  obtain ⟨lines, m₀, sources, -, hdecl, hkeep⟩ := built_of_parse h
  have hempty : Module.Sound {} := fun id hid => absurd hid (Nat.not_lt_zero id)
  exact hkeep Module.Sound (fun _ _ _ hbuilt hm => hbuilt.sound hm) (Source.sound_declarations hempty hdecl)

/-- The functions of a module that was read refer to globals and strings of the module. -/
theorem Module.linked_parse : m.Linked := by
  obtain ⟨lines, m₀, sources, -, hdecl, hkeep⟩ := built_of_parse h
  have hempty : Module.Linked {} := fun id => ⟨fun _ hv => absurd hv List.not_mem_nil, fun _ => trivial, fun _ => trivial⟩
  exact hkeep Module.Linked (fun _ _ _ hbuilt hm => hbuilt.linked hm) (Source.linked_declarations hempty hdecl)

/-- The functions of a module that was read have their parameters. -/
theorem Module.headed_parse : m.Headed := by
  obtain ⟨lines, m₀, sources, -, hdecl, hkeep⟩ := built_of_parse h
  have hempty : Module.Headed {} := fun _ => Function.headed_default
  exact hkeep Module.Headed (fun _ _ _ hbuilt hm => hbuilt.headed hm) (Source.headed_declarations hempty hdecl)

end

/-! ## Passes -/

/-- A pass over a function. -/
inductive Pass
  | foldBranches
  | elideEmptyBlocks
  | pruneUnreachable
  | removeSinglePredPhis
  | simplify
  | promote
  deriving DecidableEq, Repr

namespace Pass

/-- What a pass does. -/
def edit : Pass → Edit Unit
  | foldBranches => discard Edit.foldBranches
  | elideEmptyBlocks => discard Edit.elideEmptyBlocks
  | pruneUnreachable => discard Edit.pruneUnreachable
  | removeSinglePredPhis => discard Edit.removeSinglePredPhis
  | simplify => discard Edit.simplify
  | promote => discard Edit.promote

/-- A pass keeps what its edits keep. -/
theorem preserves {P : Function → Prop} (h : Edit.Stable P) (pass : Pass) : Edits.Preserves P pass.edit := by
  cases pass with
  | foldBranches => exact .bind h.foldBranches fun _ => .pure _
  | elideEmptyBlocks => exact .bind h.elideEmptyBlocks fun _ => .pure _
  | pruneUnreachable => exact .bind h.pruneUnreachable fun _ => .pure _
  | removeSinglePredPhis => exact .bind h.removeSinglePredPhis fun _ => .pure _
  | simplify => exact .bind h.simplify fun _ => .pure _
  | promote => exact .bind h.promote fun _ => .pure _

end Pass

/-- A text with the module that is read from it. -/
structure ReadText where
  text : String
  module : Module
  parse : Module.parse text = .ok module

namespace Function

/-- A function that was read from a text, perhaps with passes made over it. -/
inductive Produced : Function → Prop
  | read {text : String} {m : Module} {f : Function} (hread : Module.parse text = .ok m)
    (hmem : f ∈ m.functions) : Produced f
  | pass {f f' : Function} (pass : Pass) (hf : Produced f) (hrun : pass.edit.run f = (.ok (), f')) :
    Produced f'

theorem Produced.sound (h : f.Produced) : f.Sound := by
  induction h with
  | read hread hmem =>
    obtain ⟨id, hid, rfl⟩ := Array.mem_iff_getElem.1 hmem
    have hs := Module.sound_parse hread id hid
    unfold Module.function at hs
    rwa [Array.getD_eq_getD_getElem?, Array.getElem?_eq_getElem hid] at hs
  | pass pass _ hrun ih => exact pass.preserves Edit.stable_sound ih hrun

/-- Functions that come from text have their parameters. -/
theorem Produced.headed (h : f.Produced) : f.Headed := by
  induction h with
  | read hread hmem =>
    obtain ⟨id, hid, rfl⟩ := Array.mem_iff_getElem.1 hmem
    have hs := Module.headed_parse hread id
    unfold Module.function at hs
    rwa [Array.getD_eq_getD_getElem?, Array.getElem?_eq_getElem hid] at hs
  | pass pass _ hrun ih =>
    have hstable := fun f => Edit.stable_outline (V := fun kind => ∀ k, kind ≠ .param k) (K := fun _ => True) (by simp)
      (by simp) trivial (fun _ _ => trivial) f
    exact ih.of_outlines (pass.preserves (hstable _) (.refl _) hrun) fun k hk => hk k rfl

end Function

theorem ReadText.produced {f : Function} (t : ReadText) (hmem : f ∈ t.module.functions) : f.Produced := .read t.parse hmem

end SsaCompiler
