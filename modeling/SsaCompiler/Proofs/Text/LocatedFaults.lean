import SsaCompiler.Proofs.Text.BodyFaults
import SsaCompiler.Proofs.Text.ByteTokens

/-!
# Located faults

Reading a text succeeds, or it ends with a fault at one of its lines; it never crashes. The faults of the first step are
at the lines that are read. A body that was collected has its statements from such lines, and it is of the form that
building expects: so building it fails only for what is wrong with it (`Reader.meets_buildFunction`), and every such
fault is at a line of the body.
-/

set_option autoImplicit false

namespace SsaCompiler

open Edits Stateful

/-- A fault at one of the lines of a text. -/
def Failure.LocatedIn (text : String) (e : Failure) : Prop :=
  ∃ line fault, e = .error (.parse line fault) ∧ 1 ≤ line ∧ line ≤ (Text.lines text).length

variable {line : Nat}

variable {fault : TextFault}

namespace Source

open LineReader

variable {allowed : Failure → Prop}

/-! ## Faults of the first step -/

variable {α : Type}

theorem failsOnly_faultAt (h : allowed (.error (.parse line fault))) :
    (faultAt line fault : Outcome α).FailsOnly allowed :=
  Outcome.FailsOnly.error h

/-- What is read off a line fails at that line. -/
theorem failsOnly_run (reader : LineReader α) {tokens : List Token}
    (h : ∀ fault, allowed (.error (.parse line fault))) : (reader.run line tokens).FailsOnly allowed := by
  unfold LineReader.run
  split
  · exact .ok _
  · exact failsOnly_faultAt (h _)

theorem failsOnly_bodyLine {l : TokenLine} (h : ∀ fault, allowed (.error (.parse l.number fault)))
    (blocks : List BlockSource) : (bodyLine blocks l).FailsOnly allowed := by
  unfold bodyLine
  split
  · exact .ok _
  · refine (failsOnly_run _ h).bind fun s _ => ?_
    split
    · exact failsOnly_faultAt (h _)
    · exact .guard (fun _ => failsOnly_faultAt (h _)) (.guard (fun _ => failsOnly_faultAt (h _)) (.ok _))

variable {lines : List TokenLine}

/-- A body fails at the heading of its function or at one of its lines. -/
theorem failsOnly_body (hline : ∀ fault, allowed (.error (.parse line fault)))
    (h : ∀ l ∈ lines, ∀ fault, allowed (.error (.parse l.number fault))) (name : String) (closed : Bool) :
    (body line name lines closed).FailsOnly allowed := by
  have hfold : ∀ (rest : List TokenLine) (start : List BlockSource), rest ⊆ lines →
      (rest.foldlM bodyLine start).FailsOnly allowed := by
    intro rest
    induction rest with
    | nil => exact fun _ _ => .ok _
    | cons l rest ih =>
      intro start hrest
      rw [List.foldlM_cons]
      exact (failsOnly_bodyLine (h l (hrest List.mem_cons_self)) start).bind fun next _ =>
        ih next fun k hk => hrest (List.mem_cons_of_mem _ hk)
  unfold body
  refine (hfold lines [] (List.Subset.refl lines)).bind fun blocks hblocks => ?_
  refine .guard (fun _ => failsOnly_faultAt (hline _)) (.guard (fun _ => failsOnly_faultAt (hline _)) ?_)
  split
  · rename_i b hb
    -- a block stands where its label does
    have hlabel : ∀ b ∈ blocks, ∀ fault, allowed (.error (.parse b.line fault)) :=
      foldlM_bodyLine (fun l hl _ _ => h l hl) (fun _ _ _ _ _ _ hb => hb) (fun b hb => absurd hb List.not_mem_nil) hblocks
    exact failsOnly_faultAt (hlabel b (List.mem_of_find?_eq_some hb) _)
  · exact .ok _

theorem failsOnly_declarations (h : ∀ l ∈ lines, ∀ fault, allowed (.error (.parse l.number fault))) (m : Module) :
    (declarations m lines).FailsOnly allowed := by
  induction hn : lines.length using Nat.strongRecOn generalizing lines m with
  | ind n ih =>
    subst hn
    cases lines with
    | nil =>
      rw [declarations]
      exact .ok _
    | cons l rest =>
      have hl := h l List.mem_cons_self
      have hrest : ∀ k ∈ rest, ∀ fault, allowed (.error (.parse k.number fault)) := fun k hk =>
        h k (List.mem_cons_of_mem _ hk)
      rw [declarations]
      refine (failsOnly_run _ hl).bind fun keyword _ => ?_
      split
      · exact (failsOnly_run _ hl).bind fun m₁ _ => ih _ (Nat.lt_succ_self _) hrest m₁ rfl
      · exact (failsOnly_run _ hl).bind fun m₁ _ => ih _ (Nat.lt_succ_self _) hrest m₁ rfl
      · exact (failsOnly_run _ hl).bind fun m₁ _ => ih _ (Nat.lt_succ_self _) hrest m₁ rfl
      · refine (failsOnly_run _ hl).bind fun s _ => ?_
        refine (failsOnly_body hl (fun k hk => hrest k ((List.takeWhile_sublist _).subset hk)) _ _).bind fun blocks _ => ?_
        refine (ih _ ?_ (fun k hk => hrest k (List.mem_of_mem_drop hk)) _ rfl).bind fun _ _ => .ok _
        simp only [List.length_drop, List.length_cons]
        omega
      · exact failsOnly_faultAt (hl _)

/-- The lines with tokens are numbered as the lines of the text. -/
theorem number_of_tokenLines {text : String} (h : tokenLines text = .ok lines) :
    ∀ l ∈ lines, 1 ≤ l.number ∧ l.number ≤ (Text.lines text).length := by
  intro l hl
  unfold tokenLines at h
  obtain ⟨scanned, hscanned, hfilter⟩ := Outcome.bind_eq_ok.1 h
  cases hfilter
  obtain ⟨⟨line, i⟩, hmem, hscan⟩ := Outcome.exists_of_mem_mapM hscanned (List.mem_filter.1 hl).1
  have hi := (List.mem_zipIdx hmem).2.1
  dsimp only at hscan
  split at hscan
  · cases hscan
    simp only
    omega
  · cases hscan

/-- A line that cannot be cut into tokens is a line of the text. -/
theorem failsOnly_tokenLines (text : String) : (tokenLines text).FailsOnly (Failure.LocatedIn text) := by
  unfold tokenLines
  refine (Outcome.FailsOnly.mapM fun (line, i) hmem => ?_).bind fun _ _ => .ok _
  have hi := (List.mem_zipIdx hmem).2.1
  dsimp only
  split
  · exact .ok _
  · exact failsOnly_faultAt ⟨i + 1, _, rfl, by omega, by omega⟩

end Source

/-! ## Bodies that were collected -/

/-- A statement that was read stands at its line, and it has a name only if it may have a result. -/
theorem LineReader.formed_statement (line : Nat) : Gives (fun s => s.Formed ∧ s.line = line) (statement line) := by
  refine .bind fun result => .bind fun opcode => .bind_of (fits_operation opcode) fun op hop => .bind fun _ => ?_
  cases result with
  | none => exact gives_guard (.pure ⟨⟨hop, nofun⟩, rfl⟩)
  | some name =>
    dsimp only
    split
    · exact .bind_of (.throw (Q := fun _ => False) _) fun _ => False.elim
    · rename_i hresult
      exact .pure ⟨⟨hop, fun _ => by simpa [or_iff_not_imp_left] using hresult⟩, rfl⟩

/-- What a block has from the lines that it was collected from. -/
structure BlockSource.Collected (lines : List TokenLine) (b : BlockSource) : Prop where
  label : ∃ l ∈ lines, l.number = b.line
  name : .ident b.name ∈ Source.written lines
  statements : ∀ s ∈ b.statements, s.Formed ∧ ∃ l ∈ lines, l.number = s.line
  results : ∀ s ∈ b.statements, ∀ name, s.result = some name → .localName name ∈ Source.written lines
  single : ∀ s ∈ b.statements.dropLast, s.op.isTerminator = false

theorem BlockSource.Collected.append {lines : List TokenLine} {b : BlockSource} (h : b.Collected lines)
    (hopen : b.isTerminated = false) {s : Statement} (hformed : s.Formed) (hline : ∃ l ∈ lines, l.number = s.line)
    (hresult : ∀ name, s.result = some name → .localName name ∈ Source.written lines) :
    ({ b with statements := b.statements ++ [s] } : BlockSource).Collected lines where
  label := h.label
  name := h.name
  statements t ht := by
    rcases List.mem_append.1 ht with ht | ht
    · exact h.statements t ht
    · cases List.mem_singleton.1 ht
      exact ⟨hformed, hline⟩
  results t ht := by
    rcases List.mem_append.1 ht with ht | ht
    · exact h.results t ht
    · cases List.mem_singleton.1 ht
      exact hresult
  single t ht := by
    rw [List.dropLast_concat] at ht
    unfold isTerminated at hopen
    split at hopen
    · rename_i last hlast
      obtain ⟨before, hbefore⟩ := List.getLast?_eq_some_iff.1 hlast
      have hsingle := h.single
      rw [hbefore, List.dropLast_concat] at hsingle
      rw [hbefore] at ht
      rcases List.mem_append.1 ht with ht | ht
      · exact hsingle t ht
      · cases List.mem_singleton.1 ht
        exact hopen
    · rename_i hnone
      rw [List.getLast?_eq_none_iff.1 hnone] at ht
      exact absurd ht List.not_mem_nil

namespace FunctionSource

variable {lines : List TokenLine} {source : FunctionSource}

/-- The blocks of a body were collected from its lines. -/
theorem Collected.blocks (h : source.Collected lines) : ∀ b ∈ source.blocks, b.Collected lines := by
  obtain ⟨name, inner, closed, hinner, hbody⟩ := h.body
  refine Source.foldlM_bodyLine (fun l hl label hlabel => ⟨⟨l, hinner hl, rfl⟩, Source.mem_written (hinner hl) hlabel,
    fun _ hs => absurd hs List.not_mem_nil, fun _ hs => absurd hs List.not_mem_nil, fun _ hs => absurd hs List.not_mem_nil⟩)
    (fun l hl s b hs hopen hb => ?_) (fun b hb => absurd hb List.not_mem_nil) (Source.body_eq_ok hbody).1
  obtain ⟨hformed, hline⟩ := (LineReader.formed_statement _).of_run hs
  obtain ⟨rest, hrun⟩ := LineReader.exists_run hs
  exact hb.append hopen hformed ⟨l, hinner hl, hline.symm⟩ fun name hname =>
    Source.mem_written (hinner hl) (LineReader.localName_mem_of_statement hrun hname)

/-- All names that a body defines stand in its lines. -/
theorem Collected.definitions (h : source.Collected lines) :
    ∀ name ∈ source.definitions, .localName name ∈ Source.written lines := by
  intro name hname
  rcases List.mem_append.1 hname with hname | hname
  · exact h.params name hname
  · obtain ⟨b, hb, hname⟩ := List.mem_flatMap.1 hname
    obtain ⟨s, hs, hresult⟩ := List.mem_filterMap.1 hname
    exact (h.blocks b hb).results s hs name hresult

/-- They have the form that building expects. -/
theorem Collected.formed (h : source.Collected lines) : ∀ b ∈ source.blocks, b.Formed := by
  obtain ⟨name, inner, closed, -, hbody⟩ := h.body
  exact fun b hb => ⟨fun s hs => ((h.blocks b hb).statements s hs).1, (Source.body_eq_ok hbody).2.2 b hb,
    (h.blocks b hb).single⟩

end FunctionSource

/-- An operand that is not known is one of a statement. -/
theorem Reader.exists_of_unknownOperand? {statements : List Statement} : ∀ {known : List String} {line : Nat} {name : String},
    unknownOperand? known statements = some (line, name) → ∃ s ∈ statements, s.line = line := by
  induction statements with
  | nil =>
    intro known line name h
    cases h
  | cons s rest ih =>
    intro known line name h
    have hrest : ∀ {known : List String}, unknownOperand? known rest = some (line, name) →
        ∃ t ∈ s :: rest, t.line = line := fun h =>
      let ⟨t, ht, hline⟩ := ih h
      ⟨t, List.mem_cons_of_mem _ ht, hline⟩
    unfold unknownOperand? at h
    split at h
    · exact hrest h
    · dsimp only at h
      split at h
      · cases h
        exact ⟨s, List.mem_cons_self, rfl⟩
      · exact hrest h

/-- What is wrong with a body is wrong at a line that it was collected from. -/
theorem FunctionSource.Fault.located {lines : List TokenLine} {source : FunctionSource} {m : Module}
    (h : source.Fault m line fault) (hcollected : source.Collected lines) : ∃ l ∈ lines, l.number = line := by
  have hstatement : ∀ {b s}, b ∈ source.blocks → s ∈ b.statements → ∃ l ∈ lines, l.number = s.line := fun hb hs =>
    ((hcollected.blocks _ hb).statements _ hs).2
  cases h with
  | param => exact hcollected.heading
  | block hb => exact (hcollected.blocks _ hb).label
  | value hb hs | op hb hs | phiSource hb hs | notAPredecessor hb hs | phiValue hb hs | missing hb hs =>
    exact hstatement hb hs
  | stuck hparts _ hb hname =>
    obtain ⟨s, hs, rfl⟩ := Reader.exists_of_unknownOperand? hname
    exact hstatement (hparts.mem_iff.1 (List.mem_append_right _ hb)) hs

/-! ## Reading a text -/

/-- Building bodies that were collected fails at their lines. -/
theorem Reader.meets_forM {allowed : Failure → Prop} {lines : List TokenLine}
    (hallowed : ∀ l ∈ lines, ∀ fault, allowed (.error (.parse l.number fault))) {sources : List FunctionSource} {r : Reading}
    (hnodup : (sources.map (·.id)).Nodup)
    (hall : ∀ source ∈ sources, source.Declared r.module ∧ source.Collected lines) :
    Meets allowed (sources.forM buildFunction) r fun _ _ => True := by
  induction sources generalizing r with
  | nil => exact .pure trivial
  | cons source rest ih =>
    obtain ⟨hnot, hnodup⟩ := List.nodup_cons.1 hnodup
    obtain ⟨hdeclared, hcollected⟩ := hall source List.mem_cons_self
    have hfault : ∀ line fault, source.Fault r.module line fault → allowed (.error (.parse line fault)) := by
      intro line fault hfault
      obtain ⟨l, hl, rfl⟩ := hfault.located hcollected
      exact hallowed l hl fault
    refine .bind ((hdeclared.meets_buildFunction hcollected.formed hfault).mono fun _ r₁ ⟨hsize, hothers⟩ => ?_)
    -- the functions of the other bodies are still as they were declared
    refine ih hnodup fun other hother => ?_
    obtain ⟨⟨hlt, hblank⟩, hcollected⟩ := hall other (List.mem_cons_of_mem _ hother)
    have hne : other.id ≠ source.id := fun heq => hnot (List.mem_map.2 ⟨other, hother, heq⟩)
    exact ⟨⟨hsize ▸ hlt, (hothers _ hne).symm ▸ hblank⟩, hcollected⟩

/-- Reading a text fails at a line of the text, if it fails. -/
theorem Module.failsOnly_parse (text : String) : (Module.parse text).FailsOnly (Failure.LocatedIn text) := by
  unfold Module.parse
  refine (Source.failsOnly_tokenLines text).bind fun lines hlines => ?_
  have hallowed : ∀ l ∈ lines, ∀ fault, Failure.LocatedIn text (.error (.parse l.number fault)) := fun l hl fault =>
    ⟨l.number, fault, rfl, Source.number_of_tokenLines hlines l hl⟩
  refine (Source.failsOnly_declarations hallowed {}).bind fun (m, sources) hdecl => ?_
  obtain ⟨hids, -, -, hall⟩ := Source.declared hdecl
  exact (Reader.meets_forM hallowed (r := { module := m }) (hids ▸ List.nodup_range') hall).failsOnly.bind fun _ _ => .ok _

/-- Reading a text gives a module, or a fault at one of its lines; it never crashes. Cutting the lines by their bytes does
not crash either: it finds the tokens, or the fault, that reading goes on with. -/
theorem Module.parse_succeeds_or_locates (text : String) :
    ((∃ m, Module.parse text = .ok m) ∨ ∃ line fault, Module.parse text = .error (.error (.parse line fault)) ∧
      1 ≤ line ∧ line ≤ (Text.lines text).length) ∧
    ByteScan.tokenLines text = Source.tokenLines text := by
  refine ⟨?_, ByteScan.tokenLines_eq text⟩
  cases hparse : Module.parse text with
  | ok m => exact .inl ⟨m, rfl⟩
  | error e =>
    obtain ⟨line, fault, rfl, hline⟩ := Module.failsOnly_parse text e hparse
    exact .inr ⟨line, fault, rfl, hline⟩

end SsaCompiler
