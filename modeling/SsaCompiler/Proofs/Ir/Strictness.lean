import SsaCompiler.Ir.Verify
import SsaCompiler.Proofs.Ir.Semantics
import Mathlib.Data.List.TakeWhile

/-!
# Strict functions

Dominance is about paths: a block dominates another one when no path from the entry to the latter avoids
the former. A function is strict when every value that is read was computed on every path to the place
where it is read. So in a run of a strict function every value that is read has a word
(`Running.next`, `Running.operands_defined`).

`Sound` is what every edit keeps, `Regular` is what verification checks.
-/

set_option autoImplicit false

namespace SsaCompiler

variable {target : BlockId} {i : InstId} {events : List IrEvent} {values : List Word}

namespace InstKind

/-- Whether an instruction of this kind computes a word. -/
def givesValue : InstKind → Bool
  | binary _ | gep _ | load | call _ | alloca _ | phi => true
  | branch .. | jump _ | ret | store | print _ => false

/-- Whether an instruction of this kind may have that many operands. -/
def fits : InstKind → Nat → Bool
  | binary _, n | gep _, n | load, n => n == 2
  | branch .., n => n == 1
  | jump _, n | alloca _, n => n == 0
  | ret, n => n ≤ 1
  | store, n => n == 3
  | print pieces, n => pieces.count .arg ≤ n
  | call _, _ | phi, _ => true

variable {kind : InstKind}

variable {m : Memory} {value : Option Word} {W : Type}

/-- An instruction that is to give a word does so if it does not end the run. -/
theorem isSome_of_perform {env : IrEnv W} {m' : Memory} {w w' : W} (hgives : kind.givesValue = true)
    (h : kind.perform env i values m w = .effect value m' w' events) : value.isSome = true := by
  unfold perform at h
  split at h
  case h_1 =>
    split at h <;> cases h
    rfl
  case h_9 =>
    split at h <;> cases h
    rfl
  case h_8 => cases hgives
  case h_11 => cases hgives
  all_goals first | (cases h; rfl) | cases h

/-- Only terminators go somewhere, and only to their targets. -/
theorem mem_targets_of_perform {env : IrEnv W} {w : W} (h : kind.perform env i values m w = .goto target) :
    kind.isTerminator = true ∧ target ∈ kind.targets := by
  unfold perform at h
  split at h
  case h_1 => split at h <;> cases h
  case h_2 =>
    cases h
    refine ⟨rfl, ?_⟩
    rw [targets]
    split
    · exact List.mem_cons_self
    · exact List.mem_cons_of_mem _ List.mem_cons_self
  case h_3 =>
    cases h
    exact ⟨rfl, List.mem_cons_self⟩
  case h_9 => split at h <;> cases h
  all_goals cases h

/-- A terminator has no effect. -/
theorem not_isTerminator_of_perform {env : IrEnv W} {m' : Memory} {w w' : W}
    (h : kind.perform env i values m w = .effect value m' w' events) : kind.isTerminator = false := by
  unfold perform at h
  split at h
  case h_2 => cases h
  case h_3 => cases h
  case h_4 => cases h
  case h_5 => cases h
  case h_12 => cases h
  all_goals rfl

/-- Only phis are phis. -/
theorem isPhi_eq_true : kind.isPhi = true ↔ kind = phi := by
  cases kind <;> simp [isPhi]

/-- Terminators are no phis. -/
theorem not_isPhi (h : kind.isTerminator = true) : kind.isPhi = false := by
  cases kind <;> first | rfl | cases h

/-- Terminators give no word. -/
theorem not_givesValue (h : kind.isTerminator = true) : kind.givesValue = false := by
  cases kind <;> first | rfl | cases h

end InstKind

namespace Function

variable {f : Function}

/-! ## Paths -/

/-- An edge of the control-flow graph. -/
def Edge (f : Function) (b c : BlockId) : Prop := ∃ succs, f.successors b = .ok succs ∧ c ∈ succs

/-- A path from the entry leads to the block. -/
inductive Reach (f : Function) : BlockId → Prop
  | entry {e : BlockId} : f.layout.head? = some e → Reach f e
  | step {b c : BlockId} : Reach f b → f.Edge b c → Reach f c

/-- A path from the entry leads to the block without coming through another one. -/
inductive Avoids (f : Function) (a : BlockId) : BlockId → Prop
  | entry {e : BlockId} : f.layout.head? = some e → e ≠ a → Avoids f a e
  | step {b c : BlockId} : Avoids f a b → f.Edge b c → c ≠ a → Avoids f a c

/-- A path that avoids a block is a path. -/
theorem Avoids.reach {a b : BlockId} (h : f.Avoids a b) : f.Reach b := by
  induction h with
  | entry he _ => exact .entry he
  | step _ hedge _ ih => exact ih.step hedge

/-- Every path from the entry to the second block comes through the first one. -/
def Dominates (f : Function) (a b : BlockId) : Prop := ¬ f.Avoids a b

variable {p : BlockId} {f' : Function} {assigned : List (ValueId × Word)} {rest : List InstId} {slot : Nat}
variable {v : ValueId} {vals : ValueId → Option Word}

/-- Reachable blocks stay reachable where their edges stay. -/
theorem Reach.of_edges {b : BlockId} (h : f.Reach b) (hhead : f'.layout.head? = f.layout.head?)
    (hedge : ∀ c d, f.Reach c → f.Edge c d → f'.Edge c d) : f'.Reach b := by
  induction h with
  | entry he => exact .entry (hhead.trans he)
  | step hc hcd ih => exact ih.step (hedge _ _ hc hcd)

/-- Dominance stays where no edges from reachable blocks are added. -/
theorem Dominates.of_edges {a b : BlockId} (h : f.Dominates a b) (hhead : f'.layout.head? = f.layout.head?)
    (hedge : ∀ c d, f.Reach c → f'.Edge c d → f.Edge c d) : f'.Dominates a b := by
  intro havoid
  refine h ?_
  clear h
  induction havoid with
  | entry he hne => exact .entry (hhead.symm.trans he) hne
  | step _ hcd hne ih => exact ih.step (hedge _ _ ih.reach hcd) hne

namespace Dominates

variable {a b c : BlockId}

theorem refl (f : Function) (a : BlockId) : f.Dominates a a := by
  intro h
  cases h with
  | entry _ hne => exact hne rfl
  | step _ _ hne => exact hne rfl

theorem trans (h : f.Dominates a b) (h' : f.Dominates b c) : f.Dominates a c := by
  -- A path that avoids `a` avoids `b`, since the part of it that leads to `b` would avoid `a`.
  have hpath : ∀ d, f.Avoids a d → f.Avoids b d := by
    intro d hd
    induction hd with
    | @entry e he hne =>
      refine .entry he ?_
      rintro rfl
      exact h (.entry he hne)
    | @step p d hp hedge hne ih =>
      refine .step ih hedge ?_
      rintro rfl
      exact h (.step hp hedge hne)
  exact fun hc => h' (hpath c hc)

/-- Two different blocks do not dominate each other. -/
theorem antisymm (h : f.Dominates a b) (h' : f.Dominates b a) (hreach : f.Reach a) : a = b := by
  by_contra hab
  -- The first of the two on a path would be reached without the other one.
  have hpath : ∀ d, f.Reach d → f.Avoids a d ∧ f.Avoids b d := by
    intro d hd
    induction hd with
    | @entry e he =>
      have hea : e ≠ a := by
        rintro rfl
        exact h' (.entry he hab)
      have heb : e ≠ b := by
        rintro rfl
        exact h (.entry he (Ne.symm hab))
      exact ⟨.entry he hea, .entry he heb⟩
    | @step p d _ hedge ih =>
      have hda : d ≠ a := by
        rintro rfl
        exact h' (.step ih.2 hedge hab)
      have hdb : d ≠ b := by
        rintro rfl
        exact h (.step ih.1 hedge (Ne.symm hab))
      exact ⟨.step ih.1 hedge hda, .step ih.2 hedge hdb⟩
  exact refl f a (hpath a hreach).1

/-- What dominates a block strictly dominates its predecessors. -/
theorem of_edge (h : f.Dominates a c) (hne : a ≠ c) (hedge : f.Edge b c) : f.Dominates a b :=
  fun hb => h (.step hb hedge (Ne.symm hne))

/-- What dominates a reachable block is reachable. -/
theorem reach (h : f.Dominates a b) (hreach : f.Reach b) : f.Reach a := by
  by_contra ha
  have hpath : ∀ d, f.Reach d → f.Avoids a d := by
    intro d hd
    induction hd with
    | @entry e he =>
      refine .entry he ?_
      rintro rfl
      exact ha (.entry he)
    | @step p d hp hedge ih =>
      refine .step ih hedge ?_
      rintro rfl
      exact ha (.step hp hedge)
  exact h (hpath b hreach)

end Dominates

/-! ## Well-formed functions -/

/-- The value that a slot reads. -/
def reads (f : Function) (u : Use) : Option ValueId := (f.operands u.user)[u.slot]?

/-- A phi of a block takes a value from a predecessor. -/
def Feeds (f : Function) (b : BlockId) (phi : InstId) (p : BlockId) (v : ValueId) : Prop :=
  (p, v) ∈ (f.preds b).zip (f.operands phi)

/-- What every edit keeps. -/
structure Sound (f : Function) : Prop where
  /-- The use index of a value lists exactly the slots that read it, each once. -/
  indexed : ∀ v u, (f.uses v).count u = if f.reads u = some v then 1 else 0
  nodup : ∀ b, (f.instsOf b).Nodup
  placed : ∀ b i, i ∈ f.instsOf b ↔ f.blockOf? i = some b
  kind_of_result : ∀ i r, f.result? i = some r → r < f.values.size ∧ (f.value r).kind = .inst i
  result_of_kind : ∀ i r, r < f.values.size → (f.value r).kind = .inst i → f.result? i = some r
  gives : ∀ i r, f.result? i = some r → (f.kind i).givesValue = true
  fits : ∀ b, ∀ i ∈ f.instsOf b, (f.kind i).fits (f.operands i).length = true
  bounded : ∀ b, ∀ i ∈ f.instsOf b, ∀ t ∈ (f.kind i).targets, t < f.blocks.size
  layout_nodup : f.layout.Nodup
  mem_layout : ∀ b, b ∈ f.layout ↔ b < f.blocks.size ∧ (f.block b).removed = false

/-- The arms of the last instruction of a block. -/
def arms (f : Function) (b : BlockId) : List BlockId :=
  match (f.instsOf b).getLast? with
  | some t => (f.kind t).targets
  | none => []

/-- What verification checks. -/
structure Regular (f : Function) : Prop where
  entry : ∃ e rest, f.layout = e :: rest ∧ f.preds e = []
  ends : ∀ b ∈ f.layout, ∃ before t, f.instsOf b = before ++ [t] ∧ (f.kind t).isTerminator = true ∧
    ∀ i ∈ before, (f.kind i).isTerminator = false
  phis_first : ∀ b ∈ f.layout, ∀ before i after, f.instsOf b = before ++ i :: after →
    (f.kind i).isPhi = true → ∀ j ∈ before, (f.kind j).isPhi = true
  slots : ∀ b ∈ f.layout, ∀ i ∈ f.instsOf b, (f.kind i).isPhi = true →
    (f.operands i).length = (f.preds b).length
  targets : ∀ b ∈ f.layout, ∀ t ∈ f.arms b, (f.block t).removed = false
  preds : ∀ b ∈ f.layout, ∀ p, (f.preds b).count p = if p ∈ f.layout then (f.arms p).count b else 0

/-- The phis of every listed block come first. -/
def PhisFirst (f : Function) : Prop :=
  ∀ b ∈ f.layout, ∀ before i after, f.instsOf b = before ++ i :: after →
    (f.kind i).isPhi = true → ∀ j ∈ before, (f.kind j).isPhi = true

/-- What walking the graph of a function and placing phis in it need. -/
structure Wired (f : Function) : Prop where
  entry : ∃ e, f.layout.head? = some e
  phis_first : f.PhisFirst
  listed : ∀ b, f.Reach b → b ∈ f.layout
  succs : ∀ b, f.Reach b → ∃ succs, f.successors b = .ok succs
  preds : ∀ p b, f.Reach p → f.Reach b → (p ∈ f.preds b ↔ f.Edge p b)

/-- A value that has been computed on every path to a place of a block; `before` are the instructions of
the block before that place. -/
def Available (f : Function) (b : BlockId) (before : List InstId) (v : ValueId) : Prop :=
  ∀ i, (f.value v).kind = .inst i →
    i ∈ before ∨ ∃ d, f.blockOf? i = some d ∧ d ≠ b ∧ f.Dominates d b

/-- Every use in a reachable block is dominated by its definition, those of a phi at the ends of the
predecessors. -/
structure Strict (f : Function) : Prop where
  operand : ∀ b before i after, f.Reach b → f.instsOf b = before ++ i :: after →
    (f.kind i).isPhi = false → ∀ v ∈ f.operands i, f.Available b before v
  incoming : ∀ b i, f.Reach b → i ∈ f.instsOf b → (f.kind i).isPhi = true → ∀ p v, f.Reach p →
    f.Feeds b i p v → f.Available p (f.instsOf p).dropLast v

/-- Phis give equal values to repeated predecessors. -/
def AgreeingPhis (f : Function) : Prop :=
  ∀ b ∈ f.layout, ∀ i ∈ f.instsOf b, (f.kind i).isPhi = true → ∀ p v v', f.Feeds b i p v →
    f.Feeds b i p v' → v = v'

/-- What simplification asks for to succeed. -/
structure StrictForm (f : Function) : Prop where
  sound : f.Sound
  regular : f.Regular
  strict : f.Strict

/-- What the passes ask for and keep. -/
structure WellFormed (f : Function) : Prop where
  sound : f.Sound
  regular : f.Regular
  strict : f.Strict
  agreeing : f.AgreeingPhis

/-- Passes that keep what is computed ask for more. -/
theorem WellFormed.strictForm {f : Function} (h : f.WellFormed) : f.StrictForm := ⟨h.sound, h.regular, h.strict⟩

/-- Runs of the two functions show the same, whatever surrounds them. -/
def SameMeaning (f f' : Function) : Prop :=
  ∀ (W : Type) (env : IrEnv W) (m : Memory) (w : W),
    Runs.SameRuns (f.step env) (f.start m w) (f'.step env) (f'.start m w)

/-! ## Blocks -/

variable {e : BlockId} {before : List InstId}

section Blocks

variable {b : BlockId}

/-- A terminator is the last instruction of its block. -/
theorem Regular.last (h : f.Regular) (hb : b ∈ f.layout) {after : List InstId}
    (hinsts : f.instsOf b = before ++ i :: after) (hi : (f.kind i).isTerminator = true) : after = [] := by
  obtain ⟨pre, t, ht, -, hpre⟩ := h.ends b hb
  rcases List.eq_nil_or_concat after with rfl | ⟨rest, u, rfl⟩
  · rfl
  · rw [hinsts, List.concat_eq_append, ← List.cons_append, ← List.append_assoc] at ht
    obtain ⟨rfl, -⟩ := List.append_inj' ht rfl
    rw [hpre i (by simp)] at hi
    cases hi

/-- The successors of a block are the arms of its last instruction. -/
theorem Regular.successors (h : f.Regular) (hb : b ∈ f.layout) : f.successors b = .ok (f.arms b) := by
  obtain ⟨before, t, ht, hterm, -⟩ := h.ends b hb
  unfold Function.successors terminator arms
  rw [ht, List.getLast?_append, List.getLast?_singleton]
  change (if (f.kind t).isTerminator = true then Except.ok t else _) >>= _ = _
  rw [if_pos hterm]
  rfl

/-- The successors of a block, if it has a terminator, are its arms. -/
theorem arms_of_successors {succs : List BlockId} (h : f.successors b = .ok succs) : f.arms b = succs := by
  unfold Function.successors terminator at h
  unfold arms
  cases ht : (f.instsOf b).getLast? with
  | none =>
    rw [ht] at h
    cases h
  | some t =>
    rw [ht] at h
    dsimp only at h ⊢
    by_cases hterm : (f.kind t).isTerminator = true
    · rw [if_pos hterm] at h
      cases h
      rfl
    · rw [if_neg hterm] at h
      cases h

variable {c : BlockId}

/-- Edges from listed blocks are arms. -/
theorem Regular.edge_iff (h : f.Regular) (hb : b ∈ f.layout) : f.Edge b c ↔ c ∈ f.arms b := by
  unfold Edge
  rw [h.successors hb]
  constructor
  · rintro ⟨succs, hsuccs, hc⟩
    cases hsuccs
    exact hc
  · exact fun hc => ⟨_, rfl, hc⟩

theorem Regular.mem_preds_iff (h : f.Regular) (hb : b ∈ f.layout) : p ∈ f.preds b ↔ p ∈ f.layout ∧ b ∈ f.arms p := by
  rw [← List.count_pos_iff, h.preds b hb]
  split
  · rename_i hp
    rw [List.count_pos_iff]
    exact ⟨fun hin => ⟨hp, hin⟩, fun hin => hin.2⟩
  · rename_i hp
    exact ⟨fun hin => absurd hin (Nat.lt_irrefl 0), fun hin => absurd hin.1 hp⟩

theorem Regular.mem_layout_of_mem_arms (h : f.Regular) (hs : f.Sound) (hb : b ∈ f.layout) (hc : c ∈ f.arms b) :
    c ∈ f.layout := by
  refine (hs.mem_layout c).2 ⟨?_, h.targets b hb c hc⟩
  unfold arms at hc
  split at hc
  · rename_i t ht
    exact hs.bounded b t (List.mem_of_getLast? ht) c hc
  · cases hc

theorem Regular.mem_layout_of_reach (h : f.Regular) (hs : f.Sound) (hb : f.Reach b) : b ∈ f.layout := by
  induction hb with
  | entry he => exact List.mem_of_mem_head? he
  | step _ hedge ih => exact h.mem_layout_of_mem_arms hs ih ((h.edge_iff ih).1 hedge)

/-- The graph of a regular function can be walked. -/
theorem Regular.wired (h : f.Regular) (hs : f.Sound) : f.Wired where
  entry := by
    obtain ⟨e, rest, hlayout, -⟩ := h.entry
    exact ⟨e, by rw [hlayout]; rfl⟩
  phis_first := h.phis_first
  listed _ hb := h.mem_layout_of_reach hs hb
  succs b hb := ⟨f.arms b, h.successors (h.mem_layout_of_reach hs hb)⟩
  preds p b hp hb := by
    have hp' := h.mem_layout_of_reach hs hp
    rw [h.mem_preds_iff (h.mem_layout_of_reach hs hb), h.edge_iff hp']
    exact and_iff_right hp'

/-- A block without a record has no predecessors. -/
theorem lt_size_of_mem_preds (h : p ∈ f.preds b) : b < f.blocks.size := by
  by_contra hlt
  unfold preds block at h
  rw [Array.getD_eq_getD_getElem?, Array.getElem?_eq_none (Nat.le_of_not_lt hlt)] at h
  cases h

/-- The first edge from a predecessor is an edge from it. -/
theorem getElem?_of_predIndex {p : Nat} (h : f.predIndex? b p = some slot) : (f.preds b)[slot]? = some p := by
  obtain ⟨hlt, hp, -⟩ := List.idxOf?_eq_some_iff.1 h
  rw [List.getElem?_eq_getElem hlt, hp]

/-- Exactly the predecessors have a first edge. -/
theorem predIndex_eq_none_iff : f.predIndex? b p = none ↔ p ∉ f.preds b :=
  List.idxOf?_eq_none_iff

/-- The phis of a block are a first part of it. -/
theorem phis_append (f : Function) (b : BlockId) :
    f.phis b ++ (f.instsOf b).dropWhile (fun i => (f.kind i).isPhi) = f.instsOf b :=
  List.takeWhile_append_dropWhile

/-- The phis at the head of a block are phis. -/
theorem isPhi_of_mem_phis (f : Function) {b : BlockId} (hi : i ∈ f.phis b) : (f.kind i).isPhi = true :=
  List.mem_takeWhile_imp (p := fun i => (f.kind i).isPhi) hi

theorem PhisFirst.mem_phis (h : f.PhisFirst) (hb : b ∈ f.layout) :
    i ∈ f.phis b ↔ i ∈ f.instsOf b ∧ (f.kind i).isPhi = true := by
  constructor
  · exact fun hi => ⟨(List.takeWhile_sublist _).subset hi, f.isPhi_of_mem_phis hi⟩
  · rintro ⟨hi, hphi⟩
    obtain ⟨before, after, hinsts⟩ := List.append_of_mem hi
    have hbefore := h b hb before i after hinsts hphi
    unfold phis
    rw [hinsts, List.takeWhile_append_of_pos (by simpa using hbefore),
      List.takeWhile_cons_of_pos (p := fun i => (f.kind i).isPhi) hphi]
    simp

/-- The phis of a listed block of a regular function are all its phis. -/
theorem Regular.mem_phis (h : f.Regular) (hb : b ∈ f.layout) :
    i ∈ f.phis b ↔ i ∈ f.instsOf b ∧ (f.kind i).isPhi = true :=
  PhisFirst.mem_phis h.phis_first hb

end Blocks

/-- A phi has a value for each predecessor. -/
theorem Regular.feeds (h : f.Regular) {b : BlockId} (hb : b ∈ f.layout) (hi : i ∈ f.instsOf b)
    (hphi : (f.kind i).isPhi = true) {p : Nat} (hslot : f.predIndex? b p = some slot) :
    ∃ v, (f.operands i)[slot]? = some v ∧ f.Feeds b i p v := by
  have hp := getElem?_of_predIndex hslot
  have hlt : slot < (f.operands i).length := by
    rw [h.slots b hb i hi hphi]
    exact (List.getElem?_eq_some_iff.1 hp).1
  refine ⟨(f.operands i)[slot], List.getElem?_eq_getElem hlt, List.mem_of_getElem? (i := slot) ?_⟩
  exact List.getElem?_zip_eq_some.2 ⟨hp, List.getElem?_eq_getElem hlt⟩

/-- A phi takes a value from each predecessor. -/
theorem Regular.exists_feeds (h : f.Regular) {b : BlockId} (hb : b ∈ f.layout) (hi : i ∈ f.instsOf b)
    (hphi : (f.kind i).isPhi = true) (hp : p ∈ f.preds b) : ∃ v, f.Feeds b i p v := by
  obtain ⟨slot, hslot⟩ := Option.isSome_iff_exists.1 (List.isSome_idxOf?.2 hp)
  obtain ⟨v, -, hfeeds⟩ := h.feeds hb hi hphi hslot
  exact ⟨v, hfeeds⟩

/-- An instruction that has a result is not the last one of its block. -/
theorem Regular.mem_dropLast (h : f.Regular) (hs : f.Sound) {b : BlockId} (hb : b ∈ f.layout) (hi : i ∈ f.instsOf b)
    {r : ValueId} (hr : f.result? i = some r) : i ∈ (f.instsOf b).dropLast := by
  obtain ⟨before, t, ht, hterm, -⟩ := h.ends b hb
  rw [ht, List.dropLast_concat]
  rw [ht] at hi
  rcases List.mem_append.1 hi with hin | hin
  · exact hin
  · have hgives := hs.gives i r hr
    rw [List.mem_singleton.1 hin, InstKind.not_givesValue hterm] at hgives
    cases hgives

/-! ## Runs -/

variable {W : Type} {env : IrEnv W}

/-- A place that a run comes to: all values that are available there have words. -/
structure Running (f : Function) (env : IrEnv W) (s : IrState W) : Prop where
  reach : f.Reach s.block
  listed : s.block ∈ f.layout
  place : ∃ before, f.instsOf s.block = before ++ s.code ∧
    (∀ i ∈ f.phis s.block, i ∈ before) ∧
    ∀ v, v < f.values.size → f.Available s.block before v → (f.read env s.vals v).isSome = true

theorem isSome_read_assign (h : (f.read env vals v).isSome = true) (result : Option ValueId) (value : Option Word) :
    (f.read env (assign vals result value) v).isSome = true := by
  unfold read at h ⊢
  unfold assign
  split
  · rename_i i hk
    rw [hk] at h
    split
    · rename_i r x
      by_cases hr : v = r
      · rw [hr, Function.update_self]
        rfl
      · rwa [Function.update_of_ne hr]
    · exact h
  all_goals rfl

/-- The values after phis were assigned. -/
theorem assignAll_of_not_mem (h : ∀ e ∈ assigned, e.1 ≠ v) : assignAll vals assigned v = vals v := by
  induction assigned generalizing vals with
  | nil => rfl
  | cons e rest ih =>
    have hrest : assignAll (Function.update vals e.1 (some e.2)) rest v = _ :=
      ih fun d hd => h d (List.mem_cons_of_mem _ hd)
    exact hrest.trans (Function.update_of_ne (Ne.symm (h e List.mem_cons_self)) _ _)

/-- A value that is among the assigned ones has a word afterwards. -/
theorem isSome_assignAll (h : (∃ x, (v, x) ∈ assigned) ∨ (vals v).isSome = true) :
    (assignAll vals assigned v).isSome = true := by
  induction assigned generalizing vals with
  | nil => exact h.resolve_left (by simp)
  | cons e rest ih =>
    change (assignAll (Function.update vals e.1 (some e.2)) rest v).isSome = true
    refine ih ?_
    by_cases hv : v = e.1
    · right
      rw [hv, Function.update_self]
      rfl
    · rcases h with ⟨x, hx⟩ | h
      · rcases List.mem_cons.1 hx with rfl | hx
        · exact absurd rfl hv
        · exact .inl ⟨x, hx⟩
      · right
        rwa [Function.update_of_ne hv]

/-- What a phi takes from a slot. -/
theorem incoming_eq_some {phi : InstId} {e : ValueId × Word} :
    f.incoming env vals slot phi = some e ↔ ∃ v, (f.operands phi)[slot]? = some v ∧
      f.result? phi = some e.1 ∧ f.read env vals v = some e.2 := by
  obtain ⟨r, x⟩ := e
  simp only [incoming, bind, Option.bind_eq_some_iff, pure, Option.some.injEq, Prod.mk.injEq]
  constructor
  · rintro ⟨v, hv, r', hr, x', hx, rfl, rfl⟩
    exact ⟨v, hv, hr, hx⟩
  · rintro ⟨v, hv, hr, hx⟩
    exact ⟨v, hv, r, hr, x, hx, rfl, rfl⟩

/-- The phis of a block assign exactly their results. -/
theorem mem_of_incoming {phis : List InstId} (h : phis.mapM (f.incoming env vals slot) = some assigned) :
    (∀ i ∈ phis, ∀ r, f.result? i = some r → ∃ x, (r, x) ∈ assigned) ∧
      ∀ e ∈ assigned, ∃ i ∈ phis, f.result? i = some e.1 := by
  induction phis generalizing assigned with
  | nil =>
    cases h
    exact ⟨fun i hi => absurd hi List.not_mem_nil, fun e he => absurd he List.not_mem_nil⟩
  | cons phi rest ih =>
    rw [List.mapM_cons] at h
    cases hphi : f.incoming env vals slot phi with
    | none =>
      rw [hphi] at h
      cases h
    | some e =>
      cases hrest : rest.mapM (f.incoming env vals slot) with
      | none =>
        rw [hphi, hrest] at h
        cases h
      | some more =>
        rw [hphi, hrest] at h
        cases h
        obtain ⟨hall, hfrom⟩ := ih hrest
        obtain ⟨-, -, hresult, -⟩ := incoming_eq_some.1 hphi
        refine ⟨fun i hi r hr => ?_, fun d hd => ?_⟩
        · rcases List.mem_cons.1 hi with rfl | hi
          · rw [hresult] at hr
            obtain rfl := Option.some.inj hr
            exact ⟨e.2, List.mem_cons_self⟩
          · obtain ⟨x, hx⟩ := hall i hi r hr
            exact ⟨x, List.mem_cons_of_mem _ hx⟩
        · rcases List.mem_cons.1 hd with rfl | hd
          · exact ⟨phi, List.mem_cons_self, hresult⟩
          · obtain ⟨i, hi, hr⟩ := hfrom d hd
            exact ⟨i, List.mem_cons_of_mem _ hi, hr⟩

/-- A value that has a word keeps one when phis are assigned. -/
theorem isSome_read_assignAll (h : (f.read env vals v).isSome = true) (assigned : List (ValueId × Word)) :
    (f.read env (assignAll vals assigned) v).isSome = true := by
  unfold read at h ⊢
  split
  · rename_i i hk
    rw [hk] at h
    exact isSome_assignAll (.inr h)
  all_goals rfl

/-- An instruction of a kind that gives nothing has no result. -/
theorem Sound.result?_eq_none (h : f.Sound) (hgives : (f.kind i).givesValue = false) : f.result? i = none := by
  cases hr : f.result? i with
  | none => rfl
  | some r =>
    rw [h.gives i r hr] at hgives
    cases hgives

/-- Operands have records. -/
theorem Sound.lt_size_of_mem_operands (h : f.Sound) (hv : v ∈ f.operands i) : v < f.values.size := by
  obtain ⟨slot, hslot⟩ := List.getElem?_of_mem hv
  have hone : (f.uses v).count ⟨i, slot⟩ = 1 := (h.indexed v ⟨i, slot⟩).trans (if_pos hslot)
  by_contra hlt
  unfold uses value at hone
  rw [Array.getD_eq_getD_getElem?, Array.getElem?_eq_none (Nat.le_of_not_lt hlt)] at hone
  cases hone

/-- What an instruction in a block defines is available behind it. -/
theorem available_append {b : BlockId} (h : f.Available b (before ++ [i]) v) :
    (f.value v).kind = .inst i ∨ f.Available b before v := by
  by_cases hk : (f.value v).kind = .inst i
  · exact .inl hk
  · refine .inr fun j hj => ?_
    rcases h j hj with hmem | hdom
    · rcases List.mem_append.1 hmem with hin | hin
      · exact .inl hin
      · rw [List.mem_singleton.1 hin] at hj
        exact absurd hj hk
    · exact .inr hdom

/-- What following an edge does. -/
theorem follow_eq_next {s u : IrState W} : f.follow env s target = .next events u ↔ events = [] ∧ ∃ slot assigned,
      f.predIndex? target s.block = some slot ∧
      (f.phis target).mapM (f.incoming env s.vals slot) = some assigned ∧
      u = { s with
        block := target
        code := (f.instsOf target).dropWhile fun i => (f.kind i).isPhi
        vals := assignAll s.vals assigned } := by
  unfold follow
  constructor
  · intro h
    split at h
    · cases h
    · rename_i slot hslot
      split at h
      · cases h
      · rename_i assigned hassigned
        cases h
        exact ⟨rfl, slot, assigned, hslot, hassigned, rfl⟩
  · rintro ⟨rfl, slot, assigned, hslot, hassigned, rfl⟩
    rw [hslot]
    dsimp only
    rw [hassigned]

/-- What a step does with an instruction whose operands have words. -/
theorem step_eq {s : IrState W} (hcode : s.code = i :: rest)
    (hvalues : (f.operands i).mapM (f.read env s.vals) = some values) :
    f.step env s = match (f.kind i).perform env i values s.memory s.world with
      | .stop o => .done o
      | .goto target => f.follow env s target
      | .effect value memory world events =>
        .next events { s with code := rest, vals := assign s.vals (f.result? i) value, memory, world } := by
  unfold step
  rw [hcode]
  dsimp only
  rewrite [hvalues]
  rfl

/-- Where following an edge stops the run, no phi can be left without its word. -/
theorem follow_eq_done {s : IrState W} {o : IrOutcome} : f.follow env s target = .done o ↔ o = .fault ∧
    ∀ slot, f.predIndex? target s.block = some slot → (f.phis target).mapM (f.incoming env s.vals slot) = none := by
  unfold follow
  cases hslot : f.predIndex? target s.block with
  | none => simp [eq_comm]
  | some slot => cases hassigned : (f.phis target).mapM (f.incoming env s.vals slot) <;> simp [hassigned, eq_comm]

/-- A run stops at an instruction that stops it, or on the way to another block. -/
theorem stop_or_goto {s : IrState W} {o : IrOutcome} (hcode : s.code = i :: rest)
    (hvalues : (f.operands i).mapM (f.read env s.vals) = some values) (hdone : f.step env s = .done o) :
    (f.kind i).perform env i values s.memory s.world = .stop o ∨
      ∃ c, (f.kind i).perform env i values s.memory s.world = .goto c ∧ f.follow env s c = .done o := by
  rw [step_eq hcode hvalues] at hdone
  cases hact : (f.kind i).perform env i values s.memory s.world with
  | stop o' =>
    rw [hact] at hdone
    cases hdone
    exact .inl rfl
  | goto c =>
    rw [hact] at hdone
    exact .inr ⟨c, rfl, hdone⟩
  | effect value memory world events =>
    rw [hact] at hdone
    cases hdone

/-- What a step does that goes on. -/
theorem step_eq_next {s u : IrState W} : f.step env s = .next events u ↔ ∃ i rest values, s.code = i :: rest ∧
      (f.operands i).mapM (f.read env s.vals) = some values ∧
      ((∃ target, (f.kind i).perform env i values s.memory s.world = .goto target ∧
          f.follow env s target = .next events u) ∨
        ∃ value memory world,
          (f.kind i).perform env i values s.memory s.world = .effect value memory world events ∧
          u = { s with code := rest, vals := assign s.vals (f.result? i) value, memory, world }) := by
  unfold step
  constructor
  · intro h
    split at h
    · cases h
    · rename_i i rest hcode
      split at h
      · cases h
      · rename_i values hvalues
        refine ⟨i, rest, values, hcode, hvalues, ?_⟩
        split at h
        · cases h
        · rename_i target hgoto
          exact .inl ⟨target, hgoto, h⟩
        · rename_i value memory world shown heffect
          cases h
          exact .inr ⟨value, memory, world, heffect, rfl⟩
  · rintro ⟨i, rest, values, hcode, hvalues, ⟨target, hgoto, h⟩ | ⟨value, memory, world, heffect, rfl⟩⟩
    · rw [← step, step_eq hcode hvalues, hgoto]
      exact h
    · rw [← step, step_eq hcode hvalues, heffect]

/-- Values that no instruction computes always have words. -/
theorem isSome_read_of_ne (h : ∀ i, (f.value v).kind ≠ .inst i) : (f.read env vals v).isSome = true := by
  unfold read
  split
  · rename_i i hk
    exact absurd hk (h i)
  all_goals rfl

/-- All words of a list can be read at once. -/
theorem exists_mapM {α β : Type} {read : α → Option β} {l : List α} (h : ∀ a ∈ l, (read a).isSome = true) :
    ∃ values, l.mapM read = some values := by
  induction l with
  | nil => exact ⟨[], rfl⟩
  | cons a rest ih =>
    obtain ⟨x, hx⟩ := Option.isSome_iff_exists.1 (h a List.mem_cons_self)
    obtain ⟨values, hvalues⟩ := ih fun b hb => h b (List.mem_cons_of_mem _ hb)
    exact ⟨x :: values, by rw [List.mapM_cons, hx, hvalues]; rfl⟩

/-- Reading a list depends on what is in it alone. -/
theorem mapM_congr_left {α β : Type} {read read' : α → Option β} {l : List α}
    (h : ∀ a ∈ l, read a = read' a) : l.mapM read = l.mapM read' := by
  induction l with
  | nil => rfl
  | cons a rest ih =>
    rw [List.mapM_cons, List.mapM_cons, h a List.mem_cons_self, ih fun b hb => h b (List.mem_cons_of_mem _ hb)]

/-- A phi in the entry is a fault, because no edge leads there. -/
theorem step_start_of_phis (hr : f.Regular) (hentry : f.layout.head? = some e) (hphis : f.phis e ≠ []) (m : Memory)
    (w : W) : f.step env (f.start m w) = .done .fault := by
  have he : e ∈ f.layout := List.mem_of_mem_head? hentry
  obtain ⟨e', rest', hlayout, hpreds⟩ := hr.entry
  obtain rfl : e' = e := by
    rw [hlayout] at hentry
    exact Option.some.inj hentry
  obtain ⟨i, rest, hi⟩ := List.exists_cons_of_ne_nil hphis
  obtain ⟨hin, hphi⟩ := (hr.mem_phis he).1 (hi ▸ List.mem_cons_self)
  have hinsts := f.phis_append e'
  rw [hi] at hinsts
  have hcode : (f.start m w).code = i :: (rest ++ (f.instsOf e').dropWhile fun i => (f.kind i).isPhi) := by
    unfold start
    rw [hlayout]
    exact hinsts.symm
  have hnone : f.operands i = [] := by
    rw [← List.length_eq_zero_iff, hr.slots e' he i hin hphi, hpreds]
    rfl
  have hvalues : (f.operands i).mapM (f.read env (f.start m w).vals) = some [] := by rw [hnone]; rfl
  rw [step_eq hcode hvalues, InstKind.isPhi_eq_true.1 hphi]
  rfl

/-- Functions with the same entry show the same if they do so without phis in the entry. -/
theorem sameMeaning_of_phis (hr : f.Regular) (hr' : f'.Regular) (hhead : f'.layout.head? = f.layout.head?)
    (hphis : ∀ e, f.layout.head? = some e → f'.phis e = f.phis e)
    (hruns : ∀ e, f.layout.head? = some e → f.phis e = [] → f.SameMeaning f') : f.SameMeaning f' := by
  obtain ⟨e, rest, hlayout, -⟩ := hr.entry
  have hentry : f.layout.head? = some e := by rw [hlayout]; rfl
  by_cases hnone : f.phis e = []
  · exact hruns e hentry hnone
  · intro W env m w
    refine Runs.sameRuns_of_done (step_start_of_phis hr hentry hnone m w)
      (step_start_of_phis hr' (hhead.trans hentry) ?_ m w)
    rw [hphis e hentry]
    exact hnone

namespace Running

variable {s u : IrState W}

/-- The first place of a run. -/
theorem start (hentry : f.layout.head? = some e) (hphis : f.phis e = []) (m : Memory) (w : W) :
    f.Running env (f.start m w) := by
  obtain ⟨rest, hlayout⟩ := List.head?_eq_some_iff.1 hentry
  have hhead : f.layout.headD 0 = e := by rw [hlayout]; rfl
  have he : e ∈ f.layout := by rw [hlayout]; exact List.mem_cons_self
  unfold Function.start
  rw [hhead]
  refine ⟨.entry hentry, he, [], rfl, fun i hi => ?_, fun v _ hv => ?_⟩
  · rw [hphis] at hi
    cases hi
  · refine isSome_read_of_ne fun i hi => ?_
    rcases hv i hi with hin | ⟨d, -, hne, hdom⟩
    · cases hin
    · exact hdom (.entry hentry (Ne.symm hne))

variable (h : f.Running env s)

include h

/-- The next instruction is not a phi. -/
theorem not_isPhi (hsound : f.Sound) (hr : f.Regular) (hcode : s.code = i :: rest) : (f.kind i).isPhi = false := by
  obtain ⟨before, hinsts, hphis, -⟩ := h.place
  rw [hcode] at hinsts
  have hnodup := hsound.nodup s.block
  by_contra hphi
  have hin := hphis i ((hr.mem_phis h.listed).2 ⟨by rw [hinsts]; simp, by simpa using hphi⟩)
  rw [hinsts, List.nodup_append] at hnodup
  exact hnodup.2.2 i hin i List.mem_cons_self rfl

/-- The operands of the next instruction have words. -/
theorem operands_defined (hsound : f.Sound) (hr : f.Regular) (hstrict : f.Strict)
    (hcode : s.code = i :: rest) : ∃ values, (f.operands i).mapM (f.read env s.vals) = some values := by
  have hnot := h.not_isPhi hsound hr hcode
  obtain ⟨before, hinsts, -, hdefined⟩ := h.place
  rw [hcode] at hinsts
  have hall : ∀ v ∈ f.operands i, (f.read env s.vals v).isSome = true := fun v hv =>
    hdefined v (hsound.lt_size_of_mem_operands hv)
      (hstrict.operand s.block before i rest h.reach hinsts hnot v hv)
  exact exists_mapM hall

theorem mem_instsOf (hcode : s.code = i :: rest) : i ∈ f.instsOf s.block := by
  obtain ⟨before, hinsts, -, -⟩ := h.place
  rw [hinsts, hcode]
  simp

/-- A terminator that is run next is the last instruction of the block. -/
theorem arms_eq (hr : f.Regular) (hcode : s.code = i :: rest)
    (hterm : (f.kind i).isTerminator = true) : rest = [] ∧ f.arms s.block = (f.kind i).targets := by
  obtain ⟨before, hinsts, -, -⟩ := h.place
  rw [hcode] at hinsts
  obtain rfl := hr.last h.listed hinsts hterm
  refine ⟨rfl, ?_⟩
  unfold arms
  rw [hinsts, List.getLast?_append, List.getLast?_singleton]
  rfl

/-- An instruction that goes on elsewhere is the last one of its block, and goes over an edge. -/
theorem edge_of_goto (hr : f.Regular) (hcode : s.code = i :: rest) {values : List Word} {m : Memory} {w : W}
    (hgoto : (f.kind i).perform env i values m w = .goto target) :
    rest = [] ∧ (f.kind i).isTerminator = true ∧ target ∈ f.arms s.block ∧ f.Edge s.block target := by
  obtain ⟨hterm, htarget⟩ := InstKind.mem_targets_of_perform hgoto
  obtain ⟨hrest, harms⟩ := h.arms_eq hr hcode hterm
  rw [← harms] at htarget
  exact ⟨hrest, hterm, htarget, (hr.edge_iff h.listed).2 htarget⟩

/-- Going over an edge. -/
theorem follow (hsound : f.Sound) (hr : f.Regular) {t : InstId} (hcode : s.code = [t])
    (ht : (f.kind t).isTerminator = true) (htarget : target ∈ (f.kind t).targets)
    (hnext : f.follow env s target = .next events u) : f.Running env u := by
  obtain ⟨before, hinsts, hphis, hdefined⟩ := h.place
  obtain ⟨-, slot, assigned, hslot, hassigned, rfl⟩ := follow_eq_next.1 hnext
  have harms : f.arms s.block = (f.kind t).targets := (h.arms_eq hr hcode ht).2
  have hpred : s.block ∈ f.preds target := List.mem_of_getElem? (getElem?_of_predIndex hslot)
  have hlisted : target ∈ f.layout := (hsound.mem_layout target).2
    ⟨lt_size_of_mem_preds hpred, hr.targets s.block h.listed target (harms ▸ htarget)⟩
  have hedge : f.Edge s.block target := (hr.edge_iff h.listed).2 (harms ▸ htarget)
  refine ⟨h.reach.step hedge, hlisted, f.phis target, (f.phis_append target).symm, fun i hi => hi, ?_⟩
  intro v hv havail
  cases hk : (f.value v).kind with
  | inst i =>
    rcases havail i hk with hin | ⟨d, hd, hne, hdom⟩
    · obtain ⟨x, hx⟩ := (mem_of_incoming hassigned).1 i hin v (hsound.result_of_kind i v hv hk)
      unfold read
      rw [hk]
      exact isSome_assignAll (.inl ⟨x, hx⟩)
    · -- The definition dominates the block that the edge comes from, or stands in it.
      refine isSome_read_assignAll (hdefined v hv fun j hj => ?_) assigned
      obtain rfl : i = j := by
        rw [hk] at hj
        exact ValueKind.inst.inj hj
      by_cases hds : d = s.block
      · left
        have hin := (hsound.placed d i).2 hd
        rw [hds, hinsts, hcode] at hin
        rcases List.mem_append.1 hin with hin | hin
        · exact hin
        · rw [List.mem_singleton.1 hin] at hk
          have hgives := hsound.gives t v (hsound.result_of_kind t v hv hk)
          rw [InstKind.not_givesValue ht] at hgives
          cases hgives
      · exact .inr ⟨d, hd, hds, hdom.of_edge hne hedge⟩
  | _ => exact isSome_read_of_ne fun i hi => by rw [hk] at hi; cases hi

/-- A step leads to a place of the same kind. -/
theorem next (hsound : f.Sound) (hr : f.Regular) (hnext : f.step env s = .next events u) : f.Running env u := by
  obtain ⟨before, hinsts, hphis, hdefined⟩ := h.place
  obtain ⟨i, rest, values, hcode, -, hperform⟩ := step_eq_next.1 hnext
  rw [hcode] at hinsts
  rcases hperform with ⟨target, hgoto, hfollow⟩ | ⟨value, memory, world, heffect, rfl⟩
  · obtain ⟨hterm, htarget⟩ := InstKind.mem_targets_of_perform hgoto
    obtain rfl := hr.last h.listed hinsts hterm
    exact h.follow hsound hr hcode hterm htarget hfollow
  · refine ⟨h.reach, h.listed, before ++ [i], by simp [hinsts], ?_, fun v hv havail => ?_⟩
    · exact fun j hj => List.mem_append_left _ (hphis j hj)
    · rcases available_append havail with hk | havail
      · have hresult := hsound.result_of_kind i v hv hk
        obtain ⟨x, hx⟩ := Option.isSome_iff_exists.1
          (InstKind.isSome_of_perform (hsound.gives i v hresult) heffect)
        unfold read
        rw [hk]
        simp [assign, hresult, hx]
      · exact isSome_read_assign (hdefined v hv havail) _ _

end Running

end Function

end SsaCompiler
