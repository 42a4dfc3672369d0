import SsaCompiler.Proofs.Ir.Renumbering
import SsaCompiler.Proofs.Text.NamedValues

/-!
# Filling phis

Once a body is opened, the tables stay as they are: what an operand stands for is known from them (`Reading.refer`), and
so is what a pair of a phi stands for (`Reading.pair`). Filling a phi then is a function of these: the constants and
addresses of all pairs are entered in the order of the pairs, and the phi gets one slot per predecessor, with the number
of what is paired with that predecessor (`Function.fill?`).
-/

set_option autoImplicit false

namespace SsaCompiler

open Edits

/-! ## Outcomes as options -/

namespace Outcome

variable {α β : Type}

theorem toOption_bind (x : Outcome α) (next : α → Outcome β) :
    (x >>= next).toOption = x.toOption.bind fun a => (next a).toOption := by cases x <;> rfl

variable {x : Outcome α}

theorem toOption_eq_some {a : α} : x.toOption = some a ↔ x = .ok a := by
  cases x with
  | error e => exact iff_of_false nofun nofun
  | ok b => exact ⟨fun h => congrArg Except.ok (Option.some.inj h), fun h => congrArg some (Except.ok.inj h)⟩

/-- Computations agree if their results are related as far as there are any. -/
theorem agree_of_toOption {R : α → β → Prop} {y : Outcome β} (h : Option.Rel R x.toOption y.toOption) :
    Agree R x y := by
  cases x <;> cases y <;> cases h
  · trivial
  · assumption

end Outcome

/-! ## Lists -/

variable {phis : List (BlockId × InstId × Statement)} {ref : Reference} {γ δ : Type}

theorem lookup_map_snd (h : γ → δ) (found : List (BlockId × γ)) (c : BlockId) :
    (found.map fun p => (p.1, h p.2)).lookup c = (found.lookup c).map h := by
  induction found with
  | nil => rfl
  | cons p rest ih =>
    rw [List.map_cons, List.lookup_cons, List.lookup_cons, ih]
    cases c == p.1 <;> rfl

theorem mapM_map_some {ε : Type} (h : δ → ε) (act : γ → Option δ) (list : List γ) :
    (list.mapM fun c => (act c).map h) = (list.mapM act).map (List.map h) := by
  induction list with
  | nil => rfl
  | cons c rest ih =>
    rw [List.mapM_cons, List.mapM_cons, ih]
    cases act c with
    | none => rfl
    | some d => cases rest.mapM act <;> rfl

/-- What a list of questions answers is related to it, question by question. -/
theorem mapM_eq_some_iff {act : γ → Option δ} {list : List γ} : ∀ {found : List δ},
    list.mapM act = some found ↔ List.Forall₂ (fun c d => act c = some d) list found := by
  induction list with
  | nil =>
    intro found
    rw [List.forall₂_nil_left_iff]
    exact ⟨fun h => (Option.some.inj h).symm, fun h => congrArg some h.symm⟩
  | cons c rest ih =>
    intro found
    rw [List.mapM_cons, List.forall₂_cons_left_iff]
    simp only [Option.bind_eq_bind, Option.bind_eq_some_iff, ih]
    constructor
    · rintro ⟨d, hd, more, hmore, heq⟩
      exact ⟨d, more, hd, hmore, (Option.some.inj heq).symm⟩
    · rintro ⟨d, more, hd, hmore, rfl⟩
      exact ⟨d, hd, more, hmore, rfl⟩

/-! ## What operands and pairs stand for -/

variable {blocks : List (String × BlockId)} {v : ValueId}

namespace Reading

variable {r : Reading} {id : FuncId} {f g : Function}

/-- The state with another function at a number. -/
def withFunction (id : FuncId) (f : Function) (r : Reading) : Reading := { r with module := r.module.withFunction id f }

theorem function_withFunction (f : Function) (hid : id < r.module.functions.size) :
    (r.withFunction id f).module.function id = f :=
  (Module.function_withFunction f hid id).trans (if_pos rfl)

theorem size_withFunction (r : Reading) (id : FuncId) (f : Function) :
    (r.withFunction id f).module.functions.size = r.module.functions.size := Module.size_withFunction f

theorem withFunction_withFunction (r : Reading) (id : FuncId) (f g : Function) :
    (r.withFunction id f).withFunction id g = r.withFunction id g := by
  unfold withFunction Module.withFunction
  rw [Array.setIfInBounds_setIfInBounds]

theorem withFunction_self (r : Reading) (id : FuncId) : r.withFunction id (r.module.function id) = r := by
  have hset : r.module.functions.setIfInBounds id (r.module.function id) = r.module.functions := by
    refine Array.ext_getElem? fun j => ?_
    rw [Array.getElem?_setIfInBounds, r.module.getElem?_function j]
    by_cases hj : id = j
    · subst hj
      rw [if_pos rfl]
    · rw [if_neg hj]
  unfold withFunction Module.withFunction
  rw [hset]

/-- What an operand stands for, by the tables of a state. -/
def refer (r : Reading) : SourceOperand → Option Reference
  | .int c => some (.stands (.const c) rfl)
  | .localName name => (r.values.lookup name).map .named
  | .symbol name =>
    match r.module.globalByName? name with
    | some g => some (.stands (.global g) rfl)
    | none => (r.module.stringByName? name).map fun s => .stands (.str s) rfl

/-- What a pair of a phi stands for. Its block must be a predecessor. -/
def pair (r : Reading) (blocks : List (String × BlockId)) (preds : List BlockId) (p : String × SourceOperand) :
    Option (BlockId × Reference) :=
  (blocks.lookup p.1).bind fun c => if preds.contains c then (r.refer p.2).map fun ref => (c, ref) else none

theorem refer_withFunction (r : Reading) (id : FuncId) (f : Function) : (r.withFunction id f).refer = r.refer := by
  funext operand
  cases operand <;> rfl

theorem pair_withFunction (r : Reading) (id : FuncId) (f : Function) : (r.withFunction id f).pair = r.pair := by
  unfold pair
  rw [refer_withFunction]

/-- The values that the table names are there. -/
def Within (r : Reading) (f : Function) : Prop := ∀ name v, r.values.lookup name = some v → v < f.values.size

variable {operand : SourceOperand} {p : String × SourceOperand}

/-- Only names stand for values that are there by their names. -/
theorem refer_eq_named (h : r.refer operand = some (.named v)) :
    ∃ name, operand = .localName name ∧ r.values.lookup name = some v := by
  cases operand with
  | int c => cases h
  | localName name =>
    obtain ⟨w, hw, heq⟩ := Option.map_eq_some_iff.1 h
    cases heq
    exact ⟨name, rfl, hw⟩
  | symbol name =>
    unfold refer at h
    dsimp only at h
    split at h
    · cases h
    · obtain ⟨s, -, heq⟩ := Option.map_eq_some_iff.1 h
      cases heq

theorem Within.refer (h : r.Within f) (href : r.refer operand = some (.named v)) : v < f.values.size := by
  obtain ⟨name, -, hlookup⟩ := refer_eq_named href
  exact h name v hlookup

theorem pair_eq_some_iff {preds : List BlockId} {found : BlockId × Reference} : r.pair blocks preds p = some found ↔
      blocks.lookup p.1 = some found.1 ∧ found.1 ∈ preds ∧ r.refer p.2 = some found.2 := by
  unfold pair
  rw [Option.bind_eq_some_iff]
  constructor
  · rintro ⟨c, hlookup, hfound⟩
    split at hfound
    · rename_i hcontains
      obtain ⟨ref, href, rfl⟩ := Option.map_eq_some_iff.1 hfound
      exact ⟨hlookup, List.contains_iff_mem.1 hcontains, href⟩
    · cases hfound
  · rintro ⟨hlookup, hmem, href⟩
    refine ⟨found.1, hlookup, ?_⟩
    rw [if_pos (List.contains_iff_mem.2 hmem), href]
    rfl

/-- A value that a pair names is there. -/
theorem Within.pair (h : r.Within f) {preds : List BlockId} {c : BlockId}
    (hp : r.pair blocks preds p = some (c, .named v)) : v < f.values.size :=
  h.refer (pair_eq_some_iff.1 hp).2.2

theorem Within.mono (h : r.Within f) (hle : f.values.size ≤ g.values.size) : r.Within g :=
  fun name v hv => Nat.lt_of_lt_of_le (h name v hv) hle

end Reading

/-- The pairs of a phi. -/
def SourceOp.pairs : SourceOp → List (String × SourceOperand)
  | phi pairs => pairs
  | _ => []

namespace Function

/-- The function with a phi filled, if its pairs stand for something and every predecessor has one. -/
def fill? (pair : String × SourceOperand → Option (BlockId × Reference)) (block : BlockId) (phi : InstId)
    (pairs : List (String × SourceOperand)) (f : Function) : Option Function := do
  let found ← pairs.mapM pair
  let refs ← (f.preds block).mapM fun p => found.lookup p
  let g := f.enterAll (found.map Prod.snd)
  return g.withOperands phi (refs.map fun ref => ref.number g)

theorem preds_enter (f : Function) (ref : Reference) (b : BlockId) : (ref.enter f).preds b = f.preds b := by
  rw [(f.moreKinds_enter ref).rest]
  rfl

variable {found : List (BlockId × Reference)} {refs : List Reference}

/-- What is entered is there. -/
theorem holds_enterAll : ∀ {f : Function}, (∀ v, .named v ∈ refs → v < f.values.size) →
    ∀ ref ∈ refs, (f.enterAll refs).Holds ref := by
  induction refs with
  | nil => exact fun _ ref href => absurd href List.not_mem_nil
  | cons first rest ih =>
    intro f hnamed ref href
    rcases List.mem_cons.1 href with rfl | href
    · exact (f.holds_enter ref fun v hv => hnamed v (hv ▸ List.mem_cons_self)).1.enterAll rest |>.1
    · refine ih (fun v hv => ?_) ref href
      exact Nat.lt_of_lt_of_le (hnamed v (List.mem_cons_of_mem _ hv)) (f.moreKinds_enter first).size_le

theorem lt_of_mapM {n : Nat} {pair : String × SourceOperand → Option (BlockId × Reference)}
    {pairs : List (String × SourceOperand)} (hnamed : ∀ p c v, pair p = some (c, .named v) → v < n)
    (hfound : pairs.mapM pair = some found) : ∀ v, .named v ∈ found.map Prod.snd → v < n := by
  intro v hv
  obtain ⟨⟨c, ref⟩, hp, hnamed'⟩ := List.mem_map.1 hv
  obtain ⟨q, -, hq⟩ := exists_mem_of_forall₂ (mapM_eq_some_iff.1 hfound).flip hp
  exact hnamed q c v (hq.trans (congrArg (fun ref => some (c, ref)) hnamed'))

/-- What is found for predecessors is there when all that the pairs stand for is entered. -/
theorem holds_of_lookup {f : Function} {pair : String × SourceOperand → Option (BlockId × Reference)}
    {pairs : List (String × SourceOperand)} {preds : List BlockId}
    (hnamed : ∀ p c v, pair p = some (c, .named v) → v < f.values.size) (hfound : pairs.mapM pair = some found)
    (hrefs : preds.mapM (fun p => found.lookup p) = some refs) (href : ref ∈ refs) :
    ref ∈ found.map Prod.snd ∧ (f.enterAll (found.map Prod.snd)).Holds ref := by
  obtain ⟨p, -, hp⟩ := exists_mem_of_forall₂ (mapM_eq_some_iff.1 hrefs).flip href
  have hmem : ref ∈ found.map Prod.snd := List.mem_map.2 ⟨(p, ref), mem_of_lookup hp, rfl⟩
  exact ⟨hmem, holds_enterAll (lt_of_mapM hnamed hfound) ref hmem⟩

theorem preds_enterAll (f : Function) (refs : List Reference) (b : BlockId) : (f.enterAll refs).preds b = f.preds b := by
  rw [(f.moreKinds_enterAll refs).rest]
  rfl

end Function

namespace Reader

variable (b : Builder) {r : Reading}

/-! ## Runs -/

variable {block : BlockId} {f' : Function} {α : Type}

theorem run_edit {e : Edit α} {a : α} (hid : b.func < r.module.functions.size)
    (he : e.run (r.module.function b.func) = (.ok a, f')) :
    (change (b.edit e)).run r = .ok (a, r.withFunction b.func f') := by
  rw [run_change]
  unfold Builder.edit
  rw [ModuleEdit.run_editFunction, if_pos hid, he]
  rfl

theorem run_some_edit {m : Module} {e : Edit α} {a : α} (hid : b.func < m.functions.size)
    (he : e.run (m.function b.func) = (.ok a, f')) :
    (some <$> b.edit e).run m = (.ok (some a), m.withFunction b.func f') := by
  rw [map_eq_pure_bind, run_bind]
  unfold Builder.edit
  rw [ModuleEdit.run_editFunction, if_pos hid, he]
  rfl

/-- Reading the address of a global. -/
theorem run_global (name : String) (hid : b.func < r.module.functions.size) : (change (b.global name)).run r =
    match r.module.globalByName? name with
    | some g => .ok (some ((r.module.function b.func).numberOf (.global g)),
        r.withFunction b.func ((r.module.function b.func).entered (.global g)))
    | none => .ok (none, r) := by
  rw [run_change]
  unfold Builder.global
  rw [run_get_bind]
  cases r.module.globalByName? name with
  | none => rfl
  | some g =>
    dsimp only
    rw [run_some_edit (e := Edit.globalValue g) b hid (Edit.run_internValue (.global g) _)]
    rfl

theorem run_string (name : String) (hid : b.func < r.module.functions.size) : (change (b.string name)).run r =
    match r.module.stringByName? name with
    | some s => .ok (some ((r.module.function b.func).numberOf (.str s)),
        r.withFunction b.func ((r.module.function b.func).entered (.str s)))
    | none => .ok (none, r) := by
  rw [run_change]
  unfold Builder.string
  rw [run_get_bind]
  cases r.module.stringByName? name with
  | none => rfl
  | some s =>
    dsimp only
    rw [run_some_edit (e := Edit.stringValue s) b hid (Edit.run_internValue (.str s) _)]
    rfl

theorem run_value (line : Nat) (operand : SourceOperand) (hid : b.func < r.module.functions.size) :
    ((value b line operand).run r).toOption = (r.refer operand).map fun ref =>
      (ref.number (r.module.function b.func), r.withFunction b.func (ref.enter (r.module.function b.func))) := by
  cases operand with
  | int c => exact congrArg Except.toOption (run_edit b hid (Edit.run_internValue (.const c) _))
  | localName name =>
    unfold value Reading.refer
    rw [StateT.run_bind, StateT.run_get, pure_bind]
    dsimp only
    cases r.values.lookup name with
    | none => rfl
    | some v => exact congrArg (fun r' => some (v, r')) (r.withFunction_self b.func).symm
  | symbol name =>
    unfold value
    rw [StateT.run_bind, Outcome.toOption_bind, run_global b name hid]
    unfold Reading.refer
    dsimp only
    cases r.module.globalByName? name with
    | some g => rfl
    | none =>
      change Option.bind (some (none, r)) _ = _
      rw [Option.bind_some, StateT.run_bind, run_string b name hid]
      cases r.module.stringByName? name <;> rfl

theorem run_incomingPairs {line : Nat} {pairs : List (String × SourceOperand)} :
    ∀ {r : Reading}, b.func < r.module.functions.size →
      r.Within (r.module.function b.func) →
      ((incomingPairs b blocks line block pairs).run r).toOption =
        (pairs.mapM (r.pair blocks ((r.module.function b.func).preds block))).map fun found =>
          (found.map fun p => (p.1, p.2.number ((r.module.function b.func).enterAll (found.map Prod.snd))),
            r.withFunction b.func ((r.module.function b.func).enterAll (found.map Prod.snd))) := by
  induction pairs with
  | nil =>
    intro r hid _
    exact congrArg (fun r' => some ([], r')) (r.withFunction_self b.func).symm
  | cons p rest ih =>
    intro r hid hwithin
    obtain ⟨name, operand⟩ := p
    unfold incomingPairs blockNamed
    rw [List.mapM_cons, StateT.run_bind]
    have hpair : r.pair blocks ((r.module.function b.func).preds block) (name, operand) =
      (blocks.lookup name).bind fun c => if ((r.module.function b.func).preds block).contains c then
        (r.refer operand).map fun ref => (c, ref) else none := rfl
    cases hblock : blocks.lookup name with
    | none =>
      rw [hpair, hblock]
      rfl
    | some c =>
      rw [hpair, hblock]
      change Except.toOption (StateT.run (do
        if !((r.module.function b.func).preds block).contains c then
          fault line (.notAPredecessor name ((r.module.function b.func).blockName block))
        let v ← value b line operand
        return (c, v) :: (← incomingPairs b blocks line block rest) : Reader _) r) = _
      rw [Option.bind_some]
      cases hcontains : ((r.module.function b.func).preds block).contains c with
      | false => rfl
      | true =>
        rw [if_pos rfl]
        change Except.toOption (StateT.run (do
          let v ← value b line operand
          return (c, v) :: (← incomingPairs b blocks line block rest) : Reader _) r) = _
        rw [StateT.run_bind, Outcome.toOption_bind, run_value b line operand hid]
        cases href : r.refer operand with
        | none => rfl
        | some ref =>
          have hmore := (r.module.function b.func).moreKinds_enter ref
          have hfunction : (r.withFunction b.func (ref.enter (r.module.function b.func))).module.function b.func =
            ref.enter (r.module.function b.func) := Reading.function_withFunction _ hid
          have hrest := @ih (r.withFunction b.func (ref.enter (r.module.function b.func)))
            (by rwa [Reading.size_withFunction]) (by rw [hfunction]; exact hwithin.mono hmore.size_le)
          rw [hfunction, Reading.pair_withFunction, Function.preds_enter] at hrest
          rw [Option.map_some, Option.bind_some, StateT.run_bind, Outcome.toOption_bind, hrest]
          cases rest.mapM (r.pair blocks ((r.module.function b.func).preds block)) with
          | none => rfl
          | some found =>
            -- the number of the first operand stays when the others are read
            obtain ⟨hholds, hnumber⟩ := (r.module.function b.func).holds_enter ref
              fun v hv => hwithin.refer (hv ▸ href)
            have hlast := (hholds.enterAll (found.map Prod.snd)).2.trans hnumber
            rw [Option.map_some, Option.bind_some]
            change some ((c, ref.number (r.module.function b.func)) :: _, (r.withFunction b.func _).withFunction b.func _) = _
            rw [Reading.withFunction_withFunction, ← hlast]
            rfl

/-- Giving a phi a slot for each of some predecessors. -/
theorem run_slots {incoming : List (BlockId × ValueId)} (phi : InstId) (line : Nat) (name : BlockId → String)
    (preds : List BlockId) : ∀ {r : Reading}, b.func < r.module.functions.size →
      phi < (r.module.function b.func).insts.size →
      (∀ e ∈ incoming, e.2 < (r.module.function b.func).values.size) →
      ((preds.forM fun pred => match incoming.lookup pred with
        | some v => change (b.edit (Edit.pushOperand phi v))
        | none => fault line (.missingIncoming (name pred))).run r).toOption =
          (preds.mapM fun p => incoming.lookup p).map fun vs =>
            (⟨⟩, r.withFunction b.func ((r.module.function b.func).withOperands phi vs)) := by
  induction preds with
  | nil =>
    intro r hid _ _
    exact congrArg (fun r' => some (PUnit.unit, r')) (r.withFunction_self b.func).symm
  | cons pred rest ih =>
    intro r hid hphi hin
    change Except.toOption (StateT.run ((match incoming.lookup pred with
      | some v => change (b.edit (Edit.pushOperand phi v))
      | none => fault line (.missingIncoming (name pred))) >>= fun _ => rest.forM _) r) = _
    rw [List.mapM_cons, StateT.run_bind, Outcome.toOption_bind]
    cases hlookup : incoming.lookup pred with
    | none => rfl
    | some v =>
      have hv := hin _ (mem_of_lookup hlookup)
      have hfunction : (r.withFunction b.func ((r.module.function b.func).withOperand phi v)).module.function b.func =
        (r.module.function b.func).withOperand phi v := Reading.function_withFunction _ hid
      have hrest := @ih (r.withFunction b.func ((r.module.function b.func).withOperand phi v))
        (by rwa [Reading.size_withFunction]) (by rw [hfunction]; exact Nat.lt_of_lt_of_eq hphi (Array.size_modify ..).symm)
        (by rw [hfunction, Function.size_withOperand]; exact hin)
      rw [hfunction] at hrest
      dsimp only
      rw [run_edit b hid (Edit.run_pushOperand hphi hv)]
      refine hrest.trans ?_
      cases rest.mapM fun p => incoming.lookup p with
      | none => rfl
      | some vs =>
        rw [Option.map_some, Reading.withFunction_withFunction]
        rfl

theorem run_fillPhi {phi : InstId} {s : Statement} (hs : s.op.isPhi = true) (hid : b.func < r.module.functions.size)
    (hwithin : r.Within (r.module.function b.func)) (hphi : phi < (r.module.function b.func).insts.size) :
    ((fillPhi b blocks block phi s).run r).toOption =
      ((r.module.function b.func).fill? (r.pair blocks ((r.module.function b.func).preds block)) block phi s.op.pairs).map
        fun g => (⟨⟩, r.withFunction b.func g) := by
  obtain ⟨pairs, hpairs⟩ : ∃ pairs, s.op = .phi pairs := by
    cases hop : s.op with
    | phi pairs => exact ⟨pairs, rfl⟩
    | binary | alloca | load | store | gep | call | print | jump | branch | ret =>
      rw [hop] at hs
      cases hs
  unfold fillPhi Function.fill?
  rw [hpairs]
  dsimp only [SourceOp.pairs]
  rw [StateT.run_bind, Outcome.toOption_bind, run_incomingPairs b hid hwithin]
  cases hfound : pairs.mapM (r.pair blocks ((r.module.function b.func).preds block)) with
  | none => rfl
  | some found =>
    -- the slots are given in the function in which the constants and addresses of all pairs are there
    obtain ⟨g, hg⟩ : ∃ g, g = (r.module.function b.func).enterAll (found.map Prod.snd) := ⟨_, rfl⟩
    have hfunction : (r.withFunction b.func g).module.function b.func = g := Reading.function_withFunction _ hid
    have hpreds : g.preds block = (r.module.function b.func).preds block := hg ▸ Function.preds_enterAll ..
    have hin : ∀ e ∈ found.map fun p => (p.1, p.2.number g), e.2 < g.values.size := by
      intro e he
      obtain ⟨p, hp, rfl⟩ := List.mem_map.1 he
      rw [hg]
      have hlt := Function.lt_of_mapM (fun _ _ _ hp => hwithin.pair hp) hfound
      exact (Function.holds_enterAll hlt p.2 (List.mem_map.2 ⟨p, hp, rfl⟩)).number_lt
    have hphi' : phi < g.insts.size := by
      rw [hg, (Function.moreKinds_enterAll _ _).rest]
      exact hphi
    have hslots := run_slots (r := r.withFunction b.func g) b phi s.line g.blockName
      ((r.module.function b.func).preds block) (by rwa [Reading.size_withFunction]) (by rwa [hfunction])
      (by rwa [hfunction])
    have hnumbers : (((r.module.function b.func).preds block).mapM fun p =>
        List.lookup p (found.map fun p => (p.1, p.2.number g))) =
          (((r.module.function b.func).preds block).mapM fun p => found.lookup p).map
            (List.map fun ref => ref.number g) := by
      rw [← mapM_map_some]
      simp only [lookup_map_snd]
    rw [hfunction, hnumbers] at hslots
    rw [Option.map_some, Option.bind_some, ← hg]
    change Except.toOption (StateT.run ((((r.withFunction b.func g).module.function b.func).preds block).forM fun pred =>
      match List.lookup pred (found.map fun p => (p.1, p.2.number g)) with
      | some v => change (b.edit (Edit.pushOperand phi v))
      | none => fault s.line (.missingIncoming (((r.withFunction b.func g).module.function b.func).blockName pred)))
        (r.withFunction b.func g)) = _
    rw [hfunction, hpreds]
    refine hslots.trans ?_
    change _ = Option.map _ (Option.bind (((r.module.function b.func).preds block).mapM fun p => found.lookup p) fun refs =>
      some (((r.module.function b.func).enterAll (found.map Prod.snd)).withOperands phi (refs.map fun ref =>
        ref.number ((r.module.function b.func).enterAll (found.map Prod.snd)))))
    rw [← hg]
    cases ((r.module.function b.func).preds block).mapM fun p => found.lookup p with
    | none => rfl
    | some refs =>
      rw [Option.map_some, Option.map_some, Reading.withFunction_withFunction]
      rfl

end Reader

/-! ## What filling keeps -/

namespace Function

variable {f g h : Function} {pair : String × SourceOperand → Option (BlockId × Reference)} {block : BlockId} {phi : InstId}
  {pairs : List (String × SourceOperand)}

/-- There may be more values and other operands, and the rest is the same. -/
structure Keeps (f g : Function) : Prop where
  blocks : g.blocks = f.blocks
  insts_size : g.insts.size = f.insts.size
  instKind : ∀ i, g.kind i = f.kind i
  result : ∀ i, g.result? i = f.result? i
  place : ∀ i, g.blockOf? i = f.blockOf? i
  size_le : f.values.size ≤ g.values.size
  kind : ∀ v, v < f.values.size → (g.value v).kind = (f.value v).kind
  name : ∀ v, (g.value v).name = (f.value v).name

theorem Keeps.refl (f : Function) : f.Keeps f :=
  ⟨rfl, rfl, fun _ => rfl, fun _ => rfl, fun _ => rfl, Nat.le_refl _, fun _ _ => rfl, fun _ => rfl⟩

theorem Keeps.trans (h₁ : f.Keeps g) (h₂ : g.Keeps h) : f.Keeps h where
  blocks := h₂.blocks.trans h₁.blocks
  insts_size := h₂.insts_size.trans h₁.insts_size
  instKind i := (h₂.instKind i).trans (h₁.instKind i)
  result i := (h₂.result i).trans (h₁.result i)
  place i := (h₂.place i).trans (h₁.place i)
  size_le := h₁.size_le.trans h₂.size_le
  kind v hv := (h₂.kind v (Nat.lt_of_lt_of_le hv h₁.size_le)).trans (h₁.kind v hv)
  name v := (h₂.name v).trans (h₁.name v)

theorem MoreKinds.keeps (h : f.MoreKinds g) : f.Keeps g := by
  rw [h.rest]
  exact ⟨rfl, rfl, fun _ => rfl, fun _ => rfl, fun _ => rfl, h.size_le,
    fun v hv => congrArg ValueData.kind (h.value v hv), h.name⟩

theorem keeps_withOperand (hphi : phi < f.insts.size) (hv : v < f.values.size) : f.Keeps (f.withOperand phi v) := by
  have hinst : ∀ i, (f.withOperand phi v).kind i = f.kind i ∧ (f.withOperand phi v).result? i = f.result? i ∧
      (f.withOperand phi v).blockOf? i = f.blockOf? i := by
    intro i
    unfold Function.kind Function.result? Function.blockOf?
    rw [inst_withOperand hphi]
    split
    · rename_i hi
      rw [hi]
      exact ⟨rfl, rfl, rfl⟩
    · exact ⟨rfl, rfl, rfl⟩
  exact ⟨rfl, Array.size_modify .., fun i => (hinst i).1, fun i => (hinst i).2.1, fun i => (hinst i).2.2,
    Nat.le_of_eq (size_withOperand ..).symm, fun w _ => (kind_name_withOperand hv w).1,
    fun w => (kind_name_withOperand hv w).2⟩

/-- Giving a phi more operands. -/
theorem keeps_withOperands {vs : List ValueId} : ∀ {f : Function}, phi < f.insts.size → (∀ v ∈ vs, v < f.values.size) →
    f.Keeps (f.withOperands phi vs) ∧ (f.withOperands phi vs).operands phi = f.operands phi ++ vs ∧
      ∀ j, j ≠ phi → (f.withOperands phi vs).operands j = f.operands j := by
  induction vs with
  | nil => exact fun {f} _ _ => ⟨.refl f, (List.append_nil _).symm, fun _ _ => rfl⟩
  | cons v rest ih =>
    intro f hphi hvs
    have hkeeps := keeps_withOperand hphi (hvs v List.mem_cons_self)
    have hoperands : ∀ j, (f.withOperand phi v).operands j = if j = phi then f.operands phi ++ [v] else f.operands j := by
      intro j
      unfold Function.operands
      rw [inst_withOperand hphi]
      split <;> rfl
    obtain ⟨hkeeps', hphi', hothers⟩ := @ih (f.withOperand phi v) (hkeeps.insts_size.symm ▸ hphi)
      fun w hw => Nat.lt_of_lt_of_le (hvs w (List.mem_cons_of_mem _ hw)) hkeeps.size_le
    refine ⟨hkeeps.trans hkeeps', hphi'.trans ?_, fun j hj => (hothers j hj).trans ?_⟩
    · rw [hoperands, if_pos rfl, List.append_assoc]
      rfl
    · rw [hoperands, if_neg hj]

theorem Holds.keeps (h : f.Holds ref) (hk : f.Keeps g) : g.Holds ref ∧ ref.number g = ref.number f := by
  cases ref with
  | named v => exact ⟨Nat.lt_of_lt_of_le h hk.size_le, rfl⟩
  | stands kind _ =>
    obtain ⟨hlt, hkind, hfirst⟩ := h
    have hfirst : g.IsFirst kind (f.numberOf kind) := by
      refine ⟨Nat.lt_of_lt_of_le hlt hk.size_le, (hk.kind _ hlt).trans hkind, fun w hw => ?_⟩
      rw [hk.kind w (hw.trans hlt)]
      exact hfirst w hw
    have hnumber : g.numberOf kind = f.numberOf kind := hfirst.numberOf_eq
    refine ⟨?_, hnumber⟩
    change g.IsFirst kind (g.numberOf kind)
    rwa [hnumber]

/-- What filling a phi is. -/
theorem fill?_eq_some_iff : f.fill? pair block phi pairs = some g ↔ ∃ found refs, pairs.mapM pair = some found ∧
    ((f.preds block).mapM fun p => found.lookup p) = some refs ∧
      g = (f.enterAll (found.map Prod.snd)).withOperands phi
        (refs.map fun ref => ref.number (f.enterAll (found.map Prod.snd))) := by
  unfold fill?
  simp only [Option.bind_eq_bind, Option.bind_eq_some_iff, Option.pure_def, Option.some.injEq, eq_comm (b := g)]
  exact ⟨fun ⟨found, hfound, refs, hrefs, heq⟩ => ⟨found, refs, hfound, hrefs, heq⟩,
    fun ⟨found, refs, hfound, hrefs, heq⟩ => ⟨found, hfound, refs, hrefs, heq⟩⟩

/-- What a filled phi holds: one slot per predecessor, with what is paired with it. -/
structure Slots (f : Function) (pair : String × SourceOperand → Option (BlockId × Reference)) (preds : List BlockId)
    (phi : InstId) (pairs : List (String × SourceOperand)) : Prop where
  of : ∃ found refs, pairs.mapM pair = some found ∧ (preds.mapM fun p => found.lookup p) = some refs ∧
    f.operands phi = refs.map (fun ref => ref.number f) ∧ ∀ ref ∈ refs, f.Holds ref

theorem Slots.keeps {preds : List BlockId} (h : f.Slots pair preds phi pairs) (hk : f.Keeps g)
    (hoperands : g.operands phi = f.operands phi) : g.Slots pair preds phi pairs := by
  obtain ⟨found, refs, hfound, hrefs, hslots, hholds⟩ := h.of
  refine ⟨found, refs, hfound, hrefs, ?_, fun ref href => ((hholds ref href).keeps hk).1⟩
  rw [hoperands, hslots]
  exact List.map_congr_left fun ref href => ((hholds ref href).keeps hk).2.symm

/-- Filling a phi. If it has no slots, it gets one per predecessor. -/
theorem fill?_spec (hphi : phi < f.insts.size)
    (hnamed : ∀ p c v, pair p = some (c, .named v) → v < f.values.size) (h : f.fill? pair block phi pairs = some g) :
    f.Keeps g ∧ (∀ j, j ≠ phi → g.operands j = f.operands j) ∧
      (f.operands phi = [] → g.Slots pair (f.preds block) phi pairs) := by
  obtain ⟨found, refs, hfound, hrefs, rfl⟩ := fill?_eq_some_iff.1 h
  have hmore := (f.moreKinds_enterAll (found.map Prod.snd)).keeps
  have hholds : ∀ ref ∈ refs, (f.enterAll (found.map Prod.snd)).Holds ref := fun ref href =>
    (holds_of_lookup hnamed hfound hrefs href).2
  have hphi' : phi < (f.enterAll (found.map Prod.snd)).insts.size := hmore.insts_size.symm ▸ hphi
  have hnumbers : ∀ v ∈ refs.map (fun ref => ref.number (f.enterAll (found.map Prod.snd))),
      v < (f.enterAll (found.map Prod.snd)).values.size := by
    intro v hv
    obtain ⟨ref, href, rfl⟩ := List.mem_map.1 hv
    exact (hholds ref href).number_lt
  obtain ⟨hkeeps, hslots, hothers⟩ := keeps_withOperands hphi' hnumbers
  have hold : ∀ j, (f.enterAll (found.map Prod.snd)).operands j = f.operands j := fun j => by
    rw [(moreKinds_enterAll _ f).rest]
    rfl
  refine ⟨hmore.trans hkeeps, fun j hj => (hothers j hj).trans (hold j), fun hempty => ⟨found, refs, hfound, hrefs, ?_,
    fun ref href => ((hholds ref href).keeps hkeeps).1⟩⟩
  rw [hslots, hold, hempty, List.nil_append]
  exact List.map_congr_left fun ref href => ((hholds ref href).keeps hkeeps).2.symm

/-- The function with some phis filled, one after the other. -/
def fillAll? (pair : List BlockId → String × SourceOperand → Option (BlockId × Reference)) :
    List (BlockId × InstId × Statement) → Function → Option Function
  | [], f => some f
  | e :: rest, f => (f.fill? (pair (f.preds e.1)) e.1 e.2.1 e.2.2.op.pairs).bind (fillAll? pair rest)

theorem Keeps.preds (h : f.Keeps g) (b : BlockId) : g.preds b = f.preds b := by
  unfold Function.preds Function.block
  rw [h.blocks]

/-- Filling all phis, none of which has a slot yet. -/
theorem slots_fillAll? {pair : List BlockId → String × SourceOperand → Option (BlockId × Reference)} :
    ∀ {f : Function}, (phis.map fun e => e.2.1).Nodup →
      (∀ e ∈ phis, e.2.1 < f.insts.size ∧ f.operands e.2.1 = []) →
      (∀ preds p c v, pair preds p = some (c, .named v) → v < f.values.size) → f.fillAll? pair phis = some g →
      f.Keeps g ∧ (∀ j, j ∉ phis.map (fun e => e.2.1) → g.operands j = f.operands j) ∧
        ∀ e ∈ phis, g.Slots (pair (g.preds e.1)) (g.preds e.1) e.2.1 e.2.2.op.pairs := by
  induction phis with
  | nil =>
    intro f _ _ _ h
    cases h
    exact ⟨.refl _, fun _ _ => rfl, fun e he => absurd he List.not_mem_nil⟩
  | cons e rest ih =>
    intro f hnodup hempty hnamed h
    obtain ⟨f₁, hfirst, hrest⟩ := Option.bind_eq_some_iff.1 h
    obtain ⟨hnot, hnodup⟩ := List.nodup_cons.1 hnodup
    obtain ⟨hphi, hnone⟩ := hempty e List.mem_cons_self
    obtain ⟨hkeeps₁, hothers₁, hslots₁⟩ := fill?_spec hphi (hnamed _) hfirst
    have hempty₁ : ∀ e' ∈ rest, e'.2.1 < f₁.insts.size ∧ f₁.operands e'.2.1 = [] := by
      intro e' he'
      obtain ⟨hlt, hnone'⟩ := hempty e' (List.mem_cons_of_mem _ he')
      have hne : e'.2.1 ≠ e.2.1 := fun heq => hnot (List.mem_map.2 ⟨e', he', heq⟩)
      exact ⟨hkeeps₁.insts_size.symm ▸ hlt, (hothers₁ _ hne).trans hnone'⟩
    obtain ⟨hkeeps, hothers, hslots⟩ := ih hnodup hempty₁
      (fun preds p c v hp => Nat.lt_of_lt_of_le (hnamed preds p c v hp) hkeeps₁.size_le) hrest
    refine ⟨hkeeps₁.trans hkeeps, fun j hj => ?_, fun e' he' => ?_⟩
    · rw [List.map_cons, List.mem_cons, not_or] at hj
      exact (hothers j hj.2).trans (hothers₁ j hj.1)
    · rcases List.mem_cons.1 he' with rfl | he'
      · rw [hkeeps.preds, hkeeps₁.preds]
        exact (hslots₁ hnone).keeps hkeeps (hothers _ hnot)
      · exact hslots e' he'

end Function

namespace Reader

variable (b : Builder)

theorem run_fillPhis : ∀ {r : Reading},
    b.func < r.module.functions.size → r.Within (r.module.function b.func) →
    (∀ e ∈ phis, e.2.2.op.isPhi = true ∧ e.2.1 < (r.module.function b.func).insts.size) →
    ((phis.forM fun e => fillPhi b blocks e.1 e.2.1 e.2.2).run r).toOption =
      ((r.module.function b.func).fillAll? (r.pair blocks) phis).map fun g => (⟨⟩, r.withFunction b.func g) := by
  induction phis with
  | nil =>
    intro r _ _ _
    exact congrArg (fun r' => some (PUnit.unit, r')) (r.withFunction_self b.func).symm
  | cons e rest ih =>
    intro r hid hwithin hphis
    obtain ⟨hs, hphi⟩ := hphis e List.mem_cons_self
    change Except.toOption (StateT.run (fillPhi b blocks e.1 e.2.1 e.2.2 >>= fun _ => rest.forM _) r) = Option.map _
      (((r.module.function b.func).fill? _ e.1 e.2.1 e.2.2.op.pairs).bind _)
    rw [StateT.run_bind, Outcome.toOption_bind, run_fillPhi b hs hid hwithin hphi]
    cases hfill : (r.module.function b.func).fill? (r.pair blocks ((r.module.function b.func).preds e.1)) e.1 e.2.1
        e.2.2.op.pairs with
    | none => rfl
    | some g =>
      have hfunction : (r.withFunction b.func g).module.function b.func = g := Reading.function_withFunction _ hid
      have hkeeps := (Function.fill?_spec hphi (fun _ _ _ hp => hwithin.pair hp) hfill).1
      have hrest := @ih (r.withFunction b.func g) (by rwa [Reading.size_withFunction])
        (by rw [hfunction]; exact hwithin.mono hkeeps.size_le)
        (by rw [hfunction, hkeeps.insts_size]; exact fun e' he' => hphis e' (List.mem_cons_of_mem _ he'))
      rw [hfunction, Reading.pair_withFunction] at hrest
      refine hrest.trans ?_
      rw [Option.bind_some]
      cases g.fillAll? (r.pair blocks) rest with
      | none => rfl
      | some h =>
        rw [Option.map_some, Option.map_some, Reading.withFunction_withFunction]

end Reader

end SsaCompiler
