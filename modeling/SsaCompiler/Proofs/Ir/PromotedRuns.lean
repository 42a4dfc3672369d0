import SsaCompiler.Proofs.Ir.Reshaping
import SsaCompiler.Proofs.Ir.SlotValues

/-!
# Runs of promoted functions

A function whose slots are promoted according to a coherent plan runs like the function itself for an observer who
does not see the words of the slots. A load or store of a slot is answered by no step at all: the word of the slot
is the word of its current value (`Follows.slots`), and what was loaded is the word of the value that stands for it
(`Follows.values`).

Values may be dead: a phi of the plan that nothing reads is not there. So both statements are about values that are
alive.
-/

set_option autoImplicit false

namespace SsaCompiler

/-- Whether an event is something other than a load or store of one of some words. -/
def IrEvent.isOutside (words : List Word) : IrEvent → Bool
  | load a _ | store a _ => !words.contains a
  | _ => true

/-- Callees neither read nor write some words. -/
def IrEnv.Respects {W : Type} (env : IrEnv W) (words : List Word) : Prop :=
  ∀ callee args m m' w, Memory.AgreeOff words m m' →
    match env.call callee args m w with
    | none => env.call callee args m' w = none
    | some (m₁, v, w₁) => (∀ a ∈ words, m₁ a = m a) ∧
      ∃ m₁', env.call callee args m' w = some (m₁', v, w₁) ∧ Memory.AgreeOff words m₁ m₁'

variable {events : List IrEvent} {m₁ : Memory} {value : Option Word}

namespace InstKind

variable {W : Type} {env : IrEnv W} {words : List Word} {kind : InstKind} {i : InstId} {values : List Word}
  {m m' : Memory} {w : W}

/-- An instruction that shows no access to some words does the same whatever is in them, and leaves them alone. -/
theorem perform_effect_agree (henv : env.Respects words) (hagree : Memory.AgreeOff words m m') {w₁ : W}
    (h : kind.perform env i values m w = .effect value m₁ w₁ events) (hout : ∀ e ∈ events, e.isOutside words = true) :
    (∀ a ∈ words, m₁ a = m a) ∧
      ∃ m₁', kind.perform env i values m' w = .effect value m₁' w₁ events ∧ Memory.AgreeOff words m₁ m₁' := by
  unfold perform at h ⊢
  split at h
  case h_1 op l r =>
    cases hop : op.eval? l r with
    | none =>
      rw [hop] at h
      cases h
    | some v =>
      rw [hop] at h
      cases h
      exact ⟨fun _ _ => rfl, m', rfl, hagree⟩
  case h_7 base index =>
    cases h
    have ha : base + index * 4 ∉ words := by simpa [IrEvent.isOutside] using hout _ List.mem_cons_self
    refine ⟨fun _ _ => rfl, m', ?_, hagree⟩
    dsimp only
    rw [hagree _ ha]
  case h_8 base index data =>
    cases h
    have ha : base + index * 4 ∉ words := by simpa [IrEvent.isOutside] using hout _ List.mem_cons_self
    refine ⟨fun a hw => ?_, _, rfl, fun a hw => ?_⟩
    · refine if_neg ?_
      rintro rfl
      exact ha hw
    · unfold Memory.set
      rw [hagree a hw]
  case h_9 callee =>
    have hcall := henv callee values m m' w hagree
    split at h
    · rename_i m₂ v w₂ heq
      cases h
      rw [heq] at hcall
      obtain ⟨hkeep, m₁', hcall', hagree'⟩ := hcall
      refine ⟨hkeep, m₁', ?_, hagree'⟩
      rw [hcall']
    · cases h
  case h_6 => cases h; exact ⟨fun _ _ => rfl, m', rfl, hagree⟩
  case h_10 => cases h; exact ⟨fun _ _ => rfl, m', rfl, hagree⟩
  case h_11 => cases h; exact ⟨fun _ _ => rfl, m', rfl, hagree⟩
  all_goals cases h

/-- An instruction that ends the run or goes somewhere does so whatever is in some words that callees do not
read. -/
theorem perform_other_agree (henv : env.Respects words) (hagree : Memory.AgreeOff words m m')
    (h : ∀ value m₁ w₁ events, kind.perform env i values m w ≠ .effect value m₁ w₁ events) :
    kind.perform env i values m' w = kind.perform env i values m w := by
  unfold perform at h ⊢
  split
  case h_9 callee =>
    have hcall := henv callee values m m' w hagree
    dsimp only at h
    cases heq : env.call callee values m w with
    | none =>
      rw [heq] at hcall
      rw [hcall]
    | some e =>
      rw [heq] at h
      exact absurd rfl (h _ _ _ _)
  case h_7 => exact absurd rfl (h _ _ _ _)
  case h_8 => exact absurd rfl (h _ _ _ _)
  case h_6 => exact absurd rfl (h _ _ _ _)
  case h_10 => exact absurd rfl (h _ _ _ _)
  case h_11 => exact absurd rfl (h _ _ _ _)
  case h_1 op l r =>
    cases hop : op.eval? l r with
    | none => rfl
    | some v =>
      dsimp only at h
      rw [hop] at h
      exact absurd rfl (h _ _ _ _)
  all_goals rfl

end InstKind

/-! ## Promoted functions -/

namespace SlotPlan

open SsaCompiler.Function (assign assignAll assignAll_of_mem assignAll_of_not_mem available_append exists_mapM follow_eq_next
  getElem?_of_predIndex incoming_eq_some isSome_read_of_ne mapM_congr_left mem_mapM read_assign_of_ne
  read_assignAll_of_not_mem step_eq step_eq_next step_start_of_phis)

variable {W : Type}

/-- Whether an instruction goes away: it reserves a slot, or it loads or stores one. -/
def isGone (plan : SlotPlan) (f : Function) (i : InstId) : Bool :=
  plan.slots.any (fun e => e.1 == i) || (plan.accessOf? f i).isSome

/-- The words of the slots. -/
def words (plan : SlotPlan) (env : IrEnv W) : List Word := plan.slots.map fun e => env.slot e.1

/-- A value that is not that of a phi which was removed; `new` are the phis that were kept. -/
def Alive (plan : SlotPlan) (new : BlockId → List InstId) (v : ValueId) : Prop :=
  ∀ d k phi, plan.phi? d k = some (phi, v) → phi ∈ new d

/-- A function whose slots were promoted according to a plan; `new` are the phis of the plan that were kept. -/
structure Promoted (plan : SlotPlan) (f f' : Function) (new : BlockId → List InstId) : Prop where
  coherent : plan.Coherent f
  reserve : ∀ e ∈ plan.slots, f.kind e.1 = .alloca 1 ∧ f.result? e.1 = some e.2
  distinct : plan.addresses.Nodup
  index : ∀ b i k, f.Reach b → i ∈ f.instsOf b → plan.accessOf? f i = some k →
    ∃ x, (f.operands i)[1]? = some x ∧ (f.value x).kind = .const 0
  /-- An address is read only as the base of a load or store. -/
  only : ∀ b i (slot : Nat) v, f.Reach b → i ∈ f.instsOf b → (f.operands i)[slot]? = some v → v ∈ plan.addresses →
    slot = 0 ∧ plan.accessOf? f i ≠ none
  head : f'.layout.head? = f.layout.head?
  preds : ∀ b, f'.preds b = f.preds b
  insts : ∀ b, f.Reach b → f'.instsOf b = f.phis b ++ new b ++
    ((f.instsOf b).dropWhile fun i => (f.kind i).isPhi).filter fun i => !plan.isGone f i
  kept : ∀ b i, f.Reach b → i ∈ f.instsOf b → plan.isGone f i = false →
    f'.kind i = f.kind i ∧ f'.result? i = f.result? i ∧ f'.operands i = (f.operands i).map plan.stand
  kinds : ∀ v, v < f.values.size → (f'.value v).kind = (f.value v).kind
  zero : (f'.value plan.zero).kind = .const 0
  planned : ∀ b phi, phi ∈ new b → f'.kind phi = .phi ∧
    ∃ k r, k < plan.slots.length ∧ plan.phi? b k = some (phi, r)
  placed : ∀ b k phi r, plan.phi? b k = some (phi, r) → phi ∈ new b → f'.result? phi = some r ∧
    (f'.value r).kind = .inst phi ∧ ∀ (slot : Nat) p, (f.preds b)[slot]? = some p → f.Reach p →
      (f'.operands phi)[slot]? = some (plan.current f p (f.instsOf p) k)
  alive : ∀ b i v, f.Reach b → i ∈ f'.instsOf b → v ∈ f'.operands i → plan.Alive new v

/-! ## Values of the plan -/

variable {b : BlockId} {i : InstId} {e : InstId × ValueId} {before rest : List InstId} {k : Nat}

variable {r : ValueId}

section Values

variable {plan : SlotPlan} {f : Function}

variable {v : ValueId}

/-- The block in which a value is computed dominates the places where it is computed on every path. -/
theorem Placed.dominates_of_onlyAt (hs : f.Sound) {d : BlockId} (h : plan.Placed f b before v)
    (hbefore : ∀ i ∈ before, i ∈ f.instsOf b) (honly : plan.OnlyAt f v d) : f.Dominates d b := by
  rcases honly with ⟨hv, i, hi, hd⟩ | ⟨k, phi, hphi⟩
  · rcases h.available hv i hi with hin | ⟨d', hd', -, hdom⟩
    · exact hd b ((hs.placed b i).1 (hbefore i hin)) ▸ .refl f b
    · exact hd d' hd' ▸ hdom
  · exact h.dominates d k phi hphi

/-- What was computed before is not what the next instruction computes. -/
theorem Placed.ne_result (hs : f.Sound) (h : plan.Placed f b before v) (hinsts : f.instsOf b = before ++ i :: rest)
    (hr : f.result? i = some r) : v ≠ r := by
  rintro rfl
  obtain ⟨hv, hkind⟩ := hs.kind_of_result i v hr
  have hnodup := hs.nodup b
  rw [hinsts, List.nodup_append] at hnodup
  rcases h.available hv i hkind with hin | ⟨d, hd, hne, -⟩
  · exact hnodup.2.2 i hin i List.mem_cons_self rfl
  · rw [(hs.placed b i).1 (by rw [hinsts]; simp)] at hd
    exact hne (Option.some.inj hd).symm

end Values

/-! ## Instructions that go away -/

namespace Promoted

variable {plan : SlotPlan} {f f' : Function} {new : BlockId → List InstId}

variable (h : plan.Promoted f f' new)

include h

/-- Only reservations, loads and stores go away. -/
theorem isGone_eq_false (halloca : f.kind i ≠ .alloca 1)
    (haccess : plan.accessOf? f i = none) : plan.isGone f i = false := by
  unfold isGone
  rw [haccess, Bool.or_eq_false_iff]
  refine ⟨List.any_eq_false.2 fun e he hei => halloca ?_, rfl⟩
  rw [← (h.reserve e he).1, eq_of_beq hei]

/-- Phis stay. -/
theorem isGone_of_isPhi (hphi : (f.kind i).isPhi = true) : plan.isGone f i = false := by
  have hkind := InstKind.isPhi_eq_true.1 hphi
  refine h.isGone_eq_false ?_ (accessOf?_eq_none ?_ ?_)
  all_goals rw [hkind]; exact InstKind.noConfusion

/-- Terminators stay. -/
theorem isGone_of_isTerminator (hterm : (f.kind i).isTerminator = true) : plan.isGone f i = false := by
  refine h.isGone_eq_false ?_ (accessOf?_eq_none ?_ ?_)
  all_goals
    intro hkind
    rw [hkind] at hterm
    cases hterm

/-- An address is the result of its reservation and of nothing else. -/
theorem eq_of_result (hs : f.Sound) (he : e ∈ plan.slots) (hr : f.result? i = some e.2) : i = e.1 := by
  have hkind := (hs.kind_of_result i e.2 hr).2
  rw [(hs.kind_of_result e.1 e.2 (h.reserve e he).2).2] at hkind
  exact (ValueKind.inst.inj hkind).symm

/-- What a load or store of a slot reads. -/
theorem operands_of_access (hs : f.Sound) (hreach : f.Reach b) (hi : i ∈ f.instsOf b)
    (haccess : plan.accessOf? f i = some k) : ∃ e x, plan.slots[k]? = some e ∧ (f.value x).kind = .const 0 ∧
      ((f.kind i = .load ∧ f.operands i = [e.2, x]) ∨
        ∃ data, f.kind i = .store ∧ f.operands i = [e.2, x, data] ∧ data ∉ plan.addresses) := by
  obtain ⟨x, hx, hconst⟩ := h.index b i k hreach hi haccess
  have hfirst : ∃ a, (f.operands i)[0]? = some a ∧ plan.addresses.idxOf? a = some k ∧
      (f.kind i = .load ∨ f.kind i = .store) := by
    unfold accessOf? at haccess
    split at haccess
    · rename_i hkind
      obtain ⟨a, ha, hidx⟩ := Option.bind_eq_some_iff.1 haccess
      exact ⟨a, ha, hidx, .inl hkind⟩
    · rename_i hkind
      obtain ⟨a, ha, hidx⟩ := Option.bind_eq_some_iff.1 haccess
      exact ⟨a, ha, hidx, .inr hkind⟩
    · cases haccess
  obtain ⟨a, ha, hidx, hkind⟩ := hfirst
  obtain ⟨hlt, hat, -⟩ := List.idxOf?_eq_some_iff.1 hidx
  have hslot : ∃ e, plan.slots[k]? = some e ∧ e.2 = a := by
    unfold addresses at hlt hat
    rw [List.length_map] at hlt
    rw [List.getElem_map] at hat
    exact ⟨plan.slots[k], List.getElem?_eq_getElem hlt, hat⟩
  obtain ⟨e, he, rfl⟩ := hslot
  have hfits := hs.fits b i hi
  refine ⟨e, x, he, hconst, hkind.imp (fun hload => ⟨hload, ?_⟩) fun hstore => ?_⟩
  · rw [hload] at hfits
    obtain ⟨a', x', hops⟩ := List.length_eq_two.1 (eq_of_beq hfits)
    rw [hops] at ha hx ⊢
    cases ha
    cases hx
    rfl
  · rw [hstore] at hfits
    obtain ⟨a', x', data, hops⟩ := List.length_eq_three.1 (eq_of_beq hfits)
    refine ⟨data, hstore, ?_, fun hmem => ?_⟩
    · rw [hops] at ha hx ⊢
      cases ha
      cases hx
      rfl
    · have hzero := (h.only b i 2 data hreach hi (by rw [hops]; rfl) hmem).1
      cases hzero

end Promoted

/-! ## Related states -/

/-- States of the two functions at the same place. Words of values that are available are those of the values that
stand for them, and the words of the slots are those of their current values. -/
structure Follows {W : Type} (plan : SlotPlan) (f f' : Function) (new : BlockId → List InstId) (env : IrEnv W)
    (s s' : IrState W) : Prop where
  running : f.Running env s
  block : s'.block = s.block
  code : s'.code = s.code.filter fun i => !plan.isGone f i
  world : s'.world = s.world
  memory : Memory.AgreeOff (plan.words env) s.memory s'.memory
  address : ∀ e ∈ plan.slots, ∀ x, s.vals e.2 = some x → x = env.slot e.1
  values : ∀ before, f.instsOf s.block = before ++ s.code → ∀ v, v < f.values.size →
    f.Available s.block before v → v ∉ plan.addresses → plan.Alive new (plan.stand v) →
    f'.read env s'.vals (plan.stand v) = f.read env s.vals v
  slots : ∀ before, f.instsOf s.block = before ++ s.code → ∀ k e, plan.slots[k]? = some e →
    plan.Alive new (plan.current f s.block before k) →
    f'.read env s'.vals (plan.current f s.block before k) = some (s.memory (env.slot e.1))

namespace Promoted

variable {W : Type} {env : IrEnv W} {plan : SlotPlan} {f f' : Function} {new : BlockId → List InstId}
  {s s' u : IrState W}

/-- The word of a slot is one of the words of the slots. -/
theorem mem_words (he : plan.slots[k]? = some e) : env.slot e.1 ∈ plan.words env :=
  List.mem_map_of_mem (List.mem_of_getElem? he)

/-- What an instruction that goes away does: it gives the address of a slot, it loads its word, or it stores it. -/
theorem step_gone (h : plan.Promoted f f' new) (hs : f.Sound) (hr : f.Regular) (hstrict : f.Strict)
    (hst : plan.Follows f f' new env s s') (hcode : s.code = i :: rest) (hgone : plan.isGone f i = true) :
    (∃ e ∈ plan.slots, f.kind i = .alloca 1 ∧ f.result? i = some e.2 ∧ f.step env s =
        .next [] { s with code := rest, vals := assign s.vals (f.result? i) (some (env.slot e.1)) }) ∨
      ∃ k e, plan.accessOf? f i = some k ∧ plan.slots[k]? = some e ∧
        ((f.kind i = .load ∧ f.step env s = .next [.load (env.slot e.1) (s.memory (env.slot e.1))]
            { s with code := rest, vals := assign s.vals (f.result? i) (some (s.memory (env.slot e.1))) }) ∨
          ∃ data y, f.kind i = .store ∧ f.operands i = [e.2, (f.operands i).getD 1 0, data] ∧
            data ∉ plan.addresses ∧ f.read env s.vals data = some y ∧
            f.step env s = .next [.store (env.slot e.1) y]
              { s with code := rest, vals := assign s.vals (f.result? i) none,
                       memory := s.memory.set (env.slot e.1) y }) := by
  have hi := hst.running.mem_instsOf hcode
  obtain ⟨values, hvalues⟩ := hst.running.operands_defined hs hr hstrict hcode
  cases haccess : plan.accessOf? f i with
  | none =>
    left
    unfold isGone at hgone
    rw [haccess, Option.isSome_none, Bool.or_false, List.any_eq_true] at hgone
    obtain ⟨e, he, hei⟩ := hgone
    obtain rfl := eq_of_beq hei
    obtain ⟨hkind, hresult⟩ := h.reserve e he
    have hnone : f.operands e.1 = [] := by
      have hfits := hs.fits _ _ hi
      rw [hkind] at hfits
      exact List.length_eq_zero_iff.1 (eq_of_beq hfits)
    rw [hnone] at hvalues
    cases hvalues
    refine ⟨e, he, hkind, hresult, ?_⟩
    rw [step_eq hcode (by rw [hnone]; rfl), hkind]
    rfl
  | some k =>
    right
    obtain ⟨e, x, he, hconst, hops⟩ := h.operands_of_access hs hst.running.reach hi haccess
    refine ⟨k, e, rfl, he, ?_⟩
    have hreadx : f.read env s.vals x = some 0 := by
      unfold Function.read
      rw [hconst]
    have hread : ∀ y, f.read env s.vals e.2 = some y → y = env.slot e.1 := by
      intro y hy
      unfold Function.read at hy
      rw [(hs.kind_of_result e.1 e.2 (h.reserve e (List.mem_of_getElem? he)).2).2] at hy
      exact hst.address e (List.mem_of_getElem? he) y hy
    rcases hops with ⟨hkind, hops⟩ | ⟨data, hkind, hops, hdata⟩
    · left
      refine ⟨hkind, ?_⟩
      have hlist := hvalues
      rw [hops, List.mapM_cons, List.mapM_cons, List.mapM_nil, hreadx] at hlist
      cases hy : f.read env s.vals e.2 with
      | none =>
        rw [hy] at hlist
        cases hlist
      | some y =>
        rw [hy] at hlist
        cases hlist
        obtain rfl := hread y hy
        rw [step_eq hcode hvalues, hkind]
        simp [InstKind.perform]
    · right
      have hlist := hvalues
      rw [hops, List.mapM_cons, List.mapM_cons, List.mapM_cons, List.mapM_nil, hreadx] at hlist
      cases hy : f.read env s.vals e.2 with
      | none =>
        rw [hy] at hlist
        cases hlist
      | some y =>
        cases hz : f.read env s.vals data with
        | none =>
          rw [hy, hz] at hlist
          cases hlist
        | some z =>
          rw [hy, hz] at hlist
          cases hlist
          obtain rfl := hread y hy
          refine ⟨data, z, hkind, by rw [hops]; rfl, hdata, hz, ?_⟩
          rw [step_eq hcode hvalues, hkind]
          simp [InstKind.perform]

variable {c : BlockId} {t : InstId} {m : Memory} {slot : Nat}

section

variable (h : plan.Promoted f f' new) (hs : f.Sound)

include h hs

/-- The place behind an instruction that goes away. -/
theorem follows_advance (hst : plan.Follows f f' new env s s') (hcode : s.code = i :: rest)
    (hgone : plan.isGone f i = true)
    (hu : u = { s with code := rest, vals := assign s.vals (f.result? i) value, memory := m })
    (hrunning : f.Running env u) (hmemory : Memory.AgreeOff (plan.words env) s.memory m)
    (haddress : ∀ e ∈ plan.slots, f.result? i = some e.2 → value = some (env.slot e.1))
    (hresult : ∀ r, f.result? i = some r → r ∉ plan.addresses → plan.Alive new (plan.stand r) →
      value.isSome = true ∧ f'.read env s'.vals (plan.stand r) = value)
    (hslots : ∀ before, f.instsOf s.block = before ++ i :: rest → ∀ k e, plan.slots[k]? = some e →
      plan.Alive new (plan.current f s.block (before ++ [i]) k) →
      f'.read env s'.vals (plan.current f s.block (before ++ [i]) k) = some (m (env.slot e.1))) :
    plan.Follows f f' new env u s' := by
  subst hu
  obtain ⟨before, hinsts, -, -⟩ := hst.running.place
  have hsplit : ∀ {before' : List InstId}, f.instsOf s.block = before' ++ rest → before' = before ++ [i] := by
    intro before' hinsts'
    rw [hinsts, hcode, List.append_cons] at hinsts'
    exact (List.append_cancel_right hinsts').symm
  refine ⟨hrunning, hst.block, ?_, hst.world, fun a ha => ?_, fun e he x hx => ?_, ?_, ?_⟩
  · rw [hst.code, hcode, List.filter_cons_of_neg (by simp [hgone])]
  · exact (hst.memory a ha).trans (hmemory a ha).symm
  · change assign s.vals (f.result? i) value e.2 = some x at hx
    cases hr : f.result? i with
    | none =>
      rw [hr] at hx
      exact hst.address e he x hx
    | some r =>
      rw [hr] at hx
      by_cases hre : e.2 = r
      · rw [haddress e he (hr.trans (congrArg some hre.symm)), hre] at hx
        simpa [assign, eq_comm] using hx
      · cases value with
        | none => exact hst.address e he x hx
        | some y =>
          change Function.update s.vals r (some y) e.2 = some x at hx
          rw [Function.update_of_ne hre] at hx
          exact hst.address e he x hx
  · intro before' hinsts' v hv havail hnot halive
    rw [hsplit hinsts'] at havail
    change _ = f.read env (assign s.vals (f.result? i) value) v
    rcases available_append havail with hk | hold
    · have hrv := hs.result_of_kind i v hv hk
      obtain ⟨hsome, hread⟩ := hresult v hrv hnot halive
      obtain ⟨x, hx⟩ := Option.isSome_iff_exists.1 hsome
      rw [hread, hx]
      unfold Function.read
      rw [hk, hrv]
      simp [assign]
    · rw [read_assign_of_ne fun r hr hvr => ?_]
      · exact hst.values before hinsts v hv hold hnot halive
      · subst hvr
        have hpl : plan.Placed f s.block before v :=
          ⟨fun _ => hold, fun d k phi hd => absurd hv (Nat.not_lt.2 (h.coherent.phi d k phi v hd).2)⟩
        exact hpl.ne_result hs (hcode ▸ hinsts) hr rfl
  · intro before' hinsts' k e he halive
    obtain rfl := hsplit hinsts'
    exact hslots before (hcode ▸ hinsts) k e he halive

/-- An instruction that goes away is answered by no step. -/
theorem follows_gone (hr : f.Regular) (hstrict : f.Strict) (hwords : (plan.words env).Nodup)
    (hst : plan.Follows f f' new env s s') (hcode : s.code = i :: rest) (hgone : plan.isGone f i = true) :
    ∃ events u, f.step env s = .next events u ∧ plan.Follows f f' new env u s' ∧
      events.filter (IrEvent.isOutside (plan.words env)) = [] ∧ u.code = rest := by
  obtain ⟨place, hinstsp, -, -⟩ := hst.running.place
  rw [hcode] at hinstsp
  have hsplit : ∀ {before : List InstId}, f.instsOf s.block = before ++ i :: rest → before = place := by
    intro before hinsts
    exact List.append_cancel_right (hinsts.symm.trans hinstsp)
  rcases h.step_gone hs hr hstrict hst hcode hgone with ⟨e, he, hkind, hresult, hstep⟩ |
    ⟨k, e, haccess, he, ⟨hkind, hstep⟩ | ⟨data, y, hkind, hops, hdata, hy, hstep⟩⟩
  · have hrun := hst.running.next hs hr hstep
    refine ⟨_, _, hstep, h.follows_advance hs hst hcode hgone rfl hrun (fun _ _ => rfl) ?_ ?_ ?_, rfl, rfl⟩
    · intro e' he' hr'
      have h1 := h.eq_of_result hs he hresult
      have h2 := h.eq_of_result hs he' hr'
      rw [← h1, ← h2]
    · intro r hr' hnot
      rw [hresult] at hr'
      obtain rfl := Option.some.inj hr'
      exact absurd (List.mem_map_of_mem he) hnot
    · intro before hinsts k e' he' halive
      obtain rfl := hsplit hinsts
      rw [current_append (by simp [hkind])] at halive ⊢
      exact hst.slots before (hcode ▸ hinsts) k e' he' halive
  · have hrun := hst.running.next hs hr hstep
    have hmem : env.slot e.1 ∈ plan.words env := mem_words he
    refine ⟨_, _, hstep, h.follows_advance hs hst hcode hgone rfl hrun (fun _ _ => rfl) ?_ ?_ ?_, ?_, rfl⟩
    · intro e' he' hr'
      have hkind' := (h.reserve e' he').1
      rw [← h.eq_of_result hs he' hr', hkind] at hkind'
      cases hkind'
    · intro r hr' hnot halive
      rw [h.coherent.load s.block place i rest k r hst.running.reach hinstsp hkind haccess hr'] at halive ⊢
      exact ⟨rfl, hst.slots place (hcode ▸ hinstsp) k e he halive⟩
    · intro before hinsts k e' he' halive
      obtain rfl := hsplit hinsts
      rw [current_append (by simp [hkind])] at halive ⊢
      exact hst.slots before (hcode ▸ hinsts) k e' he' halive
    · simp [IrEvent.isOutside, hmem]
  · have hrun := hst.running.next hs hr hstep
    have hmem : env.slot e.1 ∈ plan.words env := mem_words he
    have hnone : f.result? i = none := hs.result?_eq_none (by rw [hkind]; rfl)
    refine ⟨_, _, hstep, h.follows_advance hs hst hcode hgone rfl hrun (fun a ha => ?_) ?_ ?_ ?_, ?_, rfl⟩
    · refine if_neg ?_
      rintro rfl
      exact ha hmem
    · intro e' _ hr'
      rw [hnone] at hr'
      cases hr'
    · intro r hr'
      rw [hnone] at hr'
      cases hr'
    · intro before hinsts k' e' he' halive
      obtain rfl := hsplit hinsts
      have hmemd : data ∈ f.operands i := by rw [hops]; simp
      rw [current_store hkind haccess (by rw [hops]; rfl)] at halive ⊢
      by_cases hk : k' = k
      · subst hk
        obtain rfl : e' = e := Option.some.inj (he'.symm.trans he)
        rw [Function.update_self] at halive ⊢
        have hphi : (f.kind i).isPhi = false := by rw [hkind]; rfl
        rw [hst.values before (hcode ▸ hinsts) data (hs.lt_size_of_mem_operands hmemd)
          (hstrict.operand s.block before i rest hst.running.reach hinsts hphi data hmemd) hdata halive, hy]
        simp [Memory.set]
      · rw [Function.update_of_ne hk] at halive ⊢
        rw [hst.slots before (hcode ▸ hinsts) k' e' he' halive]
        have hne : env.slot e'.1 ≠ env.slot e.1 := by
          intro heq
          refine hk ((List.getElem?_inj (l := plan.words env) ?_ hwords).1 ?_)
          · rw [words, List.length_map]
            exact (List.getElem?_eq_some_iff.1 he').1
          · rw [words, List.getElem?_map, List.getElem?_map, he, he']
            exact congrArg some heq
        simp [Memory.set, hne]
    · simp [IrEvent.isOutside, hmem]

/-! ## Instructions that stay -/

/-- An instruction that stays reads the same words. -/
theorem mapM_read (hr : f.Regular) (hstrict : f.Strict) (hst : plan.Follows f f' new env s s')
    (hcode : s.code = i :: rest) (hkept : plan.isGone f i = false) :
    (f'.operands i).mapM (f'.read env s'.vals) = (f.operands i).mapM (f.read env s.vals) := by
  obtain ⟨before, hinsts, hphis, -⟩ := hst.running.place
  have hreach := hst.running.reach
  have hi := hst.running.mem_instsOf hcode
  have hphi := hst.running.not_isPhi hs hr hcode
  have haccess : plan.accessOf? f i = none := by
    unfold isGone at hkept
    exact Option.not_isSome_iff_eq_none.1 (by simpa using (Bool.or_eq_false_iff.1 hkept).2)
  have hin : i ∈ f'.instsOf s.block := by
    rw [h.insts _ hreach]
    refine List.mem_append_right _ (List.mem_filter.2 ⟨?_, by simp [hkept]⟩)
    have hall := hi
    rw [← f.phis_append] at hall
    refine (List.mem_append.1 hall).resolve_left fun hmem => ?_
    rw [f.isPhi_of_mem_phis hmem] at hphi
    cases hphi
  obtain ⟨-, -, hops⟩ := h.kept _ i hreach hi hkept
  rw [hops, List.mapM_map]
  refine mapM_congr_left fun v hv => ?_
  obtain ⟨slot, hslot⟩ := List.getElem?_of_mem hv
  refine hst.values before hinsts v (hs.lt_size_of_mem_operands hv) ?_ (fun hmem => ?_) ?_
  · exact hstrict.operand s.block before i rest hreach (hcode ▸ hinsts) hphi v hv
  · exact (h.only _ i slot v hreach hi hslot hmem).2 haccess
  · exact h.alive _ i _ hreach hin (by rw [hops]; exact List.mem_map_of_mem hv)

end

variable {w : W}

/-- The place behind an instruction that stays. -/
theorem follows_kept (h : plan.Promoted f f' new) (hs : f.Sound) (hr : f.Regular) (hstrict : f.Strict)
    (hst : plan.Follows f f' new env s s') (hcode : s.code = i :: rest) (hkept : plan.isGone f i = false)
    {m' : Memory} (hvalue : (f.kind i).givesValue = true → value.isSome = true) (hrunning : f.Running env
      { s with code := rest, vals := assign s.vals (f.result? i) value, memory := m, world := w })
    (hkeep : ∀ a ∈ plan.words env, m a = s.memory a) (hagree : Memory.AgreeOff (plan.words env) m m') :
    plan.Follows f f' new env
      { s with code := rest, vals := assign s.vals (f.result? i) value, memory := m, world := w }
      { s' with code := rest.filter (fun i => !plan.isGone f i), vals := assign s'.vals (f.result? i) value,
                memory := m', world := w } := by
  obtain ⟨before, hinsts, -, -⟩ := hst.running.place
  have hinsts' := hcode ▸ hinsts
  have hreach := hst.running.reach
  have haccess : plan.accessOf? f i = none := by
    unfold isGone at hkept
    exact Option.not_isSome_iff_eq_none.1 (by simpa using (Bool.or_eq_false_iff.1 hkept).2)
  have hsplit : ∀ {before' : List InstId}, f.instsOf s.block = before' ++ rest → before' = before ++ [i] := by
    intro before' hb
    rw [hinsts', List.append_cons] at hb
    exact (List.append_cancel_right hb).symm
  refine ⟨hrunning, hst.block, rfl, rfl, hagree, fun e he x hx => ?_, ?_, ?_⟩
  · -- The result of an instruction that stays is no address.
    have hne : ∀ r, f.result? i = some r → e.2 ≠ r := by
      rintro r hri rfl
      have hgone : plan.isGone f i = true := by
        unfold isGone
        rw [h.eq_of_result hs he hri, Bool.or_eq_true]
        exact .inl (List.any_eq_true.2 ⟨e, he, beq_self_eq_true _⟩)
      rw [hkept] at hgone
      cases hgone
    have hread : f.read env (assign s.vals (f.result? i) value) e.2 = f.read env s.vals e.2 :=
      read_assign_of_ne hne
    have hkind := (hs.kind_of_result e.1 e.2 (h.reserve e he).2).2
    unfold Function.read at hread
    rw [hkind] at hread
    exact hst.address e he x (hread.symm.trans hx)
  · intro before' hb v hv havail hnot halive
    rw [hsplit hb] at havail
    change f'.read env (assign s'.vals (f.result? i) value) _ = f.read env (assign s.vals (f.result? i) value) v
    rcases available_append havail with hk | hold
    · have hrv := hs.result_of_kind i v hv hk
      have hstand : plan.stand v = v := by
        refine h.coherent.stand_of_not_load v fun j k hj hload haccess' => ?_
        rw [hk] at hj
        cases hj
        rw [haccess] at haccess'
        cases haccess'
      obtain ⟨x, hx⟩ := Option.isSome_iff_exists.1 (hvalue (hs.gives i v hrv))
      rw [hstand]
      unfold Function.read
      rw [h.kinds v hv, hk, hrv, hx]
      simp [assign]
    · have hplv : plan.Placed f s.block before v :=
        ⟨fun _ => hold, fun d k phi hd => absurd hv (Nat.not_lt.2 (h.coherent.phi d k phi v hd).2)⟩
      have hpl := h.coherent.stand_placed hs hr hstrict hreach hinsts hv hold
      rw [read_assign_of_ne fun r hri => hplv.ne_result hs hinsts' hri,
        read_assign_of_ne fun r hri => hpl.ne_result hs hinsts' hri]
      exact hst.values before hinsts v hv hold hnot halive
  · intro before' hb k e he halive
    obtain rfl := hsplit hb
    change f'.read env (assign s'.vals (f.result? i) value) _ = some (m (env.slot e.1))
    rw [current_append (by simp [haccess])] at halive ⊢
    have hk : k < plan.slots.length := (List.getElem?_eq_some_iff.1 he).1
    have hpl := h.coherent.current_placed hs hr hstrict hreach hinsts hk
    rw [read_assign_of_ne fun r hri => hpl.ne_result hs hinsts' hri, hkeep _ (mem_words he)]
    exact hst.slots before hinsts k e he halive

/-! ## Edges -/

/-- The phis of a block are the old ones and the new ones, and behind them stands what stays. -/
theorem phis_eq (h : plan.Promoted f f' new) (hs : f.Sound) (hr : f.Regular) (hreach : f.Reach b) :
    f'.phis b = f.phis b ++ new b ∧ (f'.instsOf b).dropWhile (fun i => (f'.kind i).isPhi) =
      ((f.instsOf b).dropWhile fun i => (f.kind i).isPhi).filter fun i => !plan.isGone f i := by
  have hb := hr.mem_layout_of_reach hs hreach
  have hfront : ∀ i ∈ f.phis b ++ new b, (f'.kind i).isPhi = true := by
    intro i hi
    rcases List.mem_append.1 hi with hi | hi
    · obtain ⟨hin, hphi⟩ := (hr.mem_phis hb).1 hi
      rw [(h.kept b i hreach hin (h.isGone_of_isPhi hphi)).1]
      exact hphi
    · rw [(h.planned b i hi).1]
      rfl
  have hback : ∀ i ∈ ((f.instsOf b).dropWhile fun i => (f.kind i).isPhi).filter fun i => !plan.isGone f i,
      (f'.kind i).isPhi = false := by
    intro i hi
    obtain ⟨hdrop, hkept⟩ := List.mem_filter.1 hi
    have hin := (List.dropWhile_sublist _).subset hdrop
    rw [(h.kept b i hreach hin (by simpa using hkept)).1]
    by_contra hphi
    have hphis := (hr.mem_phis hb).2 ⟨hin, by simpa using hphi⟩
    have hnodup := hs.nodup b
    rw [← f.phis_append b, List.nodup_append] at hnodup
    exact hnodup.2.2 i hphis i hdrop rfl
  unfold Function.phis
  rw [h.insts b hreach]
  exact takeWhile_dropWhile_append hfront hback

/-- At the end of a block the values of the slots are those before its terminator. -/
theorem current_end (hr : f.Regular) (hb : b ∈ f.layout) (hinsts : f.instsOf b = before ++ [t]) :
    plan.current f b (f.instsOf b) = plan.current f b before := by
  obtain ⟨pre, t', ht, hterm, -⟩ := hr.ends b hb
  obtain ⟨-, hlast⟩ := List.append_inj' (hinsts.symm.trans ht) rfl
  cases hlast
  rw [hinsts]
  refine current_append fun j hj hstore => ?_
  rw [List.mem_singleton.1 hj] at hstore
  rw [hstore] at hterm
  cases hterm

/-- Behind the phis of a block the values of the slots are those that the plan gives. -/
theorem current_phis : plan.current f b (f.phis b) = plan.inn b := by
  have hnone : ∀ j ∈ f.phis b, f.kind j = .store → plan.accessOf? f j = none := by
    intro j hj hstore
    have hphi := f.isPhi_of_mem_phis hj
    rw [hstore] at hphi
    cases hphi
  rw [← List.nil_append (f.phis b), current_append hnone]
  rfl

/-- An old phi takes the same word from an edge. -/
theorem incoming_old (h : plan.Promoted f f' new) (hs : f.Sound) (hr : f.Regular) (hstrict : f.Strict)
    (hst : plan.Follows f f' new env s s') (hcode : s.code = [t]) (hc : f.Reach c)
    (hslot : (f.preds c)[slot]? = some s.block) (hi : i ∈ f.phis c) :
    f'.incoming env s'.vals slot i = f.incoming env s.vals slot i := by
  obtain ⟨hin, hphi⟩ := (hr.mem_phis (hr.mem_layout_of_reach hs hc)).1 hi
  obtain ⟨before, hinsts, -, -⟩ := hst.running.place
  obtain ⟨-, hresult, hops⟩ := h.kept c i hc hin (h.isGone_of_isPhi hphi)
  have hin' : i ∈ f'.instsOf c := by
    rw [h.insts c hc]
    exact List.mem_append_left _ (List.mem_append_left _ hi)
  unfold Function.incoming
  rw [hops, hresult, List.getElem?_map]
  cases hw : (f.operands i)[slot]? with
  | none => rfl
  | some v =>
    have hmem := List.mem_of_getElem? hw
    have hfeeds : f.Feeds c i s.block v :=
      List.mem_of_getElem? (i := slot) (List.getElem?_zip_eq_some.2 ⟨hslot, hw⟩)
    have havail := hstrict.incoming c i hc hin hphi s.block v hst.running.reach hfeeds
    rw [hinsts, hcode, List.dropLast_concat] at havail
    have hread := hst.values before hinsts v (hs.lt_size_of_mem_operands hmem) havail
      (fun haddr => (h.only c i slot v hc hin hw haddr).2
        (accessOf?_eq_none (by rw [InstKind.isPhi_eq_true.1 hphi]; exact InstKind.noConfusion)
          (by rw [InstKind.isPhi_eq_true.1 hphi]; exact InstKind.noConfusion)))
      (h.alive c i _ hc hin' (by rw [hops]; exact List.mem_map_of_mem hmem))
    change ((f.result? i).bind fun r => (f'.read env s'.vals (plan.stand v)).bind fun y => some (r, y)) =
      (f.result? i).bind fun r => (f.read env s.vals v).bind fun y => some (r, y)
    rw [hread]

/-- A new phi takes the word of its slot from an edge. -/
theorem incoming_new (h : plan.Promoted f f' new) (hr : f.Regular) (hst : plan.Follows f f' new env s s')
    (hcode : s.code = [t]) (hc : f.Reach c) (hslot : (f.preds c)[slot]? = some s.block) {phi : InstId}
    (hphi : phi ∈ new c) (hplan : plan.phi? c k = some (phi, r)) (he : plan.slots[k]? = some e) :
    f'.incoming env s'.vals slot phi = some (r, s.memory (env.slot e.1)) := by
  obtain ⟨before, hinsts, -, -⟩ := hst.running.place
  obtain ⟨hresult, -, hops⟩ := h.placed c k phi r hplan hphi
  have hop := hops slot s.block hslot hst.running.reach
  have hin : phi ∈ f'.instsOf c := by
    rw [h.insts c hc]
    exact List.mem_append_left _ (List.mem_append_right _ hphi)
  have halive := h.alive c phi _ hc hin (List.mem_of_getElem? hop)
  refine incoming_eq_some.2 ⟨_, hop, hresult, ?_⟩
  rw [current_end hr hst.running.listed (hcode ▸ hinsts)] at halive ⊢
  exact hst.slots before hinsts k e he halive

/-- A value that is current where no phi of the plan stands is computed elsewhere. -/
theorem not_onlyAt_of_inn (h : plan.Promoted f f' new) (hs : f.Sound) (hstrict : f.Strict) (hc : f.Reach c)
    (hentry : f.layout.head? ≠ some c) (hk : k < plan.slots.length) (hnone : plan.phi? c k = none) :
    ¬ plan.OnlyAt f (plan.inn c k) c := by
  intro honly
  obtain ⟨p, havoid, hedge⟩ := hc.exists_first hentry
  rw [h.coherent.edge p c k havoid.reach hedge hk hnone] at honly
  exact h.coherent.dominates_of_current hs hstrict honly (List.append_nil _).symm hk rfl havoid

theorem follows_edge (h : plan.Promoted f f' new) (hs : f.Sound) (hr : f.Regular) (hstrict : f.Strict)
    (hst : plan.Follows f f' new env s s') (hcode : s.code = [t]) (hedge : f.Edge s.block c)
    (hslot : (f.preds c)[slot]? = some s.block) {assigned more : List (ValueId × Word)}
    (hassigned : (f.phis c).mapM (f.incoming env s.vals slot) = some assigned)
    (hmore : (new c).mapM (f'.incoming env s'.vals slot) = some more) (hrunning : f.Running env { s with
      block := c
      code := (f.instsOf c).dropWhile fun i => (f.kind i).isPhi
      vals := assignAll s.vals assigned }) : plan.Follows f f' new env
      { s with
        block := c
        code := (f.instsOf c).dropWhile fun i => (f.kind i).isPhi
        vals := assignAll s.vals assigned }
      { s' with
        block := c
        code := (f'.instsOf c).dropWhile fun i => (f'.kind i).isPhi
        vals := assignAll s'.vals (assigned ++ more) } := by
  obtain ⟨before, hinsts, hbefore, -⟩ := hst.running.place
  have hc := hst.running.reach.step hedge
  have hphis : ∀ i ∈ f.phis c, f.blockOf? i = some c := fun i hi =>
    (hs.placed c i).1 ((List.takeWhile_sublist _).subset hi)
  have hentry : f.layout.head? ≠ some c := by
    intro he
    obtain ⟨e, rest, hlayout, hpreds⟩ := hr.entry
    rw [hlayout] at he
    cases he
    rw [hpreds] at hslot
    cases hslot
  -- The words that the edge assigns are those of values which are computed in the block.
  have holds : ∀ e ∈ assigned, ∃ i ∈ f.phis c, f.result? i = some e.1 ∧ f.incoming env s.vals slot i = some e := by
    intro e he
    obtain ⟨i, hi, hread⟩ := (mem_mapM hassigned).1 e he
    obtain ⟨-, -, hresult, -⟩ := incoming_eq_some.1 hread
    exact ⟨i, hi, hresult, hread⟩
  have hnews : ∀ e ∈ more, ∃ k phi d, plan.phi? c k = some (phi, e.1) ∧ plan.slots[k]? = some d ∧
      e.2 = s.memory (env.slot d.1) := by
    intro e he
    obtain ⟨phi, hphi, hread⟩ := (mem_mapM hmore).1 e he
    obtain ⟨-, k, r, hk, hplan⟩ := h.planned c phi hphi
    have hd := List.getElem?_eq_getElem hk
    rw [h.incoming_new hr hst hcode hc hslot hphi hplan hd] at hread
    cases hread
    exact ⟨k, phi, _, hplan, hd, rfl⟩
  have honly : ∀ e ∈ assigned ++ more, plan.OnlyAt f e.1 c := by
    intro e he
    rcases List.mem_append.1 he with he | he
    · obtain ⟨i, hi, hresult, -⟩ := holds e he
      obtain ⟨hlt, hkind⟩ := hs.kind_of_result i e.1 hresult
      exact .inl ⟨hlt, i, hkind, fun d hd => Option.some.inj (hd.symm.trans (hphis i hi))⟩
    · obtain ⟨k, phi, d, hplan, -⟩ := hnews e he
      exact .inr ⟨k, phi, hplan⟩
  have hsplit : ∀ {before' : List InstId}, f.instsOf c = before' ++ ((f.instsOf c).dropWhile fun i =>
      (f.kind i).isPhi) → before' = f.phis c := fun hb =>
    (List.append_cancel_right ((f.phis_append c).trans hb)).symm
  refine ⟨hrunning, rfl, (h.phis_eq hs hr hc).2, hst.world, hst.memory, fun e he x hx => ?_, ?_, ?_⟩
  · change assignAll s.vals assigned e.2 = some x at hx
    rw [assignAll_of_not_mem fun d hd hde => ?_] at hx
    · exact hst.address e he x hx
    · obtain ⟨i, hi, hresult, -⟩ := holds d hd
      rw [hde] at hresult
      have hkind := f.isPhi_of_mem_phis hi
      rw [h.eq_of_result hs he hresult, (h.reserve e he).1] at hkind
      cases hkind
  · intro before' hb v hv havail hnot halive
    obtain rfl := hsplit hb
    change f'.read env (assignAll s'.vals (assigned ++ more)) _ = f.read env (assignAll s.vals assigned) v
    cases hk : (f.value v).kind with
    | inst i =>
      rcases havail i hk with hin | ⟨d, hd, hdc, hdom⟩
      · -- The value of a phi of the block.
        have hstand : plan.stand v = v := by
          refine h.coherent.stand_of_not_load v fun j k hj hload _ => ?_
          rw [hk] at hj
          cases hj
          have hphi := f.isPhi_of_mem_phis hin
          rw [hload] at hphi
          cases hphi
        have hrv := hs.result_of_kind i v hv hk
        obtain ⟨e, he, hread⟩ := (mem_mapM hassigned).2 i hin
        obtain ⟨-, -, hresult, -⟩ := incoming_eq_some.1 hread
        obtain rfl : v = e.1 := Option.some.inj (hrv.symm.trans hresult)
        have hone : ∀ d ∈ assigned ++ more, d.1 = e.1 → d.2 = e.2 := by
          intro d hd hde
          rcases List.mem_append.1 hd with hd | hd
          · obtain ⟨j, -, hresult', hread'⟩ := holds d hd
            have hkind := (hs.kind_of_result j d.1 hresult').2
            rw [hde, hk] at hkind
            cases hkind
            rw [hread] at hread'
            cases hread'
            rfl
          · obtain ⟨k, phi, -, hplan, -⟩ := hnews d hd
            rw [hde] at hplan
            exact absurd hv (Nat.not_lt.2 (h.coherent.phi c k phi e.1 hplan).2)
        rw [hstand]
        unfold Function.read
        rw [h.kinds e.1 hv, hk]
        change assignAll s'.vals (assigned ++ more) e.1 = assignAll s.vals assigned e.1
        rw [assignAll_of_mem (List.mem_append_left _ he) hone,
          assignAll_of_mem he fun d hd => hone d (List.mem_append_left _ hd)]
      · -- A value from a block before, which the edge leaves alone.
        have hid := (hs.placed d i).2 hd
        have hdreach := hdom.reach hc
        have hpl : plan.Placed f d (f.instsOf d) (plan.stand v) := by
          refine h.coherent.stand_placed hs hr hstrict hdreach (List.append_nil _).symm hv fun j hj => ?_
          rw [hk] at hj
          cases hj
          exact .inl hid
        rw [read_assignAll_of_not_mem fun e he hev => ?_, read_assignAll_of_not_mem fun e he hev => ?_]
        · refine hst.values before hinsts v hv (fun j hj => ?_) hnot halive
          rw [hk] at hj
          cases hj
          by_cases hds : d = s.block
          · subst hds
            have hlast := hr.mem_dropLast hs hst.running.listed hid (hs.result_of_kind i v hv hk)
            rw [hinsts, hcode, List.dropLast_concat] at hlast
            exact .inl hlast
          · exact .inr ⟨d, hd, hds, hdom.of_edge hdc hedge⟩
        · obtain ⟨j, hj, hresult, -⟩ := holds e he
          have hkind := (hs.kind_of_result j e.1 hresult).2
          rw [hev, hk] at hkind
          cases hkind
          rw [hphis i hj] at hd
          exact hdc (Option.some.inj hd).symm
        · have hcd := hpl.dominates_of_onlyAt hs (fun _ hj => hj) (hev ▸ honly e he)
          exact hdc (hdom.antisymm hcd hdreach)
    | _ =>
      have hstand : plan.stand v = v := by
        refine h.coherent.stand_of_not_load v fun j k hj => ?_
        rw [hk] at hj
        cases hj
      rw [hstand]
      unfold Function.read
      rw [h.kinds v hv, hk]
  · intro before' hb k e he halive
    obtain rfl := hsplit hb
    change plan.Alive new (plan.current f c (f.phis c) k) at halive
    change f'.read env (assignAll s'.vals (assigned ++ more)) (plan.current f c (f.phis c) k) =
      some (s.memory (env.slot e.1))
    rw [current_phis] at halive ⊢
    have hk : k < plan.slots.length := (List.getElem?_eq_some_iff.1 he).1
    cases hphi : plan.phi? c k with
    | some d =>
      -- The slot has a phi, which has just got the word.
      obtain ⟨phi, r⟩ := d
      obtain ⟨hinn, hsize⟩ := h.coherent.phi c k phi r hphi
      rw [hinn] at halive ⊢
      have hmem := halive c k phi hphi
      obtain ⟨d, hd, hread⟩ := (mem_mapM hmore).2 phi hmem
      rw [h.incoming_new hr hst hcode hc hslot hmem hphi he] at hread
      cases hread
      have hone : ∀ d ∈ assigned ++ more, d.1 = r → d.2 = s.memory (env.slot e.1) := by
        intro d' hd' hdr
        rcases List.mem_append.1 hd' with hd' | hd'
        · obtain ⟨i, -, hresult, -⟩ := holds d' hd'
          exact absurd (hdr ▸ (hs.kind_of_result i d'.1 hresult).1) (Nat.not_lt.2 hsize)
        · obtain ⟨k', phi', e', hplan, he', hword⟩ := hnews d' hd'
          rw [hdr] at hplan
          obtain ⟨-, rfl⟩ := h.coherent.phi_inj c c k' k phi' phi r hplan hphi
          obtain rfl := Option.some.inj (he'.symm.trans he)
          exact hword
      unfold Function.read
      rw [(h.placed c k phi r hphi hmem).2.1]
      exact assignAll_of_mem (List.mem_append_right _ hd) hone
    | none =>
      have hnone := h.not_onlyAt_of_inn hs hstrict hc hentry hk hphi
      have hkeep : f'.read env (assignAll s'.vals (assigned ++ more)) (plan.inn c k) =
          f'.read env s'.vals (plan.inn c k) :=
        read_assignAll_of_not_mem fun d hd hdv => hnone (hdv ▸ honly d hd)
      rw [hkeep]
      rw [h.coherent.edge s.block c k hst.running.reach hedge hk hphi] at halive ⊢
      rw [current_end hr hst.running.listed (hcode ▸ hinsts)] at halive ⊢
      exact hst.slots before hinsts k e he halive

/-! ## Runs -/

/-- No instruction of a run accesses the words of the slots but those that have the address of a slot as their base. -/
def AccessedAsSlots {W : Type} (slots : List (InstId × ValueId)) (f : Function) (env : IrEnv W) (m : Memory) (w : W) :
    Prop :=
  ∀ t s i rest events u, Runs.Steps (f.step env) (f.start m w) t s → s.code = i :: rest →
    (∀ v, (f.operands i)[0]? = some v → v ∉ slots.map Prod.snd) → f.step env s = .next events u →
    ∀ e ∈ events, e.isOutside (slots.map fun e => env.slot e.1) = true

/-- The words of the slots are apart from whatever else a run comes upon: they are different words, zero at the
start, which callees leave alone and which no instruction of the run accesses but those that have the address of a
slot as their base. -/
structure Apart {W : Type} (slots : List (InstId × ValueId)) (f : Function) (env : IrEnv W) (m : Memory) (w : W) :
    Prop where
  distinct : (slots.map fun e => env.slot e.1).Nodup
  zero : ∀ e ∈ slots, m (env.slot e.1) = 0
  callees : env.Respects (slots.map fun e => env.slot e.1)
  others : AccessedAsSlots slots f env m w

/-- Accesses are found by following a run to its end. -/
theorem accessedAsSlots_of_passes {W : Type} {slots : List (InstId × ValueId)} {f : Function} {env : IrEnv W} {m : Memory}
    {w : W} {n : Nat} (h : Runs.passes (f.step env) (fun s =>
      (s.code.head?.any fun i => (f.operands i)[0]?.any fun v => (slots.map Prod.snd).contains v) ||
        (Runs.shown (f.step env) s).all (IrEvent.isOutside (slots.map fun e => env.slot e.1))) n (f.start m w) = true) :
    AccessedAsSlots slots f env m w := by
  intro t s i rest events u hrun hcode hbase hstep
  have htest := hrun.of_passes h
  have hshown : Runs.shown (f.step env) s = events := by rw [Runs.shown, hstep]
  rw [hcode, hshown, Bool.or_eq_true] at htest
  rcases htest with hslot | hall
  · change ((f.operands i)[0]?.any fun v => (slots.map Prod.snd).contains v) = true at hslot
    obtain ⟨v, hv, hin⟩ := (Option.any_eq_true ..).1 hslot
    exact absurd (List.contains_iff_mem.1 hin) (hbase v hv)
  · exact List.all_eq_true.1 hall

variable {values : List Word}

/-- Events other than loads and stores are outside. -/
theorem isOutside_of_perform {words : List Word} {kind : InstKind} {w₁ : W}
    (h : kind.perform env i values m w = .effect value m₁ w₁ events) (hload : kind ≠ .load) (hstore : kind ≠ .store) :
    ∀ e ∈ events, e.isOutside words = true := by
  unfold InstKind.perform at h
  split at h
  case h_1 => split at h <;> cases h; simp
  case h_7 => exact absurd rfl hload
  case h_8 => exact absurd rfl hstore
  case h_9 => split at h <;> cases h; simp [IrEvent.isOutside]
  all_goals first | (cases h; simp [IrEvent.isOutside]) | cases h

/-- An instruction that stays shows nothing of the words of the slots. -/
theorem isOutside_of_kept (hapart : Apart plan.slots f env m w) {t : List IrEvent}
    (hreached : Runs.Steps (f.step env) (f.start m w) t s) (hcode : s.code = i :: rest)
    (hkept : plan.isGone f i = false) (hvalues : (f.operands i).mapM (f.read env s.vals) = some values) {w₁ : W}
    (h : (f.kind i).perform env i values s.memory s.world = .effect value m₁ w₁ events) :
    ∀ e ∈ events, e.isOutside (plan.words env) = true := by
  have haccess : plan.accessOf? f i = none := by
    unfold isGone at hkept
    exact Option.not_isSome_iff_eq_none.1 (by simpa using (Bool.or_eq_false_iff.1 hkept).2)
  by_cases hmem : f.kind i = .load ∨ f.kind i = .store
  · refine hapart.others t s i rest events _ hreached hcode (fun v hv hin => ?_)
      (step_eq_next.2 ⟨i, rest, values, hcode, hvalues, .inr ⟨value, m₁, w₁, h, rfl⟩⟩)
    obtain ⟨k, hidx⟩ := Option.isSome_iff_exists.1 (List.isSome_idxOf?.2 hin)
    have hsome : plan.accessOf? f i = some k := by
      unfold accessOf?
      rcases hmem with hkind | hkind
      · rw [hkind, hv]
        exact hidx
      · rw [hkind, hv]
        exact hidx
    rw [haccess] at hsome
    cases hsome
  · exact isOutside_of_perform h (fun hl => hmem (.inl hl)) fun hl => hmem (.inr hl)

section

variable (h : plan.Promoted f f' new) (hs : f.Sound) (hr : f.Regular) (hstrict : f.Strict)
    (hapart : Apart plan.slots f env m w)

include h hs hr hstrict hapart

/-- Steps of the function are answered by steps of the promoted one, as far as they are seen. -/
theorem simulation :
    Runs.Simulation (Runs.observe (IrEvent.isOutside (plan.words env)) (f.step env))
      (Runs.observe (IrEvent.isOutside (plan.words env)) (f'.step env))
      (fun s s' => plan.Follows f f' new env s s' ∧ ∃ t, Runs.Steps (f.step env) (f.start m w) t s)
      (fun s => s.code.length) where
  next := by
    rintro s s' shown u ⟨hst, t, hreached⟩ hobserved
    obtain ⟨events, hnext, rfl⟩ := Runs.observe_eq_next.1 hobserved
    have hreached' := hreached.snoc hnext
    have hrunu := hst.running.next hs hr hnext
    obtain ⟨i, rest, values, hcode, hvalues, hact⟩ := step_eq_next.1 hnext
    cases hgone : plan.isGone f i with
    | true =>
      obtain ⟨events', u', hnext', hst', hquiet, hrest⟩ :=
        h.follows_gone hs hr hstrict hapart.distinct hst hcode hgone
      rw [hnext] at hnext'
      cases hnext'
      rw [hquiet]
      refine ⟨0, s', .refl s', ⟨hst', _, hreached'⟩, fun _ => ?_⟩
      rw [hrest, hcode]
      exact Nat.lt_succ_self _
    | false =>
      obtain ⟨hkind, hresult, -⟩ := h.kept _ i hst.running.reach (hst.running.mem_instsOf hcode) hgone
      have hcode' : s'.code = i :: rest.filter fun i => !plan.isGone f i := by
        rw [hst.code, hcode, List.filter_cons_of_pos (by simp [hgone])]
      have hvalues' := (h.mapM_read hs hr hstrict hst hcode hgone).trans hvalues
      rcases hact with ⟨c, hgoto, hfollow⟩ | ⟨value, m₁, w₁, heffect, rfl⟩
      · obtain ⟨rfl, -, -, hedge⟩ := hst.running.edge_of_goto hr hcode hgoto
        have hc := hst.running.reach.step hedge
        obtain ⟨rfl, slot, assigned, hslot, hassigned, rfl⟩ := follow_eq_next.1 hfollow
        have hpred := getElem?_of_predIndex hslot
        have hsome : ∀ phi ∈ new c, (f'.incoming env s'.vals slot phi).isSome = true := by
          intro phi hphi
          obtain ⟨-, k, r, hk, hplan⟩ := h.planned c phi hphi
          rw [h.incoming_new hr hst hcode hc hpred hphi hplan (List.getElem?_eq_getElem hk)]
          rfl
        obtain ⟨more, hmore⟩ := exists_mapM hsome
        have hmap : (f'.phis c).mapM (f'.incoming env s'.vals slot) = some (assigned ++ more) := by
          rw [(h.phis_eq hs hr hc).1, List.mapM_append,
            mapM_congr_left fun i hi => h.incoming_old hs hr hstrict hst hcode hc hpred hi, hassigned, hmore]
          rfl
        have hother : (f.kind i).perform env i values s'.memory s.world =
            (f.kind i).perform env i values s.memory s.world :=
          InstKind.perform_other_agree hapart.callees hst.memory
            (by rw [hgoto]; exact fun _ _ _ _ heq => by cases heq)
        have hstep : f'.step env s' = .next [] { s' with
            block := c
            code := (f'.instsOf c).dropWhile fun i => (f'.kind i).isPhi
            vals := assignAll s'.vals (assigned ++ more) } := by
          rw [step_eq hcode' hvalues', hkind, hst.world, hother, hgoto]
          refine follow_eq_next.2 ⟨rfl, slot, _, ?_, hmap, by rw [hst.world]⟩
          unfold Function.predIndex?
          rw [h.preds, hst.block]
          exact hslot
        refine ⟨1, _, .single (by rw [Runs.observe, hstep]), ⟨?_, _, hreached'⟩, fun h0 => by cases h0⟩
        exact h.follows_edge hs hr hstrict hst hcode hedge hpred hassigned hmore hrunu
      · have hout := isOutside_of_kept hapart hreached hcode hgone hvalues heffect
        obtain ⟨hkeep, m₁', heffect', hagree⟩ :=
          InstKind.perform_effect_agree hapart.callees hst.memory heffect hout
        have hstep : f'.step env s' = .next events { s' with
            code := rest.filter (fun i => !plan.isGone f i), vals := assign s'.vals (f.result? i) value,
            memory := m₁', world := w₁ } := by
          rw [step_eq hcode' hvalues', hkind, hresult, hst.world, heffect']
        refine ⟨1, _, .single (by rw [Runs.observe, hstep]), ⟨?_, _, hreached'⟩, fun h0 => by cases h0⟩
        exact h.follows_kept hs hr hstrict hst hcode hgone
          (fun hgives => InstKind.isSome_of_perform hgives heffect) hrunu hkeep hagree
  done := by
    rintro s s' o ⟨hst, t, hreached⟩ hobserved
    have hdone := Runs.observe_eq_done.1 hobserved
    suffices hdone' : f'.step env s' = .done o from Runs.ends_of_done (Runs.observe_eq_done.2 hdone')
    cases hcode : s.code with
    | nil =>
      have hcode' : s'.code = [] := by rw [hst.code, hcode]; rfl
      unfold Function.step at hdone ⊢
      rw [hcode] at hdone
      rw [hcode']
      exact hdone
    | cons i rest =>
      obtain ⟨values, hvalues⟩ := hst.running.operands_defined hs hr hstrict hcode
      cases hgone : plan.isGone f i with
      | true =>
        obtain ⟨events', u', hnext', -⟩ := h.follows_gone hs hr hstrict hapart.distinct hst hcode hgone
        rw [hdone] at hnext'
        cases hnext'
      | false =>
        obtain ⟨hkind, hresult, -⟩ := h.kept _ i hst.running.reach (hst.running.mem_instsOf hcode) hgone
        have hcode' : s'.code = i :: rest.filter fun i => !plan.isGone f i := by
          rw [hst.code, hcode, List.filter_cons_of_pos (by simp [hgone])]
        have hvalues' := (h.mapM_read hs hr hstrict hst hcode hgone).trans hvalues
        rcases Function.stop_or_goto hcode hvalues hdone with hstop | ⟨c, hgoto, hfollow⟩
        · rw [step_eq hcode' hvalues', hkind, hst.world, InstKind.perform_other_agree hapart.callees hst.memory
            (by rw [hstop]; exact fun _ _ _ _ heq => by cases heq), hstop]
        · rw [step_eq hcode' hvalues', hkind, hst.world, InstKind.perform_other_agree hapart.callees hst.memory
            (by rw [hgoto]; exact fun _ _ _ _ heq => by cases heq), hgoto]
          obtain ⟨rfl, -, -, hedge⟩ := hst.running.edge_of_goto hr hcode hgoto
          have hc := hst.running.reach.step hedge
          obtain ⟨rfl, hnone⟩ := Function.follow_eq_done.1 hfollow
          refine Function.follow_eq_done.2 ⟨rfl, fun slot hslot => ?_⟩
          rw [Function.predIndex?, h.preds, hst.block] at hslot
          rw [(h.phis_eq hs hr hc).1, List.mapM_append, mapM_congr_left fun i hi =>
            h.incoming_old hs hr hstrict hst hcode hc (getElem?_of_predIndex hslot) hi, hnone slot hslot]
          rfl

/-- A function whose slots are promoted shows the same, but for the words of the slots. -/
theorem sameRuns :
    Runs.SameRuns (Runs.observe (IrEvent.isOutside (plan.words env)) (f.step env)) (f.start m w)
      (Runs.observe (IrEvent.isOutside (plan.words env)) (f'.step env)) (f'.start m w) := by
  obtain ⟨e, rest, hlayout, hpreds⟩ := hr.entry
  have hentry : f.layout.head? = some e := by rw [hlayout]; rfl
  have hhead : f.layout.headD 0 = e := by rw [hlayout]; rfl
  have hhead' : f'.layout.headD 0 = e := by
    obtain ⟨rest', hlayout'⟩ := List.head?_eq_some_iff.1 (h.head.trans hentry)
    rw [hlayout']
    rfl
  have hreach : f.Reach e := .entry hentry
  have hnew : new e = [] := by
    refine List.eq_nil_iff_forall_not_mem.2 fun phi hphi => ?_
    obtain ⟨-, k, r, hk, hplan⟩ := h.planned e phi hphi
    rw [(h.coherent.entry e k hentry hk).1] at hplan
    cases hplan
  by_cases hphis : f.phis e = []
  · refine Runs.sameRuns_of_simulation (h.simulation hs hr hstrict hapart) ⟨⟨?_, ?_, ?_, rfl, fun _ _ => rfl, ?_, ?_, ?_⟩,
      [], .refl _⟩
    · exact .start hentry hphis m w
    · unfold Function.start
      rw [hhead, hhead']
    · have hall := f.phis_append e
      rw [hphis, List.nil_append] at hall
      unfold Function.start
      rw [hhead, hhead', h.insts e hreach, hphis, hnew, hall]
      rfl
    · intro e' he' x hx
      cases hx
    · intro before hinsts v hv havail hnot halive
      have hnone : ∀ i, (f.value v).kind ≠ .inst i := by
        intro i hi
        unfold Function.start at hinsts havail
        dsimp only at hinsts havail
        rw [hhead] at hinsts havail
        obtain rfl : before = [] := by simpa using hinsts
        rcases havail i hi with hin | ⟨d, -, hne, hdom⟩
        · cases hin
        · exact hdom (.entry hentry (Ne.symm hne))
      have hstand : plan.stand v = v := h.coherent.stand_of_not_load v fun i k hi => absurd hi (hnone i)
      rw [hstand]
      unfold Function.read
      rw [h.kinds v hv]
      split
      · exact absurd ‹_› (hnone _)
      all_goals rfl
    · intro before hinsts k d hd halive
      unfold Function.start at hinsts halive ⊢
      dsimp only at hinsts halive ⊢
      rw [hhead] at hinsts halive ⊢
      obtain rfl : before = [] := by simpa using hinsts
      have hk : k < plan.slots.length := (List.getElem?_eq_some_iff.1 hd).1
      change f'.read env _ (plan.inn e k) = _
      rw [(h.coherent.entry e k hentry hk).2, hapart.zero d (List.mem_of_getElem? hd)]
      unfold Function.read
      rw [h.zero]
  · -- A phi in the entry is a fault of both.
    refine Runs.sameRuns_of_done (o := .fault) ?_ ?_
    · rw [Runs.observe, step_start_of_phis hr hentry hphis m w]
    · obtain ⟨i, more, hi⟩ := List.exists_cons_of_ne_nil hphis
      have he : e ∈ f.layout := List.mem_of_mem_head? hentry
      obtain ⟨hin, hphi⟩ := (hr.mem_phis he).1 (hi ▸ List.mem_cons_self)
      obtain ⟨hkind, -, hops⟩ := h.kept e i hreach hin (h.isGone_of_isPhi hphi)
      have hnone : f.operands i = [] := by
        rw [← List.length_eq_zero_iff, hr.slots e he i hin hphi, hpreds]
        rfl
      have hcode : (f'.start m w).code = i :: (more ++ new e ++
          ((f.instsOf e).dropWhile fun i => (f.kind i).isPhi).filter fun i => !plan.isGone f i) := by
        unfold Function.start
        dsimp only
        rw [hhead', h.insts e hreach, hi]
        rfl
      have hvalues : (f'.operands i).mapM (f'.read env (f'.start m w).vals) = some [] := by
        rw [hops, hnone]
        rfl
      rw [Runs.observe, step_eq hcode hvalues, hkind, InstKind.isPhi_eq_true.1 hphi]
      rfl

end

end Promoted

end SlotPlan

end SsaCompiler
