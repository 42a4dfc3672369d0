import SsaCompiler.Proofs.Ir.Strictness
import SsaCompiler.Ir.Promote

/-!
# The values of slots

When slots are promoted, each of them has a current value at every place: the one that was stored last, that of
a phi, or zero. A plan says which value is read in the place of which, and which values the slots have at the
start of each block; `current` carries the latter through the block. A plan is coherent when the values at the
start of a block are those at the end of every predecessor, phis apart.

The main statement is `Coherent.current_placed`: the current value of a slot has been computed on every path. The
argument is about a path that avoids the block in which the value is computed. The first place on that path where
the value is current would have to get it from a store, and what is stored was computed before.
-/

set_option autoImplicit false

namespace SsaCompiler

variable {b : BlockId} {before : List InstId} {v : ValueId}

variable {c d : BlockId} {before' : List InstId}

namespace Function

variable {f : Function}

/-- A path of some length from the entry leads to the block without coming through another one. -/
inductive AvoidsIn (f : Function) (a : BlockId) : Nat → BlockId → Prop
  | entry {e : BlockId} : f.layout.head? = some e → e ≠ a → AvoidsIn f a 0 e
  | step {n : Nat} {b c : BlockId} : AvoidsIn f a n b → f.Edge b c → c ≠ a → AvoidsIn f a (n + 1) c

variable {a : BlockId} {n : Nat}

/-- Every path has a length. -/
theorem Avoids.exists_length (h : f.Avoids a b) : ∃ n, f.AvoidsIn a n b := by
  induction h with
  | entry he hne => exact ⟨0, .entry he hne⟩
  | step _ hedge hne ih =>
    obtain ⟨n, hn⟩ := ih
    exact ⟨n + 1, .step hn hedge hne⟩

/-- A path of some length is a path. -/
theorem AvoidsIn.avoids (h : f.AvoidsIn a n b) : f.Avoids a b := by
  induction h with
  | entry he hne => exact .entry he hne
  | step _ hedge hne ih => exact .step ih hedge hne

/-- A path to a block comes through its strict dominators before. -/
theorem AvoidsIn.of_dominates (h : f.AvoidsIn a n b) (hdom : f.Dominates d b) (hne : d ≠ b) :
    ∃ m, m < n ∧ f.AvoidsIn a m d := by
  induction h with
  | entry he _ => exact absurd (.entry he (Ne.symm hne)) hdom
  | @step n p c hp hedge _ ih =>
    have hdp := hdom.of_edge hne hedge
    by_cases heq : d = p
    · exact ⟨n, Nat.lt_succ_self n, heq ▸ hp⟩
    · obtain ⟨m, hm, hpath⟩ := ih hdp heq
      exact ⟨m, Nat.lt_succ_of_lt hm, hpath⟩

/-- A block other than the entry is reached first from a block to which a path leads that avoids it. -/
theorem Reach.exists_first (h : f.Reach b) (hentry : f.layout.head? ≠ some b) : ∃ p, f.Avoids b p ∧ f.Edge p b := by
  have hpath : ∀ c, f.Reach c → f.Avoids b c ∨ ∃ p, f.Avoids b p ∧ f.Edge p b := by
    intro c hc
    induction hc with
    | @entry e he =>
      refine .inl (.entry he ?_)
      rintro rfl
      exact hentry he
    | @step p c _ hedge ih =>
      rcases ih with hp | hfound
      · by_cases hcb : c = b
        · exact .inr ⟨p, hp, hcb ▸ hedge⟩
        · exact .inl (.step hp hedge hcb)
      · exact .inr hfound
  exact (hpath b h).resolve_left (Dominates.refl f b)

/-- Every path avoids a block to which no path leads. -/
theorem Reach.avoids (h : f.Reach b) (ha : ¬ f.Reach a) : f.Avoids a b := by
  induction h with
  | @entry e he =>
    refine .entry he ?_
    rintro rfl
    exact ha (.entry he)
  | @step p c hp hedge ih =>
    refine .step ih hedge ?_
    rintro rfl
    exact ha (hp.step hedge)

theorem Available.append (h : f.Available b before v) (more : List InstId) : f.Available b (before ++ more) v :=
  fun i hi => (h i hi).imp_left (List.mem_append_left more)

/-- What is available in a block is available in the blocks that it strictly dominates. -/
theorem Available.of_dominates (hs : f.Sound) (h : f.Available b before v) (hbefore : ∀ i ∈ before, i ∈ f.instsOf b)
    (hdom : f.Dominates b c) (hne : b ≠ c) (hreach : f.Reach c) : f.Available c before' v := by
  intro i hi
  rcases h i hi with hin | ⟨d, hd, -, hdb⟩
  · exact .inr ⟨b, (hs.placed b i).1 (hbefore i hin), hne, hdom⟩
  · refine .inr ⟨d, hd, ?_, hdb.trans hdom⟩
    rintro rfl
    exact hne (hdom.antisymm hdb (hdom.reach hreach))

end Function

/-- A plan for promoting slots. -/
structure SlotPlan where
  /-- The reserving instructions with their addresses. -/
  slots : List (InstId × ValueId)
  /-- The value that is read in the place of a value. -/
  stand : ValueId → ValueId
  /-- The value of a slot to which nothing was stored. -/
  zero : ValueId
  /-- By block and slot, the phi that was placed with its result. -/
  phi? : BlockId → Nat → Option (InstId × ValueId)
  /-- By block and slot, the value behind the phis of the block. -/
  inn : BlockId → Nat → ValueId

namespace SlotPlan

/-- The addresses of the slots. -/
def addresses (plan : SlotPlan) : List ValueId := plan.slots.map Prod.snd

/-- The slot that an instruction loads or stores. -/
def accessOf? (plan : SlotPlan) (f : Function) (i : InstId) : Option Nat :=
  match f.kind i with
  | .load | .store => (f.operands i)[0]?.bind fun v => plan.addresses.idxOf? v
  | _ => none

/-- The values of the slots behind an instruction. -/
def carry (plan : SlotPlan) (f : Function) (values : Nat → ValueId) (i : InstId) : Nat → ValueId :=
  match f.kind i, plan.accessOf? f i, (f.operands i)[2]? with
  | .store, some k, some data => Function.update values k (plan.stand data)
  | _, _, _ => values

/-- The values of the slots at a place of a block, behind the instructions `before`. -/
def current (plan : SlotPlan) (f : Function) (b : BlockId) (before : List InstId) : Nat → ValueId :=
  before.foldl (plan.carry f) (plan.inn b)

/-- A value is computed in no block but this one. -/
def OnlyAt (plan : SlotPlan) (f : Function) (v : ValueId) (d : BlockId) : Prop :=
  (v < f.values.size ∧ ∃ i, (f.value v).kind = .inst i ∧ ∀ c, f.blockOf? i = some c → c = d) ∨
    ∃ k phi, plan.phi? d k = some (phi, v)

/-- A plan that fits a function. -/
structure Coherent (plan : SlotPlan) (f : Function) : Prop where
  /-- What stands for another value stands for a load of a slot. -/
  stand_of_not_load : ∀ v, (∀ i k, (f.value v).kind = .inst i → f.kind i = .load → plan.accessOf? f i = some k →
    False) → plan.stand v = v
  load : ∀ b before i after k r, f.Reach b → f.instsOf b = before ++ i :: after → f.kind i = .load →
    plan.accessOf? f i = some k → f.result? i = some r → plan.stand r = plan.current f b before k
  entry : ∀ e k, f.layout.head? = some e → k < plan.slots.length → plan.phi? e k = none ∧ plan.inn e k = plan.zero
  phi : ∀ b k phi r, plan.phi? b k = some (phi, r) → plan.inn b k = r ∧ f.values.size ≤ r
  edge : ∀ p b k, f.Reach p → f.Edge p b → k < plan.slots.length → plan.phi? b k = none →
    plan.inn b k = plan.current f p (f.instsOf p) k
  phi_inj : ∀ b b' k k' phi phi' r, plan.phi? b k = some (phi, r) → plan.phi? b' k' = some (phi', r) →
    b = b' ∧ k = k'
  zero_const : plan.zero < f.values.size → (f.value plan.zero).kind = .const 0
  zero_not_phi : ∀ b k phi, plan.phi? b k ≠ some (phi, plan.zero)

variable {plan : SlotPlan} {f : Function}

variable {i : InstId} {rest : List InstId} {k : Nat}

/-- A slot has a number below the number of slots. -/
theorem lt_of_accessOf? (h : plan.accessOf? f i = some k) : k < plan.slots.length := by
  have hidx : ∃ v, plan.addresses.idxOf? v = some k := by
    unfold accessOf? at h
    split at h
    · obtain ⟨v, -, hv⟩ := Option.bind_eq_some_iff.1 h
      exact ⟨v, hv⟩
    · obtain ⟨v, -, hv⟩ := Option.bind_eq_some_iff.1 h
      exact ⟨v, hv⟩
    · cases h
  obtain ⟨v, hv⟩ := hidx
  obtain ⟨hlt, -⟩ := List.idxOf?_eq_some_iff.1 hv
  unfold addresses at hlt
  rwa [List.length_map] at hlt

/-- What an instruction does to the values of the slots: a store to a slot sets one of them. -/
theorem carry_cases (plan : SlotPlan) (f : Function) (values : Nat → ValueId) (i : InstId) :
    plan.carry f values i = values ∨ ∃ k data, f.kind i = .store ∧ plan.accessOf? f i = some k ∧
      (f.operands i)[2]? = some data ∧ plan.carry f values i = Function.update values k (plan.stand data) := by
  unfold carry
  split
  · rename_i k data hkind haccess hdata
    exact .inr ⟨k, data, hkind, haccess, hdata, rfl⟩
  · exact .inl rfl

/-- Where a current value comes from: the start of the block, or a store before the place. -/
theorem current_cases (h : plan.current f b before k = v) : plan.inn b k = v ∨ ∃ l j l' data, before = l ++ j :: l' ∧
      f.kind j = .store ∧ plan.accessOf? f j = some k ∧ (f.operands j)[2]? = some data ∧ plan.stand data = v := by
  induction before using List.reverseRecOn with
  | nil => exact .inl h
  | append_singleton l j ih =>
    unfold current at h
    rw [List.foldl_append, List.foldl_cons, List.foldl_nil] at h
    have hearlier : plan.current f b l k = v → plan.inn b k = v ∨ ∃ l₁ j₁ l' data, l ++ [j] = l₁ ++ j₁ :: l' ∧
        f.kind j₁ = .store ∧ plan.accessOf? f j₁ = some k ∧ (f.operands j₁)[2]? = some data ∧
        plan.stand data = v := by
      intro hl
      rcases ih hl with hinn | ⟨l₁, j₁, l', data, rfl, hrest⟩
      · exact .inl hinn
      · exact .inr ⟨l₁, j₁, l' ++ [j], data, by simp, hrest⟩
    rcases plan.carry_cases f (l.foldl (plan.carry f) (plan.inn b)) j with
      hsame | ⟨k', data, hkind, haccess, hdata, hset⟩
    · rw [hsame] at h
      exact hearlier h
    · rw [hset] at h
      by_cases hk : k = k'
      · subst hk
        rw [Function.update_self] at h
        exact .inr ⟨l, j, [], data, rfl, hkind, haccess, hdata, h⟩
      · rw [Function.update_of_ne hk] at h
        exact hearlier h

/-- What neither loads nor stores accesses no slot. -/
theorem accessOf?_eq_none (hload : f.kind i ≠ .load) (hstore : f.kind i ≠ .store) : plan.accessOf? f i = none := by
  unfold accessOf?
  split
  · exact absurd ‹_› hload
  · exact absurd ‹_› hstore
  · rfl

/-- Instructions that store to no slot leave the values of the slots alone. -/
theorem current_append {more : List InstId} (h : ∀ j ∈ more, f.kind j = .store → plan.accessOf? f j = none) :
    plan.current f b (before ++ more) = plan.current f b before := by
  unfold current
  rw [List.foldl_append]
  generalize before.foldl (plan.carry f) (plan.inn b) = values
  induction more with
  | nil => rfl
  | cons j more ih =>
    rw [List.foldl_cons]
    have hj : plan.carry f values j = values := by
      rcases plan.carry_cases f values j with hsame | ⟨k, data, hstore, haccess, -⟩
      · exact hsame
      · rw [h j List.mem_cons_self hstore] at haccess
        cases haccess
    rw [hj]
    exact ih fun i hi => h i (List.mem_cons_of_mem _ hi)

theorem current_store {data : ValueId} (hkind : f.kind i = .store) (haccess : plan.accessOf? f i = some k)
    (hdata : (f.operands i)[2]? = some data) :
    plan.current f b (before ++ [i]) = Function.update (plan.current f b before) k (plan.stand data) := by
  unfold current
  rw [List.foldl_append, List.foldl_cons, List.foldl_nil, carry, hkind, haccess, hdata]

namespace Coherent

section

variable (h : plan.Coherent f)

include h

/-- What stands for a value is the value itself, or the value is that of a load of a slot. -/
theorem stand_cases (v : ValueId) : plan.stand v = v ∨
    ∃ i k, (f.value v).kind = .inst i ∧ f.kind i = .load ∧ plan.accessOf? f i = some k := by
  by_cases hload : ∃ i k, (f.value v).kind = .inst i ∧ f.kind i = .load ∧ plan.accessOf? f i = some k
  · exact .inr hload
  · exact .inl (h.stand_of_not_load v fun i k hv hi hk => hload ⟨i, k, hv, hi, hk⟩)

/-- On a path that avoids the block in which a value is computed, the value is never current. The induction is on
the length of the path, and at one block on the number of instructions before the place. -/
theorem current_ne_of_avoidsIn (hs : f.Sound) (hstrict : f.Strict) (honly : plan.OnlyAt f v d) :
    ∀ {n : Nat} {b : BlockId}, f.AvoidsIn d n b → ∀ {before rest : List InstId} {k : Nat},
      f.instsOf b = before ++ rest → k < plan.slots.length → plan.current f b before k ≠ v := by
  intro n
  induction n using Nat.strongRecOn with
  | ind n ihn =>
    intro b hpath before
    induction hlen : before.length using Nat.strongRecOn generalizing before with
    | ind size ihb =>
      subst hlen
      intro rest k hinsts hk hcur
      have hreach : f.Reach b := hpath.avoids.reach
      have hdb : b ≠ d := by
        rintro rfl
        exact Function.Dominates.refl f b hpath.avoids
      rcases current_cases hcur with hinn | ⟨l, j, l', data, rfl, hkind, haccess, hdata, hstand⟩
      · cases hphi : plan.phi? b k with
        | some e =>
          -- The value would be that of a phi of this block.
          obtain ⟨phi, r⟩ := e
          obtain ⟨hr', hsize⟩ := h.phi b k phi r hphi
          rw [hinn] at hr'
          subst hr'
          rcases honly with ⟨hlt, -⟩ | ⟨k', phi', hphi'⟩
          · exact absurd hlt (Nat.not_lt.2 hsize)
          · exact hdb (h.phi_inj b d k k' phi phi' v hphi hphi').1
        | none =>
          cases hpath with
          | entry he _ =>
            rw [(h.entry b k he hk).2] at hinn
            subst hinn
            rcases honly with ⟨hlt, i, hi, -⟩ | ⟨k', phi', hphi'⟩
            · rw [h.zero_const hlt] at hi
              cases hi
            · exact h.zero_not_phi d k' phi' hphi'
          | @step m p c hp hedge _ =>
            rw [h.edge p b k hp.avoids.reach hedge hk hphi] at hinn
            exact ihn m (Nat.lt_succ_self m) hp (List.append_nil _).symm hk hinn
      · have hinsts' : f.instsOf b = l ++ j :: (l' ++ rest) := by rw [hinsts]; simp
        have hmem : data ∈ f.operands j := List.mem_of_getElem? hdata
        have hnot : (f.kind j).isPhi = false := by rw [hkind]; rfl
        have havail := hstrict.operand b l j (l' ++ rest) hreach hinsts' hnot data hmem
        have hsize := hs.lt_size_of_mem_operands hmem
        rcases h.stand_cases data with hsame | ⟨i, k', hi, hload, haccess'⟩
        · -- What is stored is the value itself, so it was computed before.
          rw [hsame] at hstand
          subst hstand
          rcases honly with ⟨-, i, hi, hd⟩ | ⟨k', phi', hphi'⟩
          · rcases havail i hi with hin | ⟨d', hd', -, hdom⟩
            · exact hdb (hd b ((hs.placed b i).1 (by rw [hinsts']; exact List.mem_append_left _ hin)))
            · exact hdom (hd d' hd' ▸ hpath.avoids)
          · exact absurd hsize (Nat.not_lt.2 (h.phi d k' phi' data hphi').2)
        · -- What is stored was loaded from a slot, and so it was current there.
          have hresult := hs.result_of_kind i data hsize hi
          rcases havail i hi with hin | ⟨c, hc, hcb, hdom⟩
          · obtain ⟨m, m', rfl⟩ := List.append_of_mem hin
            have hsplit : f.instsOf b = m ++ i :: (m' ++ j :: (l' ++ rest)) := by rw [hinsts']; simp
            rw [h.load b m i _ k' data hreach hsplit hload haccess' hresult] at hstand
            exact ihb m.length (by simp) rfl hsplit (lt_of_accessOf? haccess') hstand
          · obtain ⟨m, hm, hpath'⟩ := hpath.of_dominates hdom hcb
            obtain ⟨l₁, l₂, hsplit⟩ := List.append_of_mem ((hs.placed c i).2 hc)
            rw [h.load c l₁ i l₂ k' data (hdom.reach hreach) hsplit hload haccess' hresult] at hstand
            exact ihn m hm hpath' hsplit (lt_of_accessOf? haccess') hstand

/-- The block in which a current value is computed dominates the place. -/
theorem dominates_of_current (hs : f.Sound) (hstrict : f.Strict) (honly : plan.OnlyAt f v d)
    (hinsts : f.instsOf b = before ++ rest) (hk : k < plan.slots.length) (hcur : plan.current f b before k = v) :
    f.Dominates d b := by
  intro havoid
  obtain ⟨n, hpath⟩ := havoid.exists_length
  exact h.current_ne_of_avoidsIn hs hstrict honly hpath hinsts hk hcur

/-- In its block, a current value that an instruction computes was computed before. The induction is on the number of
instructions before the place. -/
theorem mem_of_current (hs : f.Sound) (hstrict : f.Strict) (hv : v < f.values.size) (hi : (f.value v).kind = .inst i)
    (hblock : f.blockOf? i = some b) (hreach : f.Reach b) (hinsts : f.instsOf b = before ++ rest)
    (hk : k < plan.slots.length) (hcur : plan.current f b before k = v) : i ∈ before := by
  have honly : plan.OnlyAt f v b := .inl ⟨hv, i, hi, fun c hc => Option.some.inj (hc.symm.trans hblock)⟩
  induction hlen : before.length using Nat.strongRecOn generalizing before rest k with
  | ind size ih =>
    subst hlen
    rcases current_cases hcur with hinn | ⟨l, j, l', data, rfl, hkind, haccess, hdata, hstand⟩
    · cases hphi : plan.phi? b k with
      | some e =>
        obtain ⟨hr, hsize⟩ := h.phi b k e.1 e.2 hphi
        rw [hinn] at hr
        exact absurd hv (Nat.not_lt.2 (hr ▸ hsize))
      | none =>
        have hentry : f.layout.head? ≠ some b := by
          intro he
          rw [(h.entry b k he hk).2] at hinn
          subst hinn
          rw [h.zero_const hv] at hi
          cases hi
        -- The block is reached first from one in which the value cannot be current.
        obtain ⟨p, hp, hedge⟩ := hreach.exists_first hentry
        rw [h.edge p b k hp.reach hedge hk hphi] at hinn
        exact absurd hp (h.dominates_of_current hs hstrict honly (List.append_nil _).symm hk hinn)
    · have hinsts' : f.instsOf b = l ++ j :: (l' ++ rest) := by rw [hinsts]; simp
      have hmem : data ∈ f.operands j := List.mem_of_getElem? hdata
      have havail := hstrict.operand b l j (l' ++ rest) hreach hinsts' (by rw [hkind]; rfl) data hmem
      have hsize := hs.lt_size_of_mem_operands hmem
      rcases h.stand_cases data with hsame | ⟨i', k', hi', hload, haccess'⟩
      · rw [hsame] at hstand
        subst hstand
        rcases havail i hi with hin | ⟨c, hc, hne, -⟩
        · exact List.mem_append_left _ hin
        · exact absurd (Option.some.inj (hc.symm.trans hblock)) hne
      · have hresult := hs.result_of_kind i' data hsize hi'
        rcases havail i' hi' with hin | ⟨c, hc, hcb, hdom⟩
        · obtain ⟨m, m', rfl⟩ := List.append_of_mem hin
          have hsplit : f.instsOf b = m ++ i' :: (m' ++ j :: (l' ++ rest)) := by rw [hinsts']; simp
          rw [h.load b m i' _ k' data hreach hsplit hload haccess' hresult] at hstand
          have hin' := ih m.length (by simp) hsplit (lt_of_accessOf? haccess') hstand rfl
          exact List.mem_append_left _ (List.mem_append_left _ hin')
        · obtain ⟨l₁, l₂, hsplit⟩ := List.append_of_mem ((hs.placed c i').2 hc)
          rw [h.load c l₁ i' l₂ k' data (hdom.reach hreach) hsplit hload haccess' hresult] at hstand
          have hback := h.dominates_of_current hs hstrict honly hsplit (lt_of_accessOf? haccess') hstand
          exact absurd (hdom.antisymm hback (hdom.reach hreach)) hcb

/-- A current value that an instruction computes is available. -/
theorem available_of_current (hs : f.Sound) (hr : f.Regular) (hstrict : f.Strict) (hv : v < f.values.size)
    (hreach : f.Reach b) (hinsts : f.instsOf b = before ++ rest) (hk : k < plan.slots.length)
    (hcur : plan.current f b before k = v) : f.Available b before v := by
  intro i hi
  have hdom : ∀ d, (∀ c, f.blockOf? i = some c → c = d) → f.Dominates d b := fun d hd =>
    h.dominates_of_current hs hstrict (.inl ⟨hv, i, hi, hd⟩) hinsts hk hcur
  cases hblock : f.blockOf? i with
  | none =>
    -- What stands nowhere could be said to stand where no path leads.
    have hnowhere : ¬ f.Reach f.blocks.size := fun hsize =>
      Nat.lt_irrefl _ ((hs.mem_layout _).1 (hr.mem_layout_of_reach hs hsize)).1
    exact absurd (hreach.avoids hnowhere) (hdom _ fun c hc => by rw [hblock] at hc; cases hc)
  | some d =>
    by_cases hdb : d = b
    · exact .inl (h.mem_of_current hs hstrict hv hi (hdb ▸ hblock) hreach hinsts hk hcur)
    · exact .inr ⟨d, rfl, hdb, hdom d fun c hc => Option.some.inj (hc.symm.trans hblock)⟩

end

end Coherent

/-- A value that was computed on every path to a place, be it one of the function or that of a phi of the
plan. -/
structure Placed (plan : SlotPlan) (f : Function) (b : BlockId) (before : List InstId) (v : ValueId) : Prop where
  available : v < f.values.size → f.Available b before v
  dominates : ∀ d k phi, plan.phi? d k = some (phi, v) → f.Dominates d b

theorem Placed.append (h : plan.Placed f b before v) (more : List InstId) : plan.Placed f b (before ++ more) v :=
  ⟨fun hv => (h.available hv).append more, h.dominates⟩

/-- Such a value stays so in the blocks that the block strictly dominates. -/
theorem Placed.of_dominates (hs : f.Sound) (h : plan.Placed f b before v) (hbefore : ∀ i ∈ before, i ∈ f.instsOf b)
    (hdom : f.Dominates b c) (hne : b ≠ c) (hreach : f.Reach c) : plan.Placed f c before' v :=
  ⟨fun hv => (h.available hv).of_dominates hs hbefore hdom hne hreach, fun d k phi hd => (h.dominates d k phi hd).trans hdom⟩

namespace Coherent

variable (h : plan.Coherent f) (hs : f.Sound) (hr : f.Regular) (hstrict : f.Strict)

include h hs hr hstrict

/-- The current values of the slots were computed on every path. -/
theorem current_placed (hreach : f.Reach b) (hinsts : f.instsOf b = before ++ rest) (hk : k < plan.slots.length) :
    plan.Placed f b before (plan.current f b before k) where
  available hv := h.available_of_current hs hr hstrict hv hreach hinsts hk rfl
  dominates _ k' phi hd := h.dominates_of_current hs hstrict (.inr ⟨k', phi, hd⟩) hinsts hk rfl

/-- What stands for an available value was computed on every path. -/
theorem stand_placed (hreach : f.Reach b) (hinsts : f.instsOf b = before ++ rest) (hv : v < f.values.size)
    (havail : f.Available b before v) : plan.Placed f b before (plan.stand v) := by
  rcases h.stand_cases v with hsame | ⟨i, k, hi, hload, haccess⟩
  · rw [hsame]
    exact ⟨fun _ => havail, fun d k phi hd => absurd hv (Nat.not_lt.2 (h.phi d k phi v hd).2)⟩
  · have hresult := hs.result_of_kind i v hv hi
    rcases havail i hi with hin | ⟨c, hc, hcb, hdom⟩
    · obtain ⟨m, m', rfl⟩ := List.append_of_mem hin
      have hsplit : f.instsOf b = m ++ i :: (m' ++ rest) := by rw [hinsts]; simp
      rw [h.load b m i _ k v hreach hsplit hload haccess hresult]
      exact (h.current_placed hs hr hstrict hreach hsplit (lt_of_accessOf? haccess)).append _
    · obtain ⟨m, m', hsplit⟩ := List.append_of_mem ((hs.placed c i).2 hc)
      rw [h.load c m i m' k v (hdom.reach hreach) hsplit hload haccess hresult]
      exact (h.current_placed hs hr hstrict (hdom.reach hreach) hsplit (lt_of_accessOf? haccess)).of_dominates hs
        (fun j hj => by rw [hsplit]; exact List.mem_append_left _ hj) hdom hcb hreach

end Coherent

end SlotPlan

end SsaCompiler
