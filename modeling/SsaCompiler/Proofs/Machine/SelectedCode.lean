import SsaCompiler.Proofs.Machine.SelectionSteps

/-!
# The state of a selection

A virtual register of a selection is for a value, for the address of a label, or for something that one instruction
needs in between. The first two sorts belong to their owners for good; the last one is scratch. Selecting goes on by
appending code to the current block and address loads to the front of the entry, and it never takes a register from
its owner.
-/

set_option autoImplicit false

namespace SsaCompiler

/-- Inserting into a list puts the item between two parts of it. -/
theorem insertIdx_of_le {α : Type} (a : α) {l : List α} : ∀ {k : Nat}, k ≤ l.length →
    l.insertIdx k a = l.take k ++ a :: l.drop k := by
  induction l with
  | nil =>
    intro k hk
    obtain rfl := Nat.le_zero.1 hk
    rfl
  | cons b l ih =>
    intro k hk
    cases k with
    | zero => rfl
    | succ k => rw [List.insertIdx_succ_cons, ih (Nat.le_of_succ_le_succ hk)]; rfl

/-- What a virtual register of a selection is for: a value, or the address of a label. -/
inductive Owner
  | value (v : ValueId)
  | label (name : String)

variable {v : ValueId}

namespace Selection

/-- A virtual register belongs to an owner. -/
def Belongs (s : Selection) (n : Nat) : Owner → Prop
  | .value v => s.registers.getD v none = some (.virtual n)
  | .label name => s.addresses.lookup name = some (.virtual n)

/-- The instructions of the entry in front of its body. -/
def front (s : Selection) : List Instr := (s.code.instsOf 0).take s.entryFront

/-- The instructions of a block, those at the front of the entry left out. -/
def body (s : Selection) (b : Nat) : List Instr :=
  if b = 0 then (s.code.instsOf 0).drop s.entryFront else s.code.instsOf b

/-- The owners of registers are registered as such, each register has one owner, and there is room for more code. -/
structure Sound (s : Selection) : Prop where
  here : s.current < s.code.blocks.size
  room : s.entryFront ≤ (s.code.instsOf 0).length
  named : ∀ v op, s.registers.getD v none = some op → ∃ n, op = .virtual n
  loaded : ∀ name op, s.addresses.lookup name = some op → ∃ n, op = .virtual n
  counted : ∀ n o, s.Belongs n o → n < s.code.vregCount
  single : ∀ n o o', s.Belongs n o → s.Belongs n o' → o = o'

/-- A later state of a selection: the registers have the owners that they had, and new owners have new registers. -/
structure Extends (s s' : Selection) : Prop where
  size : s'.code.blocks.size = s.code.blocks.size
  values : s'.registers.size = s.registers.size
  slots : s'.slots = s.slots
  count : s.code.vregCount ≤ s'.code.vregCount
  kept : ∀ n o, s.Belongs n o → s'.Belongs n o
  fresh : ∀ n o, s'.Belongs n o → s.Belongs n o ∨ s.code.vregCount ≤ n

namespace Extends

variable {s s₁ s₂ : Selection}

theorem refl (s : Selection) : s.Extends s :=
  ⟨rfl, rfl, rfl, Nat.le_refl _, fun _ _ h => h, fun _ _ h => .inl h⟩

theorem trans (h : s.Extends s₁) (h' : s₁.Extends s₂) : s.Extends s₂ where
  size := h'.size.trans h.size
  values := h'.values.trans h.values
  slots := h'.slots.trans h.slots
  count := h.count.trans h'.count
  kept n o ho := h'.kept n o (h.kept n o ho)
  fresh n o ho := by
    rcases h'.fresh n o ho with hold | hnew
    · exact h.fresh n o hold
    · exact .inr (h.count.trans hnew)

theorem of_eq (hsize : s₁.code.blocks.size = s.code.blocks.size) (hcount : s₁.code.vregCount = s.code.vregCount)
    (hregs : s₁.registers = s.registers) (hslots : s₁.slots = s.slots) (haddr : s₁.addresses = s.addresses) :
    s.Extends s₁ := by
  have hbelongs : ∀ n o, s₁.Belongs n o ↔ s.Belongs n o := by
    intro n o
    cases o with
    | value v => rw [Belongs, Belongs, hregs]
    | label name => rw [Belongs, Belongs, haddr]
  exact ⟨hsize, by rw [hregs], hslots, Nat.le_of_eq hcount.symm, fun n o => (hbelongs n o).2,
    fun n o ho => .inl ((hbelongs n o).1 ho)⟩

end Extends

theorem Sound.of_eq {s s' : Selection} (h : s.Sound) (hhere : s'.current < s'.code.blocks.size)
    (hroom : s'.entryFront ≤ (s'.code.instsOf 0).length) (hcount : s'.code.vregCount = s.code.vregCount)
    (hregs : s'.registers = s.registers) (haddr : s'.addresses = s.addresses) : s'.Sound := by
  have hbelongs : ∀ n o, s'.Belongs n o → s.Belongs n o := by
    intro n o ho
    cases o with
    | value v => rwa [Belongs, hregs] at ho
    | label name => rwa [Belongs, haddr] at ho
  exact ⟨hhere, hroom, by rw [hregs]; exact h.named, by rw [haddr]; exact h.loaded,
    fun n o ho => hcount ▸ h.counted n o (hbelongs n o ho),
    fun n o o' ho ho' => h.single n o o' (hbelongs n o ho) (hbelongs n o' ho')⟩

/-- A later state of a selection with more code in the current block. What else is new are loads of addresses at the
front of the entry. -/
structure Emits (s : Selection) (code : List Instr) (s' : Selection) : Prop extends s.Extends s' where
  sound : s'.Sound
  current : s'.current = s.current
  body : ∀ b, s'.body b = if b = s.current then s.body b ++ code else s.body b
  loads : ∃ added, s'.addresses = added ++ s.addresses ∧
    s'.front = s.front ++ (added.reverse.map fun e => .loadAddr e.2 e.1) ∧
    ∀ e ∈ added, s'.addresses.lookup e.1 = some e.2

namespace Emits

variable {s s₁ s₂ : Selection} {code code' : List Instr}

theorem refl (h : s.Sound) : s.Emits [] s :=
  ⟨.refl s, h, rfl, fun b => by rw [List.append_nil, ite_self], [], rfl, (List.append_nil _).symm, List.forall_mem_nil _⟩

theorem trans (h : s.Emits code s₁) (h' : s₁.Emits code' s₂) : s.Emits (code ++ code') s₂ where
  toExtends := h.toExtends.trans h'.toExtends
  sound := h'.sound
  current := h'.current.trans h.current
  body b := by
    rw [h'.body, h.body, h.current]
    split
    · rw [List.append_assoc]
    · rfl
  loads := by
    obtain ⟨added, haddr, hfront, hlookup⟩ := h.loads
    obtain ⟨added', haddr', hfront', hlookup'⟩ := h'.loads
    refine ⟨added' ++ added, ?_, ?_, List.forall_mem_append.2 ⟨hlookup', fun e he => ?_⟩⟩
    · rw [haddr', haddr, List.append_assoc]
    · rw [hfront', hfront, List.append_assoc, List.reverse_append, List.map_append]
    · obtain ⟨n, hn⟩ := h.sound.loaded e.1 e.2 (hlookup e he)
      have hbelongs : s₁.Belongs n (.label e.1) := (hlookup e he).trans (congrArg some hn)
      rw [hn]
      exact h'.kept n (.label e.1) hbelongs

/-- With the same addresses there is no load either. -/
theorem instsOf_eq (h : s.Emits [] s₁) (haddr : s₁.addresses = s.addresses) :
    (∀ b, s₁.code.instsOf b = s.code.instsOf b) ∧ (s.Sound → s₁.entryFront = s.entryFront) := by
  obtain ⟨added, hadded, hfront, -⟩ := h.loads
  obtain rfl : added = [] := List.append_left_eq_self.1 (hadded.symm.trans haddr)
  rw [List.reverse_nil, List.map_nil, List.append_nil] at hfront
  refine ⟨fun b => ?_, fun hs => ?_⟩
  · have hbody := h.body b
    rw [List.append_nil, ite_self] at hbody
    unfold Selection.body at hbody
    split at hbody
    · rename_i hb
      subst hb
      rw [← List.take_append_drop s₁.entryFront (s₁.code.instsOf 0), ← List.take_append_drop s.entryFront (s.code.instsOf 0)]
      exact congrArg₂ (· ++ ·) hfront hbody
    · exact hbody
  · have hlength := congrArg List.length hfront
    unfold Selection.front at hlength
    rwa [List.length_take_of_le h.sound.room, List.length_take_of_le hs.room] at hlength

/-- If the addresses of all labels are loaded in the entry, they stay so. -/
theorem loaded (h : s.Emits code s₁) (hs : ∀ n name, s.Belongs n (.label name) → .loadAddr (.virtual n) name ∈ s.code.instsOf 0)
    (n : Nat) (name : String) (hn : s₁.Belongs n (.label name)) : .loadAddr (.virtual n) name ∈ s₁.code.instsOf 0 := by
  obtain ⟨added, hadded, hfront, -⟩ := h.loads
  have hin : .loadAddr (.virtual n) name ∈ s₁.front ∨ .loadAddr (.virtual n) name ∈ s₁.body 0 := by
    have hlookup : s₁.addresses.lookup name = some (.virtual n) := hn
    rw [hadded, List.lookup_append, Option.or_eq_some_iff] at hlookup
    rcases hlookup with hnew | ⟨-, hold⟩
    · refine .inl (hfront ▸ List.mem_append_right _ (List.mem_map.2 ⟨(name, .virtual n), List.mem_reverse.2 ?_, rfl⟩))
      obtain ⟨before, after, rfl, -⟩ := List.lookup_eq_some_iff.1 hnew
      exact List.mem_append_right _ List.mem_cons_self
    · have hmem := hs n name hold
      rw [← List.take_append_drop s.entryFront (s.code.instsOf 0)] at hmem
      refine (List.mem_append.1 hmem).imp (fun hmem => hfront ▸ List.mem_append_left _ hmem) fun hmem => ?_
      have hbody : .loadAddr (.virtual n) name ∈ s.body 0 := hmem
      rw [h.body]
      split
      · exact List.mem_append_left _ hbody
      · exact hbody
  rw [← List.take_append_drop s₁.entryFront (s₁.code.instsOf 0)]
  exact List.mem_append.2 hin

/-- Without code of its own it adds loads to the front of the entry. -/
theorem instsOf_zero (h : s.Emits [] s₁) (hs : s.Sound) : ∃ loads : List Instr,
    (∀ i ∈ loads, ∃ n name, i = .loadAddr (.virtual n) name ∧ s₁.Belongs n (.label name)) ∧
      s₁.entryFront = s.entryFront + loads.length ∧
      s₁.code.instsOf 0 = (s.code.instsOf 0).take s.entryFront ++ loads ++ (s.code.instsOf 0).drop s.entryFront := by
  obtain ⟨added, -, hfront, hlookup⟩ := h.loads
  refine ⟨added.reverse.map fun e => .loadAddr e.2 e.1, fun i hi => ?_, ?_, ?_⟩
  · obtain ⟨e, he, rfl⟩ := List.mem_map.1 hi
    have hlast := hlookup e (List.mem_reverse.1 he)
    obtain ⟨n, hn⟩ := h.sound.loaded e.1 e.2 hlast
    exact ⟨n, e.1, by rw [hn], hlast.trans (congrArg some hn)⟩
  · have hlength := congrArg List.length hfront
    unfold Selection.front at hlength
    rwa [List.length_append, List.length_take_of_le h.sound.room, List.length_take_of_le hs.room] at hlength
  · have hbody := h.body 0
    rw [List.append_nil, ite_self] at hbody
    unfold Selection.body at hbody
    rw [if_pos rfl, if_pos rfl] at hbody
    rw [← List.take_append_drop s₁.entryFront (s₁.code.instsOf 0), hbody]
    exact congrArg (· ++ _) hfront

end Emits

/-- A register between two bounds that nobody owns. -/
structure Scratch (s : Selection) (low high n : Nat) : Prop where
  low : low ≤ n
  high : n < high
  counted : n < s.code.vregCount
  free : ∀ o, ¬ s.Belongs n o

theorem Scratch.mono {s s' : Selection} {low high n : Nat} (h : s.Scratch low high n) (hext : s.Extends s') :
    s'.Scratch low high n where
  low := h.low
  high := h.high
  counted := h.counted.trans_le hext.count
  free o ho := by
    rcases hext.fresh n o ho with hold | hnew
    · exact h.free o hold
    · exact absurd h.counted (Nat.not_lt.2 hnew)

/-- Scratch of a part is scratch of the whole. -/
theorem Scratch.widen {s : Selection} {low low' high high' n : Nat} (h : s.Scratch low high n) (hlow : low' ≤ low)
    (hhigh : high ≤ high') : s.Scratch low' high' n :=
  ⟨hlow.trans h.low, h.high.trans_le hhigh, h.counted, h.free⟩

/-- One more owner has a register of its own. -/
structure Claims (s : Selection) (o : Owner) (s' : Selection) : Prop where
  free : ∀ n, ¬ s.Belongs n o
  count : s'.code.vregCount = s.code.vregCount + 1
  belongs : ∀ n o', s'.Belongs n o' ↔ s.Belongs n o' ∨ n = s.code.vregCount ∧ o' = o

namespace Claims

variable {s s' : Selection} {o : Owner}

theorem kept (h : s.Claims o s') (n : Nat) (o' : Owner) (ho : s.Belongs n o') : s'.Belongs n o' :=
  (h.belongs n o').2 (.inl ho)

theorem fresh (h : s.Claims o s') (n : Nat) (o' : Owner) (ho : s'.Belongs n o') :
    s.Belongs n o' ∨ s.code.vregCount ≤ n :=
  ((h.belongs n o').1 ho).imp_right fun hn => Nat.le_of_eq hn.1.symm

theorem counted (h : s.Claims o s') (hs : s.Sound) (n : Nat) (o' : Owner) (ho : s'.Belongs n o') :
    n < s'.code.vregCount := by
  rw [h.count]
  rcases (h.belongs n o').1 ho with hold | ⟨rfl, -⟩
  · exact (hs.counted n o' hold).trans (Nat.lt_succ_self _)
  · exact Nat.lt_succ_self _

theorem single (h : s.Claims o s') (hs : s.Sound) (n : Nat) (o₁ o₂ : Owner) (h₁ : s'.Belongs n o₁)
    (h₂ : s'.Belongs n o₂) : o₁ = o₂ := by
  rcases (h.belongs n o₁).1 h₁ with hold₁ | ⟨hn, rfl⟩ <;> rcases (h.belongs n o₂).1 h₂ with hold₂ | ⟨hn', rfl⟩
  · exact hs.single n o₁ o₂ hold₁ hold₂
  · exact absurd (hs.counted n o₁ hold₁) (hn' ▸ Nat.lt_irrefl _)
  · exact absurd (hs.counted n o₂ hold₂) (hn ▸ Nat.lt_irrefl _)
  · rfl

end Claims

/-- A value takes the next register. -/
theorem claims_value {s s' : Selection} (hnone : s.registers.getD v none = none) (hv : v < s.registers.size)
    (hcount : s'.code.vregCount = s.code.vregCount + 1)
    (hregs : s'.registers = s.registers.setIfInBounds v (some (.virtual s.code.vregCount)))
    (haddr : s'.addresses = s.addresses) : s.Claims (.value v) s' := by
  refine ⟨fun n ho => ?_, hcount, fun n o => ?_⟩
  · cases hnone.symm.trans ho
  · cases o with
    | value w =>
      unfold Belongs
      dsimp only
      rw [hregs, Array.getD_eq_getD_getElem?, Array.getElem?_setIfInBounds]
      by_cases hw : v = w
      · subst hw
        simp [hnone, hv, eq_comm]
      · simp [hw, Ne.symm hw]
    | label name => simp [Belongs, haddr]

/-- A label takes the next register. -/
theorem claims_label {s s' : Selection} {name : String} (hnone : s.addresses.lookup name = none)
    (hcount : s'.code.vregCount = s.code.vregCount + 1) (hregs : s'.registers = s.registers)
    (haddr : s'.addresses = (name, .virtual s.code.vregCount) :: s.addresses) : s.Claims (.label name) s' := by
  refine ⟨fun n ho => ?_, hcount, fun n o => ?_⟩
  · cases hnone.symm.trans ho
  · cases o with
    | value w => simp [Belongs, hregs]
    | label other =>
      unfold Belongs
      dsimp only
      rw [haddr, List.lookup_cons]
      by_cases hother : other = name
      · subst hother
        simp [hnone, eq_comm]
      · simp [hother, beq_false_of_ne hother]

end Selection

namespace Select

open Stateful Selection

variable {allowed : Failure → Prop} {s : Selection}

/-- Appending an instruction. -/
theorem meets_emit (hs : s.Sound) (i : Instr) : Meets allowed (emit i) s fun _ s' => s.Emits [i] s' := by
  refine .modify ?_
  have hinsts : ∀ b, (s.code.push s.current i).instsOf b =
      if b = s.current then s.code.instsOf b ++ [i] else s.code.instsOf b := by
    intro b
    rw [MachineFunction.push, instsOf_modifyInsts]
    by_cases hb : b = s.current
    · rw [if_pos ⟨hb.symm, hs.here⟩, if_pos hb]
    · rw [if_neg fun h => hb h.1.symm, if_neg hb]
  have hsize : (s.code.push s.current i).blocks.size = s.code.blocks.size := Array.size_modify
  have hroom : s.entryFront ≤ ((s.code.push s.current i).instsOf 0).length := by
    rw [hinsts]
    split
    · exact hs.room.trans (by simp)
    · exact hs.room
  refine ⟨⟨hsize, rfl, rfl, Nat.le_refl _, fun _ _ h => h, fun _ _ h => .inl h⟩,
    ⟨hsize ▸ hs.here, hroom, hs.named, hs.loaded, hs.counted, hs.single⟩, rfl, fun b => ?_, [], rfl, ?_,
      List.forall_mem_nil _⟩
  · unfold Selection.body
    dsimp only
    rw [hinsts, hinsts]
    by_cases h0 : b = 0
    · subst h0
      simp only [if_true]
      split
      · exact List.drop_append_of_le_length hs.room
      · rfl
    · simp only [if_neg h0]
  · unfold Selection.front
    dsimp only
    rw [hinsts, List.reverse_nil, List.map_nil, List.append_nil]
    split
    · exact List.take_append_of_le_length hs.room
    · rfl

theorem meets_newVreg (hs : s.Sound) : Meets allowed newVreg s fun op s' => s.Emits [] s' ∧
    ∃ n, op = .virtual n ∧ s'.Scratch s.code.vregCount s'.code.vregCount n := by
  refine .modifyGet ⟨⟨⟨rfl, rfl, rfl, Nat.le_succ _, fun _ _ h => h, fun _ _ h => .inl h⟩,
    ⟨hs.here, hs.room, hs.named, hs.loaded, fun n o ho => (hs.counted n o ho).trans (Nat.lt_succ_self _), hs.single⟩,
    rfl, fun b => ?_, [], rfl, (List.append_nil _).symm, List.forall_mem_nil _⟩, s.code.vregCount, rfl, Nat.le_refl _, Nat.lt_succ_self _,
    Nat.lt_succ_self _, fun o ho => Nat.lt_irrefl _ (hs.counted _ o ho)⟩
  rw [List.append_nil, ite_self]
  rfl

theorem meets_vregFor (hs : s.Sound) (hv : v < s.registers.size) :
    Meets allowed (vregFor v) s fun op s' => s.Emits [] s' ∧ ∃ n, op = .virtual n ∧ s'.Belongs n (.value v) := by
  refine .bind (.get ?_)
  split
  · rename_i op hop
    obtain ⟨n, rfl⟩ := hs.named v op hop
    exact .pure ⟨.refl hs, n, rfl, hop⟩
  · rename_i hnone
    refine .bind (.modifyGet (.bind (.modify (.pure ?_))))
    have hclaims : s.Claims (.value v) { s with
        code := s.code.newVreg.2
        registers := s.registers.setIfInBounds v (some s.code.newVreg.1) } := claims_value hnone hv rfl rfl rfl
    refine ⟨⟨⟨rfl, Array.size_setIfInBounds, rfl, Nat.le_succ _, hclaims.kept, hclaims.fresh⟩,
      ⟨hs.here, hs.room, fun w op hop => ?_, hs.loaded, hclaims.counted hs, hclaims.single hs⟩,
      rfl, fun b => by rw [List.append_nil, ite_self]; rfl, [], rfl, (List.append_nil _).symm, List.forall_mem_nil _⟩,
      s.code.vregCount, rfl, (hclaims.belongs _ _).2 (.inr ⟨rfl, rfl⟩)⟩
    dsimp only at hop
    rw [Array.getD_eq_getD_getElem?, Array.getElem?_setIfInBounds] at hop
    split at hop
    · exact ⟨_, (Option.some.inj hop).symm⟩
    · exact hs.named w op (by rwa [Array.getD_eq_getD_getElem?])

/-- Finding the register with the address of a label. -/
theorem meets_cachedAddress (hs : s.Sound) (name : String) : Meets allowed (cachedAddress name) s fun op s' =>
    s.Emits [] s' ∧ ∃ n, op = .virtual n ∧ s'.Belongs n (.label name) := by
  refine .bind (.get ?_)
  split
  · rename_i op hop
    obtain ⟨n, rfl⟩ := hs.loaded name op hop
    exact .pure ⟨.refl hs, n, rfl, hop⟩
  · rename_i hnone
    refine .bind (.modifyGet (.bind (.modify (.pure ?_))))
    have hinsts : ∀ b, (s.code.newVreg.2.modifyInsts 0 fun insts =>
        insts.insertIdx s.entryFront (.loadAddr s.code.newVreg.1 name)).instsOf b =
        if b = 0 then s.front ++ .loadAddr s.code.newVreg.1 name :: (s.code.instsOf 0).drop s.entryFront
        else s.code.instsOf b := by
      intro b
      rw [instsOf_modifyInsts]
      by_cases hb : b = 0
      · subst hb
        rw [if_pos ⟨rfl, (Nat.zero_le _).trans_lt hs.here⟩, if_pos rfl]
        exact insertIdx_of_le _ hs.room
      · rw [if_neg fun h => hb h.1.symm, if_neg hb]
        rfl
    have hlength : s.front.length = s.entryFront := List.length_take_of_le hs.room
    have hclaims : s.Claims (.label name) { s with
        code := s.code.newVreg.2.modifyInsts 0 fun insts =>
          insts.insertIdx s.entryFront (.loadAddr s.code.newVreg.1 name)
        entryFront := s.entryFront + 1
        addresses := (name, s.code.newVreg.1) :: s.addresses } := claims_label hnone rfl rfl rfl
    refine ⟨⟨⟨Array.size_modify, rfl, rfl, Nat.le_succ _, hclaims.kept, hclaims.fresh⟩,
      ⟨Nat.lt_of_lt_of_eq hs.here Array.size_modify.symm, ?_, hs.named, fun other op hop => ?_, hclaims.counted hs,
        hclaims.single hs⟩, rfl, fun b => ?_, [(name, s.code.newVreg.1)], rfl, ?_, fun e he => ?_⟩,
      s.code.vregCount, rfl, List.lookup_cons_self⟩
    · dsimp only
      rw [hinsts, if_pos rfl, List.length_append, hlength, List.length_cons]
      omega
    · rw [List.lookup_cons] at hop
      split at hop
      · exact ⟨_, (Option.some.inj hop).symm⟩
      · exact hs.loaded other op hop
    · rw [List.append_nil, ite_self]
      unfold Selection.body
      dsimp only
      rw [hinsts, hinsts]
      by_cases hb : b = 0
      · simp only [if_pos hb, if_true]
        rw [List.append_cons, List.drop_left' (by simp [hlength])]
      · simp only [if_neg hb]
    · conv_lhs => unfold Selection.front
      dsimp only
      rw [hinsts, if_pos rfl, List.append_cons, List.take_left' (by simp [hlength])]
      rfl
    · obtain rfl := List.mem_singleton.1 he
      exact List.lookup_cons_self

end Select

end SsaCompiler
