import SsaCompiler.Proofs.Machine.SettledLiveness

/-!
# The live sets are exact

The computed sets hold a node at the start of a block if and only if some path of blocks from there comes to an
instruction that reads the node, with no instruction before it that writes the node. So they are the least sets that
agree with the code: all that is live is in them, and nothing else.

A path passes through whole blocks although control may leave them in the middle. Where only transfers stand behind
transfers, and nothing at all behind a jump or a return, that makes no difference, and the sets hold what is live along
the runs of the function (`MachineFunction.LiveFrom`).
-/

set_option autoImplicit false

namespace SsaCompiler

variable {budget : RegisterSet} {x b : Nat}

variable {code : List Instr}

namespace MachineFunction

/-- Code exposes a read of a node: some instruction reads it, and none before it writes it. -/
def Exposes (budget : RegisterSet) (x : Nat) (code : List Instr) : Prop :=
  ∃ before i after, code = before ++ i :: after ∧ x ∈ i.useNodes budget ∧ ∀ j ∈ before, x ∉ j.defNodes budget

/-- A path of blocks from the start of a block reads a node before it writes it. -/
def LiveAlong (mf : MachineFunction) (budget : RegisterSet) (x b : Nat) : Prop :=
  ∃ path, (b :: path).IsChain (fun a c => c ∈ mf.successors a) ∧
    Exposes budget x ((b :: path).flatMap mf.instsOf)

/-- Nothing stands behind an instruction that control does not pass. -/
def ExitsLast (mf : MachineFunction) : Prop :=
  ∀ b pre i rest, mf.instsOf b = pre ++ i :: rest → i.fallsThrough = false → rest = []

variable {mf : MachineFunction}

/-- Nothing stands behind the exits of a function if that is so in every one of its blocks. -/
theorem ExitsLast.of_pairwise (h : ∀ b < mf.blocks.size, (mf.instsOf b).Pairwise fun i _ => i.fallsThrough = true) :
    mf.ExitsLast := by
  intro b pre i rest hb hi
  have hpairs := h b (lt_size_of_instsOf (by simp [hb]))
  rw [hb, List.pairwise_append, List.pairwise_cons] at hpairs
  refine List.eq_nil_iff_forall_not_mem.2 fun j hj => ?_
  exact absurd (hpairs.2.1.1 j hj) (by simp [hi])

/-- Code exposes a read if its first instruction reads the node, or does not write it and the rest exposes one. -/
theorem exposes_cons {i : Instr} : Exposes budget x (i :: code) ↔
    x ∈ i.useNodes budget ∨ x ∉ i.defNodes budget ∧ Exposes budget x code := by
  constructor
  · rintro ⟨before, j, after, hcode, huse, hbefore⟩
    rcases List.cons_eq_append_iff.1 hcode with ⟨rfl, hj⟩ | ⟨before', rfl, hrest⟩
    · cases hj
      exact .inl huse
    · exact .inr ⟨hbefore i List.mem_cons_self,
        before', j, after, hrest, huse, fun k hk => hbefore k (List.mem_cons_of_mem _ hk)⟩
  · rintro (huse | ⟨hdef, before, j, after, rfl, huse, hbefore⟩)
    · exact ⟨[], i, code, rfl, huse, fun _ hk => absurd hk List.not_mem_nil⟩
    · exact ⟨i :: before, j, after, rfl, huse, List.forall_mem_cons.2 ⟨hdef, hbefore⟩⟩

/-- Code exposes a read if its first part does, or its second part does and the first one does not write the node. -/
theorem exposes_append {rest : List Instr} : Exposes budget x (code ++ rest) ↔
    Exposes budget x code ∨ (∀ i ∈ code, x ∉ i.defNodes budget) ∧ Exposes budget x rest := by
  induction code with
  | nil =>
    have hnil : ¬ Exposes budget x [] := by
      rintro ⟨before, i, after, hcode, -⟩
      exact absurd hcode.symm (by simp)
    simp [hnil]
  | cons i code ih =>
    rw [List.cons_append, exposes_cons, exposes_cons, ih, List.forall_mem_cons]
    tauto

/-- A node of which code exposes a read is live at its start, where control passes on to the end of blocks. -/
theorem liveFrom_of_exposes (hexits : mf.ExitsLast) :
    ∀ pre, mf.instsOf b = pre ++ code → Exposes budget x code → mf.LiveFrom budget x code := by
  induction code with
  | nil =>
    rintro pre - ⟨before, i, after, hcode, -⟩
    exact absurd hcode.symm (by simp)
  | cons i code ih =>
    intro pre hb hexposes
    rcases exposes_cons.1 hexposes with huse | ⟨hdef, hrest⟩
    · exact .use huse
    · have hlive := ih (pre ++ [i]) (by rw [hb, List.append_assoc]; rfl) hrest
      cases hfalls : i.fallsThrough with
      | true => exact .pass hfalls hdef hlive
      | false =>
        rw [hexits b pre i code hb hfalls] at hlive
        cases hlive

/-- What is live at the start of a successor, and not written by a block, is live at the start of the block. -/
theorem LiveFrom.of_successor (hexits : mf.ExitsLast) {t : Nat} (ht : t ∈ mf.successors b)
    (hdefs : ∀ i ∈ mf.instsOf b, x ∉ i.defNodes budget) (hlive : mf.LiveFrom budget x (mf.instsOf t)) :
    mf.LiveFrom budget x (mf.instsOf b) := by
  obtain ⟨i, hi, htarget⟩ := mem_successors.1 ht
  obtain ⟨pre, rest, hb⟩ := List.append_of_mem hi
  -- Control passes everything before the transfer, as something stands behind it.
  have hpass : ∀ before code, mf.instsOf b = before ++ code ++ i :: rest →
      mf.LiveFrom budget x (code ++ i :: rest) := by
    intro before code
    induction code generalizing before with
    | nil => exact fun _ => .jump htarget (hdefs i hi) hlive
    | cons j code ih =>
      intro hcode
      have hj : j ∈ mf.instsOf b := by simp [hcode]
      refine .pass ?_ (hdefs j hj) (ih (before ++ [j]) (by simp [hcode]))
      by_contra hfalls
      have hnil := hexits b before j (code ++ i :: rest) (by simp [hcode]) (by simpa using hfalls)
      exact absurd hnil (by simp)
  rw [hb]
  exact hpass [] pre hb

end MachineFunction

namespace Liveness

open MachineFunction

variable {mf : MachineFunction}

/-- The uses of a block are the nodes of which its instructions expose a read. -/
theorem contains_uses_ofInsts : (BlockEffect.ofInsts budget code).uses.contains x = true ↔ Exposes budget x code := by
  have hbefore : (BlockEffect.ofInsts budget code).uses.contains x = true ↔
      (beforeAll budget code .empty).contains x = true := by
    rw [BlockEffect.ofInsts, contains_uses_foldl]
    simp
  rw [hbefore]
  clear hbefore
  induction code with
  | nil =>
    refine iff_of_false (by simp [beforeAll]) ?_
    rintro ⟨before, i, after, hcode, -⟩
    exact absurd hcode.symm (by simp)
  | cons i code ih =>
    rw [exposes_cons]
    exact contains_before.trans (or_congr_right (and_comm.trans (and_congr_right' ih)))

variable {l : Liveness} {k : Nat}

/-- What is live somewhere is read first in some block. -/
theorem exists_exposes_of_ofFunction (h : ofFunction mf budget = .ok l)
    (hx : (l.liveIn.getD b .empty).contains x = true ∨ (l.liveOut.getD b .empty).contains x = true) :
    ∃ a, Exposes budget x (mf.instsOf a) := by
  obtain ⟨s, hin, hout, -, hground⟩ := settled_of_ofFunction h
  rw [hin, hout] at hx
  obtain ⟨a, ha⟩ := hground b x hx
  rw [getD_effects] at ha
  exact ⟨a, contains_uses_ofInsts.1 ha⟩

theorem contains_defs_ofInsts :
    (BlockEffect.ofInsts budget code).defs.contains x = false ↔ ∀ i ∈ code, x ∉ i.defNodes budget := by
  rw [← Bool.not_eq_true, BlockEffect.ofInsts, contains_defs_foldl]
  simp

/-- A node is near a block if its instructions expose a read, or do not write it and it is near a successor. -/
theorem near_succ : Near mf (effectsOf mf budget) x (k + 1) b ↔ Exposes budget x (mf.instsOf b) ∨
    (∀ i ∈ mf.instsOf b, x ∉ i.defNodes budget) ∧ ∃ t ∈ mf.successors b, Near mf (effectsOf mf budget) x k t := by
  rw [Near, effectsOf, getD_effects, contains_uses_ofInsts, contains_defs_ofInsts]

/-- A node is near a block within no edge if its instructions expose a read. -/
theorem near_zero : Near mf (effectsOf mf budget) x 0 b ↔ Exposes budget x (mf.instsOf b) := by
  rw [Near, effectsOf, getD_effects, contains_uses_ofInsts]

/-- What is near within some number of edges is live along a path. -/
theorem liveAlong_of_near : ∀ {b : Nat}, Near mf (effectsOf mf budget) x k b → mf.LiveAlong budget x b := by
  have hstay : ∀ {b}, Exposes budget x (mf.instsOf b) → mf.LiveAlong budget x b := by
    intro b hexposes
    exact ⟨[], .singleton b, by rwa [List.flatMap_cons, List.flatMap_nil, List.append_nil]⟩
  induction k with
  | zero => exact fun h => hstay (near_zero.1 h)
  | succ k ih =>
    intro b h
    rcases near_succ.1 h with hexposes | ⟨hdefs, t, ht, hnear⟩
    · exact hstay hexposes
    · obtain ⟨path, hpath, hexposes⟩ := ih hnear
      refine ⟨t :: path, .cons_cons ht hpath, ?_⟩
      rw [List.flatMap_cons]
      exact exposes_append.2 (.inr ⟨hdefs, hexposes⟩)

/-- What is live along a path is near within as many edges as the path has. -/
theorem near_of_path {path : List Nat} : ∀ {b : Nat}, (b :: path).IsChain (fun a c => c ∈ mf.successors a) →
    Exposes budget x ((b :: path).flatMap mf.instsOf) → Near mf (effectsOf mf budget) x path.length b := by
  induction path with
  | nil =>
    intro b _ hexposes
    rw [List.flatMap_cons, List.flatMap_nil, List.append_nil] at hexposes
    exact near_zero.2 hexposes
  | cons t path ih =>
    intro b hpath hexposes
    obtain ⟨ht, hrest⟩ := List.isChain_cons_cons.1 hpath
    rw [List.flatMap_cons] at hexposes
    rcases exposes_append.1 hexposes with hblock | ⟨hdefs, hexposes⟩
    · exact near_succ.2 (.inl hblock)
    · exact near_succ.2 (.inr ⟨hdefs, t, ht, ih hrest hexposes⟩)

/-- To be live along a path is to be near within some number of edges. -/
theorem exists_near_iff : (∃ k, Near mf (effectsOf mf budget) x k b) ↔ mf.LiveAlong budget x b :=
  ⟨fun ⟨_, h⟩ => liveAlong_of_near h, fun ⟨_, hpath, hexposes⟩ => ⟨_, near_of_path hpath hexposes⟩⟩

theorem contains_of_near {effects : Array BlockEffect} {s : Sets} (heffects : effects.size = mf.blocks.size)
    (hsettled : ∀ b < mf.blocks.size, Settled mf effects s b) :
    ∀ {b : Nat}, Near mf effects x k b → (s.liveIn.getD b .empty).contains x = true := by
  induction k with
  | zero =>
    intro b h
    rw [← (hsettled b (h.lt_size heffects)).inn]
    exact contains_inOf.2 (.inl h)
  | succ k ih =>
    intro b h
    rw [← (hsettled b (h.lt_size heffects)).inn]
    rcases h with huse | ⟨hdef, t, ht, hnear⟩
    · exact contains_inOf.2 (.inl huse)
    · exact contains_inOf.2 (.inr ⟨hdef, t, ht, ih hnear⟩)

/-- What holds of the sets in every round: they cover some number of edges, hold nothing but what is near, and there is
one for every block. -/
def InRound (mf : MachineFunction) (effects : Array BlockEffect) (s : Sets) : Prop :=
  (∃ k, Halfway mf effects k [] s) ∧ s.liveOut.size = mf.blocks.size

/-- What the computation finds: sets that agree, within the limit of rounds, and hold nothing but what is near. -/
theorem inRound_of_ofFunction (hg : mf.cfg.Explorable) (h : ofFunction mf budget = .ok l) :
    ∃ s : Sets, l.liveIn = s.liveIn ∧ l.liveOut = s.liveOut ∧ l.rounds ≤ mf.blocks.size + 3 ∧
      (∀ b < mf.blocks.size, Settled mf (effectsOf mf budget) s b) ∧ InRound mf (effectsOf mf budget) s := by
  obtain ⟨r, hr⟩ := ReversePostorder.ofCfg_total hg
  rw [ofFunction_eq hr] at h
  split at h
  · cases h
  · rename_i s rounds hsettle
    cases h
    have hround : ∀ s, InRound mf (effectsOf mf budget) s →
        InRound mf (effectsOf mf budget) ((workOrder mf r).foldl (updateBlock mf (effectsOf mf budget)) s) := by
      rintro s ⟨⟨k, hhalf⟩, hsize⟩
      exact ⟨⟨k + 1, hhalf.round Array.size_map (fun _ hb => (mem_workOrder hg hr).1 hb)
        fun _ hb => (mem_workOrder hg hr).2 hb⟩, (size_foldl _ s).trans hsize⟩
    obtain ⟨hrounds, hsettled, hlast⟩ := settle_some
      (fun s ⟨⟨k, hhalf⟩, hsize⟩ => ⟨⟨k, hhalf.size, hhalf.covers, hhalf.ahead, hhalf.within⟩, hsize⟩) hround
      ⟨⟨0, halfway_startSets mf budget⟩, Array.size_replicate⟩ hsettle
    exact ⟨s, rfl, rfl, hrounds.trans (Nat.zero_add _).le, fun b hb => hsettled b ((mem_workOrder hg hr).2 hb), hlast⟩

/-- What the sets of a function hold. -/
structure Precise (mf : MachineFunction) (budget : RegisterSet) (l : Liveness) : Prop where
  /-- At the start of a block, what some path reads before it writes it. -/
  inn : ∀ b x, (l.liveIn.getD b .empty).contains x = true ↔ mf.LiveAlong budget x b
  /-- At the end, what is live at the start of a successor. -/
  out : ∀ b x, (l.liveOut.getD b .empty).contains x = true ↔
    ∃ t ∈ mf.successors b, (l.liveIn.getD t .empty).contains x = true

/-- The computed sets are precise. -/
theorem precise_of_ofFunction (hg : mf.cfg.Explorable) (h : ofFunction mf budget = .ok l) : Precise mf budget l := by
  obtain ⟨s, hin, hout, -, hsettled, ⟨k, hhalf⟩, hsize⟩ := inRound_of_ofFunction hg h
  refine ⟨fun b x => ?_, fun b x => ?_⟩
  · rw [hin, ← exists_near_iff]
    exact ⟨hhalf.within b x, fun ⟨_, hnear⟩ => contains_of_near Array.size_map hsettled hnear⟩
  · rw [hin, hout, ← contains_outOf]
    by_cases hb : b < mf.blocks.size
    · rw [(hsettled b hb).out]
    · -- Blocks that do not exist have no set and no successors.
      refine iff_of_false ?_ fun h => ?_
      · rw [Array.getD_eq_getD_getElem?, Array.getElem?_eq_none (by omega)]
        exact Bool.not_eq_true _ ▸ NatSet.contains_empty x
      · obtain ⟨t, ht, -⟩ := contains_outOf.1 h
        obtain ⟨i, hi, -⟩ := mem_successors.1 ht
        exact hb (lt_size_of_instsOf (List.ne_nil_of_mem hi))

/-- Where nothing stands behind a jump or a return, what is near is live along a run. -/
theorem liveFrom_of_near (hexits : mf.ExitsLast) :
    ∀ {b : Nat}, Near mf (effectsOf mf budget) x k b → mf.LiveFrom budget x (mf.instsOf b) := by
  induction k with
  | zero => exact fun h => liveFrom_of_exposes hexits [] rfl (near_zero.1 h)
  | succ k ih =>
    intro b h
    rcases near_succ.1 h with hexposes | ⟨hdefs, t, ht, hnear⟩
    · exact liveFrom_of_exposes hexits [] rfl hexposes
    · exact .of_successor hexits ht hdefs (ih hnear)

/-- In such functions precise sets hold what is live along the runs. -/
theorem Precise.contains_iff_liveFrom (hl : Precise mf budget l) (hsound : Sound mf budget l)
    (htransfers : mf.TransfersLast) (hexits : mf.ExitsLast) :
    (l.liveIn.getD b .empty).contains x = true ↔ mf.LiveFrom budget x (mf.instsOf b) := by
  constructor
  · intro hlive
    obtain ⟨k, hnear⟩ := exists_near_iff.2 ((hl.inn b x).1 hlive)
    exact liveFrom_of_near hexits hnear
  · intro hlive
    have hb : b < mf.blocks.size := lt_size_of_instsOf fun hnil => by
      rw [hnil] at hlive
      cases hlive
    exact (hsound.inn b hb x).2 (contains_of_liveFrom hsound (htransfers.tailLocal budget) hlive b [] rfl)

/-- **Liveness is found, and it is exact.** For a linked function, one that has its first block and whose transfers go to
its blocks, the computation ends within its limit of rounds. A node is live at the start of a block, be it reachable or not, if and only if some path of
blocks from there reads it before writing it, and at the end if and only if it is live at the start of a successor.
Where control never leaves a block before something other than a transfer, and nothing stands behind a jump or a
return, the paths are those of the runs. -/
theorem ofFunction_exact (mf : MachineFunction) (budget : RegisterSet) (hlinked : mf.Linked) :
    ∃ l, ofFunction mf budget = .ok l ∧ l.rounds ≤ mf.blocks.size + 3 ∧
      (∀ b x, (l.liveIn.getD b .empty).contains x = true ↔ mf.LiveAlong budget x b) ∧
      (∀ b x, (l.liveOut.getD b .empty).contains x = true ↔
        ∃ t ∈ mf.successors b, (l.liveIn.getD t .empty).contains x = true) ∧
      (mf.TransfersLast → mf.ExitsLast → ∀ b x,
        (l.liveIn.getD b .empty).contains x = true ↔ mf.LiveFrom budget x (mf.instsOf b)) := by
  have hg := explorable_cfg hlinked
  obtain ⟨l, hl⟩ := ofFunction_total mf budget hlinked
  obtain ⟨-, -, -, hrounds, -⟩ := inRound_of_ofFunction hg hl
  have hprecise := precise_of_ofFunction hg hl
  exact ⟨l, hl, hrounds, hprecise.inn, hprecise.out, fun htransfers hexits b x =>
    hprecise.contains_iff_liveFrom (sound_of_ofFunction hl) htransfers hexits⟩

/-- A loop that counts down from three, and a block that nothing leads to, which enters the loop with another count. -/
def countdown : MachineFunction :=
  { MachineFunction.new "count" true with
    blocks := #[
      { label := "f_count_b0", loopDepth := 0, insts := [.move (.virtual 0) (.immediate 3), .jump 1] },
      { label := "f_count_b1", loopDepth := 1,
        insts := [.binary .addu (.virtual 0) (.virtual 0) (.immediate (-1)), .branch .ne (.virtual 0) .zero 1,
          .jump 2] },
      { label := "f_count_b2", loopDepth := 0, insts := [.move .v0 (.virtual 0), .ret true] },
      { label := "f_count_b3", loopDepth := 0, insts := [.move (.virtual 0) (.virtual 1), .jump 1] }]
    vregCount := 2 }

/-- The count is live in the loop and behind it, and at the start of no other block. The other count is live at the
start of the block that nothing leads to. -/
theorem ofFunction_exact_countdown : countdown.Linked ∧ countdown.TransfersLast ∧ countdown.ExitsLast ∧
    ∃ l, ofFunction countdown (.firstGeneral 1) = .ok l ∧ l.rounds ≤ 7 ∧
      ((l.liveIn.getD 1 .empty).contains (Node.firstVirtual + 0) = true ∧
        countdown.LiveFrom (.firstGeneral 1) (Node.firstVirtual + 0) (countdown.instsOf 1)) ∧
      ((l.liveIn.getD 0 .empty).contains (Node.firstVirtual + 0) = false ∧
        ¬ countdown.LiveFrom (.firstGeneral 1) (Node.firstVirtual + 0) (countdown.instsOf 0)) ∧
      ((l.liveIn.getD 3 .empty).contains (Node.firstVirtual + 1) = true ∧
        countdown.LiveAlong (.firstGeneral 1) (Node.firstVirtual + 1) 3) := by
  have hlinked : countdown.Linked := by decide
  have htransfers : countdown.TransfersLast := .of_pairwise (by decide)
  have hexits : countdown.ExitsLast := .of_pairwise (by decide)
  obtain ⟨l, hl, hrounds, halong, -, hrun⟩ := ofFunction_exact countdown (.firstGeneral 1) hlinked
  have hrun := hrun htransfers hexits
  have hloop : countdown.LiveFrom (.firstGeneral 1) (Node.firstVirtual + 0) (countdown.instsOf 1) := .use (by decide)
  have hstart : ¬ countdown.LiveFrom (.firstGeneral 1) (Node.firstVirtual + 0) (countdown.instsOf 0) := by
    intro hlive
    -- The first instruction writes the count, so nothing passes it.
    cases hlive with
    | use huse => exact absurd huse (by decide)
    | pass _ hdef _ => exact hdef (by decide)
    | jump htarget _ _ => cases htarget
  have hcut : countdown.LiveAlong (.firstGeneral 1) (Node.firstVirtual + 1) 3 :=
    ⟨[], .singleton 3, exposes_cons.2 (.inl (by decide))⟩
  exact ⟨hlinked, htransfers, hexits, l, hl, hrounds, ⟨(hrun 1 _).2 hloop, hloop⟩,
    ⟨Bool.eq_false_iff.2 fun hin => hstart ((hrun 0 _).1 hin), hstart⟩, (halong 3 _).2 hcut, hcut⟩

end Liveness

end SsaCompiler
