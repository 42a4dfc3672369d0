import SsaCompiler.Proofs.Machine.ExactLiveness
import SsaCompiler.Proofs.Machine.FinishedAllocation

/-!
# Spill temporaries are short

The instructions that mention a temporary, in order, are all that the analyses can know of it. When the temporary is
made they are one run of at most thirty instructions, with a load in front or a store behind the last write. Spilling
another register changes them one by one and adds none, because new loads and stores mention new temporaries. So a
temporary stays in the block it was made for, is mentioned there as often as at first, and is written there before it
is read: it is live at the edge of no block.
-/

set_option autoImplicit false

namespace SsaCompiler

/-- The instructions that mention a virtual register. -/
def mentionsOf (n : Nat) (code : List Instr) : List Instr := code.filter (Instr.mentionsOperand (.virtual n))

/-- The load of a temporary from its word of the frame. -/
def ownLoad (t : Nat) (offset : Word) : Instr := .load (.virtual t) .sp offset false

/-- The store of a temporary to its word of the frame. -/
def ownStore (t : Nat) (offset : Word) : Instr := .store (.virtual t) .sp offset

/-- The mentions of a temporary are those of one run: the first one does not read it, and there are no more than a run
has, but for a load from its word and a store to it. -/
structure Short (t : Nat) (offset : Word) (mentions : List Instr) : Prop where
  head : ∀ i ∈ mentions.head?, Operand.virtual t ∉ i.sources
  few : ∃ own : List Instr, own.Sublist [ownLoad t offset, ownStore t offset] ∧ (∀ i ∈ own, i ∈ mentions) ∧
    mentions.length ≤ Spill.spanLimit + own.length

variable {i : Instr}

namespace Instr

variable {v t n : Nat}

/-- A virtual register that is neither the replaced one nor the one in its place stays where it is. -/
theorem mem_map_renamed (hnv : n ≠ v) (hnt : n ≠ t) (ops : List Operand) :
    Operand.virtual n ∈ ops.map (renamed v t) ↔ Operand.virtual n ∈ ops := by
  rw [List.mem_map]
  constructor
  · rintro ⟨op, hop, hrenamed⟩
    rcases renamed_eq_virtual hrenamed with ⟨rfl, -⟩ | ⟨-, rfl⟩
    · exact hop
    · exact absurd rfl hnt
  · exact fun h => ⟨.virtual n, h, if_neg (by simpa using hnv)⟩

/-- Replacing a register keeps the mentions of all registers but two. -/
theorem mentionsOperand_replace (hnv : n ≠ v) (hnt : n ≠ t) (i : Instr) :
    (i.replace (.virtual v) (.virtual t)).mentionsOperand (.virtual n) = i.mentionsOperand (.virtual n) := by
  rw [Bool.eq_iff_iff, mentionsOperand_virtual, mentionsOperand_virtual, sources_replace, defs_replace,
    mem_map_renamed hnv hnt, mem_map_renamed hnv hnt]

/-- Where a register is mentioned, the one in its place is mentioned after replacing. -/
theorem mentionsOperand_replace_self (h : i.mentionsOperand (.virtual v) = true) :
    (i.replace (.virtual v) (.virtual t)).mentionsOperand (.virtual t) = true := by
  rw [mentionsOperand_virtual, sources_replace, defs_replace]
  exact (mentionsOperand_virtual.1 h).imp (fun h => List.mem_map.2 ⟨_, h, if_pos rfl⟩)
    fun h => List.mem_map.2 ⟨_, h, if_pos rfl⟩

/-- A load from the frame mentions the register that it loads. -/
theorem mentionsOperand_ownLoad (offset : Word) : (ownLoad t offset).mentionsOperand (.virtual n) = decide (n = t) := by
  rw [Bool.eq_iff_iff, mentionsOperand_virtual, decide_eq_true_iff]
  simp [ownLoad, sources, defs, Operand.sp]

/-- A store to the frame mentions the register that it stores. -/
theorem mentionsOperand_ownStore (offset : Word) :
    (ownStore t offset).mentionsOperand (.virtual n) = decide (n = t) := by
  rw [Bool.eq_iff_iff, mentionsOperand_virtual, decide_eq_true_iff]
  simp [ownStore, sources, defs, Operand.sp]

/-- Loads from the frame and stores to it are not changed for another register. -/
theorem replace_own (hnv : n ≠ v) (offset : Word) (hi : i ∈ [ownLoad n offset, ownStore n offset]) :
    i.replace (.virtual v) (.virtual t) = i := by
  have hvirtual : Operand.virtual n ≠ .virtual v := by simpa using hnv
  rcases List.mem_pair.1 hi with rfl | rfl <;>
    simp [ownLoad, ownStore, replace, mapRegisters, Operand.isRegister, Operand.sp, hvirtual]

end Instr

/-! ## Mentions of other registers -/

namespace Reloads

variable {careful : Prop} {v n : Nat} {offset : Word} {fresh : Nat → Prop} {loc : Whereabouts} {code code' : List Instr}

/-- Spilled code mentions other registers where the code did, and temporaries. -/
theorem mentioned (h : Reloads careful v offset fresh loc code code') (hi : i ∈ code')
    (hn : i.mentionsOperand (.virtual n) = true) :
    (n ≠ v ∧ ∃ j ∈ code, j.mentionsOperand (.virtual n) = true) ∨ fresh n ∨ loc.temp? = some n := by
  rcases Instr.mentionsOperand_virtual.1 hn with hsource | hdef
  · refine (h.mem_sources i hi n hsource).imp_left ?_
    rintro ⟨hnv, j, hj, hjn⟩
    exact ⟨hnv, j, hj, Instr.mentionsOperand_virtual.2 (.inl hjn)⟩
  · rcases h.mem_defs i hi _ hdef with ⟨hnv, j, hj, hjn⟩ | ⟨t, ht, hfresh⟩
    · exact .inl ⟨fun hv => hnv (hv ▸ rfl), j, hj, Instr.mentionsOperand_virtual.2 (.inr hjn)⟩
    · cases ht
      exact .inr hfresh

/-- What the code does not mention, spilled code mentions only if it is a temporary. -/
theorem mentionsOf_eq_nil (h : Reloads careful v offset fresh loc code code')
    (hcode : ∀ j ∈ code, ¬ j.mentionsOperand (.virtual n) = true) (hfresh : ¬ fresh n) (hloc : loc.temp? ≠ some n) :
    mentionsOf n code' = [] := by
  refine List.filter_eq_nil_iff.2 fun i hi hn => ?_
  rcases h.mentioned hi hn with ⟨-, j, hj, hjn⟩ | hfresh' | hloc'
  · exact hcode j hj hjn
  · exact hfresh hfresh'
  · exact hloc hloc'

/-- An instruction as spilling another register leaves it: as it is, or with a temporary for that register. -/
def Replaced (v n : Nat) (i i' : Instr) : Prop := i' = i ∨ ∃ t, n ≠ t ∧ i' = i.replace (.virtual v) (.virtual t)

variable {i' : Instr}

/-- Instructions beside one another mention a register in the same places. -/
theorem Replaced.mentionsOperand (hnv : n ≠ v) (h : Replaced v n i i') :
    i'.mentionsOperand (.virtual n) = i.mentionsOperand (.virtual n) := by
  obtain rfl | ⟨t, hnt, rfl⟩ := h
  · rfl
  · exact Instr.mentionsOperand_replace hnv hnt i

/-- One more instruction in both of two codes. -/
theorem forall₂_mentionsOf_cons (hnv : n ≠ v) (hi : Replaced v n i i')
    (h : List.Forall₂ (Replaced v n) (mentionsOf n code) (mentionsOf n code')) :
    List.Forall₂ (Replaced v n) (mentionsOf n (i :: code)) (mentionsOf n (i' :: code')) := by
  unfold SsaCompiler.mentionsOf at h ⊢
  rw [List.filter_cons, List.filter_cons, hi.mentionsOperand hnv]
  split
  · exact .cons hi h
  · exact h

/-- Spilled code has the mentions of any other register that is no new temporary, each changed in place. -/
theorem forall₂_mentionsOf (h : Reloads careful v offset fresh loc code code') (hnv : n ≠ v) (hfresh : ¬ fresh n)
    (hloc : loc.temp? ≠ some n) : List.Forall₂ (Replaced v n) (mentionsOf n code) (mentionsOf n code') := by
  have hne : ∀ {t : Nat}, fresh t → n ≠ t := fun ht hnt => hfresh (hnt ▸ ht)
  induction h with
  | nil => exact .nil
  | keep _ _ _ ih => exact forall₂_mentionsOf_cons hnv (.inl rfl) (ih hloc)
  | @load t code code' ht _ ih =>
    have hskip : ¬ (ownLoad t offset).mentionsOperand (.virtual n) = true := by
      simpa [Instr.mentionsOperand_ownLoad] using hne ht
    rw [show mentionsOf n (.load (.virtual t) .sp offset false :: code') = mentionsOf n code' from
      List.filter_cons_of_neg hskip]
    exact ih fun hn => hne ht (Option.some.inj hn).symm
  | @enter t i rest rest' ht _ _ _ ih =>
    exact forall₂_mentionsOf_cons hnv (.inr ⟨t, hne ht, rfl⟩) (ih fun hn => hne ht (Option.some.inj hn).symm)
  | @flush t code code' _ ih =>
    have hskip : ¬ (ownStore t offset).mentionsOperand (.virtual n) = true := by
      simpa [Instr.mentionsOperand_ownStore, Whereabouts.temp?, eq_comm] using hloc
    rw [show mentionsOf n (.store (.virtual t) .sp offset :: code') = mentionsOf n code' from
      List.filter_cons_of_neg hskip]
    exact ih hloc
  | leave _ ih => exact ih (by simp [Whereabouts.temp?])
  | @read loc t i rest rest' hl _ _ _ ih =>
    exact forall₂_mentionsOf_cons hnv (.inr ⟨t, fun hnt => hloc (hnt ▸ hl), rfl⟩) (ih hloc)
  | @write loc t i rest rest' hl _ _ ih =>
    have hnt : n ≠ t := fun hnt => hloc (hnt ▸ hl)
    exact forall₂_mentionsOf_cons hnv (.inr ⟨t, hnt, rfl⟩) (ih fun hn => hnt (Option.some.inj hn).symm)

end Reloads

/-- Short mentions stay short when another register is spilled. -/
theorem Short.replaced {v t : Nat} {offset : Word} {mentions mentions' : List Instr} (h : Short t offset mentions)
    (htv : t ≠ v) (hmentions : List.Forall₂ (Reloads.Replaced v t) mentions mentions') : Short t offset mentions' := by
  obtain ⟨own, hsub, hown, hfew⟩ := h.few
  refine ⟨fun i' hi' hsource => ?_, own, hsub, fun i hi => ?_, hmentions.length_eq ▸ hfew⟩
  · cases hmentions with
    | nil => cases hi'
    | @cons i j mentions mentions' hi _ =>
      cases hi'
      refine h.head i rfl ?_
      obtain rfl | ⟨s, hts, rfl⟩ := hi
      · exact hsource
      · rwa [Instr.sources_replace, Instr.mem_map_renamed htv hts] at hsource
  · obtain ⟨k, hk, hki⟩ := List.mem_iff_getElem.1 (hown i hi)
    have hk' : k < mentions'.length := hmentions.length_eq ▸ hk
    have hrel := hmentions.get hk hk'
    rw [List.get_eq_getElem, List.get_eq_getElem, hki] at hrel
    refine List.mem_iff_getElem.2 ⟨k, hk', ?_⟩
    obtain hsame | ⟨s, -, hreplaced⟩ := hrel
    · exact hsame
    · rw [hreplaced, Instr.replace_own htv offset (hsub.subset hi)]

/-! ## Mentions of a new temporary -/

namespace Spill

variable {v t : Nat} {offset : Word} {run : List Instr}

/-- A run with its store mentions the temporary everywhere. -/
theorem mentionsOperand_withStore (hrun : ∀ i ∈ run, i.mentionsOperand (.virtual v) = true) :
    ∀ i ∈ withStore (.virtual v) (.virtual t) offset run, i.mentionsOperand (.virtual t) = true := by
  induction run with
  | nil => simp [withStore]
  | cons i run ih =>
    obtain ⟨hi, hrest⟩ := List.forall_mem_cons.1 hrun
    have hhere := Instr.mentionsOperand_replace_self (t := t) hi
    rw [withStore]
    split
    · refine List.forall_mem_cons.2 ⟨hhere, List.forall_mem_cons.2 ⟨?_, fun j hj => ?_⟩⟩
      · exact (Instr.mentionsOperand_ownStore offset).trans (decide_eq_true rfl)
      · obtain ⟨k, hk, rfl⟩ := List.mem_map.1 hj
        exact Instr.mentionsOperand_replace_self (hrest k hk)
    · exact List.forall_mem_cons.2 ⟨hhere, ih hrest⟩

/-- A run gets a store if it writes the register, and nothing else. -/
theorem length_withStore (v t : Nat) (offset : Word) (run : List Instr) : ∃ own : List Instr, own.Sublist [ownStore t offset] ∧
    (∀ i ∈ own, i ∈ withStore (.virtual v) (.virtual t) offset run) ∧
    (withStore (.virtual v) (.virtual t) offset run).length = run.length + own.length := by
  induction run with
  | nil => exact ⟨[], List.nil_sublist _, by simp, rfl⟩
  | cons i run ih =>
    rw [withStore]
    split
    · exact ⟨[ownStore t offset], .refl _, by simp [ownStore], by simp⟩
    · obtain ⟨own, hsub, hown, hlength⟩ := ih
      refine ⟨own, hsub, fun j hj => List.mem_cons_of_mem _ (hown j hj), ?_⟩
      rw [List.length_cons, hlength, List.length_cons]
      omega

/-- A run through a temporary mentions it everywhere. -/
theorem mentionsOf_reloadRun (hrun : ∀ i ∈ run, i.mentionsOperand (.virtual v) = true) :
    mentionsOf t (reloadRun (.virtual v) (.virtual t) offset run) =
      reloadRun (.virtual v) (.virtual t) offset run := by
  refine List.filter_eq_self.2 ?_
  rw [reloadRun]
  have hload : (ownLoad t offset).mentionsOperand (.virtual t) = true :=
    (Instr.mentionsOperand_ownLoad offset).trans (decide_eq_true rfl)
  split
  · exact List.forall_mem_cons.2 ⟨hload, mentionsOperand_withStore hrun⟩
  · exact mentionsOperand_withStore hrun

/-- A run through a temporary mentions no other register that the run did not mention. -/
theorem mentionsOf_reloadRun_eq_nil (offset : Word) (run : List Instr) {n : Nat}
    (hi : i.mentionsOperand (.virtual v) = true) (hrun : ∀ j ∈ i :: run, ¬ j.mentionsOperand (.virtual n) = true)
    (hnt : n ≠ t) : mentionsOf n (reloadRun (.virtual v) (.virtual t) offset (i :: run)) = [] := by
  have hreload : Reloads False v offset (Eq t) .memory (i :: run ++ [])
      (reloadRun (.virtual v) (.virtual t) offset (i :: run) ++ []) := .of_reloadRun rfl .nil hi False.elim
  rw [List.append_nil, List.append_nil] at hreload
  exact hreload.mentionsOf_eq_nil hrun (Ne.symm hnt) (by simp [Whereabouts.temp?])

/-- A run of at most as many instructions as one temporary covers gives short mentions of a new temporary. -/
theorem short_reloadRun (hi : i.mentionsOperand (.virtual v) = true) (hnew : Operand.virtual t ∉ i.sources)
    (hlength : (i :: run).length ≤ spanLimit) :
    Short t offset (reloadRun (.virtual v) (.virtual t) offset (i :: run)) := by
  obtain ⟨own, hsub, hown, hstored⟩ := length_withStore v t offset (i :: run)
  rw [reloadRun]
  cases hold : readsOld (.virtual v) (i :: run) with
  | true =>
    refine ⟨?_, ownLoad t offset :: own, hsub.cons_cons _, ?_, ?_⟩
    · simp [Instr.sources, Operand.sp]
    · exact List.forall_mem_cons.2 ⟨List.mem_cons_self, fun j hj => List.mem_cons_of_mem _ (hown j hj)⟩
    · rw [if_pos rfl, List.length_cons, List.length_cons, hstored]
      omega
  | false =>
    obtain ⟨hread, hwrite⟩ := Reloads.readsOld_cons_eq_false hi hold
    refine ⟨?_, own, hsub.cons _, hown, by rw [if_neg (by simp), hstored]; omega⟩
    have hhead : Operand.virtual t ∉ (i.replace (.virtual v) (.virtual t)).sources := by
      rw [Instr.sources_replace, List.mem_map]
      rintro ⟨op, hop, hrenamed⟩
      rcases Instr.renamed_eq_virtual hrenamed with ⟨rfl, -⟩ | ⟨rfl, -⟩
      · exact hnew hop
      · exact hread hop
    have hfirst : (withStore (.virtual v) (.virtual t) offset (i :: run)).head? =
        some (i.replace (.virtual v) (.virtual t)) := by
      rw [withStore]
      split <;> rfl
    rw [if_neg (by simp), hfirst]
    simpa using hhead

end Spill

/-- The mentions of every new temporary of some code are short. -/
theorem short_reloadInsts (v : Nat) (offset : Word) {t : Nat} (insts : List Instr) : ∀ mf : MachineFunction,
    (∀ i ∈ insts, ∀ n, i.mentionsOperand (.virtual n) = true → n < mf.vregCount) →
    Between mf (Spill.reloadInsts (.virtual v) offset mf insts).2 t →
    Short t offset (mentionsOf t (Spill.reloadInsts (.virtual v) offset mf insts).1) := by
  induction hn : insts.length using Nat.strong_induction_on generalizing insts with
  | _ n ih =>
    subst hn
    intro mf hcount ht
    cases insts with
    | nil =>
      rw [Spill.reloadInsts] at ht
      exact absurd ht.2 (Nat.not_lt.2 ht.1)
    | cons i rest =>
      have hcode : ∀ j ∈ i :: rest, ¬ j.mentionsOperand (.virtual t) = true :=
        fun j hj hmentions => absurd (hcount j hj t hmentions) (Nat.not_lt.2 ht.1)
      rw [Spill.reloadInsts] at ht ⊢
      by_cases hi : i.mentionsOperand (.virtual v) = true
      · rw [if_pos hi] at ht ⊢
        dsimp only at ht ⊢
        set more := (rest.takeWhile (Instr.mentionsOperand (.virtual v))).take (Spill.spanLimit - 1) with hmore
        rw [show (i :: more).length - 1 = more.length from rfl] at ht ⊢
        have hrun : ∀ j ∈ i :: more, j.mentionsOperand (.virtual v) = true :=
          List.forall_mem_cons.2 ⟨hi, fun j hj => List.mem_takeWhile_imp (List.mem_of_mem_take hj)⟩
        have hrest : ∀ j ∈ rest.drop more.length, j ∈ i :: rest :=
          fun j hj => List.mem_cons_of_mem _ (List.mem_of_mem_drop hj)
        obtain ⟨-, -, hreload⟩ := @reloadInsts_spec False v offset mf.newSpillTemp.2
          (rest.drop more.length) False.elim
        set out := Spill.reloadInsts (.virtual v) offset mf.newSpillTemp.2 (rest.drop more.length) with hout
        have hnone : Whereabouts.memory.temp? ≠ some t := by simp [Whereabouts.temp?]
        rw [mentionsOf, List.filter_append, ← mentionsOf, ← mentionsOf]
        obtain rfl | hlt := Nat.eq_or_lt_of_le ht.1
        · -- The temporary of this run: what follows does not know it.
          have hlength : (i :: more).length ≤ Spill.spanLimit := by
            have htake : more.length ≤ Spill.spanLimit - 1 := List.length_take_le _ _
            have hpos : 0 < Spill.spanLimit := by decide
            rw [List.length_cons]
            omega
          have hnew : Operand.virtual mf.vregCount ∉ i.sources :=
            fun h => hcode i List.mem_cons_self (Instr.mentionsOperand_virtual.2 (.inl h))
          have hafter : mentionsOf mf.vregCount out.1 = [] :=
            hreload.mentionsOf_eq_nil (fun j hj => hcode j (hrest j hj))
              (fun h => absurd h.1 (Nat.not_le.2 (Nat.lt_succ_self _))) hnone
          rw [hafter, List.append_nil]
          exact (Spill.mentionsOf_reloadRun hrun).symm ▸ Spill.short_reloadRun hi hnew hlength
        · -- A later temporary: this run does not know it.
          have hbefore := Spill.mentionsOf_reloadRun_eq_nil offset more hi (fun j hj => hcode j ?_) (Nat.ne_of_gt hlt)
          · rw [show mf.newSpillTemp.1 = .virtual mf.vregCount from rfl, hbefore, List.nil_append]
            refine ih _ ?_ (rest.drop more.length) rfl mf.newSpillTemp.2 (fun j hj n hn => ?_) ⟨hlt, ht.2⟩
            · rw [List.length_drop, List.length_cons]
              omega
            · exact (hcount j (hrest j hj) n hn).trans (Nat.lt_succ_self _)
          · obtain rfl | hj := List.mem_cons.1 hj
            · exact List.mem_cons_self
            · exact List.mem_cons_of_mem _ ((List.takeWhile_sublist _).subset (List.mem_of_mem_take hj))
      · rw [if_neg hi] at ht ⊢
        dsimp only at ht ⊢
        rw [mentionsOf, List.filter_cons_of_neg (hcode i List.mem_cons_self)]
        exact ih rest.length (Nat.lt_succ_self _) rest rfl mf (fun j hj => hcount j (List.mem_cons_of_mem _ hj)) ht

namespace MachineFunction

variable {mf mf' : MachineFunction} {t : Nat}

/-- A temporary is mentioned in one block only, and shortly there. -/
def Brief (mf : MachineFunction) (t : Nat) : Prop :=
  ∃ b offset, Short t offset (mentionsOf t (mf.instsOf b)) ∧ ∀ c ≠ b, mentionsOf t (mf.instsOf c) = []

/-- No block mentions a register that is not counted. -/
theorem Counted.not_mentions (h : mf.Counted) (ht : mf.vregCount ≤ t) (b : Nat) :
    ∀ i ∈ mf.instsOf b, ¬ i.mentionsOperand (.virtual t) = true := by
  intro i hi hmentions
  have hlt := h i (mem_placedInsts.2 ⟨b, hi⟩) t (Instr.mentionsOperand_virtual.1 hmentions)
  omega

/-- Registers are counted if blocks mention counted ones. -/
theorem counted_of_mentions
    (h : ∀ b, ∀ i ∈ mf.instsOf b, ∀ n, i.mentionsOperand (.virtual n) = true → n < mf.vregCount) : mf.Counted := by
  intro i hi n hn
  obtain ⟨b, hb⟩ := mem_placedInsts.1 hi
  exact h b i hb n (Instr.mentionsOperand_virtual.2 hn)

/-- Reloading the instructions of a block keeps all virtual registers counted. -/
theorem Counted.reloadBlock (h : mf.Counted) (v : Nat) (offset : Word) {b : Nat} (hb : b < mf.blocks.size) :
    (Spill.reloadBlock (.virtual v) offset mf b).Counted := by
  have hgrow := enlarged_reloadBlock v offset mf b
  obtain ⟨-, -, hreload⟩ := @reloadInsts_spec False v offset mf (mf.instsOf b) False.elim
  have hold : ∀ c, ∀ i ∈ mf.instsOf c, ∀ n, i.mentionsOperand (.virtual n) = true →
      n < (Spill.reloadBlock (.virtual v) offset mf b).vregCount := by
    intro c i hi n hn
    by_contra hle
    exact h.not_mentions (hgrow.count.trans (Nat.not_lt.1 hle)) c i hi hn
  refine counted_of_mentions fun c i hi n hn => ?_
  rw [instsOf_reloadBlock v offset hb] at hi
  split at hi
  · rcases hreload.mentioned hi hn with ⟨-, j, hj, hjn⟩ | hfresh | hnone
    · exact hold b j hj n hjn
    · exact hfresh.2
    · cases hnone
  · exact hold c i hi n hn

/-- New temporaries are brief. -/
theorem brief_of_foldl_reloadBlock (v : Nat) (offset : Word) (blocks : List Nat) (hnodup : blocks.Nodup) :
    ∀ mf : MachineFunction, (∀ b ∈ blocks, b < mf.blocks.size) → mf.Counted →
      Between mf (blocks.foldl (Spill.reloadBlock (.virtual v) offset) mf) t →
      (blocks.foldl (Spill.reloadBlock (.virtual v) offset) mf).Brief t := by
  induction blocks with
  | nil => exact fun mf _ _ ht => absurd ht.2 (Nat.not_lt.2 ht.1)
  | cons b blocks ih =>
    intro mf hsize hcount ht
    obtain ⟨hb, hnodup'⟩ := List.nodup_cons.1 hnodup
    have hinsts := instsOf_reloadBlock v offset (hsize b List.mem_cons_self)
    have hgrow := enlarged_reloadBlock v offset mf b
    have hcount₁ := hcount.reloadBlock v offset (hsize b List.mem_cons_self)
    have hshort : Between mf (Spill.reloadBlock (.virtual v) offset mf b) t →
        Short t offset (mentionsOf t (Spill.reloadInsts (.virtual v) offset mf (mf.instsOf b)).1) :=
      short_reloadInsts v offset (mf.instsOf b) mf
        fun i hi n hn => Nat.not_le.1 fun hle => hcount.not_mentions hle b i hi hn
    rw [List.foldl_cons] at ht ⊢
    set mf₁ := Spill.reloadBlock (.virtual v) offset mf b with hmf₁
    have hsize₁ : ∀ c ∈ blocks, c < mf₁.blocks.size := fun c hc => hgrow.size ▸ hsize c (List.mem_cons_of_mem _ hc)
    by_cases hlt : t < mf₁.vregCount
    · -- A temporary of the first block, which the other blocks do not know.
      obtain ⟨-, hrest, hreload⟩ := @foldl_reloadBlock_spec False v offset blocks hnodup' mf₁ hsize₁
        fun _ _ => False.elim
      refine ⟨b, offset, ?_, fun c hc => ?_⟩
      · rw [hrest b hb, hinsts, if_pos rfl]
        exact hshort ⟨ht.1, hlt⟩
      · have hcode : ∀ i ∈ mf₁.instsOf c, ¬ i.mentionsOperand (.virtual t) = true := by
          rw [hinsts, if_neg (Ne.symm hc)]
          exact hcount.not_mentions ht.1 c
        by_cases hmem : c ∈ blocks
        · exact (hreload c hmem).mentionsOf_eq_nil hcode (fun h => absurd h.1 (Nat.not_le.2 hlt))
            (by simp [Whereabouts.temp?])
        · rw [hrest c hmem]
          exact List.filter_eq_nil_iff.2 hcode
    · exact ih hnodup' mf₁ hsize₁ hcount₁ ⟨Nat.not_lt.1 hlt, ht.2⟩

variable {vregs : List Nat} {v : Nat} {budget : RegisterSet}

/-- The temporaries of a spilled register are brief. -/
theorem brief_of_spill (hcount : mf.Counted) (h : mf.spill v = .ok mf') (ht : Between mf mf' t) : mf'.Brief t := by
  unfold spill allocFrame at h
  cases hframe : Word.add? mf.frameSize 4 with
  | none =>
    rw [hframe] at h
    cases h
  | some size =>
    rw [hframe] at h
    cases h
    exact brief_of_foldl_reloadBlock v mf.frameSize _ List.nodup_range { mf with frameSize := size }
      (fun b hb => List.mem_range.1 hb) hcount ht

/-- A temporary stays brief when another register is spilled. -/
theorem Brief.spilled {careful : Prop} (h : mf.Brief t) (hs : Spilled careful mf v mf') (htv : t ≠ v)
    (ht : t < mf.vregCount) : mf'.Brief t := by
  obtain ⟨b, offset, hshort, hother⟩ := h
  have hmentions : ∀ c, List.Forall₂ (Reloads.Replaced v t) (mentionsOf t (mf.instsOf c)) (mentionsOf t (mf'.instsOf c)) :=
    fun c => (hs.code c).forall₂_mentionsOf htv (fun h => absurd h.1 (Nat.not_le.2 ht)) (by simp [Whereabouts.temp?])
  refine ⟨b, offset, hshort.replaced htv (hmentions b), fun c hc => ?_⟩
  have hnone := hmentions c
  rwa [hother c hc, List.forall₂_nil_left_iff] at hnone

/-- One function comes from another by spilling registers in turn, none of which is a temporary when it is spilled. -/
inductive SpilledInTurn : MachineFunction → List Nat → MachineFunction → Prop
  | nil (mf : MachineFunction) : SpilledInTurn mf [] mf
  | cons {mf mf₁ mf' : MachineFunction} {v : Nat} {rest : List Nat} : mf.spillTemps.contains v = false →
      mf.spill v = .ok mf₁ → SpilledInTurn mf₁ rest mf' → SpilledInTurn mf (v :: rest) mf'

/-- A temporary is brief when registers are spilled in turn, if it was brief before or was not there. -/
theorem SpilledInTurn.brief (h : SpilledInTurn mf vregs mf') (hcount : mf.Counted)
    (hbrief : t < mf.vregCount → mf.spillTemps.contains t = true → mf.Brief t) (ht : t < mf'.vregCount)
    (htemp : mf'.spillTemps.contains t = true) : mf'.Brief t := by
  induction h with
  | nil => exact hbrief ht htemp
  | @cons mf mf₁ mf' v rest hv hspill hrest ih =>
    have hs : Spilled False mf v mf₁ := spilled_of_spill hspill fun _ => False.elim
    refine ih (hcount.spilled hs) (fun ht₁ htemp₁ => ?_) ht htemp
    by_cases hlt : t < mf.vregCount
    · have hold : mf.spillTemps.contains t = true := hs.old t hlt ▸ htemp₁
      refine (hbrief hlt hold).spilled hs ?_ hlt
      rintro rfl
      exact Bool.noConfusion (hold.symm.trans hv)
    · exact brief_of_spill hcount hspill ⟨Nat.not_lt.1 hlt, ht₁⟩

/-- Spilling registers in turn keeps a function linked. -/
theorem SpilledInTurn.linked (h : SpilledInTurn mf vregs mf') (hlinked : mf.Linked) : mf'.Linked := by
  induction h with
  | nil => exact hlinked
  | cons _ hspill _ ih => exact ih (hlinked.spilled (@spilled_of_spill False _ _ _ hspill fun _ => False.elim))

/-- Code that does not read a register at its first mention does not expose a read of it. -/
theorem not_exposes_of_head {code : List Instr} (h : ∀ i ∈ (mentionsOf t code).head?, Operand.virtual t ∉ i.sources) :
    ¬ Exposes budget (Node.firstVirtual + t) code := by
  induction code with
  | nil =>
    rintro ⟨before, i, after, hcode, -⟩
    exact absurd hcode.symm (by simp)
  | cons i code ih =>
    rw [exposes_cons, Instr.mem_useNodes_virtual, Instr.mem_defNodes_virtual]
    cases hi : i.mentionsOperand (.virtual t) with
    | true =>
      rw [mentionsOf, List.filter_cons_of_pos hi] at h
      have hread := h i rfl
      have hwrite := (Instr.mentionsOperand_virtual.1 hi).resolve_left hread
      tauto
    | false =>
      rw [mentionsOf, List.filter_cons_of_neg (by simp [hi])] at h
      have hnot : ¬ (Operand.virtual t ∈ i.sources ∨ Operand.virtual t ∈ i.defs) := by
        rw [← Instr.mentionsOperand_virtual, hi]
        exact Bool.false_ne_true
      have hrest := ih h
      tauto

/-- A brief temporary is live at the edge of no block. -/
theorem Brief.not_live {l : Liveness} (h : mf.Brief t) (hl : Liveness.ofFunction mf budget = .ok l) (b : Nat) :
    (l.liveIn.getD b .empty).contains (Node.firstVirtual + t) = false ∧
      (l.liveOut.getD b .empty).contains (Node.firstVirtual + t) = false := by
  obtain ⟨a, offset, hshort, hother⟩ := h
  have hdead : ∀ c, ¬ Exposes budget (Node.firstVirtual + t) (mf.instsOf c) := by
    intro c
    by_cases hc : c = a
    · exact hc ▸ not_exposes_of_head hshort.head
    · exact not_exposes_of_head (by simp [hother c hc])
  by_contra hlive
  rw [not_and_or, Bool.not_eq_false, Bool.not_eq_false] at hlive
  obtain ⟨c, hc⟩ := Liveness.exists_exposes_of_ofFunction hl hlive
  exact hdead c hc

/-- Spilling registers in turn, none of them a temporary, makes temporaries that are local to blocks and short, if the
registers that the code mentions are counted. The liveness is found if the function is linked. No temporary is live at the start or at the end of a block. Each is mentioned in one block only, by at most thirty instructions that
are not its own load or store: `own` holds at most one load from its word and one store to it. -/
theorem temporaries_brief {vregs : List Nat} (hcount : mf.Counted) (h : SpilledInTurn mf vregs mf') :
    (mf.Linked → ∀ budget, ∃ l, Liveness.ofFunction mf' budget = .ok l) ∧
    ∀ t < mf'.vregCount, mf'.spillTemps.contains t = true → mf.spillTemps.contains t = false →
      (∀ budget l, Liveness.ofFunction mf' budget = .ok l → ∀ b,
        (l.liveIn.getD b .empty).contains (Node.firstVirtual + t) = false ∧
        (l.liveOut.getD b .empty).contains (Node.firstVirtual + t) = false) ∧
      ∃ b offset, (∀ c ≠ b, ∀ i ∈ mf'.instsOf c, i.mentionsOperand (.virtual t) = false) ∧
        ∃ own : List Instr, own.Sublist [ownLoad t offset, ownStore t offset] ∧
          (∀ i ∈ own, i ∈ mf'.instsOf b) ∧
          (mf'.instsOf b).countP (Instr.mentionsOperand (.virtual t)) ≤ 30 + own.length := by
  refine ⟨fun hlinked budget => Liveness.ofFunction_total mf' budget (h.linked hlinked), fun t ht htemp hold => ?_⟩
  · have hbrief : mf'.Brief t := by
      refine h.brief hcount (fun _ hold' => ?_) ht htemp
      exact Bool.noConfusion (hold.symm.trans hold')
    refine ⟨fun budget l hl b => hbrief.not_live hl b, ?_⟩
    obtain ⟨b, offset, hshort, hother⟩ := hbrief
    obtain ⟨own, hsub, hown, hfew⟩ := hshort.few
    refine ⟨b, offset, fun c hc i hi => ?_, own, hsub, fun i hi => List.mem_of_mem_filter (hown i hi), ?_⟩
    · simpa using List.filter_eq_nil_iff.1 (hother c hc) i hi
    · rw [List.countP_eq_length_filter]
      exact hfew

/-- Two sums that use one another's results, in one block. -/
def interleaved : MachineFunction :=
  { name := "f", isMain := false, returnsValue := true, vregCount := 2
    blocks := #[{ label := "f_b0", loopDepth := 0, insts := [
      .move (.virtual 0) (.immediate 1), .move (.virtual 1) (.immediate 2),
      .binary .addu (.virtual 0) (.virtual 0) (.virtual 1), .binary .addu (.virtual 1) (.virtual 1) (.virtual 0),
      .move .v0 (.virtual 1), .ret true] }] }

/-- The sums with the first register in a word of the frame. -/
def interleavedHalf : MachineFunction :=
  { interleaved with
    vregCount := 4, spillTemps := ⟨12⟩, frameSize := 4
    blocks := #[{ label := "f_b0", loopDepth := 0, insts := [
      .move (.virtual 2) (.immediate 1), ownStore 2 0, .move (.virtual 1) (.immediate 2),
      ownLoad 3 0, .binary .addu (.virtual 3) (.virtual 3) (.virtual 1), ownStore 3 0,
      .binary .addu (.virtual 1) (.virtual 1) (.virtual 3), .move .v0 (.virtual 1), .ret true] }] }

/-- The sums with both registers in words of the frame: the second one is loaded twice among the mentions of a
temporary of the first one. -/
def interleavedSpilled : MachineFunction :=
  { interleaved with
    vregCount := 7, spillTemps := ⟨124⟩, frameSize := 8
    blocks := #[{ label := "f_b0", loopDepth := 0, insts := [
      .move (.virtual 2) (.immediate 1), ownStore 2 0, .move (.virtual 4) (.immediate 2), ownStore 4 4,
      ownLoad 3 0, ownLoad 5 4, .binary .addu (.virtual 3) (.virtual 3) (.virtual 5), ownStore 3 0,
      ownLoad 6 4, .binary .addu (.virtual 6) (.virtual 6) (.virtual 3), ownStore 6 4,
      .move .v0 (.virtual 6), .ret true] }] }

/-- The temporary of the first register that is used between loads of the second one is live at no edge. -/
theorem temporaries_brief_interleaved : SpilledInTurn interleaved [0, 1] interleavedSpilled ∧
    ∃ l, Liveness.ofFunction interleavedSpilled (.firstGeneral 1) = .ok l ∧
      (l.liveIn.getD 0 .empty).contains (Node.firstVirtual + 3) = false ∧
      (l.liveOut.getD 0 .empty).contains (Node.firstVirtual + 3) = false := by
  have hspilled : SpilledInTurn interleaved [0, 1] interleavedSpilled :=
    .cons (by decide) (show interleaved.spill 0 = .ok interleavedHalf by with_unfolding_all rfl)
      (.cons (by decide) (show interleavedHalf.spill 1 = .ok interleavedSpilled by with_unfolding_all rfl) (.nil _))
  have hcount : interleaved.Counted := by decide
  obtain ⟨htotal, hbrief⟩ := temporaries_brief hcount hspilled
  obtain ⟨l, hl⟩ := htotal (by decide) (.firstGeneral 1)
  exact ⟨hspilled, l, hl, (hbrief 3 (by decide) (by decide) (by decide)).1 _ l hl 0⟩

end MachineFunction

end SsaCompiler
