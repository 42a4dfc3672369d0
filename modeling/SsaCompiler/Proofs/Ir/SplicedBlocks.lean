import SsaCompiler.Ir.Simplify
import SsaCompiler.Proofs.Ir.Placement
import SsaCompiler.Proofs.Ir.Rerouting

/-!
# Spliced blocks

A block that holds nothing but a jump is spliced out: the edges to it lead to its target at once, and the
phis of the target take from each of its predecessors what they took from the block. A predecessor that has
an edge to the target of its own would get two values there, so such a block stays unless the target has
no phis.
-/

set_option autoImplicit false

namespace SsaCompiler

variable {p : BlockId}

namespace Function

variable {f f' : Function} {b target : BlockId} {idx : Nat}

/-- The block that is spliced out, with its target. -/
def hopOver (b target c : BlockId) : Option BlockId := if c = b then some target else none

/-- Where edges end. -/
theorem landing_hopOver (b target c : BlockId) : landing (hopOver b target) c = if c = b then target else c := by
  unfold landing hopOver
  split <;> rfl

variable {c : BlockId}

/-- Only the block is hopped over. -/
theorem hopOver_eq_none : hopOver b target c = none ↔ c ≠ b := by
  unfold hopOver
  split
  · rename_i hc
    simp [hc]
  · rename_i hc
    simp [hc]

/-- Only the block is hopped over, to its target. -/
theorem hopOver_eq_some {t : BlockId} : hopOver b target c = some t ↔ c = b ∧ t = target := by
  unfold hopOver
  split
  · rename_i hc
    simp [hc, eq_comm]
  · rename_i hc
    simp [hc]

/-- Edges counted after splicing. -/
theorem count_map_landing (l : List BlockId) (hne : target ≠ b) (hc : c ≠ b) :
    (l.map (landing (hopOver b target))).count c = l.count c + if c = target then l.count b else 0 := by
  induction l with
  | nil => simp
  | cons a rest ih =>
    rw [List.map_cons, List.count_cons, List.count_cons, List.count_cons, ih, landing_hopOver]
    by_cases ha : a = b
    · subst ha
      by_cases hct : c = target
      · subst hct
        simp [Ne.symm hc]
        omega
      · simp [hct, Ne.symm hct, Ne.symm hc]
    · by_cases hct : c = target
      · simp [ha, hct]
        omega
      · simp [ha, hct]

/-- One value for all entries of a list. -/
theorem zip_replicate_length {α β : Type} (l : List α) (v : β) :
    l.zip (List.replicate l.length v) = l.map fun a => (a, v) := by
  induction l with
  | nil => rfl
  | cons a rest ih => rw [List.length_cons, List.replicate_succ, List.zip_cons_cons, ih, List.map_cons]

/-- A function without the block `b`, which holds nothing but a jump to `target`; `idx` is its place among
the predecessors of the target. -/
structure Spliced (f f' : Function) (b target : BlockId) (idx : Nat) : Prop where
  listed : b ∈ f.layout
  ne : target ≠ b
  entry : f.layout.head? ≠ some b
  only : ∃ j, f.instsOf b = [j] ∧ f.kind j = .jump target
  slot : (f.preds target)[idx]? = some b
  apart : f.phis target = [] ∨ ∀ p ∈ f.preds b, p ∉ f.preds target
  insts : ∀ c, c ≠ b → f'.instsOf c = f.instsOf c
  kind : ∀ c ∈ f.layout, c ≠ b → ∀ i ∈ f.instsOf c,
    f'.kind i = (f.kind i).retarget (landing (hopOver b target))
  result : ∀ i, f'.result? i = f.result? i
  operands : ∀ c, c ≠ b → ∀ i ∈ f.instsOf c, i ∉ f.phis target → f'.operands i = f.operands i
  moved : ∀ i ∈ f.phis target, ∃ v, (f.operands i)[idx]? = some v ∧
    f'.operands i = (f.operands i).eraseIdx idx ++ List.replicate (f.preds b).length v
  preds : ∀ c, c ≠ b → f'.preds c =
    if c = target then (f.preds target).eraseIdx idx ++ f.preds b else f.preds c
  removed : ∀ c, c ≠ b → (f'.block c).removed = (f.block c).removed
  layout : f'.layout = f.layout.filter (· != b)
  blocks_size : f'.blocks.size = f.blocks.size
  values_size : f'.values.size = f.values.size
  kinds : ∀ v, (f'.value v).kind = (f.value v).kind

namespace Spliced

section

variable (h : f.Spliced f' b target idx)

include h

/-- The blocks that stay. -/
theorem mem_layout : c ∈ f'.layout ↔ c ∈ f.layout ∧ c ≠ b := by
  rw [h.layout, List.mem_filter, bne_iff_ne]

/-- The arms of the block. -/
theorem arms_block : f.arms b = [target] := by
  obtain ⟨j, hj, hkind⟩ := h.only
  unfold Function.arms
  rw [hj, List.getLast?_singleton]
  dsimp only
  rw [hkind]
  rfl

/-- The arms of the other blocks. -/
theorem arms (hc : c ∈ f.layout) (hne : c ≠ b) : f'.arms c = (f.arms c).map (landing (hopOver b target)) := by
  unfold Function.arms
  rw [h.insts c hne]
  split
  · rename_i t ht
    rw [h.kind c hc hne t (List.mem_of_getLast? ht), InstKind.targets_retarget]
  · rfl

/-- The target stays. -/
theorem target_mem (hs : f.Sound) (hr : f.Regular) : target ∈ f.layout :=
  hr.mem_layout_of_mem_arms hs h.listed (h.arms_block ▸ List.mem_cons_self)

end

variable {i : InstId}

variable (h : f.Spliced f' b target idx)

include h

/-- Instructions stay of the same sort. -/
theorem sort (hc : c ∈ f.layout) (hne : c ≠ b) (hi : i ∈ f.instsOf c) :
    (f'.kind i).isTerminator = (f.kind i).isTerminator ∧
      (f'.kind i).isPhi = (f.kind i).isPhi := by
  rw [h.kind c hc hne i hi]
  cases f.kind i <;> exact ⟨rfl, rfl⟩

/-- The phis of the blocks that stay. -/
theorem isPhi_old (hc : c ∈ f'.layout) (hi : i ∈ f'.instsOf c)
    (hphi : (f'.kind i).isPhi = true) : i ∈ f.instsOf c ∧ (f.kind i).isPhi = true := by
  obtain ⟨hlisted, hne⟩ := h.mem_layout.1 hc
  rw [h.insts c hne] at hi
  rw [(h.sort hlisted hne hi).2] at hphi
  exact ⟨hi, hphi⟩

section

variable (hs : f.Sound) (hr : f.Regular)

include hs hr

/-- What the phis of other blocks take. -/
theorem zip_of_ne (hc : c ∈ f.layout) (hne : c ≠ b) (hct : c ≠ target) (hi : i ∈ f.instsOf c)
    (hphi : (f.kind i).isPhi = true) :
    (f'.operands i).length = (f'.preds c).length ∧
      (f'.preds c).zip (f'.operands i) = (f.preds c).zip (f.operands i) := by
  have hnot : i ∉ f.phis target := by
    intro hin
    have hone := (hs.placed c i).1 hi
    rw [(hs.placed target i).1 ((List.takeWhile_sublist _).subset hin)] at hone
    exact hct (Option.some.inj hone).symm
  rw [h.preds c hne, if_neg hct, h.operands c hne i hi hnot]
  exact ⟨hr.slots c hc i hi hphi, rfl⟩

/-- What the phis of the target take: from the block nothing any more, and from its predecessors what they
took from the block. -/
theorem zip_target (hi : i ∈ f.phis target) :
    (f'.operands i).length = (f'.preds target).length ∧
      ∃ v, ((f.preds target).zip (f.operands i))[idx]? = some (b, v) ∧
        (f'.preds target).zip (f'.operands i) = ((f.preds target).zip (f.operands i)).eraseIdx idx ++
          (f.preds b).map fun p => (p, v) := by
  have htarget := h.target_mem hs hr
  obtain ⟨hin, hphi⟩ := (hr.mem_phis htarget).1 hi
  have hslots := hr.slots target htarget i hin hphi
  obtain ⟨v, hv, hoperands⟩ := h.moved i hi
  rw [h.preds target h.ne, if_pos rfl, hoperands]
  have hlen : ((f.preds target).eraseIdx idx).length = ((f.operands i).eraseIdx idx).length := by
    rw [List.length_eraseIdx, List.length_eraseIdx, hslots]
  refine ⟨?_, v, List.getElem?_zip_eq_some.2 ⟨h.slot, hv⟩, ?_⟩
  · rw [List.length_append, List.length_append, List.length_replicate, hlen]
  · rw [List.zip_append hlen, zip_eraseIdx _ _ _ hslots.symm]
    congr 1
    exact zip_replicate_length _ v

/-- A phi of the target takes a value it took before, or one that it took from the block. -/
theorem feeds_target (hi : i ∈ f.phis target) {v : ValueId} (hfeeds : f'.Feeds target i p v) :
    f.Feeds target i p v ∨ p ∈ f.preds b ∧ f.Feeds target i b v := by
  obtain ⟨-, w, hw, hzip⟩ := h.zip_target hs hr hi
  unfold Feeds at hfeeds ⊢
  rw [hzip] at hfeeds
  rcases List.mem_append.1 hfeeds with hin | hin
  · exact .inl (List.mem_of_mem_eraseIdx hin)
  · obtain ⟨q, hq, heq⟩ := List.mem_map.1 hin
    cases heq
    exact .inr ⟨hq, List.mem_of_getElem? hw⟩

/-- A function stays regular when a block is spliced out. -/
theorem regular : f'.Regular where
  entry := by
    obtain ⟨e, rest, hlayout, hpreds⟩ := hr.entry
    have he : e ≠ b := by
      rintro rfl
      exact h.entry (by rw [hlayout]; rfl)
    refine ⟨e, rest.filter (· != b), ?_, ?_⟩
    · rw [h.layout, hlayout, List.filter_cons_of_pos (by simpa using he)]
    · rw [h.preds e he, if_neg, hpreds]
      rintro rfl
      have hslot := h.slot
      rw [hpreds] at hslot
      cases hslot
  ends c hc := by
    obtain ⟨hlisted, hne⟩ := h.mem_layout.1 hc
    refine hr.ends_of_map (ρ := id) hlisted ?_ fun i hi => (h.sort hlisted hne hi).1
    rw [h.insts c hne, List.map_id]
  phis_first c hc before i after hsplit hi := by
    obtain ⟨hlisted, hne⟩ := h.mem_layout.1 hc
    refine hr.phis_first_of_map (ρ := id) hlisted ?_ (fun i hi => (h.sort hlisted hne hi).2) hsplit hi
    rw [h.insts c hne, List.map_id]
  slots c hc i hi hphi := by
    obtain ⟨hlisted, hne⟩ := h.mem_layout.1 hc
    obtain ⟨hin, hphi⟩ := h.isPhi_old hc hi hphi
    by_cases hct : c = target
    · subst hct
      exact (h.zip_target hs hr ((hr.mem_phis hlisted).2 ⟨hin, hphi⟩)).1
    · exact (h.zip_of_ne hs hr hlisted hne hct hin hphi).1
  targets c hc t ht := by
    obtain ⟨hlisted, hne⟩ := h.mem_layout.1 hc
    rw [h.arms hlisted hne] at ht
    obtain ⟨a, ha, rfl⟩ := List.mem_map.1 ht
    rw [landing_hopOver]
    split
    · rw [h.removed target h.ne]
      exact ((hs.mem_layout target).1 (h.target_mem hs hr)).2
    · rename_i hab
      rw [h.removed a hab]
      exact hr.targets c hlisted a ha
  preds c hc p := by
    obtain ⟨hlisted, hne⟩ := h.mem_layout.1 hc
    have hold := hr.preds c hlisted p
    have hblock := hr.preds b h.listed p
    have hnew : (f'.preds c).count p + (if c = target ∧ p = b then 1 else 0) =
        (f.preds c).count p + if c = target then (f.preds b).count p else 0 := by
      rw [h.preds c hne]
      by_cases hct : c = target
      · have hcount := count_eraseIdx h.slot p
        rw [if_pos hct, List.count_append]
        simp only [hct, true_and, if_true]
        omega
      · rw [if_neg hct, if_neg fun hcp => hct hcp.1, if_neg hct]
    by_cases hp : p ∈ f.layout
    · rw [if_pos hp] at hold hblock
      by_cases hpb : p = b
      · subst hpb
        rw [if_neg fun hin => (h.mem_layout.1 hin).2 rfl]
        rw [h.arms_block] at hold hblock
        rw [List.count_singleton] at hold hblock
        rw [hold, hblock] at hnew
        by_cases hct : c = target
        · simpa [hct, h.ne] using hnew
        · simpa [hct, Ne.symm hct] using hnew
      · rw [if_pos (h.mem_layout.2 ⟨hp, hpb⟩), h.arms hp hpb, count_map_landing _ h.ne hne]
        simp only [hpb, and_false, if_false, Nat.add_zero] at hnew
        rw [hnew, hold, hblock]
    · rw [if_neg hp] at hold hblock
      rw [if_neg fun hin => hp (h.mem_layout.1 hin).1]
      simp only [hold, hblock, ite_self, Nat.add_zero] at hnew
      omega

/-- Phis agree when a block is spliced out. -/
theorem agreeing (hagree : f.AgreeingPhis) : f'.AgreeingPhis := by
  intro c hc i hi hphi p v v' hv hv'
  obtain ⟨hlisted, hne⟩ := h.mem_layout.1 hc
  obtain ⟨hin, hphi⟩ := h.isPhi_old hc hi hphi
  by_cases hct : c = target
  · subst hct
    have hmem := (hr.mem_phis hlisted).2 ⟨hin, hphi⟩
    have hapart : ∀ w, p ∈ f.preds b → ¬ f.Feeds c i p w := by
      rcases h.apart with hnil | hapart
      · rw [hnil] at hmem
        cases hmem
      · exact fun w hp hw => hapart p hp (List.of_mem_zip hw).1
    rcases h.feeds_target hs hr hmem hv with hv | ⟨hp, hv⟩ <;>
      rcases h.feeds_target hs hr hmem hv' with hv' | ⟨hp', hv'⟩
    · exact hagree c hlisted i hin hphi p v v' hv hv'
    · exact absurd hv (hapart v hp')
    · exact absurd hv' (hapart v' hp)
    · exact hagree c hlisted i hin hphi b v v' hv hv'
  · unfold Feeds at hv hv'
    rw [(h.zip_of_ne hs hr hlisted hne hct hin hphi).2] at hv hv'
    exact hagree c hlisted i hin hphi p v v' hv hv'

/-- Splicing a block out leads the edges to it on to its target. -/
theorem redirects : f.Redirects f' (hopOver b target) id where
  head := by
    obtain ⟨e, rest, hlayout, -⟩ := hr.entry
    have he : e ≠ b := by
      rintro rfl
      exact h.entry (by rw [hlayout]; rfl)
    rw [h.layout, hlayout, List.filter_cons_of_pos (by simpa using he)]
    rfl
  entry e he := by
    rw [hopOver_eq_none]
    rintro rfl
    exact h.entry he
  kinds := h.kinds
  listed c hc hhop := h.mem_layout.2 ⟨hr.mem_layout_of_reach hs hc, hopOver_eq_none.1 hhop⟩
  insts c _ hhop := by rw [h.insts c (hopOver_eq_none.1 hhop), List.map_id]
  body c hc hhop i hi hterm := by
    have hne := hopOver_eq_none.1 hhop
    refine ⟨rfl, ?_, h.result i, fun hphi => h.operands c hne i hi fun hin => ?_⟩
    · rw [h.kind c (hr.mem_layout_of_reach hs hc) hne i hi]
      exact InstKind.retarget_of_not_isTerminator hterm
    · rw [f.isPhi_of_mem_phis hin] at hphi
      cases hphi
  ends c hc hhop t ht hterm := by
    have hne := hopOver_eq_none.1 hhop
    have hlisted := hr.mem_layout_of_reach hs hc
    have hnot : t ∉ f.phis target := fun hin => by
      have hphi := f.isPhi_of_mem_phis hin
      rw [InstKind.not_isPhi hterm] at hphi
      cases hphi
    rw [id, (h.sort hlisted hne ht).1, h.operands c hne t ht hnot, h.kind c hlisted hne t ht,
      InstKind.targets_retarget]
    exact ⟨hterm, List.Subset.refl _, List.Subset.refl _⟩
  hops m t _ hhop := by
    obtain ⟨rfl, rfl⟩ := hopOver_eq_some.1 hhop
    obtain ⟨j, hj, hkind⟩ := h.only
    refine ⟨hopOver_eq_none.2 h.ne, j, hj, hkind, ?_⟩
    have hfits := hs.fits m j (by rw [hj]; exact List.mem_cons_self)
    rw [hkind] at hfits
    exact List.length_eq_zero_iff.1 (beq_iff_eq.1 hfits)
  fed t ht hhop phi hphi p v hp hhopp hfeeds := by
    have htl := hr.mem_layout_of_reach hs ht
    have htb := hopOver_eq_none.1 hhop
    obtain ⟨hin, hisPhi⟩ := (hr.mem_phis htl).1 hphi
    by_cases htt : t = target
    · subst htt
      rcases h.feeds_target hs hr hphi hfeeds with hfeeds | ⟨hpred, hfeeds⟩
      · exact .inl hfeeds
      · refine .inr ⟨b, ⟨hhopp, hhop, .inr ⟨?_, hopOver_eq_some.2 ⟨rfl, rfl⟩⟩⟩, hfeeds⟩
        exact ((hr.mem_preds_iff h.listed).1 hpred).2
    · unfold Feeds at hfeeds
      rw [(h.zip_of_ne hs hr htl htb htt hin hisPhi).2] at hfeeds
      exact .inl hfeeds

end

/-- A function in strict form stays so without the block. -/
theorem strictForm (hf : f.StrictForm) (hs' : f'.Sound) : f'.StrictForm :=
  have hr' := h.regular hf.sound hf.regular
  ⟨hs', hr', (h.redirects hf.sound hf.regular).strict hf.regular hf.sound hr' hs' hf.strict h.values_size⟩

/-- Splicing a block out reroutes the edges to it. -/
theorem reroutes (hs : f.Sound) (hr : f.Regular) (hagree : f.AgreeingPhis) : f.Reroutes f' (hopOver b target) id where
  toRedirects := h.redirects hs hr
  goes c hc hhop t ht hterm W env vals values hvalues := by
    have hne := hopOver_eq_none.1 hhop
    have hnot : t ∉ f.phis target := fun hin => by
      have hphi := f.isPhi_of_mem_phis hin
      rw [InstKind.not_isPhi hterm] at hphi
      cases hphi
    rw [id, h.operands c hne t ht hnot, h.kind c (hr.mem_layout_of_reach hs hc) hne t ht]
    exact ⟨values, hvalues, fun m w => InstKind.perform_retarget env _ _ t values m w⟩
  feeds p m t hp hvia harm := by
    obtain ⟨hhopp, hhopt, hvia⟩ := hvia
    have hpl := hr.mem_layout_of_reach hs hp
    have hpb := hopOver_eq_none.1 hhopp
    have htb := hopOver_eq_none.1 hhopt
    have htl : t ∈ f.layout := by
      rcases hvia with ⟨-, harm'⟩ | ⟨-, hhop⟩
      · exact hr.mem_layout_of_mem_arms hs hpl harm'
      · rw [(hopOver_eq_some.1 hhop).2]
        exact h.target_mem hs hr
    refine ⟨((h.regular hs hr).mem_preds_iff (h.mem_layout.2 ⟨htl, htb⟩)).2
      ⟨h.mem_layout.2 ⟨hpl, hpb⟩, harm⟩, fun phi hphi v hfeeds => ?_⟩
    obtain ⟨hin, hisPhi⟩ := (hr.mem_phis htl).1 hphi
    by_cases htt : t = target
    · subst htt
      obtain ⟨-, w, hw, hzip⟩ := h.zip_target hs hr hphi
      unfold Feeds at hfeeds ⊢
      rw [hzip]
      rcases hvia with ⟨rfl, -⟩ | ⟨harm', hhop⟩
      · -- What came from the predecessor itself is still there.
        refine List.mem_append_left _ ?_
        obtain ⟨k, hk⟩ := List.getElem?_of_mem hfeeds
        refine List.mem_eraseIdx_iff_getElem?.2 ⟨k, ?_, hk⟩
        rintro rfl
        rw [hk] at hw
        exact hpb (Prod.mk.inj (Option.some.inj hw)).1
      · obtain ⟨rfl, -⟩ := hopOver_eq_some.1 hhop
        rw [hagree t htl phi hin hisPhi m v w hfeeds (List.mem_of_getElem? hw)]
        refine List.mem_append_right _ (List.mem_map.2 ⟨p, ?_, rfl⟩)
        exact (hr.mem_preds_iff h.listed).2 ⟨hpl, harm'⟩
    · rcases hvia with ⟨rfl, -⟩ | ⟨-, hhop⟩
      · unfold Feeds at hfeeds ⊢
        rw [(h.zip_of_ne hs hr htl htb htt hin hisPhi).2]
        exact hfeeds
      · exact absurd (hopOver_eq_some.1 hhop).2 htt

end Spliced

end Function

namespace Edit

open Edits Function

variable {f g g' : Function} {b target : BlockId} {carried : List (InstId × ValueId)} {done : List BlockId}

variable {e : BlockId} {kind : InstKind}

/-- Redirecting an arm moves one arm, and after all arms are moved it makes no difference. -/
theorem redirect_eq_some {kind' : InstKind} (hne : target ≠ b) (h : kind.redirect? b target = some kind') :
    kind'.retarget (landing (hopOver b target)) = kind.retarget (landing (hopOver b target)) ∧
      kind'.targets.count b + 1 = kind.targets.count b := by
  unfold InstKind.redirect? at h
  split at h
  · rename_i t
    split at h
    · rename_i ht
      cases h
      subst ht
      simp [InstKind.retarget, InstKind.targets, landing_hopOver, hne]
    · cases h
  · rename_i t e
    split at h
    · rename_i ht
      cases h
      subst ht
      simp [InstKind.retarget, InstKind.targets, landing_hopOver, hne, List.count_cons]
    · rename_i ht
      split at h
      · rename_i he
        cases h
        subst he
        simp [InstKind.retarget, InstKind.targets, landing_hopOver, hne, List.count_cons, Nat.add_comm]
      · cases h
  · cases h

/-- A kind without an arm to the block stays what it is. -/
theorem retarget_of_not_mem (h : b ∉ kind.targets) : kind.retarget (landing (hopOver b target)) = kind := by
  cases kind with
  | branch t e =>
    simp only [InstKind.targets, List.mem_cons, List.not_mem_nil, or_false, not_or] at h
    rw [InstKind.retarget, landing_hopOver, landing_hopOver, if_neg (Ne.symm h.1), if_neg (Ne.symm h.2)]
  | jump t =>
    simp only [InstKind.targets, List.mem_cons, List.not_mem_nil, or_false] at h
    rw [InstKind.retarget, landing_hopOver, if_neg (Ne.symm h)]
  | _ => rfl

/-- A function in which the edges from `done` to `b` have been moved over to `target`. -/
structure Moving (f g : Function) (b target : BlockId) (carried : List (InstId × ValueId))
    (done : List BlockId) : Prop where
  sound : g.Sound
  becomes : f.Becomes g g.inst (Function.update f.block target
    { f.block target with preds := f.preds target ++ done }) f.layout
  result : ∀ i, g.result? i = f.result? i
  kind : ∀ i, (g.kind i).retarget (landing (hopOver b target)) =
    (f.kind i).retarget (landing (hopOver b target))
  slots : ∀ e ∈ carried, g.operands e.1 = f.operands e.1 ++ List.replicate done.length e.2
  others : ∀ i, i ∉ carried.map Prod.fst → g.operands i = f.operands i
  count : ∀ p t, (f.instsOf p).getLast? = some t →
    (g.kind t).targets.count b + done.count p = (f.kind t).targets.count b

namespace Moving

theorem refl (hs : f.Sound) : Moving f f b target carried [] where
  sound := hs
  becomes := by
    refine ⟨fun _ => rfl, fun c => ?_, rfl, rfl, rfl, fun _ => rfl⟩
    rw [List.append_nil, Function.update_apply]
    split
    · rename_i hc
      rw [hc]
      rfl
    · rfl
  result _ := rfl
  kind _ := rfl
  slots e _ := by simp
  others _ _ := rfl
  count _ _ _ := rfl

/-- The instructions of blocks stay. -/
theorem instsOf_eq (h : Moving f g b target carried done) (c : BlockId) : g.instsOf c = f.instsOf c := by
  unfold Function.instsOf
  rw [h.becomes.block]
  exact Function.proj_update (by rfl) _

/-- The predecessors of the target. -/
theorem preds_eq (h : Moving f g b target carried done) (c : BlockId) :
    g.preds c = if c = target then f.preds target ++ done else f.preds c := by
  unfold Function.preds
  rw [h.becomes.block, Function.update_apply]
  split <;> rfl

/-- Instructions stay of the same sort. -/
theorem sort (h : Moving f g b target carried done) (i : InstId) :
    (g.kind i).isTerminator = (f.kind i).isTerminator ∧ (g.kind i).isPhi = (f.kind i).isPhi := by
  have hsort : ∀ kind : InstKind, (kind.retarget (landing (hopOver b target))).isTerminator = kind.isTerminator ∧
      (kind.retarget (landing (hopOver b target))).isPhi = kind.isPhi := by
    intro kind
    cases kind <;> exact ⟨rfl, rfl⟩
  rw [← (hsort (g.kind i)).1, ← (hsort (g.kind i)).2, h.kind]
  exact hsort (f.kind i)

end Moving

/-- Moving one more edge. -/
theorem moveEdge_spec (hne : target ≠ b) (htarget : target < f.blocks.size)
    (hphis : ∀ e ∈ carried, (f.kind e.1).isPhi = true) (hnodup : (carried.map Prod.fst).Nodup)
    (h : Moving f g b target carried done) (hrun : (moveEdge b target carried p).run g = (.ok (), g')) :
    Moving f g' b target carried (done ++ [p]) := by
  unfold moveEdge at hrun
  obtain ⟨t, hterm, hrun₁⟩ := ask_bind_eq_ok hrun
  obtain ⟨found, g₁, hredirect, hrun₂⟩ := bind_eq_ok hrun₁
  have hs₁ := sound_redirectTarget h.sound (h.becomes.blocks_size ▸ htarget) hredirect
  rcases redirectTarget_spec hredirect with ⟨rfl, -⟩ | ⟨kind, hkind, rfl, -, -, hb₁, -⟩
  · obtain ⟨k, g₂, -, hreport⟩ := bind_eq_ok hrun₂
    cases hreport
  · obtain ⟨⟨⟩, g₂, hadd, hpush⟩ := bind_eq_ok hrun₂
    have hs₂ := sound_addPred hs₁ hadd
    obtain ⟨-, -, hb₂, -⟩ := addPred_spec hadd
    have hinst₂ : ∀ i, g₂.inst i = Function.update g.inst t { g.inst t with kind } i := fun i => by
      rw [hb₂.inst, hb₁.inst]
    have hoperands₂ : ∀ i, g₂.operands i = g.operands i := by
      intro i
      unfold Function.operands
      rw [hinst₂]
      exact Function.proj_update (by rfl) _
    have hkind₂ : ∀ i, g₂.kind i = if i = t then kind else g.kind i := by
      intro i
      unfold Function.kind
      rw [hinst₂, Function.update_apply]
      split <;> rfl
    obtain ⟨hlast, hisTerm⟩ := terminator_eq_ok.1 hterm
    rw [h.instsOf_eq] at hlast
    have hphis₂ : ∀ e ∈ carried, (g₂.kind e.1).isPhi = true := by
      intro e he
      rw [hkind₂, if_neg, (h.sort e.1).2]
      · exact hphis e he
      · intro het
        have hphi := hphis e he
        rw [← (h.sort e.1).2, het, InstKind.not_isPhi hisTerm] at hphi
        cases hphi
    obtain ⟨hs', hb', hinst', hcarried, hothers⟩ := forM_pushOperand_spec hs₂ hphis₂ hnodup hpush
    have hkind' : ∀ i, g'.kind i = if i = t then kind else g.kind i := by
      intro i
      rw [← hkind₂]
      unfold Function.kind
      rw [hinst']
    obtain ⟨hretarget, hcount⟩ := redirect_eq_some hne hkind
    refine ⟨hs', ⟨fun _ => rfl, fun c => ?_, ?_, ?_, ?_, fun v => ?_⟩, fun i => ?_, fun i => ?_,
      fun e he => ?_, fun i hi => ?_, fun q u hu => ?_⟩
    · have hpreds : g₁.preds target = f.preds target ++ done := by
        unfold Function.preds
        rw [hb₁.block]
        exact (h.preds_eq target).trans (if_pos rfl)
      rw [hb'.block, hb₂.block, Function.update_apply, Function.update_apply, hpreds]
      split
      · rw [hb₁.block, h.becomes.block, Function.update_self, List.append_assoc]
      · rename_i hc
        rw [hb₁.block, h.becomes.block, Function.update_of_ne hc]
    · rw [hb'.layout, hb₂.layout, hb₁.layout, h.becomes.layout]
    · rw [hb'.blocks_size, hb₂.blocks_size, hb₁.blocks_size, h.becomes.blocks_size]
    · rw [hb'.values_size, hb₂.values_size, hb₁.values_size, h.becomes.values_size]
    · rw [hb'.kinds, hb₂.kinds, hb₁.kinds, h.becomes.kinds]
    · rw [← h.result]
      unfold Function.result?
      rw [hinst', hinst₂]
      exact Function.proj_update (p := InstData.result) (by rfl) _
    · rw [hkind', ← h.kind]
      split
      · rename_i hi
        rw [hi]
        exact hretarget
      · rfl
    · rw [hcarried e he, hoperands₂, h.slots e he, List.append_assoc, List.length_append,
        List.length_singleton, List.replicate_succ']
    · rw [hothers i hi, hoperands₂, h.others i hi]
    · have hold := h.count q u hu
      rw [hkind', List.count_append, List.count_singleton]
      split
      · -- The terminator stands in one block only.
        rename_i hut
        subst hut
        have hq := (h.sound.placed q u).1 (by rw [h.instsOf_eq]; exact List.mem_of_getLast? hu)
        rw [(h.sound.placed p u).1 (by rw [h.instsOf_eq]; exact List.mem_of_getLast? hlast)] at hq
        obtain rfl := Option.some.inj hq
        rw [beq_self_eq_true, if_pos rfl]
        omega
      · rename_i hut
        have hpq : p ≠ q := by
          rintro rfl
          rw [hlast] at hu
          exact hut (Option.some.inj hu).symm
        rw [beq_eq_false_iff_ne.2 hpq]
        exact hold

/-- Moving all edges. -/
theorem forM_moveEdge_spec {preds : List BlockId} (hs : f.Sound) (hne : target ≠ b)
    (htarget : target < f.blocks.size) (hphis : ∀ e ∈ carried, (f.kind e.1).isPhi = true)
    (hnodup : (carried.map Prod.fst).Nodup) (hrun : (preds.forM (moveEdge b target carried)).run f = (.ok (), g)) :
    Moving f g b target carried preds :=
  forM_builds (P := fun done k => Moving f k b target carried done)
    (fun _ _ _ _ hkept hstep => moveEdge_spec hne htarget hphis hnodup hkept hstep) (.refl hs) hrun

/-- Whether a predecessor has an edge to the target of its own. -/
theorem sharesBranch_spec {blocks : List BlockId} {found : Bool}
    (h : (sharesBranch blocks target).run f = (.ok found, g)) :
    f = g ∧ (found = false → ∀ p ∈ blocks, ∀ t, f.terminator p = .ok t → ∀ a e,
      f.kind t = .branch a e → a ≠ target ∧ e ≠ target) := by
  induction blocks with
  | nil =>
    cases h
    exact ⟨rfl, fun _ p hp => absurd hp List.not_mem_nil⟩
  | cons p rest ih =>
    unfold sharesBranch at h
    obtain ⟨t, hterm, h₁⟩ := ask_bind_eq_ok h
    have h₂ := of_get_bind h₁
    split at h₂
    · rename_i a e hkind
      split at h₂
      · cases h₂
        exact ⟨rfl, fun hfound => by cases hfound⟩
      · rename_i hnot
        obtain ⟨hsame, hrest⟩ := ih h₂
        refine ⟨hsame, fun hfound q hq u hu a' e' hu' => ?_⟩
        rcases List.mem_cons.1 hq with rfl | hq
        · rw [hterm] at hu
          obtain rfl := Except.ok.inj hu
          rw [hkind] at hu'
          cases hu'
          simpa using hnot
        · exact hrest hfound q hq u hu a' e' hu'
    · rename_i hnot
      obtain ⟨hsame, hrest⟩ := ih h₂
      refine ⟨hsame, fun hfound q hq u hu a' e' hu' => ?_⟩
      rcases List.mem_cons.1 hq with rfl | hq
      · rw [hterm] at hu
        obtain rfl := Except.ok.inj hu
        exact absurd hu' (hnot a' e')
      · exact hrest hfound q hq u hu a' e' hu'

/-- What the phis of the target take from the block. -/
theorem mapM_operand_spec {phis : List InstId} {idx : Nat} : ∀ {carried : List (InstId × ValueId)} {f g : Function},
      ((phis.mapM fun phi => do return (phi, ← ask (·.operand phi idx)) : Edit _).run f =
        (.ok carried, g)) →
      f = g ∧ carried.map Prod.fst = phis ∧ ∀ e ∈ carried, (f.operands e.1)[idx]? = some e.2 := by
  induction phis with
  | nil =>
    intro carried f g h
    cases h
    exact ⟨rfl, rfl, fun e he => absurd he List.not_mem_nil⟩
  | cons phi rest ih =>
    intro carried f g h
    rw [List.mapM_cons] at h
    obtain ⟨e, f₁, hfirst, h₁⟩ := bind_eq_ok h
    obtain ⟨v, hv, hpure⟩ := ask_bind_eq_ok hfirst
    cases hpure
    obtain ⟨more, f₃, hrest, hpure⟩ := bind_eq_ok h₁
    cases hpure
    obtain ⟨hsame, hfst, hall⟩ := ih hrest
    refine ⟨hsame, by rw [List.map_cons, hfst], fun d hd => ?_⟩
    rcases List.mem_cons.1 hd with rfl | hd
    · exact operand_eq_ok hv
    · exact hall d hd

variable {count : Nat}

/-- Splicing out a block changes nothing, or it takes these steps. -/
theorem elideBlock_eq_ok {entry : BlockId} (h : (elideBlock entry b).run f = (.ok count, g)) :
    f = g ∧ count = 0 ∨ ∃ j target idx carried f₁ f₂, count = 1 ∧ b ≠ entry ∧ (f.block b).removed = false ∧ f.instsOf b = [j] ∧
      f.kind j = .jump target ∧ target ≠ b ∧
      (f.phis target = [] ∨ ∀ p ∈ f.preds b, ∀ t, f.terminator p = .ok t → ∀ a e,
        f.kind t = .branch a e → a ≠ target ∧ e ≠ target) ∧
      f.predIndex? target b = some idx ∧
      carried.map Prod.fst = f.phis target ∧ (∀ e ∈ carried, (f.operands e.1)[idx]? = some e.2) ∧
      (removePredAt target idx).run f = (.ok (), f₁) ∧
      ((f.preds b).forM (moveEdge b target carried)).run f₁ = (.ok (), f₂) ∧
      (removeBlocks [b]).run f₂ = (.ok (), g) := by
  unfold elideBlock at h
  have h₀ := of_get_bind h
  split at h₀
  · cases h₀
    exact .inl ⟨rfl, rfl⟩
  · rename_i hkeep
    simp only [Bool.or_eq_true, decide_eq_true_eq, not_or, Bool.not_eq_true] at hkeep
    split at h₀
    · rename_i only hinsts
      split at h₀
      · rename_i target hkind
        extract_lets preds phis splice at h₀
        split at h₀
        · cases h₀
          exact .inl ⟨rfl, rfl⟩
        · rename_i hne
          simp only [Bool.or_eq_true, decide_eq_true_eq, not_or, Bool.not_eq_true] at hne
          have hguard : f = g ∧ count = 0 ∨ (f.phis target = [] ∨ ∀ p ∈ f.preds b, ∀ t, f.terminator p = .ok t →
              ∀ a e, f.kind t = .branch a e → a ≠ target ∧ e ≠ target) ∧ (splice ()).run f = (.ok count, g) := by
            split at h₀
            · obtain ⟨found, f₁, hshares, h₁⟩ := bind_eq_ok h₀
              obtain ⟨rfl, hapart⟩ := sharesBranch_spec hshares
              cases found with
              | true =>
                cases h₁
                exact .inl ⟨rfl, rfl⟩
              | false => exact .inr ⟨.inr (hapart rfl), h₁⟩
            · rename_i hnone
              refine .inr ⟨.inl ?_, h₀⟩
              simpa using hnone
          rcases hguard with hsame | ⟨hguard, h₁⟩
          · exact .inl hsame
          · right
            dsimp only [splice] at h₁
            split at h₁
            · cases h₁
            · rename_i idx hidx
              obtain ⟨carried, f₁, hcarried, h₂⟩ := bind_eq_ok h₁
              obtain ⟨rfl, hfst, hall⟩ := mapM_operand_spec hcarried
              obtain ⟨⟨⟩, f₂, hremove, h₃⟩ := bind_eq_ok h₂
              obtain ⟨⟨⟩, f₃, hmove, h₄⟩ := bind_eq_ok h₃
              obtain ⟨⟨⟩, f₄, hblocks, h₅⟩ := bind_eq_ok h₄
              cases h₅
              exact ⟨only, target, idx, carried, f₂, f₃, rfl, hkeep.1, hkeep.2, hinsts, hkind, hne.1, hguard, hidx,
                hfst, hall, hremove, hmove, hblocks⟩
      · cases h₀
        exact .inl ⟨rfl, rfl⟩
    · cases h₀
      exact .inl ⟨rfl, rfl⟩

/-- Splicing out a block changes nothing, or splices it out. -/
theorem elideBlock_spec (hs : f.Sound) (hr : f.Regular) (hentry : f.layout.head? = some e) (hb : b < f.blocks.size)
    (h : (elideBlock e b).run f = (.ok count, g)) :
    f = g ∧ count = 0 ∨ count = 1 ∧ g.Sound ∧ ∃ target idx, f.Spliced g b target idx := by
  rcases elideBlock_eq_ok h with hsame | ⟨j, target, idx, carried, f₁, f₂, hone, hbe, hremoved, hinsts, hkind, hne,
    hguard, hidx, hfst, hall, hremove, hmove, hblocks⟩
  · exact .inl hsame
  right
  have hlisted : b ∈ f.layout := (hs.mem_layout b).2 ⟨hb, hremoved⟩
  have hslot := getElem?_of_predIndex hidx
  have harms : f.arms b = [target] := by
    unfold arms
    rw [hinsts, List.getLast?_singleton]
    dsimp only
    rw [hkind]
    rfl
  have htarget : target ∈ f.layout :=
    hr.mem_layout_of_mem_arms hs hlisted (harms ▸ List.mem_cons_self)
  have hs₁ := sound_removePredAt hs hremove
  obtain ⟨-, -, -, hb₁, -⟩ := removePredAt_spec hs hremove
  have hinst₁ : ∀ i, f₁.inst i = withoutSlot f (f.phis target) idx i := hb₁.inst
  have hkind₁ : ∀ i, f₁.kind i = f.kind i := by
    intro i
    unfold Function.kind
    rw [hinst₁, withoutSlot]
    split <;> rfl
  have hinsts₁ : ∀ c, f₁.instsOf c = f.instsOf c := by
    intro c
    unfold Function.instsOf
    rw [hb₁.block]
    exact Function.proj_update (by rfl) _
  have hphis : ∀ d ∈ carried, d.1 ∈ f.phis target := fun d hd => hfst ▸ List.mem_map_of_mem hd
  have hmoving := forM_moveEdge_spec hs₁ hne
    (hb₁.blocks_size ▸ ((hs.mem_layout target).1 htarget).1)
    (fun d hd => by rw [hkind₁]; exact f.isPhi_of_mem_phis (hphis d hd))
    (by rw [hfst]; exact (hs.nodup target).sublist (List.takeWhile_sublist _)) hmove
  obtain ⟨hb₂, -⟩ := removeBlocks_spec hmoving.sound hblocks
  have hstays : ∀ {c i}, c ≠ b → i ∈ f.instsOf c → i ∉ [b].flatMap f₂.instsOf := by
    intro c i hc hi hin
    obtain ⟨d, hd, hid⟩ := List.mem_flatMap.1 hin
    rw [List.mem_singleton.1 hd, hmoving.instsOf_eq, hinsts₁] at hid
    have hone := (hs.placed c i).1 hi
    rw [(hs.placed b i).1 hid] at hone
    exact hc (Option.some.inj hone).symm
  have hblock : ∀ {c}, c ≠ b → g.block c = f₂.block c := by
    intro c hc
    rw [hb₂.block, if_neg (by simpa using hc)]
  have hkind₂ : ∀ i, g.kind i = f₂.kind i ∧ g.result? i = f₂.result? i := by
    intro i
    unfold Function.kind Function.result?
    rw [hb₂.inst]
    split <;> exact ⟨rfl, rfl⟩
  refine ⟨hone, sound_removeBlocks hmoving.sound hblocks, target, idx, hlisted, hne, ?_, ⟨j, hinsts, hkind⟩, hslot,
    ?_, fun c hc => ?_, fun c hc hcb i hi => ?_, fun i => ?_, fun c hc i hi hnot => ?_, fun i hi => ?_,
    fun c hc => ?_, fun c hc => ?_, ?_, ?_, ?_, fun v => ?_⟩
  · rw [hentry]
    exact fun heq => hbe (Option.some.inj heq).symm
  · -- A predecessor with an edge to the target of its own ends in a branch with an arm to it.
    refine hguard.imp_right fun hguard p hp hpt => ?_
    obtain ⟨hpl, hpb⟩ := (hr.mem_preds_iff hlisted).1 hp
    have hpa := ((hr.mem_preds_iff htarget).1 hpt).2
    obtain ⟨before, t, ht, hterm, -⟩ := hr.ends p hpl
    have hlast : (f.instsOf p).getLast? = some t := by
      rw [ht, List.getLast?_append]
      rfl
    unfold arms at hpb hpa
    rw [hlast] at hpb hpa
    dsimp only at hpb hpa
    cases hk : f.kind t with
    | branch x y =>
      obtain ⟨hx, hy⟩ := hguard p hp t (terminator_eq_ok.2 ⟨hlast, hterm⟩) x y hk
      rw [hk] at hpa
      simp only [InstKind.targets, List.mem_cons, List.not_mem_nil, or_false] at hpa
      rcases hpa with hpa | hpa
      · exact hx hpa.symm
      · exact hy hpa.symm
    | jump x =>
      rw [hk] at hpa hpb
      simp only [InstKind.targets, List.mem_singleton] at hpa hpb
      exact hne (hpa.trans hpb.symm)
    | _ =>
      rw [hk] at hpa
      cases hpa
  · unfold Function.instsOf
    rw [hblock hc]
    exact (hmoving.instsOf_eq c).trans (hinsts₁ c)
  · rw [(hkind₂ i).1]
    have hsame := hmoving.kind i
    rw [hkind₁] at hsame
    cases hterm : (f.kind i).isTerminator with
    | false =>
      have hterm₂ : (f₂.kind i).isTerminator = false := by rw [(hmoving.sort i).1, hkind₁, hterm]
      rwa [InstKind.retarget_of_not_isTerminator hterm₂] at hsame
    | true =>
      -- As many arms led to the block as it had predecessors, so all of them are moved.
      obtain ⟨before, t, ht, hlast, hbefore⟩ := hr.ends c hc
      obtain rfl : t = i := by
        rw [ht] at hi
        rcases List.mem_append.1 hi with hin | hin
        · rw [hbefore i hin] at hterm
          cases hterm
        · exact (List.mem_singleton.1 hin).symm
      have hgetLast : (f.instsOf c).getLast? = some t := by
        rw [ht, List.getLast?_append]
        rfl
      have hcount := hmoving.count c t (by rw [hinsts₁]; exact hgetLast)
      have hpreds := hr.preds b hlisted c
      rw [if_pos hc] at hpreds
      unfold arms at hpreds
      rw [hgetLast] at hpreds
      dsimp only at hpreds
      rw [hkind₁, hpreds] at hcount
      have hzero : (f₂.kind t).targets.count b = 0 := by omega
      rwa [retarget_of_not_mem (List.count_eq_zero.1 hzero)] at hsame
  · rw [(hkind₂ i).2, hmoving.result]
    unfold Function.result?
    rw [hinst₁, withoutSlot]
    split <;> rfl
  · have hg : g.operands i = f₂.operands i := by
      unfold Function.operands
      rw [hb₂.inst, if_neg (hstays hc hi)]
    rw [hg, hmoving.others i (by rw [hfst]; exact hnot)]
    unfold Function.operands
    rw [hinst₁, withoutSlot, if_neg hnot]
  · have hin : i ∈ f.instsOf target := (List.takeWhile_sublist _).subset hi
    have hg : g.operands i = f₂.operands i := by
      unfold Function.operands
      rw [hb₂.inst, if_neg (hstays hne hin)]
    obtain ⟨d, hd, rfl⟩ := List.mem_map.1 (hfst.symm ▸ hi)
    refine ⟨d.2, hall d hd, ?_⟩
    rw [hg, hmoving.slots d hd]
    congr 1
    unfold Function.operands
    rw [hinst₁, withoutSlot, if_pos hi]
    rfl
  · have hpreds₁ : ∀ c, f₁.preds c = if c = target then (f.preds target).eraseIdx idx else f.preds c := by
      intro c
      unfold Function.preds
      rw [hb₁.block, Function.update_apply]
      split <;> rfl
    have hg : g.preds c = f₂.preds c := by
      unfold Function.preds
      rw [hblock hc]
    rw [hg, hmoving.preds_eq, hpreds₁, hpreds₁, if_pos rfl]
    split <;> rfl
  · rw [hblock hc, hmoving.becomes.block, Function.update_apply]
    split
    · rename_i hct
      rw [hb₁.block, Function.update_self, hct]
    · rename_i hct
      rw [hb₁.block, Function.update_of_ne hct]
  · rw [hb₂.layout, hmoving.becomes.layout, hb₁.layout]
    refine List.filter_congr fun c _ => ?_
    by_cases hcb : c = b
    · simp [hcb]
    · simp [hcb]
  · rw [hb₂.blocks_size, hmoving.becomes.blocks_size, hb₁.blocks_size]
  · rw [hb₂.values_size, hmoving.becomes.values_size, hb₁.values_size]
  · rw [hb₂.kinds, hmoving.becomes.kinds, hb₁.kinds]

/-- Splicing out a block keeps a function well formed, and its runs show the same. -/
theorem elideBlock_keeps (hwf : f.WellFormed) (hentry : f.layout.head? = some e) (hb : b < f.blocks.size)
    (h : (elideBlock e b).run f = (.ok count, g)) :
    g.WellFormed ∧ f.SameMeaning g ∧ g.layout.head? = some e ∧ g.blocks.size = f.blocks.size := by
  rcases elideBlock_spec hwf.sound hwf.regular hentry hb h with ⟨rfl, -⟩ | ⟨-, hs', target, idx, hspliced⟩
  · exact ⟨hwf, fun _ _ _ _ => .refl _ _, hentry, rfl⟩
  · obtain ⟨-, hr', hstrict'⟩ := hspliced.strictForm hwf.strictForm hs'
    obtain ⟨hs, hr, hstrict, hagree⟩ := hwf
    have hagree' := hspliced.agreeing hs hr hagree
    have hreroutes := hspliced.reroutes hs hr hagree
    exact ⟨⟨hs', hr', hstrict', hagree'⟩, hreroutes.sameMeaning hr hs hstrict hr' hagree',
      hreroutes.head.trans hentry, hspliced.blocks_size⟩

end Edit

end SsaCompiler
