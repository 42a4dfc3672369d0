import SsaCompiler.Ir.Simplify
import SsaCompiler.Proofs.Ir.Placement
import SsaCompiler.Proofs.Ir.Rerouting

/-!
# Folded branches

A branch whose arm is certain becomes a jump, and the arm that is not needed loses its predecessor and the
slots of its phis. The function stays well formed and its runs show the same.
-/

set_option autoImplicit false

namespace SsaCompiler

namespace Function

/-- What a function has become when the terminator `old` of `b` is exchanged for the jump `n` to `taken` and
`dropped` has lost the predecessor at `idx`. -/
structure Folded (f f' : Function) (b : BlockId) (old n : InstId) (taken dropped : BlockId) (idx : Nat) :
    Prop where
  arms : f.kind old = .branch taken dropped ∨ f.kind old = .branch dropped taken
  certain : ∃ cond, f.operands old = [cond] ∧ ∀ {W : Type} (env : IrEnv W) vals c m w,
    f.read env vals cond = some c → (f.kind old).perform env old [c] m w = .goto taken
  slot : (f.preds dropped)[idx]? = some b
  insts : ∃ before, f.instsOf b = before ++ [old] ∧ f'.instsOf b = before ++ [n]
  insts_of_ne : ∀ c, c ≠ b → f'.instsOf c = f.instsOf c
  fresh : ∀ c, n ∉ f.instsOf c
  jump : f'.inst n = { kind := .jump taken, operands := [], result := none, block := some b }
  inst : ∀ i, i ≠ old → i ≠ n → f'.inst i =
    if i ∈ f.phis dropped then { f.inst i with operands := (f.operands i).eraseIdx idx } else f.inst i
  preds : ∀ c, f'.preds c = if c = dropped then (f.preds c).eraseIdx idx else f.preds c
  removed : ∀ c, (f'.block c).removed = (f.block c).removed
  layout : f'.layout = f.layout
  values_size : f'.values.size = f.values.size
  kinds : ∀ v, (f'.value v).kind = (f.value v).kind

namespace Folded

variable {f f' : Function} {b : BlockId} {old n : InstId} {taken dropped : BlockId} {idx : Nat}

/-- The new places of the instructions. -/
def place (old n i : InstId) : InstId := if i = old then n else i

/-- The old terminator stands in the block. -/
theorem mem_old (h : f.Folded f' b old n taken dropped idx) : old ∈ f.instsOf b := by
  obtain ⟨before, hb, -⟩ := h.insts
  rw [hb]
  simp

variable {c : BlockId} {i : InstId}

variable (h : f.Folded f' b old n taken dropped idx)

include h

/-- The old terminator stands in no other block. -/
theorem ne_old (hs : f.Sound) (hc : c ≠ b) (hi : i ∈ f.instsOf c) : i ≠ old := by
  rintro rfl
  have hone := (hs.placed c i).1 hi
  rw [(hs.placed b i).1 h.mem_old] at hone
  exact hc (Option.some.inj hone).symm

/-- The instructions of the blocks. -/
theorem instsOf_eq (hs : f.Sound) (c : BlockId) : f'.instsOf c = (f.instsOf c).map (place old n) := by
  have hsame : ∀ l : List InstId, (∀ i ∈ l, i ≠ old) → l.map (place old n) = l := fun l hl =>
    (List.map_congr_left fun i hi => if_neg (hl i hi)).trans (List.map_id l)
  by_cases hc : c = b
  · subst hc
    obtain ⟨before, hb, hb'⟩ := h.insts
    have hnodup := hs.nodup c
    rw [hb] at hnodup
    rw [hb, hb', List.map_append, hsame before fun i hi => ?_, List.map_singleton, place, if_pos rfl]
    rintro rfl
    exact (List.nodup_append.1 hnodup).2.2 i hi i List.mem_cons_self rfl
  · rw [h.insts_of_ne c hc, hsame _ fun i hi => h.ne_old hs hc hi]

/-- The other instructions are what they were, but for the slots of phis. -/
theorem same (hi : i ∈ f.instsOf c) (hne : i ≠ old) :
    place old n i = i ∧ f'.kind i = f.kind i ∧ f'.result? i = f.result? i ∧
      (i ∉ f.phis dropped → f'.operands i = f.operands i) := by
  have hn : i ≠ n := fun hin => h.fresh c (hin ▸ hi)
  unfold kind result? operands
  rw [h.inst i hne hn]
  refine ⟨if_neg hne, ?_, ?_, fun hphi => by rw [if_neg hphi]⟩
  · split <;> rfl
  · split <;> rfl

/-- The new terminator is a jump. -/
theorem kind_new : f'.kind n = .jump taken ∧ f'.operands n = [] := by
  unfold kind operands
  rw [h.jump]
  exact ⟨rfl, rfl⟩

/-- The old terminator was a branch. -/
theorem isTerminator_old : (f.kind old).isTerminator = true := by
  rcases h.arms with hk | hk <;> rw [hk] <;> rfl

/-- Instructions stay of the same sort. -/
theorem sort (hi : i ∈ f.instsOf c) : (f'.kind (place old n i)).isTerminator = (f.kind i).isTerminator ∧
      (f'.kind (place old n i)).isPhi = (f.kind i).isPhi := by
  by_cases hio : i = old
  · rw [hio, place, if_pos rfl, h.kind_new.1, h.isTerminator_old, InstKind.not_isPhi h.isTerminator_old]
    exact ⟨rfl, rfl⟩
  · obtain ⟨hplace, hkind, -, -⟩ := h.same hi hio
    rw [hplace, hkind]
    exact ⟨rfl, rfl⟩

/-- The arms of the folded block. -/
theorem arms_old (c : BlockId) : (f.arms b).count c = (f'.arms b).count c + if c = dropped then 1 else 0 := by
  obtain ⟨before, hb, hb'⟩ := h.insts
  have harms : f.arms b = (f.kind old).targets := by
    unfold Function.arms
    rw [hb, List.getLast?_append]
    rfl
  have harms' : f'.arms b = [taken] := by
    unfold Function.arms
    rw [hb', List.getLast?_append]
    change (f'.kind n).targets = _
    rw [h.kind_new.1]
    rfl
  have hsum : (f.arms b).count c = [taken].count c + [dropped].count c := by
    rw [harms, ← List.count_append]
    rcases h.arms with hk | hk
    · rw [hk]
      rfl
    · rw [hk]
      exact (List.Perm.swap taken dropped []).count_eq c
  rw [hsum, harms', Nat.add_left_cancel_iff, List.count_singleton]
  by_cases hc : c = dropped
  · simp [hc]
  · simp [hc, Ne.symm hc]

/-- The arms of the other blocks. -/
theorem arms_of_ne (hs : f.Sound) (hc : c ≠ b) : f'.arms c = f.arms c := by
  unfold Function.arms
  rw [h.insts_of_ne c hc]
  split
  · rename_i t ht
    have hmem := List.mem_of_getLast? ht
    rw [(h.same hmem (h.ne_old hs hc hmem)).2.1]
  · rfl

/-- The predecessors of blocks, counted. -/
theorem count_preds (c p : BlockId) :
    (f'.preds c).count p + (if c = dropped ∧ p = b then 1 else 0) = (f.preds c).count p := by
  rw [h.preds]
  by_cases hc : c = dropped
  · rw [if_pos hc]
    have hcount := count_eraseIdx (hc ▸ h.slot) p
    simpa [hc] using hcount
  · rw [if_neg hc, if_neg fun hcp => hc hcp.1, Nat.add_zero]

section

variable (hs : f.Sound)

include hs

/-- A phi of the block that has lost a predecessor. -/
theorem mem_phis_iff (hr : f.Regular) (hd : dropped ∈ f.layout) (hi : i ∈ f.instsOf c)
    (hphi : (f.kind i).isPhi = true) : i ∈ f.phis dropped ↔ c = dropped := by
  rw [hr.mem_phis hd]
  constructor
  · rintro ⟨hin, -⟩
    have hone := (hs.placed c i).1 hi
    rw [(hs.placed dropped i).1 hin] at hone
    exact (Option.some.inj hone).symm
  · rintro rfl
    exact ⟨hi, hphi⟩

/-- What the phis take from predecessors. -/
theorem zip_eq (hr : f.Regular) (hd : dropped ∈ f.layout) (hc : c ∈ f.layout) (hi : i ∈ f.instsOf c)
    (hphi : (f.kind i).isPhi = true) :
    (f'.operands i).length = (f'.preds c).length ∧ (f'.preds c).zip (f'.operands i) =
      if c = dropped then ((f.preds c).zip (f.operands i)).eraseIdx idx
      else (f.preds c).zip (f.operands i) := by
  have hne : i ≠ old := by
    rintro rfl
    rw [InstKind.not_isPhi h.isTerminator_old] at hphi
    cases hphi
  have hn : i ≠ n := fun hin => h.fresh c (hin ▸ hi)
  have hslots := hr.slots c hc i hi hphi
  have hmem := h.mem_phis_iff hs hr hd hi hphi
  rw [h.preds]
  by_cases hcd : c = dropped
  · have hops : f'.operands i = (f.operands i).eraseIdx idx := by
      unfold operands
      rw [h.inst i hne hn, if_pos (hmem.2 hcd)]
      rfl
    rw [if_pos hcd, if_pos hcd, hops]
    refine ⟨?_, zip_eraseIdx _ _ _ hslots.symm⟩
    rw [List.length_eraseIdx, List.length_eraseIdx, hslots]
  · rw [if_neg hcd, if_neg hcd, (h.same hi hne).2.2.2 fun hin => hcd (hmem.1 hin)]
    exact ⟨hslots, rfl⟩

/-- Phis take nothing else than before. -/
theorem feeds (hr : f.Regular) (hd : dropped ∈ f.layout) (hc : c ∈ f.layout) (hi : i ∈ f.instsOf c)
    (hphi : (f.kind i).isPhi = true) {p : BlockId} {v : ValueId} (hfeeds : f'.Feeds c i p v) : f.Feeds c i p v := by
  unfold Feeds at hfeeds ⊢
  rw [(h.zip_eq hs hr hd hc hi hphi).2] at hfeeds
  split at hfeeds
  · exact List.mem_of_mem_eraseIdx hfeeds
  · exact hfeeds

/-- The block that loses a predecessor is listed. -/
theorem dropped_mem (hr : f.Regular) (hb : b ∈ f.layout) : dropped ∈ f.layout := by
  refine hr.mem_layout_of_mem_arms hs hb (List.count_pos_iff.1 ?_)
  rw [h.arms_old, if_pos rfl]
  exact Nat.succ_pos _

/-- The phis in the new function are the phis in the old one. -/
theorem isPhi_old (hi : i ∈ f'.instsOf c) (hphi : (f'.kind i).isPhi = true) :
    i ∈ f.instsOf c ∧ (f.kind i).isPhi = true := by
  rw [h.instsOf_eq hs] at hi
  obtain ⟨j, hj, rfl⟩ := List.mem_map.1 hi
  rw [(h.sort hj).2] at hphi
  have hne : j ≠ old := by
    rintro rfl
    rw [InstKind.not_isPhi h.isTerminator_old] at hphi
    cases hphi
  rw [(h.same hj hne).1]
  exact ⟨hj, hphi⟩

/-- The phis in the old function are phis in the new one. -/
theorem isPhi_new (hi : i ∈ f.instsOf c) (hphi : (f.kind i).isPhi = true) :
    i ∈ f'.instsOf c ∧ (f'.kind i).isPhi = true := by
  have hne : i ≠ old := by
    rintro rfl
    rw [InstKind.not_isPhi h.isTerminator_old] at hphi
    cases hphi
  have hplace := (h.same hi hne).1
  have hsort := (h.sort hi).2
  rw [hplace] at hsort
  refine ⟨?_, hsort.trans hphi⟩
  rw [h.instsOf_eq hs, ← hplace]
  exact List.mem_map_of_mem hi

/-- A folded function is regular. -/
theorem regular (hr : f.Regular) (hb : b ∈ f.layout) : f'.Regular where
  entry := by
    obtain ⟨e, rest, hlayout, hpreds⟩ := hr.entry
    refine ⟨e, rest, h.layout.trans hlayout, ?_⟩
    rw [h.preds, if_neg, hpreds]
    rintro rfl
    have hslot := h.slot
    rw [hpreds] at hslot
    cases hslot
  ends c hc := by
    rw [h.layout] at hc
    exact hr.ends_of_map hc (h.instsOf_eq hs c) fun i hi => (h.sort hi).1
  phis_first c hc before i after hsplit hi := by
    rw [h.layout] at hc
    exact hr.phis_first_of_map hc (h.instsOf_eq hs c) (fun i hi => (h.sort hi).2) hsplit hi
  slots c hc i hi hphi := by
    rw [h.layout] at hc
    obtain ⟨hin, hphi⟩ := h.isPhi_old hs hi hphi
    exact (h.zip_eq hs hr (h.dropped_mem hs hr hb) hc hin hphi).1
  targets c hc t ht := by
    rw [h.layout] at hc
    rw [h.removed]
    refine hr.targets c hc t ?_
    by_cases hcb : c = b
    · subst hcb
      refine List.count_pos_iff.1 ?_
      rw [h.arms_old]
      exact Nat.add_pos_left (List.count_pos_iff.2 ht) _
    · rwa [h.arms_of_ne hs hcb] at ht
  preds c hc p := by
    rw [h.layout] at hc ⊢
    have hcount := h.count_preds c p
    rw [hr.preds c hc p] at hcount
    by_cases hpb : p = b
    · subst hpb
      have harms := h.arms_old c
      rw [if_pos hb] at hcount ⊢
      simp only [and_true] at hcount
      omega
    · simpa [hpb, h.arms_of_ne hs hpb] using hcount

/-- In a folded function phis agree. -/
theorem agreeing (hr : f.Regular) (hagree : f.AgreeingPhis) (hb : b ∈ f.layout) : f'.AgreeingPhis := by
  intro c hc i hi hphi p v v' hv hv'
  rw [h.layout] at hc
  obtain ⟨hin, hphi⟩ := h.isPhi_old hs hi hphi
  have hd := h.dropped_mem hs hr hb
  exact hagree c hc i hin hphi p v v' (h.feeds hs hr hd hc hin hphi hv) (h.feeds hs hr hd hc hin hphi hv')

/-- Folding a branch leads no edge elsewhere. -/
theorem redirects (hr : f.Regular) (hb : b ∈ f.layout) : f.Redirects f' (fun _ => none) (place old n) where
  head := by rw [h.layout]
  entry _ _ := rfl
  kinds := h.kinds
  listed c hc _ := by
    rw [h.layout]
    exact hr.mem_layout_of_reach hs hc
  insts c _ _ := h.instsOf_eq hs c
  body c _ _ i hi hterm := by
    have hne : i ≠ old := by
      rintro rfl
      rw [h.isTerminator_old] at hterm
      cases hterm
    obtain ⟨hplace, hkind, hresult, hoperands⟩ := h.same hi hne
    refine ⟨hplace, hkind, hresult, fun hphi => hoperands fun hin => ?_⟩
    rw [f.isPhi_of_mem_phis hin] at hphi
    cases hphi
  ends c hc _ t ht hterm := by
    refine ⟨(h.sort ht).1.trans hterm, ?_, ?_⟩
    · by_cases hto : t = old
      · rw [hto, place, if_pos rfl, h.kind_new.2]
        exact List.nil_subset _
      · obtain ⟨hplace, -, -, hoperands⟩ := h.same ht hto
        rw [hplace, hoperands fun hin => ?_]
        · exact List.Subset.refl _
        · have hphi := f.isPhi_of_mem_phis hin
          rw [InstKind.not_isPhi hterm] at hphi
          cases hphi
    · have hmap : (f.kind t).targets.map (landing fun _ => none) = (f.kind t).targets := List.map_id _
      rw [hmap]
      by_cases hto : t = old
      · rw [hto, place, if_pos rfl, h.kind_new.1]
        rcases h.arms with hk | hk <;> rw [hk] <;> simp [InstKind.targets]
      · obtain ⟨hplace, hkind, -, -⟩ := h.same ht hto
        rw [hplace, hkind]
        exact List.Subset.refl _
  hops m t _ hhop := by cases hhop
  fed t ht _ phi hphi p v _ _ hfeeds := by
    have htl := hr.mem_layout_of_reach hs ht
    obtain ⟨hin, hisPhi⟩ := (hr.mem_phis htl).1 hphi
    exact .inl (h.feeds hs hr (h.dropped_mem hs hr hb) htl hin hisPhi hfeeds)

end

/-- A folded function is in strict form. -/
theorem strictForm (hf : f.StrictForm) (hb : b ∈ f.layout) (hs' : f'.Sound) : f'.StrictForm :=
  have hr' := h.regular hf.sound hf.regular hb
  ⟨hs', hr', (h.redirects hf.sound hf.regular hb).strict hf.regular hf.sound hr' hs' hf.strict h.values_size⟩

/-- Folding a branch reroutes no edge that is taken. -/
theorem reroutes (hs : f.Sound) (hr : f.Regular) (hagree : f.AgreeingPhis) (hb : b ∈ f.layout) :
    f.Reroutes f' (fun _ => none) (place old n) where
  toRedirects := h.redirects hs hr hb
  goes c hc _ t ht hterm W env vals values hvalues := by
    by_cases hto : t = old
    · subst hto
      obtain ⟨cond, hoperands, hcertain⟩ := h.certain
      rw [place, if_pos rfl, h.kind_new.1, h.kind_new.2]
      refine ⟨[], rfl, fun m w => ?_⟩
      rw [hoperands] at hvalues
      obtain ⟨x, hx, rfl⟩ : ∃ x, f.read env vals cond = some x ∧ values = [x] := by
        cases hread : f.read env vals cond with
        | none =>
          rw [List.mapM_cons, hread] at hvalues
          cases hvalues
        | some x =>
          rw [List.mapM_cons, hread] at hvalues
          cases hvalues
          exact ⟨x, rfl, rfl⟩
      rw [hcertain env vals x m w hx]
      rfl
    · obtain ⟨hplace, hkind, -, hoperands⟩ := h.same ht hto
      rw [hplace, hkind, hoperands fun hin => ?_]
      · refine ⟨values, hvalues, fun m w => ?_⟩
        cases (f.kind t).perform env t values m w <;> rfl
      · have hphi := f.isPhi_of_mem_phis hin
        rw [InstKind.not_isPhi hterm] at hphi
        cases hphi
  feeds p m t hp hvia harm := by
    obtain ⟨-, -, ⟨rfl, harm'⟩ | ⟨-, hhop⟩⟩ := hvia
    · have hpl := hr.mem_layout_of_reach hs hp
      have htl := hr.mem_layout_of_mem_arms hs hpl harm'
      have hr' := h.regular hs hr hb
      have htl' : t ∈ f'.layout := h.layout ▸ htl
      have hpred : m ∈ f'.preds t := (hr'.mem_preds_iff htl').2 ⟨h.layout ▸ hpl, harm⟩
      refine ⟨hpred, fun phi hphi v hfeeds => ?_⟩
      -- The phi takes some value from the predecessor, and it took no other one before.
      obtain ⟨hin, hisPhi⟩ := (hr.mem_phis htl).1 hphi
      obtain ⟨hin', hisPhi'⟩ := h.isPhi_new hs hin hisPhi
      obtain ⟨v', hfeeds'⟩ := hr'.exists_feeds htl' hin' hisPhi' hpred
      rw [hagree t htl phi hin hisPhi m v v' hfeeds
        (h.feeds hs hr (h.dropped_mem hs hr hb) htl hin hisPhi hfeeds')]
      exact hfeeds'
    · cases hhop

end Folded

end Function

namespace Edit

open Edits

variable {f f' : Function}

variable {taken : BlockId} {old : InstId} {count : Nat}

/-- The arm that is certain. -/
theorem fixedArm_eq_some {cond : ValueId} {t e dropped : BlockId} (h : fixedArm? f cond t e = some (taken, dropped)) :
    (t = taken ∧ e = dropped ∨ t = dropped ∧ e = taken) ∧
      ∀ {W : Type} (env : IrEnv W) vals c, f.read env vals cond = some c →
        (if c ≠ 0 then t else e) = taken := by
  unfold fixedArm? at h
  split at h
  · rename_i c₀ hconst
    have hkind : (f.value cond).kind = .const c₀ := by
      unfold Function.const? ValueData.const? at hconst
      split at hconst
      · rename_i c hk
        rw [hk, Option.some.inj hconst]
      · cases hconst
    have hread : ∀ {W : Type} (env : IrEnv W) vals c, f.read env vals cond = some c → c = c₀ := by
      intro W env vals c hc
      unfold Function.read at hc
      rw [hkind] at hc
      exact (Option.some.inj hc).symm
    split at h
    · rename_i hc₀
      cases h
      refine ⟨.inl ⟨rfl, rfl⟩, fun env vals c hc => ?_⟩
      rw [hread env vals c hc, if_pos hc₀]
    · rename_i hc₀
      cases h
      refine ⟨.inr ⟨rfl, rfl⟩, fun env vals c hc => ?_⟩
      rw [hread env vals c hc, if_neg hc₀]
  · split at h
    · rename_i heq
      cases h
      exact ⟨.inl ⟨rfl, rfl⟩, fun env vals c hc => by rw [← heq, ite_self]⟩
    · cases h

variable {b : BlockId} {before : List InstId}

/-- The phis of blocks stay what they are when a terminator is exchanged. -/
theorem phis_of_terminator {n : InstId} (hb : f.instsOf b = before ++ [old]) (hb' : f'.instsOf b = before ++ [n])
    (hne : ∀ c, c ≠ b → f'.instsOf c = f.instsOf c) (hkind : ∀ c, ∀ i ∈ f.instsOf c, i ≠ old → f'.kind i = f.kind i)
    (hold : (f.kind old).isTerminator = true) (hn : (f'.kind n).isTerminator = true) (hs : f.Sound) (c : BlockId) :
    f'.phis c = f.phis c := by
  have htake : ∀ l : List InstId, (∀ i ∈ l, f'.kind i = f.kind i) →
      l.takeWhile (fun i => (f'.kind i).isPhi) = l.takeWhile fun i => (f.kind i).isPhi := by
    intro l
    induction l with
    | nil => exact fun _ => rfl
    | cons i rest ih =>
      intro hl
      rw [List.takeWhile_cons, List.takeWhile_cons, hl i List.mem_cons_self,
        ih fun j hj => hl j (List.mem_cons_of_mem _ hj)]
  unfold Function.phis
  by_cases hc : c = b
  · subst hc
    have hnodup := hs.nodup c
    rw [hb] at hnodup
    have hbefore : ∀ i ∈ before, f'.kind i = f.kind i := by
      intro i hi
      refine hkind c i (by rw [hb]; simp [hi]) ?_
      rintro rfl
      exact (List.nodup_append.1 hnodup).2.2 i hi i List.mem_cons_self rfl
    have hlast : ∀ (g : Function) (x : InstId), (g.kind x).isTerminator = true →
        (before ++ [x]).takeWhile (fun i => (g.kind i).isPhi) =
          before.takeWhile fun i => (g.kind i).isPhi := by
      intro g x hx
      rw [List.takeWhile_append, List.takeWhile_cons_of_neg (by simp [InstKind.not_isPhi hx])]
      split
      · rename_i hall
        rw [List.append_nil, (List.takeWhile_prefix _).eq_of_length hall]
      · rfl
    rw [hb, hb', hlast f' n hn, hlast f old hold, htake before hbefore]
  · rw [hne c hc]
    refine htake _ fun i hi => hkind c i hi ?_
    rintro rfl
    have hone := (hs.placed c i).1 hi
    rw [(hs.placed b i).1 (by rw [hb]; simp)] at hone
    exact hc (Option.some.inj hone).symm

/-- The last instruction of a block of which it is struck. -/
theorem filter_ne_last {l : List InstId} (h : l = before ++ [old]) (hnodup : l.Nodup) :
    l.filter (· != old) = before := by
  subst h
  have hnot : old ∉ before := fun hin => (List.nodup_append.1 hnodup).2.2 old hin old List.mem_cons_self rfl
  rw [List.filter_append, List.filter_eq_self.2 fun i hi => by
    rw [bne_iff_ne]
    rintro rfl
    exact hnot hi]
  simp

/-- Exchanging the terminator of a block for a jump changes no phi and no predecessor list. -/
theorem replaceTerminator_code {n : InstId} {f₁ : Function} (hs : f.Sound) (hbefore : f.instsOf b = before ++ [old])
    (hterm : (f.kind old).isTerminator = true) (h : (replaceTerminator b (.jump taken) []).run f = (.ok n, f₁)) :
    (∀ c, n ∉ f.instsOf c) ∧
      f₁.inst n = { kind := .jump taken, operands := [], result := none, block := some b } ∧
      (∀ i, i ≠ old → i ≠ n → f₁.inst i = f.inst i) ∧ f₁.instsOf b = before ++ [n] ∧
      (∀ c, c ≠ b → f₁.instsOf c = f.instsOf c) ∧ (∀ c, f₁.phis c = f.phis c) ∧ ∀ c, f₁.preds c = f.preds c := by
  obtain ⟨old', hold', hn, hlt, hbecomes, -⟩ := replaceTerminator_spec hs h
  obtain rfl : old = old' := by
    rw [terminator_eq_ok.2 ⟨by rw [hbefore, List.getLast?_concat], hterm⟩] at hold'
    exact Except.ok.inj hold'
  have hfresh : ∀ c, n ∉ f.instsOf c := by
    intro c hin
    have hblock := (hs.placed c n).1 hin
    unfold Function.blockOf? at hblock
    rw [inst_of_size_le (Nat.le_of_eq hn.symm)] at hblock
    cases hblock
  have hjump : f₁.inst n = { kind := .jump taken, operands := [], result := none, block := some b } := by
    rw [hbecomes.inst, Function.update_self]
  have hinst₁ : ∀ i, i ≠ old → i ≠ n → f₁.inst i = f.inst i := by
    intro i hio hin
    rw [hbecomes.inst, Function.update_of_ne hin, Function.update_of_ne hio]
  have hinsts₁ : f₁.instsOf b = before ++ [n] := by
    unfold Function.instsOf
    rw [hbecomes.block, Function.update_self, filter_ne_last hbefore (hs.nodup b)]
  have hne₁ : ∀ c, c ≠ b → f₁.instsOf c = f.instsOf c := by
    intro c hc
    unfold Function.instsOf
    rw [hbecomes.block, Function.update_of_ne hc]
  have hphis : ∀ c, f₁.phis c = f.phis c := by
    refine phis_of_terminator hbefore hinsts₁ hne₁ (fun c i hi hio => ?_) hterm ?_ hs
    · unfold Function.kind
      rw [hinst₁ i hio fun hin => hfresh c (hin ▸ hi)]
    · unfold Function.kind
      rw [hjump]
      rfl
  have hpreds₁ : ∀ c, f₁.preds c = f.preds c := by
    intro c
    unfold Function.preds
    rw [hbecomes.block]
    exact Function.proj_update (by rfl) _
  exact ⟨hfresh, hjump, hinst₁, hinsts₁, hne₁, hphis, hpreds₁⟩

/-- Folding a branch changes nothing, or folds it. -/
theorem foldBranch_spec (hs : f.Sound) (h : (foldBranch b).run f = (.ok count, f')) : f = f' ∧ count = 0 ∨
      count = 1 ∧ f'.Sound ∧ ∃ old n taken dropped idx, f.Folded f' b old n taken dropped idx := by
  unfold foldBranch at h
  obtain ⟨old, hold, h₀⟩ := ask_bind_eq_ok h
  have h₁ := of_get_bind h₀
  obtain ⟨hlast, hterm⟩ := terminator_eq_ok.1 hold
  have hmem : old ∈ f.instsOf b := List.mem_of_getLast? hlast
  obtain ⟨before, hbefore⟩ : ∃ before, f.instsOf b = before ++ [old] := by
    obtain ⟨before, hbefore⟩ := List.getLast?_eq_some_iff.1 hlast
    exact ⟨before, hbefore⟩
  split at h₁
  · rename_i t e hkind
    obtain ⟨cond, hcond, h₂⟩ := ask_bind_eq_ok h₁
    have h₃ := of_get_bind h₂
    split at h₃
    · cases h₃
      exact .inl ⟨rfl, rfl⟩
    · rename_i taken dropped harm
      obtain ⟨n, f₁, hreplace, h₄⟩ := bind_eq_ok h₃
      have h₅ := of_get_bind h₄
      split at h₅
      · cases h₅
      · rename_i idx hidx
        obtain ⟨⟨⟩, f₃, hremove, h₆⟩ := bind_eq_ok h₅
        cases h₆
        right
        obtain ⟨harms, hcertain⟩ := fixedArm_eq_some harm
        have hfits := hs.fits b old hmem
        rw [hkind] at hfits
        have hoperands : f.operands old = [cond] := by
          obtain ⟨x, hx⟩ := List.length_eq_one_iff.1 (beq_iff_eq.1 hfits)
          have hfirst := operand_eq_ok hcond
          rw [hx] at hfirst
          rw [hx, Option.some.inj hfirst]
        have hbound : ∀ c ∈ (InstKind.jump taken).targets, c < f.blocks.size := by
          intro c hc
          rw [List.mem_singleton.1 hc]
          refine hs.bounded b old hmem taken ?_
          rw [hkind]
          rcases harms with ⟨rfl, rfl⟩ | ⟨rfl, rfl⟩ <;> simp [InstKind.targets]
        have hs₁ := sound_replaceTerminator hs rfl hbound hreplace
        obtain ⟨old', hold', hn, hlt, hbecomes, -⟩ := replaceTerminator_spec hs hreplace
        obtain rfl : old = old' := by
          rw [hold] at hold'
          exact Except.ok.inj hold'
        obtain ⟨-, -, -, hbecomes', -⟩ := removePredAt_spec hs₁ hremove
        obtain ⟨hfresh, hjump, hinst₁, hinsts₁, hne₁, hphis, hpreds₁⟩ :=
          replaceTerminator_code hs hbefore hterm hreplace
        have hinsts₂ : ∀ c, f'.instsOf c = f₁.instsOf c := by
          intro c
          unfold Function.instsOf
          rw [hbecomes'.block]
          exact Function.proj_update (by rfl) _
        refine ⟨rfl, sound_removePredAt hs₁ hremove, old, n, taken, dropped, idx, ?_⟩
        refine ⟨?_, ⟨cond, hoperands, fun env vals c m w hc => ?_⟩, ?_, ⟨before, hbefore, ?_⟩, ?_, hfresh,
          ?_, ?_, ?_, ?_, ?_, ?_, ?_⟩
        · rw [hkind]
          rcases harms with ⟨rfl, rfl⟩ | ⟨rfl, rfl⟩
          · exact .inl rfl
          · exact .inr rfl
        · rw [hkind]
          exact congrArg InstKind.Action.goto (hcertain env vals c hc)
        · rw [← hpreds₁]
          exact Function.getElem?_of_predIndex hidx
        · rw [hinsts₂, hinsts₁]
        · intro c hc
          rw [hinsts₂, hne₁ c hc]
        · rw [hbecomes'.inst, withoutSlot, if_neg, hjump]
          intro hin
          have hphi := f₁.isPhi_of_mem_phis hin
          unfold Function.kind at hphi
          rw [hjump] at hphi
          cases hphi
        · intro i hio hin
          rw [hbecomes'.inst, withoutSlot, hphis]
          unfold Function.operands
          rw [hinst₁ i hio hin]
        · intro c
          unfold Function.preds
          rw [hbecomes'.block, Function.update_apply]
          split
          · rename_i hc
            rw [hc]
            exact congrArg (fun l => List.eraseIdx l idx) (hpreds₁ dropped)
          · exact hpreds₁ c
        · intro c
          rw [hbecomes'.block, Function.update_apply]
          split
          · rename_i hc
            rw [hc, hbecomes.block]
            exact Function.proj_update (p := BlockData.removed) (by rfl) _
          · rw [hbecomes.block]
            exact Function.proj_update (by rfl) _
        · rw [hbecomes'.layout, hbecomes.layout]
        · rw [hbecomes'.values_size, hbecomes.values_size]
        · intro v
          rw [hbecomes'.kinds, hbecomes.kinds]
  · cases h₁
    exact .inl ⟨rfl, rfl⟩

/-- Folding a branch keeps a function well formed, and its runs show the same. -/
theorem foldBranch_keeps (hwf : f.WellFormed) (hb : b ∈ f.layout) (h : (foldBranch b).run f = (.ok count, f')) :
    f'.WellFormed ∧ f.SameMeaning f' ∧ f'.layout = f.layout := by
  rcases foldBranch_spec hwf.sound h with ⟨rfl, -⟩ | ⟨-, hs', old, n, taken, dropped, idx, hfolded⟩
  · exact ⟨hwf, fun _ _ _ _ => .refl _ _, rfl⟩
  · obtain ⟨-, hr', hstrict'⟩ := hfolded.strictForm hwf.strictForm hb hs'
    obtain ⟨hs, hr, hstrict, hagree⟩ := hwf
    have hagree' := hfolded.agreeing hs hr hagree hb
    exact ⟨⟨hs', hr', hstrict', hagree'⟩,
      (hfolded.reroutes hs hr hagree hb).sameMeaning hr hs hstrict hr' hagree', hfolded.layout⟩

end Edit

end SsaCompiler
