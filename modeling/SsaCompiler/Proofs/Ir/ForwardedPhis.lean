import SsaCompiler.Ir.Simplify
import SsaCompiler.Proofs.Ir.Placement
import SsaCompiler.Proofs.Ir.Rerouting

/-!
# Forwarded phis

A phi in a block with one predecessor is exchanged for its only operand. Wherever the result of the phi is
available the operand is so too, and it is not computed anew there, because the block that computes it
strictly dominates the block of the phi (`Forwarded.available`). So the two have the same word wherever one
of them is read.
-/

set_option autoImplicit false

namespace SsaCompiler

namespace Function

variable {f f' : Function} {b p : BlockId} {phi : InstId} {x v : ValueId}

/-- A function in which the phi `phi` of `b`, whose only predecessor is `p`, is exchanged for its operand:
its result `x` is read nowhere any more, and `v` is read in its place. -/
structure Forwarded (f f' : Function) (b p : BlockId) (phi : InstId) (x v : ValueId) : Prop where
  listed : b ∈ f.layout
  mem : phi ∈ f.phis b
  pred : f.preds b = [p]
  operand : f.operands phi = [v]
  result : f.result? phi = some x
  ne : x ≠ v
  insts : ∀ c, f'.instsOf c = (f.instsOf c).filter (· != phi)
  inst : ∀ i, i ≠ phi → f'.inst i =
    { f.inst i with operands := (f.operands i).map (Edit.substituted x v) }
  preds : ∀ c, f'.preds c = f.preds c
  removed : ∀ c, (f'.block c).removed = (f.block c).removed
  layout : f'.layout = f.layout
  values_size : f'.values.size = f.values.size
  kinds : ∀ w, (f'.value w).kind = (f.value w).kind

/-! ## Words that phis assign -/

variable {i : InstId} {assigned : List (ValueId × Word)} {w : ValueId}

section Assigned

variable {W : Type} {env : IrEnv W}

/-- What a list of readings gives comes from its elements, and each of them gives something. -/
theorem mem_mapM {α β : Type} {read : α → Option β} {l : List α} {results : List β} (h : l.mapM read = some results) :
    (∀ e ∈ results, ∃ a ∈ l, read a = some e) ∧ ∀ a ∈ l, ∃ e ∈ results, read a = some e := by
  induction l generalizing results with
  | nil =>
    cases h
    exact ⟨fun e he => absurd he List.not_mem_nil, fun a ha => absurd ha List.not_mem_nil⟩
  | cons a rest ih =>
    rw [List.mapM_cons] at h
    cases ha : read a with
    | none =>
      rw [ha] at h
      cases h
    | some e =>
      cases hrest : rest.mapM read with
      | none =>
        rw [ha, hrest] at h
        cases h
      | some more =>
        rw [ha, hrest] at h
        cases h
        obtain ⟨hfrom, hto⟩ := ih hrest
        refine ⟨fun d hd => ?_, fun c hc => ?_⟩
        · rcases List.mem_cons.1 hd with rfl | hd
          · exact ⟨a, List.mem_cons_self, ha⟩
          · obtain ⟨c, hc, hread⟩ := hfrom d hd
            exact ⟨c, List.mem_cons_of_mem _ hc, hread⟩
        · rcases List.mem_cons.1 hc with rfl | hc
          · exact ⟨e, List.mem_cons_self, ha⟩
          · obtain ⟨d, hd, hread⟩ := hto c hc
            exact ⟨d, List.mem_cons_of_mem _ hd, hread⟩

/-- Leaving out elements that can be read leaves out what they give. -/
theorem mapM_filter {α β : Type} {read read' : α → Option β} {keep : α → Bool} {keep' : β → Bool} {l : List α}
    (hsame : ∀ a ∈ l, keep a = true → read' a = read a) (hkeep : ∀ a ∈ l, ∀ e, read a = some e → keep' e = keep a)
    (hsome : ∀ a ∈ l, keep a = false → (read a).isSome = true) :
    (l.filter keep).mapM read' = (l.mapM read).map (·.filter keep') := by
  induction l with
  | nil => rfl
  | cons a rest ih =>
    have hrest := ih (fun b hb => hsame b (List.mem_cons_of_mem _ hb))
      (fun b hb => hkeep b (List.mem_cons_of_mem _ hb)) fun b hb => hsome b (List.mem_cons_of_mem _ hb)
    rw [List.mapM_cons]
    cases hka : keep a with
    | true =>
      rw [List.filter_cons_of_pos hka, List.mapM_cons, hsame a List.mem_cons_self hka, hrest]
      cases ha : read a with
      | none => rfl
      | some e =>
        have hke : keep' e = true := (hkeep a List.mem_cons_self e ha).trans hka
        cases rest.mapM read with
        | none => rfl
        | some more => exact congrArg some (List.filter_cons_of_pos hke).symm
    | false =>
      obtain ⟨e, he⟩ := Option.isSome_iff_exists.1 (hsome a List.mem_cons_self hka)
      have hke : keep' e = false := (hkeep a List.mem_cons_self e he).trans hka
      rw [List.filter_cons_of_neg (by simp [hka]), hrest, he]
      cases rest.mapM read with
      | none => rfl
      | some more => exact congrArg some (List.filter_cons_of_neg (by simp [hke])).symm

variable {vals : ValueId → Option Word}

/-- A value that is assigned only one word has that word afterwards. -/
theorem assignAll_of_mem {e : ValueId × Word} (he : e ∈ assigned) (hone : ∀ d ∈ assigned, d.1 = e.1 → d.2 = e.2) :
    assignAll vals assigned e.1 = some e.2 := by
  induction assigned generalizing vals with
  | nil => cases he
  | cons d rest ih =>
    change assignAll (Function.update vals d.1 (some d.2)) rest e.1 = some e.2
    by_cases hin : e ∈ rest
    · exact ih hin fun c hc => hone c (List.mem_cons_of_mem _ hc)
    · obtain rfl := (List.mem_cons.1 he).resolve_right hin
      by_cases hmore : ∃ c ∈ rest, c.1 = e.1
      · obtain ⟨c, hc, hce⟩ := hmore
        have heq : c = e := Prod.ext hce (hone c (List.mem_cons_of_mem _ hc) hce)
        exact absurd (heq ▸ hc) hin
      · rw [assignAll_of_not_mem fun c hc hce => hmore ⟨c, hc, hce⟩, Function.update_self]

variable {result : Option ValueId} {value : Option Word} {vals' : ValueId → Option Word}

/-- Leaving out what is assigned to one value does not change the others. -/
theorem assignAll_filter_ne {x : ValueId} (hw : w ≠ x) (h : vals' w = vals w) :
    assignAll vals' (assigned.filter fun e => e.1 != x) w = assignAll vals assigned w := by
  induction assigned generalizing vals vals' with
  | nil => exact h
  | cons e rest ih =>
    by_cases he : e.1 = x
    · rw [List.filter_cons_of_neg (by simp [he])]
      have hupdate : vals' w = Function.update vals e.1 (some e.2) w := by
        rw [Function.update_of_ne (he ▸ hw), h]
      exact ih hupdate
    · rw [List.filter_cons_of_pos (by simpa using he)]
      have hupdate : Function.update vals' e.1 (some e.2) w = Function.update vals e.1 (some e.2) w := by
        rw [Function.update_apply, Function.update_apply, h]
      exact ih hupdate

/-- A value that is not assigned keeps its word. -/
theorem read_assignAll_of_not_mem (h : ∀ e ∈ assigned, e.1 ≠ w) :
    f.read env (assignAll vals assigned) w = f.read env vals w := by
  unfold Function.read
  rw [assignAll_of_not_mem h]

/-- Assigning a result to values that agree. -/
theorem assign_congr (h : vals' w = vals w) : assign vals' result value w = assign vals result value w := by
  unfold assign
  split
  · rw [Function.update_apply, Function.update_apply, h]
  · exact h

/-- A value that is not the result keeps its word. -/
theorem read_assign_of_ne (h : ∀ r, result = some r → w ≠ r) :
    f.read env (assign vals result value) w = f.read env vals w := by
  unfold Function.read assign
  split
  · split
    · rename_i r y
      exact Function.update_of_ne (h r rfl) _ _
    · rfl
  all_goals rfl

end Assigned

/-! ## Blocks with one predecessor -/

variable {e q : BlockId}

/-- A block with a predecessor is not the entry. -/
theorem Regular.ne_entry_of_preds (hr : f.Regular) (hpreds : f.preds b = [p]) (he : f.layout.head? = some e) :
    e ≠ b := by
  rintro rfl
  obtain ⟨e', rest, hlayout, hnone⟩ := hr.entry
  rw [hlayout] at he
  obtain rfl := Option.some.inj he
  rw [hpreds] at hnone
  cases hnone

/-- Every path to a block with one predecessor comes over its only edge. -/
theorem Regular.eq_of_edge (hr : f.Regular) (hs : f.Sound) (hpreds : f.preds b = [p]) (hq : f.Reach q)
    (hedge : f.Edge q b) : q = p := by
  have hql := hr.mem_layout_of_reach hs hq
  have hb := hr.mem_layout_of_reach hs (hq.step hedge)
  have hin := (hr.mem_preds_iff hb).2 ⟨hql, (hr.edge_iff hql).1 hedge⟩
  rw [hpreds] at hin
  exact List.mem_singleton.1 hin

/-- The only predecessor dominates the block, and it is another block that is reachable. -/
theorem Regular.pred_dominates (hr : f.Regular) (hs : f.Sound) (hpreds : f.preds b = [p]) (hb : f.Reach b) :
    f.Reach p ∧ p ≠ b ∧ f.Dominates p b := by
  have hself : ∀ c, f.Reach c → p = b → c ≠ b := by
    intro c hc hpb
    induction hc with
    | entry he => exact hr.ne_entry_of_preds hpreds he
    | step hq hedge ih =>
      rintro rfl
      exact ih ((hr.eq_of_edge hs hpreds hq hedge).trans hpb)
  refine ⟨?_, fun hpb => hself b hb hpb rfl, fun havoid => ?_⟩
  · cases hb with
    | entry he => exact absurd rfl (hr.ne_entry_of_preds hpreds he)
    | step hq hedge => exact hr.eq_of_edge hs hpreds hq hedge ▸ hq
  · cases havoid with
    | entry he _ => exact hr.ne_entry_of_preds hpreds he rfl
    | step hq hedge _ =>
      rw [hr.eq_of_edge hs hpreds hq.reach hedge] at hq
      exact Dominates.refl f p hq

/-- The block that computes the only operand of a phi strictly dominates the block of the phi. -/
theorem Strict.source (hstrict : f.Strict) (hs : f.Sound) (hr : f.Regular) (hpreds : f.preds b = [p])
    (hphi : phi ∈ f.phis b) (hoperand : f.operands phi = [v]) (hb : f.Reach b) (hi : (f.value v).kind = .inst i) :
    ∃ d, f.blockOf? i = some d ∧ d ≠ b ∧ f.Dominates d b := by
  obtain ⟨hp, hpb, hdom⟩ := hr.pred_dominates hs hpreds hb
  have hfeeds : f.Feeds b phi p v := by
    unfold Feeds
    rw [hpreds, hoperand]
    exact List.mem_cons_self
  have havail := hstrict.incoming b phi hb ((List.takeWhile_sublist _).subset hphi) (f.isPhi_of_mem_phis hphi) p v hp
    hfeeds
  obtain ⟨d, hd, hdp⟩ : ∃ d, f.blockOf? i = some d ∧ f.Dominates d p := by
    rcases havail i hi with hin | ⟨d, hd, -, hdp⟩
    · exact ⟨p, (hs.placed p i).1 (List.mem_of_mem_dropLast hin), Dominates.refl f p⟩
    · exact ⟨d, hd, hdp⟩
  refine ⟨d, hd, ?_, hdp.trans hdom⟩
  rintro rfl
  exact hpb (hdom.antisymm hdp hp)

namespace Forwarded

/-- What the other instructions are. -/
theorem same (h : f.Forwarded f' b p phi x v) (hi : i ≠ phi) :
    f'.kind i = f.kind i ∧ f'.result? i = f.result? i ∧ f'.blockOf? i = f.blockOf? i ∧
      f'.operands i = (f.operands i).map (Edit.substituted x v) := by
  unfold kind result? blockOf? operands
  rw [h.inst i hi]
  exact ⟨rfl, rfl, rfl, rfl⟩

/-- The phi is a phi. -/
theorem kind_phi (h : f.Forwarded f' b p phi x v) : f.kind phi = .phi :=
  InstKind.isPhi_eq_true.1 (f.isPhi_of_mem_phis h.mem)

/-- The phi stands in its block. -/
theorem mem_insts (h : f.Forwarded f' b p phi x v) : phi ∈ f.instsOf b :=
  (List.takeWhile_sublist _).subset h.mem

variable {c : BlockId} {t : InstId} {before : List InstId} {slot : Nat}

section

variable (h : f.Forwarded f' b p phi x v)

include h

/-- The instructions of a block that are left. -/
theorem mem_insts_iff : i ∈ f'.instsOf c ↔ i ∈ f.instsOf c ∧ i ≠ phi := by
  rw [h.insts, List.mem_filter, bne_iff_ne]

/-- A block ends as before. -/
theorem split_end (hr : f.Regular) (hc : c ∈ f.layout) :
    ∃ before t, f.instsOf c = before ++ [t] ∧ t ≠ phi ∧ (f.kind t).isTerminator = true ∧
      (∀ i ∈ before, (f.kind i).isTerminator = false) ∧
      f'.instsOf c = before.filter (· != phi) ++ [t] := by
  obtain ⟨before, t, ht, hterm, hbefore⟩ := hr.ends c hc
  have hne : t ≠ phi := by
    rintro rfl
    rw [h.kind_phi] at hterm
    cases hterm
  refine ⟨before, t, ht, hne, hterm, hbefore, ?_⟩
  rw [h.insts, ht, List.filter_append, List.filter_cons_of_pos (by simpa using hne), List.filter_nil]

/-- The arms stay the same. -/
theorem arms (hr : f.Regular) (hc : c ∈ f.layout) : f'.arms c = f.arms c := by
  obtain ⟨before, t, ht, hne, -, -, ht'⟩ := h.split_end hr hc
  unfold Function.arms
  rw [ht, ht', List.getLast?_append, List.getLast?_append]
  change (f'.kind t).targets = (f.kind t).targets
  rw [(h.same hne).1]

/-- What the phis take. -/
theorem feeds_iff (hi : i ≠ phi) : f'.Feeds c i q w ↔ ∃ w₀, f.Feeds c i q w₀ ∧ Edit.substituted x v w₀ = w := by
  unfold Feeds
  rw [h.preds, (h.same hi).2.2.2, List.zip_map_right, List.mem_map]
  constructor
  · rintro ⟨⟨q', w₀⟩, hmem, heq⟩
    cases heq
    exact ⟨w₀, hmem, rfl⟩
  · rintro ⟨w₀, hmem, rfl⟩
    exact ⟨(q, w₀), hmem, rfl⟩

/-- The function stays regular. -/
theorem regular (hr : f.Regular) : f'.Regular where
  entry := by
    obtain ⟨e, rest, hlayout, hpreds⟩ := hr.entry
    exact ⟨e, rest, h.layout.trans hlayout, (h.preds e).trans hpreds⟩
  ends c hc := by
    obtain ⟨before, t, -, hne, hterm, hbefore, ht'⟩ := h.split_end hr (h.layout ▸ hc)
    refine ⟨_, t, ht', by rw [(h.same hne).1, hterm], fun i hi => ?_⟩
    rw [List.mem_filter, bne_iff_ne] at hi
    rw [(h.same hi.2).1]
    exact hbefore i hi.1
  phis_first c hc before i after hsplit hi := by
    rw [h.insts] at hsplit
    obtain ⟨before₀, rest₀, hsplit₀, rfl, hrest⟩ := List.filter_eq_append_iff.1 hsplit
    obtain ⟨skipped, after₀, rfl, -, hine, -⟩ := List.filter_eq_cons_iff.1 hrest
    rw [bne_iff_ne] at hine
    rw [(h.same hine).1] at hi
    rw [← List.append_assoc] at hsplit₀
    intro j hj
    rw [List.mem_filter, bne_iff_ne] at hj
    rw [(h.same hj.2).1]
    exact hr.phis_first c (h.layout ▸ hc) _ i after₀ hsplit₀ hi j (List.mem_append_left _ hj.1)
  slots c hc i hi hphi := by
    obtain ⟨hin, hne⟩ := h.mem_insts_iff.1 hi
    rw [(h.same hne).1] at hphi
    rw [(h.same hne).2.2.2, List.length_map, h.preds]
    exact hr.slots c (h.layout ▸ hc) i hin hphi
  targets c hc t ht := by
    rw [h.layout] at hc
    rw [h.removed]
    exact hr.targets c hc t (h.arms hr hc ▸ ht)
  preds c hc q := by
    rw [h.layout] at hc ⊢
    rw [h.preds, hr.preds c hc q]
    split
    · rename_i hq
      rw [h.arms hr hq]
    · rfl

/-- Phis agree as before. -/
theorem agreeing (hagree : f.AgreeingPhis) : f'.AgreeingPhis := by
  intro c hc i hi hphi q w w' hw hw'
  obtain ⟨hin, hne⟩ := h.mem_insts_iff.1 hi
  rw [(h.same hne).1] at hphi
  obtain ⟨w₀, hw₀, rfl⟩ := (h.feeds_iff hne).1 hw
  obtain ⟨w₁, hw₁, rfl⟩ := (h.feeds_iff hne).1 hw'
  rw [hagree c (h.layout ▸ hc) i hin hphi q w₀ w₁ hw₀ hw₁]

end

/-! ## Dominance -/

section

variable (h : f.Forwarded f' b p phi x v)

include h

variable {d : BlockId}

/-- Edges stay the same. -/
theorem edge_iff (hr : f.Regular) (hc : c ∈ f.layout) : f'.Edge c d ↔ f.Edge c d := by
  rw [(h.regular hr).edge_iff (h.layout ▸ hc), hr.edge_iff hc, h.arms hr hc]

/-- The same blocks are reachable. -/
theorem reach (hs : f.Sound) (hr : f.Regular) (hc : f'.Reach c) : f.Reach c := by
  induction hc with
  | entry he => exact .entry (h.layout ▸ he)
  | step _ hedge ih => exact ih.step ((h.edge_iff hr (hr.mem_layout_of_reach hs ih)).1 hedge)

/-- Every block that was reachable still is. -/
theorem reached (hs : f.Sound) (hr : f.Regular) (hc : f.Reach c) : f'.Reach c :=
  hc.of_edges (by rw [h.layout]) fun _ _ hq => (h.edge_iff hr (hr.mem_layout_of_reach hs hq)).2

/-- Dominance stays. -/
theorem dominates (hs : f.Sound) (hr : f.Regular) (hdom : f.Dominates c d) : f'.Dominates c d :=
  hdom.of_edges (by rw [h.layout]) fun _ _ hq => (h.edge_iff hr (hr.mem_layout_of_reach hs hq)).1

/-- The block is not the entry. -/
theorem ne_entry (hr : f.Regular) (he : f.layout.head? = some e) : e ≠ b := hr.ne_entry_of_preds h.pred he

/-- The block that computes the operand strictly dominates the block of the phi. -/
theorem source (hs : f.Sound) (hr : f.Regular) (hstrict : f.Strict) (hb : f.Reach b)
    (hi : (f.value v).kind = .inst i) : ∃ d, f.blockOf? i = some d ∧ d ≠ b ∧ f.Dominates d b :=
  hstrict.source hs hr h.pred h.mem h.operand hb hi

/-- Where the result of the phi is available, its block dominates. -/
theorem dominates_of_available (hs : f.Sound)
    (hbefore : ∀ i ∈ before, i ∈ f.instsOf c) (havail : f.Available c before x) : f.Dominates b c := by
  have hblock : f.blockOf? phi = some b := (hs.placed b phi).1 h.mem_insts
  rcases havail phi (hs.kind_of_result phi x h.result).2 with hin | ⟨d, hd, -, hdom⟩
  · have hc := (hs.placed c phi).1 (hbefore phi hin)
    rw [hblock] at hc
    rw [Option.some.inj hc]
    exact Dominates.refl f c
  · rw [hblock] at hd
    rw [Option.some.inj hd]
    exact hdom

section

variable (hs : f.Sound) (hr : f.Regular) (hstrict : f.Strict) (hc : f.Reach c) (hbefore : ∀ i ∈ before, i ∈ f.instsOf c)

include hs hr hstrict hc hbefore

/-- Where the result of the phi is available, the operand is so too, and it is computed in another block. -/
theorem available (havail : f.Available c before x) (hi : (f.value v).kind = .inst i) :
    ∃ d, f.blockOf? i = some d ∧ d ≠ c ∧ f.Dominates d c := by
  have hbc := h.dominates_of_available hs hbefore havail
  have hb := hbc.reach hc
  obtain ⟨d, hd, hdb, hdom⟩ := h.source hs hr hstrict hb hi
  refine ⟨d, hd, ?_, hdom.trans hbc⟩
  rintro rfl
  exact hdb (hdom.antisymm hbc hc)

/-- What is available stays available, with the operand in the place of the phi. -/
theorem available_substituted (hw : w < f.values.size) (havail : f.Available c before w) :
    f'.Available c (before.filter (· != phi)) (Edit.substituted x v w) := by
  -- Only the phi computes its result.
  have hdefines : ∀ u i, u < f.values.size → u ≠ x → (f.value u).kind = .inst i → i ≠ phi := by
    rintro u i hu hux hi rfl
    have hr' := hs.result_of_kind i u hu hi
    rw [h.result] at hr'
    exact hux (Option.some.inj hr').symm
  intro i hi
  rw [h.kinds] at hi
  unfold Edit.substituted at hi
  split at hi
  · rename_i hwx
    subst hwx
    obtain ⟨d, hd, hdc, hdom⟩ := h.available hs hr hstrict hc hbefore havail hi
    have hvs : v < f.values.size := hs.lt_size_of_mem_operands (by rw [h.operand]; exact List.mem_cons_self)
    have hne := hdefines v i hvs (Ne.symm h.ne) hi
    exact .inr ⟨d, by rw [(h.same hne).2.2.1, hd], hdc, h.dominates hs hr hdom⟩
  · rename_i hwx
    have hne := hdefines w i hw hwx hi
    rcases havail i hi with hin | ⟨d, hd, hdc, hdom⟩
    · exact .inl (List.mem_filter.2 ⟨hin, by simpa using hne⟩)
    · exact .inr ⟨d, by rw [(h.same hne).2.2.1, hd], hdc, h.dominates hs hr hdom⟩

end

/-- The function stays strict. -/
theorem strict (hs : f.Sound) (hr : f.Regular) (hstrict : f.Strict) : f'.Strict where
  operand c before i after hc hinsts hphi w hw := by
    have hreach := h.reach hs hr hc
    rw [h.insts] at hinsts
    obtain ⟨before₀, rest₀, hsplit, rfl, hrest⟩ := List.filter_eq_append_iff.1 hinsts
    obtain ⟨skipped, after₀, rfl, hskipped, hine, -⟩ := List.filter_eq_cons_iff.1 hrest
    rw [bne_iff_ne] at hine
    rw [← List.append_assoc] at hsplit
    have hbefore : before₀.filter (· != phi) = (before₀ ++ skipped).filter (· != phi) := by
      rw [List.filter_append, List.filter_eq_nil_iff.2 hskipped, List.append_nil]
    rw [(h.same hine).1] at hphi
    rw [(h.same hine).2.2.2] at hw
    obtain ⟨w₀, hw₀, rfl⟩ := List.mem_map.1 hw
    rw [hbefore]
    refine h.available_substituted hs hr hstrict hreach (fun j hj => by rw [hsplit]; exact List.mem_append_left _ hj)
      (hs.lt_size_of_mem_operands hw₀) ?_
    exact hstrict.operand c _ i after₀ hreach hsplit hphi w₀ hw₀
  incoming c i hc hi hphi q w hq hfeeds := by
    have hreach := h.reach hs hr hc
    have hreachq := h.reach hs hr hq
    obtain ⟨hin, hne⟩ := h.mem_insts_iff.1 hi
    rw [(h.same hne).1] at hphi
    obtain ⟨w₀, hw₀, rfl⟩ := (h.feeds_iff hne).1 hfeeds
    have havail := hstrict.incoming c i hreach hin hphi q w₀ hreachq hw₀
    have hnew := h.available_substituted hs hr hstrict hreachq
      (fun j hj => List.mem_of_mem_dropLast hj)
      (hs.lt_size_of_mem_operands (List.of_mem_zip hw₀).2) havail
    obtain ⟨before, t, ht, -, -, -, ht'⟩ := h.split_end hr (hr.mem_layout_of_reach hs hreachq)
    rw [ht, List.dropLast_concat] at hnew
    rw [ht', List.dropLast_concat]
    exact hnew

/-- A function in strict form stays so without the phi. -/
theorem strictForm (hf : f.StrictForm) (hs' : f'.Sound) : f'.StrictForm :=
  ⟨hs', h.regular hf.regular, h.strict hf.sound hf.regular hf.strict⟩

end

/-! ## Runs -/

variable {W : Type} {env : IrEnv W}

/-- States that have the same words, but for the result of the phi; where that is available, the operand
has the same word. -/
structure Stands (f : Function) (x v : ValueId) (env : IrEnv W) (s s' : IrState W) : Prop where
  running : f.Running env s
  block : s'.block = s.block
  code : s'.code = s.code
  memory : s'.memory = s.memory
  world : s'.world = s.world
  vals : ∀ w, w ≠ x → s'.vals w = s.vals w
  equal : ∀ before, f.instsOf s.block = before ++ s.code → f.Available s.block before x →
    f.read env s.vals v = f.read env s.vals x

variable {s s' : IrState W}

variable (h : f.Forwarded f' b p phi x v)

include h

/-- Words are read as before, with the operand in the place of the phi. -/
theorem read_substituted (hst : Stands f x v env s s')
    (hinsts : f.instsOf s.block = before ++ s.code) (havail : f.Available s.block before w) :
    f'.read env s'.vals (Edit.substituted x v w) = f.read env s.vals w := by
  have hread : ∀ u, u ≠ x → f'.read env s'.vals u = f.read env s.vals u := by
    intro u hu
    unfold Function.read
    rw [h.kinds, hst.vals u hu]
  unfold Edit.substituted
  split
  · rename_i hwx
    rw [hread v (Ne.symm h.ne), hst.equal before hinsts (hwx ▸ havail), hwx]
  · rename_i hwx
    exact hread w hwx

/-- The next instruction reads the same words. -/
theorem operands_eq (hs : f.Sound) (hr : f.Regular) (hstrict : f.Strict)
    (hst : Stands f x v env s s') {rest : List InstId} (hcode : s.code = i :: rest) :
    i ≠ phi ∧ (f'.operands i).mapM (f'.read env s'.vals) = (f.operands i).mapM (f.read env s.vals) := by
  have hphi := hst.running.not_isPhi hs hr hcode
  have hne : i ≠ phi := by
    rintro rfl
    rw [h.kind_phi] at hphi
    cases hphi
  refine ⟨hne, ?_⟩
  obtain ⟨before, hinsts, -, -⟩ := hst.running.place
  rw [(h.same hne).2.2.2, List.mapM_map]
  refine mapM_congr_left fun w hw => ?_
  refine h.read_substituted hst hinsts ?_
  rw [hcode] at hinsts
  exact hstrict.operand s.block before i rest hst.running.reach hinsts hphi w hw

/-- The phis that are left. -/
theorem phis (c : BlockId) : f'.phis c = (f.phis c).filter (· != phi) := by
  have hmap : ∀ l : List InstId, (l.filter (· != phi)).takeWhile (fun i => (f'.kind i).isPhi) =
      (l.takeWhile fun i => (f.kind i).isPhi).filter (· != phi) := by
    intro l
    induction l with
    | nil => rfl
    | cons i rest ih =>
      by_cases hi : i = phi
      · subst hi
        rw [List.filter_cons_of_neg (by simp), ih, List.takeWhile_cons, h.kind_phi]
        exact (List.filter_cons_of_neg (by simp)).symm
      · rw [List.filter_cons_of_pos (by simpa using hi), List.takeWhile_cons, List.takeWhile_cons,
          (h.same hi).1]
        split
        · rw [List.filter_cons_of_pos (by simpa using hi), ih]
        · rfl
  unfold Function.phis
  rw [h.insts]
  exact hmap _

section

variable (hs : f.Sound)

include hs

/-- The instructions behind the phis stay the same. -/
theorem code_eq (hr : f.Regular) (hc : c ∈ f.layout) :
    (f'.instsOf c).dropWhile (fun i => (f'.kind i).isPhi) =
      (f.instsOf c).dropWhile fun i => (f.kind i).isPhi := by
  have hall := f'.phis_append c
  have hnone : phi ∉ (f.instsOf c).dropWhile fun i => (f.kind i).isPhi := by
    intro hin
    have hphis := (hr.mem_phis hc).2
      ⟨(List.dropWhile_sublist _).subset hin, f.isPhi_of_mem_phis h.mem⟩
    have hnodup := hs.nodup c
    rw [← f.phis_append c, List.nodup_append] at hnodup
    exact hnodup.2.2 phi hphis phi hin rfl
  have hsplit : f'.instsOf c = (f.phis c).filter (· != phi) ++
      ((f.instsOf c).dropWhile fun i => (f.kind i).isPhi).filter (· != phi) := by
    rw [← List.filter_append, f.phis_append, h.insts]
  rw [h.phis] at hall
  rw [List.append_cancel_left (hall.trans hsplit), List.filter_eq_self]
  rintro i hi
  rw [bne_iff_ne]
  rintro rfl
  exact hnone hi

/-- The values that a run finds at an edge are available at the end of the block. -/
theorem incoming_eq (hr : f.Regular) (hstrict : f.Strict) (hst : Stands f x v env s s') (hcode : s.code = [t])
    (hc : f.Reach c) (hslot : (f.preds c)[slot]? = some s.block) (hi : i ∈ f.phis c) (hne : i ≠ phi) :
    f'.incoming env s'.vals slot i = f.incoming env s.vals slot i := by
  have hlisted := hr.mem_layout_of_reach hs hc
  obtain ⟨hin, hphi⟩ := (hr.mem_phis hlisted).1 hi
  obtain ⟨before, hinsts, -, -⟩ := hst.running.place
  unfold Function.incoming
  rw [(h.same hne).2.2.2, (h.same hne).2.1, List.getElem?_map]
  cases hw : (f.operands i)[slot]? with
  | none => rfl
  | some w =>
    have hfeeds : f.Feeds c i s.block w :=
      List.mem_of_getElem? (i := slot) (List.getElem?_zip_eq_some.2 ⟨hslot, hw⟩)
    have havail := hstrict.incoming c i hc hin hphi s.block w hst.running.reach hfeeds
    rw [hinsts, hcode, List.dropLast_concat] at havail
    have hread := h.read_substituted hst hinsts havail
    change ((f.result? i).bind fun r => (f'.read env s'.vals (Edit.substituted x v w)).bind fun y =>
      some (r, y)) = (f.result? i).bind fun r => (f.read env s.vals w).bind fun y => some (r, y)
    rw [hread]

/-- What the phi takes from its only edge. -/
theorem incoming_phi (hstrict : f.Strict) (hst : Stands f x v env s s') (hcode : s.code = [t]) (hb : f.Reach b)
    (hslot : (f.preds b)[slot]? = some s.block) :
    ∃ y, f.read env s.vals v = some y ∧ f.incoming env s.vals slot phi = some (x, y) := by
  obtain ⟨before, hinsts, -, hdefined⟩ := hst.running.place
  have hzero : slot = 0 := by
    have hlt := (List.getElem?_eq_some_iff.1 hslot).1
    rw [h.pred, List.length_singleton] at hlt
    omega
  subst hzero
  have hop : (f.operands phi)[0]? = some v := by rw [h.operand]; rfl
  have hfeeds : f.Feeds b phi s.block v :=
    List.mem_of_getElem? (i := 0) (List.getElem?_zip_eq_some.2 ⟨hslot, hop⟩)
  have havail := hstrict.incoming b phi hb h.mem_insts (f.isPhi_of_mem_phis h.mem) s.block v
    hst.running.reach hfeeds
  rw [hinsts, hcode, List.dropLast_concat] at havail
  have hvs : v < f.values.size := hs.lt_size_of_mem_operands (by rw [h.operand]; exact List.mem_cons_self)
  obtain ⟨y, hy⟩ := Option.isSome_iff_exists.1 (hdefined v hvs havail)
  exact ⟨y, hy, incoming_eq_some.2 ⟨v, hop, h.result, hy⟩⟩

/-- Only the phi assigns its result. -/
theorem eq_phi_of_result (hi : f.result? i = some x) : i = phi := by
  have hkind := (hs.kind_of_result i x hi).2
  rw [(hs.kind_of_result phi x h.result).2] at hkind
  exact (ValueKind.inst.inj hkind).symm

/-- The phis of a block that is entered give the same words, but for the phi that is exchanged. -/
theorem mapM_incoming (hr : f.Regular) (hstrict : f.Strict) (hst : Stands f x v env s s') (hcode : s.code = [t])
    (hc : f.Reach c) (hslot : (f.preds c)[slot]? = some s.block) :
    (f'.phis c).mapM (f'.incoming env s'.vals slot) =
      ((f.phis c).mapM (f.incoming env s.vals slot)).map (·.filter fun e => e.1 != x) := by
  rw [h.phis]
  refine mapM_filter (fun i hi hne => ?_) (fun i hi e he => ?_) fun i hi hphi => ?_
  · exact h.incoming_eq hs hr hstrict hst hcode hc hslot hi (bne_iff_ne.1 hne)
  · obtain ⟨-, -, hresult, -⟩ := incoming_eq_some.1 he
    rw [Bool.eq_iff_iff, bne_iff_ne, bne_iff_ne, not_iff_not]
    refine ⟨fun hx => h.eq_phi_of_result hs (hx ▸ hresult), fun hphi => ?_⟩
    rw [hphi, h.result] at hresult
    exact (Option.some.inj hresult).symm
  · obtain rfl : i = phi := by simpa using hphi
    obtain rfl : c = b := by
      have hone := (hs.placed c i).1 ((List.takeWhile_sublist _).subset hi)
      rw [(hs.placed b i).1 h.mem_insts] at hone
      exact (Option.some.inj hone).symm
    obtain ⟨y, -, hy⟩ := h.incoming_phi hs hstrict hst hcode hc hslot
    rw [hy]
    rfl

/-- Where the result of the phi is available behind an edge, it has the word of the operand. -/
theorem equal_follow (hr : f.Regular) (hstrict : f.Strict) (hst : Stands f x v env s s') (hcode : s.code = [t])
    (hc : f.Reach c) (hedge : f.Edge s.block c) (hslot : (f.preds c)[slot]? = some s.block)
    (hassigned : (f.phis c).mapM (f.incoming env s.vals slot) = some assigned) (havail : f.Available c (f.phis c) x) :
    f.read env (assignAll s.vals assigned) v = f.read env (assignAll s.vals assigned) x := by
  have hphis : ∀ i ∈ f.phis c, f.blockOf? i = some c := fun i hi =>
    (hs.placed c i).1 ((List.takeWhile_sublist _).subset hi)
  have hkindx : (f.value x).kind = .inst phi := (hs.kind_of_result phi x h.result).2
  -- The operand is computed in another block, so the edge leaves it alone.
  have hv : f.read env (assignAll s.vals assigned) v = f.read env s.vals v := by
    refine read_assignAll_of_not_mem fun e he hev => ?_
    obtain ⟨i, hi, hread⟩ := (mem_mapM hassigned).1 e he
    obtain ⟨-, -, hresult, -⟩ := incoming_eq_some.1 hread
    have hkind := (hs.kind_of_result i v (hev ▸ hresult)).2
    obtain ⟨d, hd, hdc, -⟩ := h.available hs hr hstrict hc
      (fun j hj => (List.takeWhile_sublist _).subset hj) havail hkind
    rw [hphis i hi] at hd
    exact hdc (Option.some.inj hd).symm
  by_cases hin : phi ∈ f.phis c
  · obtain rfl : c = b := by
      have hone := hphis phi hin
      rw [(hs.placed b phi).1 h.mem_insts] at hone
      exact (Option.some.inj hone).symm
    obtain ⟨y, hy, hinc⟩ := h.incoming_phi hs hstrict hst hcode hc hslot
    obtain ⟨e, he, hread⟩ := (mem_mapM hassigned).2 phi hin
    rw [hinc] at hread
    obtain rfl := Option.some.inj hread
    have hx : assignAll s.vals assigned x = some y := by
      refine assignAll_of_mem he fun d hd hdx => ?_
      obtain ⟨i, -, hread⟩ := (mem_mapM hassigned).1 d hd
      obtain ⟨-, -, hresult, -⟩ := incoming_eq_some.1 hread
      rw [hdx] at hresult
      rw [h.eq_phi_of_result hs hresult, hinc] at hread
      rw [← Option.some.inj hread]
    rw [hv, hy]
    unfold Function.read
    rw [hkindx]
    exact hx.symm
  · -- The block of the phi dominates the block that the edge comes from.
    obtain ⟨before, hinsts, hbefore, -⟩ := hst.running.place
    have hbx : f.read env (assignAll s.vals assigned) x = f.read env s.vals x := by
      refine read_assignAll_of_not_mem fun e he hex => ?_
      obtain ⟨i, hi, hread⟩ := (mem_mapM hassigned).1 e he
      obtain ⟨-, -, hresult, -⟩ := incoming_eq_some.1 hread
      rw [hex] at hresult
      exact hin (h.eq_phi_of_result hs hresult ▸ hi)
    have hold : f.Available s.block before x := by
      intro i hi
      rw [hkindx] at hi
      obtain rfl := ValueKind.inst.inj hi
      obtain ⟨d, hd, hdc, hdom⟩ := (havail phi hkindx).resolve_left hin
      by_cases hds : d = s.block
      · left
        refine hbefore phi ((hr.mem_phis hst.running.listed).2 ⟨?_, f.isPhi_of_mem_phis h.mem⟩)
        exact (hs.placed s.block phi).2 (hds ▸ hd)
      · exact .inr ⟨d, hd, hds, hdom.of_edge hdc hedge⟩
    rw [hv, hbx, hst.equal before hinsts hold]

/-- Steps are answered one by one. -/
theorem simulation (hr : f.Regular) (hstrict : f.Strict) :
    Runs.Simulation (f.step env) (f'.step env) (Stands f x v env) (fun _ => 0) where
  next := by
    intro s s' events u hst hnext
    have hrunu := hst.running.next hs hr hnext
    obtain ⟨i, rest, values, hcode, hvalues, hact⟩ := step_eq_next.1 hnext
    obtain ⟨hne, hops⟩ := h.operands_eq hs hr hstrict hst hcode
    have hcode' : s'.code = i :: rest := hst.code.trans hcode
    have hvalues' := hops.trans hvalues
    obtain ⟨before, hinsts, -, -⟩ := hst.running.place
    rcases hact with ⟨c, hgoto, hfollow⟩ | ⟨value, memory, world, heffect, rfl⟩
    · obtain ⟨rfl, -, -, hedge⟩ := hst.running.edge_of_goto hr hcode hgoto
      have hc := hst.running.reach.step hedge
      obtain ⟨rfl, slot, assigned, hslot, hassigned, rfl⟩ := follow_eq_next.1 hfollow
      have hpred := getElem?_of_predIndex hslot
      have hmap := h.mapM_incoming hs hr hstrict hst hcode hc hpred
      rw [hassigned] at hmap
      have hstep : f'.step env s' = .next [] { s' with
          block := c
          code := (f'.instsOf c).dropWhile fun i => (f'.kind i).isPhi
          vals := assignAll s'.vals (assigned.filter fun e => e.1 != x) } := by
        rw [step_eq hcode' hvalues', (h.same hne).1, hst.memory, hst.world, hgoto]
        refine follow_eq_next.2 ⟨rfl, slot, _, ?_, hmap, by rw [hst.memory, hst.world]⟩
        unfold predIndex?
        rw [h.preds, hst.block]
        exact hslot
      refine ⟨1, _, .single hstep, ⟨hrunu, rfl, ?_, hst.memory, hst.world, fun w hw => ?_, ?_⟩,
        fun h0 => by cases h0⟩
      · exact h.code_eq hs hr (hr.mem_layout_of_reach hs hc)
      · exact assignAll_filter_ne hw (hst.vals w hw)
      · intro before' hinsts' havail
        change f.instsOf c = before' ++ (f.instsOf c).dropWhile _ at hinsts'
        rw [← List.append_cancel_right ((f.phis_append c).trans hinsts')] at havail
        exact h.equal_follow hs hr hstrict hst hcode hc hedge hpred hassigned havail
    · have hstep : f'.step env s' = .next events { s' with
          code := rest, vals := assign s'.vals (f.result? i) value, memory, world } := by
        rw [step_eq hcode' hvalues', (h.same hne).1, (h.same hne).2.1, hst.memory, hst.world, heffect]
      refine ⟨1, _, .single hstep, ⟨hrunu, hst.block, rfl, rfl, rfl, fun w hw => ?_, ?_⟩,
        fun h0 => by cases h0⟩
      · exact assign_congr (hst.vals w hw)
      · intro before' hinsts' havail
        have hblock : f.blockOf? i = some s.block :=
          (hs.placed s.block i).1 (hst.running.mem_instsOf hcode)
        obtain rfl : before' = before ++ [i] := by
          change f.instsOf s.block = before' ++ rest at hinsts'
          rw [hinsts, hcode, List.append_cons] at hinsts'
          exact (List.append_cancel_right hinsts').symm
        rcases available_append havail with hk | hold
        · rw [(hs.kind_of_result phi x h.result).2] at hk
          exact absurd (ValueKind.inst.inj hk).symm hne
        · have hv : ∀ r, f.result? i = some r → v ≠ r ∧ x ≠ r := by
            intro r hri
            refine ⟨?_, ?_⟩
            · rintro rfl
              obtain ⟨d, hd, hdc, -⟩ := h.available hs hr hstrict hst.running.reach
                (fun j hj => by rw [hinsts]; exact List.mem_append_left _ hj) hold
                (hs.kind_of_result i v hri).2
              rw [hblock] at hd
              exact hdc (Option.some.inj hd).symm
            · rintro rfl
              exact hne (h.eq_phi_of_result hs hri)
          change f.read env (assign s.vals _ _) v = f.read env (assign s.vals _ _) x
          rw [read_assign_of_ne fun r hri => (hv r hri).1, read_assign_of_ne fun r hri => (hv r hri).2]
          exact hst.equal before hinsts hold
  done := by
    intro s s' o hst hdone
    refine Runs.ends_of_done ?_
    cases hcode : s.code with
    | nil =>
      unfold step at hdone ⊢
      rw [hst.code, hcode]
      rw [hcode] at hdone
      exact hdone
    | cons i rest =>
      obtain ⟨hne, hops⟩ := h.operands_eq hs hr hstrict hst hcode
      obtain ⟨values, hvalues⟩ := hst.running.operands_defined hs hr hstrict hcode
      have hcode' : s'.code = i :: rest := hst.code.trans hcode
      rw [step_eq hcode' (hops.trans hvalues), (h.same hne).1, hst.memory, hst.world]
      rcases stop_or_goto hcode hvalues hdone with hstop | ⟨c, hgoto, hfollow⟩
      · rw [hstop]
      · rw [hgoto]
        obtain ⟨rfl, -, -, hedge⟩ := hst.running.edge_of_goto hr hcode hgoto
        obtain ⟨rfl, hnone⟩ := follow_eq_done.1 hfollow
        refine follow_eq_done.2 ⟨rfl, fun slot hslot => ?_⟩
        rw [predIndex?, h.preds, hst.block] at hslot
        rw [h.mapM_incoming hs hr hstrict hst hcode (hst.running.reach.step hedge) (getElem?_of_predIndex hslot),
          hnone slot hslot]
        rfl

/-- Runs show the same when a phi is exchanged for its only operand. -/
theorem sameMeaning (hr : f.Regular) (hstrict : f.Strict) : f.SameMeaning f' := by
  have hentry : ∀ e, f.layout.head? = some e → phi ∉ f.instsOf e := by
    intro e he hin
    have hone := (hs.placed e phi).1 hin
    rw [(hs.placed b phi).1 h.mem_insts] at hone
    exact h.ne_entry hr he (Option.some.inj hone).symm
  refine sameMeaning_of_phis hr (h.regular hr) (by rw [h.layout]) (fun e he => ?_) ?_
  · rw [h.phis, List.filter_eq_self]
    rintro i hi
    rw [bne_iff_ne]
    rintro rfl
    exact hentry e he ((List.takeWhile_sublist _).subset hi)
  · intro e he hphis W env m w
    have hhead : f.layout.headD 0 = e := by
      rw [List.headD_eq_head?_getD, he]
      rfl
    refine Runs.sameRuns_of_simulation (h.simulation hs hr hstrict)
      ⟨.start he hphis m w, ?_, ?_, rfl, rfl, fun _ _ => rfl, ?_⟩
    · unfold start
      rw [h.layout]
    · unfold start
      rw [h.layout, hhead, h.insts, List.filter_eq_self]
      rintro i hi
      rw [bne_iff_ne]
      rintro rfl
      exact hentry e he hi
    · intro before hinsts havail
      change f.Available (f.layout.headD 0) before x at havail
      rw [hhead] at havail
      have hnil : before = [] := by
        unfold start at hinsts
        simpa using hinsts
      rcases havail phi (hs.kind_of_result phi x h.result).2 with hin | ⟨d, -, hde, hdom⟩
      · rw [hnil] at hin
        cases hin
      · exact absurd (.entry he (Ne.symm hde)) hdom

end

end Forwarded

end Function

namespace Edit

open Edits

variable {f f' : Function}

variable {b p : BlockId} {phi : InstId}

/-- Exchanging a phi for its only operand. -/
theorem removeSinglePhi_spec (hs : f.Sound) (hb : b ∈ f.layout) (hpreds : f.preds b = [p]) (hphi : phi ∈ f.phis b)
    (h : (removeSinglePhi b phi).run f = (.ok (), f')) : f'.Sound ∧ ∃ x v, f.Forwarded f' b p phi x v := by
  unfold removeSinglePhi at h
  have h₁ := of_get_bind h
  split at h₁
  · rename_i v hops
    split at h₁
    · cases h₁
    · rename_i x hresult
      dsimp only at h₁
      split at h₁
      · obtain ⟨a, f₂, hreport, -⟩ := bind_eq_ok h₁
        cases hreport
      · rename_i hne
        obtain ⟨count, f₃, hreplace, h₃⟩ := bind_eq_ok h₁
        obtain ⟨-, -, hbecomes, hindexed⟩ := replaceAllUses_spec (Ne.symm hne) hs.indexed hreplace
        have hs₃ : f₃.Sound := hs.becomes_insts hbecomes hindexed (fun _ => rfl) (fun i r hr => hs.gives i r hr)
          (fun c i hi => ⟨by rw [List.length_map]; exact hs.fits c i hi, hs.bounded c i hi⟩) fun _ => rfl
        obtain ⟨-, -, -, hbecomes', -⟩ := removeInst_spec h₃
        have hblocks : ∀ c, f'.block c = { f.block c with insts := (f.instsOf c).filter (· != phi) } := by
          intro c
          have hsame : f₃.instsOf c = f.instsOf c := congrArg BlockData.insts (hbecomes.block c)
          rw [hbecomes'.block, blocksWithout, hsame, hbecomes.block]
          split
          · rfl
          · rename_i hother
            have hnot : phi ∉ f.instsOf c := fun hin => hother ((hs₃.placed c phi).1 (hsame ▸ hin))
            have hall : (f.instsOf c).filter (· != phi) = f.instsOf c := by
              rw [List.filter_eq_self]
              rintro i hi
              rw [bne_iff_ne]
              rintro rfl
              exact hnot hi
            rw [hall]
            rfl
        refine ⟨sound_removeInst hs₃ h₃, x, v, hb, hphi, hpreds, hops, hresult, Ne.symm hne,
          fun c => congrArg BlockData.insts (hblocks c), fun i hi => ?_,
          fun c => by unfold Function.preds; rw [hblocks], fun c => by rw [hblocks],
          hbecomes'.layout.trans hbecomes.layout, hbecomes'.values_size.trans hbecomes.values_size,
          fun w => (hbecomes'.kinds w).trans (hbecomes.kinds w)⟩
        rw [hbecomes'.inst, Function.update_of_ne hi, hbecomes.inst]
  · cases h₁

/-- Exchanging a phi for its only operand keeps a function well-formed and what its runs show. -/
theorem removeSinglePhi_keeps (hwf : f.WellFormed) (hb : b ∈ f.layout) (hpreds : f.preds b = [p])
    (hphi : phi ∈ f.phis b) (h : (removeSinglePhi b phi).run f = (.ok (), f')) :
    f'.WellFormed ∧ f.SameMeaning f' ∧ f'.layout = f.layout ∧ f'.preds b = [p] ∧
      f'.phis b = (f.phis b).filter (· != phi) := by
  obtain ⟨hs, hr, hstrict, hagree⟩ := hwf
  obtain ⟨hs', x, v, hforward⟩ := removeSinglePhi_spec hs hb hpreds hphi h
  exact ⟨⟨hs', hforward.regular hr, hforward.strict hs hr hstrict, hforward.agreeing hagree⟩,
    hforward.sameMeaning hs hr hstrict, hforward.layout, (hforward.preds b).trans hpreds, hforward.phis b⟩

/-- Exchanging all phis of a block with one predecessor. -/
theorem forM_removeSinglePhi_keeps (hwf : f.WellFormed) (hb : b ∈ f.layout) (hpreds : f.preds b = [p])
    (h : ((f.phis b).forM (removeSinglePhi b)).run f = (.ok (), f')) :
    f'.WellFormed ∧ f.SameMeaning f' ∧ f'.layout = f.layout := by
  -- The phis that are still to be exchanged are still phis of the block.
  let P := fun (rest : List InstId) (g : Function) =>
    g.WellFormed ∧ f.SameMeaning g ∧ g.layout = f.layout ∧ g.preds b = [p] ∧ ∀ i ∈ rest, i ∈ g.phis b
  have hnodup : (f.phis b).Nodup := (hwf.sound.nodup b).sublist (List.takeWhile_sublist _)
  have hstart : P (f.phis b) f := ⟨hwf, fun _ _ _ _ => .refl _ _, rfl, hpreds, fun _ hi => hi⟩
  have hend : P [] f' := by
    refine forM_keeps (P := P) ?_ hstart h
    rintro phi rest g g' hsuffix ⟨hg, hmeaning, hlayout, hgpreds, hphis⟩ hrun
    obtain ⟨hg', hmeaning', hlayout', hgpreds', hphis'⟩ :=
      removeSinglePhi_keeps hg (hlayout ▸ hb) hgpreds (hphis phi List.mem_cons_self) hrun
    refine ⟨hg', fun W env m w => (hmeaning W env m w).trans (hmeaning' W env m w),
      hlayout'.trans hlayout, hgpreds', fun i hi => ?_⟩
    rw [hphis', List.mem_filter, bne_iff_ne]
    refine ⟨hphis i (List.mem_cons_of_mem _ hi), ?_⟩
    rintro rfl
    exact (List.nodup_cons.1 (hnodup.sublist hsuffix.sublist)).1 hi
  exact ⟨hend.1, hend.2.1, hend.2.2.1⟩

end Edit

end SsaCompiler
