import SsaCompiler.Proofs.Machine.EncodableCode
import SsaCompiler.Proofs.Machine.ExactLiveness
import SsaCompiler.Proofs.Machine.FinishedSelection
import SsaCompiler.Proofs.Machine.StrictCode
import SsaCompiler.Proofs.Pipeline.TotalPasses

/-!
# Selected code is strict

Selection of a strict function gives code that writes every virtual register before it reads it, on every path, exactly
if the entry has no phis (`Function.strict_select_iff`). At the start of a machine block the registers of the labels and
of the parameters are written, those of the values that dominate the block, and the ones that its phis take
(`Selection.Held`). The code of the block is strict over these, and what it leaves behind has everything that is held
along its edges. At the start of the entry nothing is held, and there an edge that is not there cannot feed a phi.
-/

set_option autoImplicit false

namespace SsaCompiler

/-- What is in front of a place in strict code of blocks has written whatever is live there. -/
theorem MachineFunction.writesBeforeReads_of_strict {mf : MachineFunction} (budget : RegisterSet) (held : Nat → Nat → Prop)
    (reached : Nat → Prop) (hstart : reached 0) (hnone : ∀ n, ¬ held 0 n)
    (hstrict : ∀ k, reached k → StrictOver (held k) (mf.instsOf k))
    (hedge : ∀ k, reached k → ∀ before i after, mf.instsOf k = before ++ i :: after → ∀ t, i.target? = some t →
      reached t ∧ ∀ n, held t n → After (held k) before n) : mf.WritesBeforeReads budget := by
  intro n hlive
  have hwritten : ∀ {code}, mf.LiveFrom budget (Node.firstVirtual + n) code → ∀ k, reached k → ∀ before,
      mf.instsOf k = before ++ code → After (held k) before n := by
    intro code hlive
    induction hlive with
    | @use i rest hread =>
      intro k hk before hcode
      have hcode' := hstrict k hk
      rw [hcode] at hcode'
      exact hcode'.read (Instr.mem_useNodes_virtual.1 hread)
    | @pass i rest _ hdef _ ih =>
      intro k hk before hcode
      have hbehind := ih k hk (before ++ [i]) (by rw [hcode, List.append_assoc]; rfl)
      rw [after_append] at hbehind
      exact hbehind.resolve_right fun hmem => hdef (Instr.mem_defNodes_virtual.2 hmem)
    | @jump i rest t htarget _ _ ih =>
      intro k hk before hcode
      obtain ⟨ht, hheld⟩ := hedge k hk before i rest hcode t htarget
      exact hheld n (ih t ht [] rfl)
  exact hnone n (hwritten hlive 0 hstart [] rfl)

/-- An item of a filtered list divides the list. -/
theorem exists_of_filter_eq_append {α : Type} {p : α → Bool} {l front back : List α} {a : α}
    (h : l.filter p = front ++ a :: back) : ∃ before after, l = before ++ a :: after ∧ before.filter p = front := by
  obtain ⟨l₁, l₂, rfl, hfront, hback⟩ := List.filter_eq_append_iff.1 h
  obtain ⟨l₃, l₄, rfl, hnone, -, -⟩ := List.filter_eq_cons_iff.1 hback
  refine ⟨l₁ ++ l₃, l₄, by rw [List.append_assoc], ?_⟩
  rw [List.filter_append, hfront, List.filter_eq_nil_iff.2 hnone, List.append_nil]

/-! ## What is selected -/

variable {back : List InstId} {code front : List Instr}

namespace SelectionContext

/-- What strict code is selected from: a function in strict form with its parameters, comparisons that can become part of
their branch, and slots that have words of the frame. -/
structure Regulated (ctx : SelectionContext) (slots : List (ValueId × Word)) : Prop extends
    ctx.func.StrictForm, ctx.func.Headed where
  fused : ∀ i, ctx.fused.contains i = true → ∃ b ∈ ctx.func.layout, ctx.func.fusableCompare? b = .ok (some i)
  slots : ∀ b ∈ ctx.func.layout, ∀ i ∈ ctx.func.instsOf b, ∀ words, ctx.func.kind i = .alloca words →
    ∀ v, ctx.func.result? i = some v → slots.lookup v ≠ none

/-- The instructions that have code of their own. -/
def unfused (ctx : SelectionContext) (insts : List InstId) : List InstId := insts.filter fun i => !ctx.fused.contains i

variable {ctx : SelectionContext} {slots : List (ValueId × Word)} (h : ctx.Regulated slots) {b : BlockId} {i d : InstId}
  {v : ValueId}

include h

/-- What reads a comparison that became part of a branch is the branch behind it. -/
theorem Regulated.reader (hv : v ∈ ctx.func.operands i) (hd : ctx.func.definingInst? v = some d)
    (hfused : ctx.fused.contains d = true) : ∃ b before op, ctx.func.instsOf b = before ++ [d, i] ∧
      ctx.func.kind d = .binary op ∧ (ctx.func.kind i).isBranch = true := by
  obtain ⟨b, -, hcompare⟩ := h.fused d hfused
  obtain ⟨before, term, op, hinsts, hkind, -, hbranch, w, hw, hdw, huses⟩ := Function.fusableCompare?_eq_some hcompare
  have hresult : ∀ {x}, ctx.func.definingInst? x = some d → x < ctx.func.values.size → ctx.func.result? d = some x := by
    intro x hx hlt
    refine h.sound.result_of_kind d x hlt ?_
    unfold Function.definingInst? at hx
    split at hx
    · rename_i j hj
      obtain rfl := Option.some.inj hx
      exact hj
    · cases hx
  have hslot := Edit.operand_eq_ok hw
  obtain rfl : v = w := Option.some.inj ((hresult hd (h.sound.lt_size_of_mem_operands hv)).symm.trans
    (hresult hdw (h.sound.lt_size_of_mem_operands (List.mem_of_getElem? hslot))))
  -- The branch is the only one to read the comparison.
  obtain ⟨slot, hi⟩ := List.getElem?_of_mem hv
  have hlisted : ∀ {u : Use}, ctx.func.reads u = some v → u ∈ ctx.func.uses v := by
    intro u hu
    rw [← List.count_pos_iff, h.sound.indexed v u, if_pos hu]
    exact Nat.one_pos
  obtain ⟨u, hu⟩ := List.length_eq_one_iff.1 huses
  have hone : ∀ {u'}, u' ∈ ctx.func.uses v → u' = u := fun hin => List.mem_singleton.1 (hu ▸ hin)
  have hsame : (⟨i, slot⟩ : Use) = ⟨term, 0⟩ := (hone (hlisted (u := ⟨i, slot⟩) hi)).trans
    (hone (hlisted (u := ⟨term, 0⟩) hslot)).symm
  obtain ⟨rfl, -⟩ := Use.mk.inj hsame
  exact ⟨b, before, op, hinsts, hkind, hbranch⟩

/-- Nothing but branches reads comparisons that became part of one. -/
theorem Regulated.plain (hv : v ∈ ctx.func.operands i) (hi : (ctx.func.kind i).isBranch = false) :
    ∀ d, ctx.func.definingInst? v = some d → ctx.fused.contains d = false := by
  intro d hd
  rw [Bool.eq_false_iff]
  intro hfused
  obtain ⟨-, -, -, -, -, hbranch⟩ := h.reader hv hd hfused
  rw [hi] at hbranch
  cases hbranch

/-- A branch is the last instruction of its block. -/
theorem Regulated.not_isBranch (hb : b ∈ ctx.func.layout) {front : List InstId}
    (hlist : ctx.func.instsOf b = front ++ i :: back) (hback : back ≠ []) : (ctx.func.kind i).isBranch = false := by
  rw [Bool.eq_false_iff]
  intro hbranch
  refine hback (h.regular.last hb hlist ?_)
  cases hkind : ctx.func.kind i with
  | branch => rfl
  | _ =>
    rw [hkind] at hbranch
    cases hbranch

end SelectionContext

/-! ## The code of a block -/

/-- A set has the registers that the code of a block starts with: those of the parameters, of the phis of the block, and of
what is computed in the blocks that dominate it. -/
structure Selection.Opens (ctx : SelectionContext) (s : Selection) (set : Nat → Prop) (b : BlockId) : Prop where
  params : ∀ v j, (ctx.func.value v).kind = .param j → s.Supplies ctx set v
  phis : ∀ i ∈ ctx.func.phis b, ∀ v, ctx.func.result? i = some v → s.Supplies ctx set v
  values : ∀ v i d, v < ctx.func.values.size → (ctx.func.value v).kind = .inst i → ctx.fused.contains i = false →
    ctx.func.blockOf? i = some d → d ≠ b → ctx.func.Dominates d b → s.Supplies ctx set v

section Block

variable {ctx : SelectionContext} {s s' : Selection} {set set' : Nat → Prop} {b : BlockId}

variable {i : InstId}

namespace Selection.Opens

theorem mono (hs : s.Opens ctx set b) (hle : ∀ n, set n → set' n) : s.Opens ctx set' b where
  params v j hv := (hs.params v j hv).mono hle
  phis i hi v hv := (hs.phis i hi v hv).mono hle
  values v i d hv hkind hfused hd hne hdom := (hs.values v i d hv hkind hfused hd hne hdom).mono hle

/-- An earlier state. -/
theorem of_extends (hs : s'.Opens ctx set b) (hext : s.Extends s') : s.Opens ctx set b := by
  have hold : ∀ {v}, s'.Supplies ctx set v → s.Supplies ctx set v := fun h hslot hkind n hn =>
    h (hext.slots ▸ hslot) hkind n (hext.kept n _ hn)
  exact ⟨fun v j hv => hold (hs.params v j hv), fun i hi v hv => hold (hs.phis i hi v hv),
    fun v i d hv hkind hfused hd hne hdom => hold (hs.values v i d hv hkind hfused hd hne hdom)⟩

variable {v : ValueId}

variable {before : List InstId}

section

variable (h : ctx.Regulated s.slots) (hs : s.Opens ctx set b)

include h hs

/-- A value that is available at a place of a block has its register in the set, or the code in front of the place gives
it. -/
theorem available (hb : b ∈ ctx.func.layout) {after : List InstId} (hinsts : ctx.func.instsOf b = before ++ after)
    (hv : v < ctx.func.values.size) (hav : ctx.func.Available b before v)
    (hplain : ∀ d, ctx.func.definingInst? v = some d → ctx.fused.contains d = false) :
    s.Supplies ctx set v ∨ ctx.func.Gives (ctx.unfused before) v := by
  cases hkind : (ctx.func.value v).kind with
  | param j => exact .inl (hs.params v j hkind)
  | const | global | str =>
    refine .inl fun _ hcomputed => ?_
    rw [hkind] at hcomputed
    cases hcomputed
  | inst i =>
    have hfused := hplain i (by rw [Function.definingInst?, hkind])
    have hresult := h.sound.result_of_kind i v hv hkind
    rcases hav i hkind with hin | ⟨d, hd, hne, hdom⟩
    · cases hphi : (ctx.func.kind i).isPhi with
      | true =>
        refine .inl (hs.phis i ((h.regular.mem_phis hb).2 ⟨?_, hphi⟩) v hresult)
        rw [hinsts]
        exact List.mem_append_left _ hin
      | false => exact .inr ⟨i, List.mem_filter.2 ⟨hin, by rw [hfused]; rfl⟩, hphi, hresult⟩
    · exact .inl (hs.values v i d hv hkind hfused hd hne hdom)

/-- What an instruction reads, if it is no phi, has its register in the set, or the code in front of it gives it. -/
theorem read (hreach : ctx.func.Reach b) {front : List InstId} (hlist : ctx.func.instsOf b = front ++ i :: back)
    (hphi : (ctx.func.kind i).isPhi = false) (hv : v ∈ ctx.func.operands i)
    (hplain : ∀ d, ctx.func.definingInst? v = some d → ctx.fused.contains d = false) :
    s.Supplies ctx set v ∨ ctx.func.Gives (ctx.unfused front) v :=
  hs.available h (h.regular.mem_layout_of_reach h.sound hreach) hlist (h.sound.lt_size_of_mem_operands hv)
    (h.strict.operand b front i back hreach hlist hphi v hv) hplain

/-- So it is with what a comparison reads that became part of the branch of the block. -/
theorem read_fused (hreach : ctx.func.Reach b) {last d : InstId} (hlist : ctx.func.instsOf b = before ++ [last])
    {w : ValueId} (hv : v ∈ ctx.func.operands last) (hd : ctx.func.definingInst? v = some d)
    (hfused : ctx.fused.contains d = true) (hw : w ∈ ctx.func.operands d) :
    ∃ front, (∀ i ∈ front, i ∈ before) ∧
      (s.Supplies ctx set w ∨ ctx.func.Gives (ctx.unfused front) w) := by
  obtain ⟨c, front, op, hlist', hkind, -⟩ := h.reader hv hd hfused
  have hblock : ∀ {c}, last ∈ ctx.func.instsOf c → ctx.func.blockOf? last = some c := (h.sound.placed _ last).1
  obtain rfl : b = c := Option.some.inj ((hblock (by simp [hlist])).symm.trans (hblock (by simp [hlist'])))
  obtain ⟨rfl, -⟩ := List.append_inj' (hlist.symm.trans (hlist'.trans (List.append_cons front d [last]))) rfl
  have hphi : (ctx.func.kind d).isPhi = false := by rw [hkind]; rfl
  exact ⟨front, fun i hi => List.mem_append_left _ hi, hs.read h hreach hlist' hphi hw
    (h.plain hw (by rw [hkind]; rfl))⟩

end

end Selection.Opens

/-- What a block ends with is a terminator. -/
theorem ExitCode.isTerminator {i : InstId} {code transfers : List Instr} (h : ExitCode ctx s i code transfers) :
    (ctx.func.kind i).isTerminator = true := by
  cases h with
  | jump hkind | ret hkind | give hkind | branch hkind | fused hkind => rw [hkind]; rfl

/-- The last transfer of a block is the only one that control does not pass. -/
theorem ExitCode.exitsLast {transfers after : List Instr} {j : Instr} (h : ExitCode ctx s i code transfers)
    (hlist : transfers = front ++ j :: after) (hj : j.fallsThrough = false) : after = [] := by
  have hpairs : transfers.Pairwise fun j _ => j.fallsThrough = true := by
    cases h <;> simp [Instr.fallsThrough]
  rw [hlist, List.pairwise_append, List.pairwise_cons] at hpairs
  refine List.eq_nil_iff_forall_not_mem.2 fun k hk => ?_
  rw [hpairs.2.1.1 k hk] at hj
  cases hj

/-- The code of a reachable block is strict, and it writes the registers of its results. -/
theorem BlockCode.strict (h : ctx.Regulated s.slots) {code transfers : List Instr} (hcode : BlockCode ctx s b code transfers)
    (hreach : ctx.func.Reach b) (hlabels : s.HasLabels set) (hset : s.Opens ctx set b) :
    StrictOver set (code ++ transfers) ∧ ∀ v, ctx.func.Gives (ctx.unfused (ctx.func.instsOf b)) v →
      s.slots.lookup v = none → s.Stores (After set code) v := by
  have hb := h.regular.mem_layout_of_reach h.sound hreach
  cases hcode with
  | @mk insts last code code' _ hunfused hinstsCode hexit =>
    have hterm := hexit.isTerminator
    obtain ⟨before, after, hinsts, hbefore⟩ := exists_of_filter_eq_append hunfused
    obtain rfl := h.regular.last hb hinsts hterm
    obtain ⟨hstrict, hresults⟩ := hinstsCode.strict h.sound hlabels (fun front i back hlist hphi v hv => by
      obtain ⟨front', back', rfl, rfl⟩ := exists_of_filter_eq_append (hbefore.trans hlist)
      have hlist' : ctx.func.instsOf b = front' ++ i :: (back' ++ [last]) := by rw [hinsts]; simp
      exact hset.read h hreach hlist' hphi hv (h.plain hv (h.not_isBranch hb hlist' (by simp))))
      fun i hi => h.slots b hb i (by rw [hinsts]; exact List.mem_append_left _ (List.mem_filter.1 (hbefore ▸ hi)).1)
    -- What was supplied or given in front of the terminator is supplied behind the code of the instructions.
    have hsupplied : ∀ {front v}, (∀ i ∈ front, i ∈ before) →
        s.Supplies ctx set v ∨ ctx.func.Gives (ctx.unfused front) v → s.Supplies ctx (After set code) v := by
      rintro front v hfront (hin | ⟨i, hi, hphi, hv⟩)
      · exact hin.after code
      · obtain ⟨hi, hunfused⟩ := List.mem_filter.1 hi
        have hmem : i ∈ insts := hbefore ▸ List.mem_filter.2 ⟨hfront i hi, hunfused⟩
        exact fun hslot => (hresults v ⟨i, hmem, hphi, hv⟩ hslot).supplies ctx hslot
    have hexitStrict := hexit.strict (hlabels.after code)
      (fun v hv hplain => hsupplied (fun _ => id) (hset.read h hreach hinsts (InstKind.not_isPhi hterm) hv hplain))
      fun v hv d hd hfused => by
        obtain ⟨-, -, -, -, -, hbranch⟩ := h.reader hv hd hfused
        refine ⟨hbranch, fun w hw => ?_⟩
        obtain ⟨front, hfront, hread⟩ := hset.read_fused h hreach hinsts hv hd hfused hw
        exact hsupplied hfront hread
    refine ⟨?_, fun v ⟨i, hi, hphi, hv⟩ hslot => ?_⟩
    · rw [List.append_assoc]
      exact strictOver_append.2 ⟨hstrict, hexitStrict⟩
    · rw [after_append]
      refine (hresults v ⟨i, ?_, hphi, hv⟩ hslot).mono fun _ => After.of_set
      -- The terminator has no result.
      refine (List.mem_append.1 (hunfused ▸ hi : i ∈ insts ++ [last])).resolve_right fun hlast => ?_
      have hgives := h.sound.gives i v hv
      rw [List.mem_singleton.1 hlast, InstKind.not_givesValue hterm] at hgives
      cases hgives

end Block

/-! ## The registers that are written where a block starts -/

/-- A register that is written at the start of a machine block: that of a label, a parameter or a value that is computed in
a block that dominates it, or the one from which a phi of the block takes its value. -/
inductive Selection.Held (ctx : SelectionContext) (s : Selection) (taken : List (Nat × Nat)) (k : Nat) (b : BlockId) : Nat → Prop
  | label {n : Nat} {name : String} (hk : k ≠ 0) (hn : s.Belongs n (.label name)) : Held ctx s taken k b n
  | param {n j : Nat} {v : ValueId} (hk : k ≠ 0) (hkind : (ctx.func.value v).kind = .param j)
      (hslot : s.slots.lookup v = none) (hn : s.Belongs n (.value v)) : Held ctx s taken k b n
  | value {n : Nat} {v : ValueId} {i : InstId} {d : BlockId} (hv : v < ctx.func.values.size)
      (hkind : (ctx.func.value v).kind = .inst i) (hslot : s.slots.lookup v = none) (hfused : ctx.fused.contains i = false)
      (hd : ctx.func.blockOf? i = some d) (hne : d ≠ b) (hdom : ctx.func.Dominates d b) (hn : s.Belongs n (.value v)) :
      Held ctx s taken k b n
  | temp {e : Nat × Nat} (he : e ∈ taken) : Held ctx s taken k b e.2

/-- A set has the registers that are written where the transfers of a block stand. -/
structure Selection.Closes (ctx : SelectionContext) (s : Selection) (sent : List (Nat × ValueId)) (set : Nat → Prop)
    (b : BlockId) : Prop extends s.Opens ctx set b where
  labels : s.HasLabels set
  results : ∀ v, ctx.func.Gives (ctx.unfused (ctx.func.instsOf b)) v → s.slots.lookup v = none → s.Stores set v
  copies : ∀ e ∈ sent, set e.1

section Ended

variable {ctx : SelectionContext} {s s' : Selection} {entry : List Instr} {taken : Nat → List (Nat × Nat)}
  {sent : Nat → List (Nat × ValueId)} (h : ctx.Regulated s'.slots)
  (hlow : s'.Lowered ctx s.code.vregCount s.computes s.exits ctx.func.layout taken sent) {k : Nat} {b : BlockId}
  (hk : ctx.func.layout[k]? = some b)

include h hlow hk

variable {set : Nat → Prop}

/-- What is sent at the end of a reachable block has its register there. -/
theorem supplies_sent (hb : ctx.func.Reach b) (hset : s'.Opens ctx set b)
    (hresults : ∀ v, ctx.func.Gives (ctx.unfused (ctx.func.instsOf b)) v → s'.slots.lookup v = none → s'.Stores set v)
    {e : Nat × ValueId} (he : e ∈ sent k) : s'.Supplies ctx set e.2 := by
  obtain ⟨c, hc, phi, hphi, hfeeds⟩ := hlow.origin k b hk e he
  obtain ⟨hin, hkind⟩ := Select.mem_of_mem_phis hphi
  obtain ⟨hpred, hv⟩ := List.of_mem_zip hfeeds
  have hlisted := List.mem_of_getElem? hk
  have hedge := (h.regular.edge_iff hlisted).2 ((h.regular.mem_preds_iff hc).1 hpred).2
  obtain ⟨before, t, hinsts, -, -⟩ := h.regular.ends b hlisted
  have hav := h.strict.incoming c phi (hb.step hedge) hin hkind b e.2 hb hfeeds
  rw [hinsts, List.dropLast_concat] at hav
  have hplain : (ctx.func.kind phi).isBranch = false := by rw [InstKind.isPhi_eq_true.1 hkind]; rfl
  rcases hset.available h hlisted hinsts (h.sound.lt_size_of_mem_operands hv) hav (h.plain hv hplain) with hsupplied | hgives
  · exact hsupplied
  · obtain ⟨i, hi, hgives⟩ := hgives
    obtain ⟨hi, hunfused⟩ := List.mem_filter.1 hi
    have hmem : i ∈ ctx.unfused (ctx.func.instsOf b) :=
      List.mem_filter.2 ⟨hinsts ▸ List.mem_append_left _ hi, hunfused⟩
    exact fun hslot => (hresults e.2 ⟨i, hmem, hgives⟩ hslot).supplies ctx hslot

variable (hs : s.Selected ctx entry ctx.func.layout) (hentry : ParamsCode s ctx.func.params.zipIdx entry)
  (hext : s.Extends s')

include hs hentry hext

/-- Behind the moves into its phis, and in the entry behind its front, a block has the registers that its code starts
with. -/
theorem strict_top {top : List Instr} (htop : TakeCode s' (taken k) top)
    (hfront : front = if k = 0 then s.front else []) :
    StrictOver (s'.Held ctx (taken k) k b) (top ++ front) ∧ s.HasLabels (After (s'.Held ctx (taken k) k b) (top ++ front)) ∧
      s'.Opens ctx (After (s'.Held ctx (taken k) k b) (top ++ front)) b := by
  have htemps : ∀ e ∈ taken k, s'.Held ctx (taken k) k b e.2 := fun e he => .temp he
  obtain ⟨hstrict, hwrites⟩ := htop.strict htemps
  -- The registers of labels and of parameters are written in the front of the entry.
  obtain ⟨hfrontStrict, hlabels, hparams⟩ : StrictOver (After (s'.Held ctx (taken k) k b) top) front ∧
      s.HasLabels (After (s'.Held ctx (taken k) k b) (top ++ front)) ∧
      ∀ v j, (ctx.func.value v).kind = .param j →
        s'.Supplies ctx (After (s'.Held ctx (taken k) k b) (top ++ front)) v := by
    by_cases hzero : k = 0
    · rw [if_pos hzero, hs.front] at hfront
      subst hfront
      have hloads : ∀ set, StrictOver set (s.addresses.reverse.map .loadOf) := by
        refine fun set => .of_sources fun i hi => ?_
        obtain ⟨e, -, rfl⟩ := List.mem_map.1 hi
        exact List.forall_mem_nil _
      refine ⟨strictOver_append.2 ⟨hentry.strict.1, hloads _⟩, fun n name hn => ?_, fun v j hkind => ?_⟩
      · exact .of_mem (by simp only [List.mem_append]; exact .inr (.inr (Selection.mem_loads hn))) List.mem_cons_self
      · obtain ⟨place, hplace⟩ := List.getElem?_of_mem (h.only v j hkind)
        have hmem : (v, place) ∈ ctx.func.params.zipIdx := List.mem_zipIdx_iff_getElem?.2 hplace
        rw [after_append, after_append]
        exact (((hentry.strict.2 _ hmem).extend hext).mono fun _ => After.of_set).supplies ctx
    · rw [if_neg hzero] at hfront
      subst hfront
      exact ⟨trivial, fun n name hn => .of_set (.label hzero (hext.kept n _ hn)),
        fun v j hkind hslot _ n hn => .of_set (.param hzero hkind hslot hn)⟩
  refine ⟨strictOver_append.2 ⟨hstrict, hfrontStrict⟩, hlabels, hparams, fun i hi v hv => ?_,
    fun v i d hv hkind hfused hd hne hdom hslot _ n hn => .of_set (.value hv hkind hslot hfused hd hne hdom hn)⟩
  -- A phi has its value from the move on top.
  obtain ⟨e, he, htakes⟩ := exists_of_forall₂_right (hlow.takes k b hk (List.mem_of_getElem? hk)).flip hi
  obtain ⟨r, hr, hn⟩ := htakes.owner
  obtain rfl := Option.some.inj (hv.symm.trans hr)
  rw [after_append]
  exact Selection.Stores.supplies ⟨e.1, hn, .of_set (hwrites e he)⟩ ctx

/-- **The code of a reachable block is strict** over the registers that are held at its start, and what is in front of its
transfers writes all that the blocks behind it may hold. -/
theorem strict_block (hb : ctx.func.Reach b) : ∃ body, s'.code.instsOf k = body ++ s.exits k ∧
    (∀ i ∈ body, i.isTransfer = false) ∧ StrictOver (s'.Held ctx (taken k) k b) (body ++ s.exits k) ∧
    s'.Closes ctx (sent k) (After (s'.Held ctx (taken k) k b) body) b := by
  have hlt : k < ctx.func.layout.length := (List.getElem?_eq_some_iff.1 hk).1
  obtain ⟨top, mid, copies, hinsts, htop, hmid, hcopies, hbody⟩ := hlow.parts hlt
  obtain ⟨code, transfers, hcode, hcompiled⟩ := hs.code k b hk (List.mem_of_getElem? hk)
  obtain ⟨hcalm, htransfers⟩ := hcode.calm hs.toSound
  rw [Selection.computes_of_body hcompiled (fun i hi => (hcalm i hi).1) fun i hi => (htransfers i hi).1] at hmid
  rw [Selection.exits_of_body hcompiled (fun i hi => (hcalm i hi).1) fun i hi => (htransfers i hi).1] at hinsts ⊢
  obtain ⟨hstart, hlabels, hopens⟩ := strict_top h hlow hk hs hentry hext htop rfl
  obtain ⟨hstrict, hresults⟩ := hcode.strict (hext.slots ▸ h) hb hlabels (hopens.of_extends hext)
  rw [strictOver_append] at hstart hstrict
  -- The loads of addresses that were added change nothing.
  have hkeeps : ∀ n, After (After (s'.Held ctx (taken k) k b) (top ++ if k = 0 then s.front else [])) code n →
      After (s'.Held ctx (taken k) k b) (top ++ mid) n := by
    intro n hn
    rw [after_append, ← after_append] at hn
    rw [after_append]
    exact hn.mono (fun _ => id) hmid.subset
  have hopens' : s'.Opens ctx (After (s'.Held ctx (taken k) k b) (top ++ mid)) b :=
    hopens.mono fun n hn => hkeeps n (.of_set hn)
  have hresults' : ∀ v, ctx.func.Gives (ctx.unfused (ctx.func.instsOf b)) v → s'.slots.lookup v = none →
      s'.Stores (After (s'.Held ctx (taken k) k b) (top ++ mid)) v := fun v hv hslot =>
    ((hresults v hv (hext.slots ▸ hslot)).extend hext).mono hkeeps
  have hlabels' : s'.HasLabels (After (s'.Held ctx (taken k) k b) (top ++ mid)) := by
    intro n name hn
    by_cases hzero : k = 0
    · -- The load is neither among the copies nor among the transfers.
      have hload := hlow.entryLoads n name hn
      rw [← hzero, hinsts] at hload
      rcases List.mem_append.1 hload with hload | hload
      · rcases List.mem_append.1 hload with hload | hload
        · exact .of_mem hload List.mem_cons_self
        · obtain ⟨e, -, hcopy⟩ := exists_of_forall₂_right hcopies hload
          cases hcopy
      · cases (htransfers _ hload).1
    · exact .of_set (.label hzero hn)
  have hsources : ∀ i ∈ copies, ∀ op ∈ i.sources, op.Among (After (s'.Held ctx (taken k) k b) (top ++ mid)) := by
    intro i hi
    obtain ⟨e, he, hcopy⟩ := exists_of_forall₂_right hcopies hi
    exact hcopy.among hlabels' (supplies_sent h hlow hk hb hopens' hresults' he)
  have hmidStrict : StrictOver (s'.Held ctx (taken k) k b) (top ++ mid) := by
    rw [after_append] at hstrict
    exact strictOver_append.2 ⟨hstart.1, hmid.strict (strictOver_append.2 ⟨hstart.2, hstrict.1⟩)⟩
  refine ⟨top ++ mid ++ copies, hinsts, fun i hi => (hbody i hi).1, ?_, ?_⟩
  · refine strictOver_append.2 ⟨strictOver_append.2 ⟨hmidStrict, .of_sources hsources⟩, ?_⟩
    rw [after_append]
    exact hstrict.2.mono fun n hn => .of_set (hkeeps n hn)
  · rw [after_append]
    refine ⟨hopens'.mono fun _ => After.of_set, fun n name hn => .of_set (hlabels' n name hn),
      fun v hv hslot => (hresults' v hv hslot).mono fun _ => After.of_set, fun e he => ?_⟩
    obtain ⟨i, hi, hcopy⟩ := exists_of_forall₂_right hcopies.flip he
    exact .of_mem hi hcopy.mem_defs

omit hs hentry hext in
/-- What is held along an edge is written in front of the transfers of the block that it leaves. -/
theorem written_of_held (hclose : s'.Closes ctx (sent k) set b) (hheld : ∀ n, s'.Held ctx (taken k) k b n → set n)
    {t : Nat} {c : BlockId} (ht : ctx.func.layout[t]? = some c) (hpred : b ∈ ctx.func.preds c) {n : Nat}
    (hn : s'.Held ctx (taken t) t c n) : set n := by
  have hlisted := List.mem_of_getElem? hk
  have htarget := List.mem_of_getElem? ht
  cases hn with
  | label _ hn => exact hclose.labels _ _ hn
  | param _ hkind hslot hn => exact hclose.params _ _ hkind hslot (by rw [hkind]; rfl) _ hn
  | @value _ v i d hv hkind hslot hfused hd hne hdom hn =>
    have hedge := (h.regular.edge_iff hlisted).2 ((h.regular.mem_preds_iff htarget).1 hpred).2
    by_cases hdb : d = b
    · -- The value is computed in the block itself.
      subst hdb
      have hin := (h.sound.placed d i).2 hd
      have hresult := h.sound.result_of_kind i v hv hkind
      cases hphi : (ctx.func.kind i).isPhi with
      | true => exact hclose.phis i ((h.regular.mem_phis hlisted).2 ⟨hin, hphi⟩) v hresult hslot (by rw [hkind]; rfl) _ hn
      | false =>
        obtain ⟨n', hn', hset⟩ :=
          hclose.results v ⟨i, List.mem_filter.2 ⟨hin, by rw [hfused]; rfl⟩, hphi, hresult⟩ hslot
        exact hn.unique hn' ▸ hset
    · exact hheld _ (.value hv hkind hslot hfused hd hdb (hdom.of_edge hne hedge) hn)
  | @temp e he =>
    have htakes := hlow.takes t c ht htarget
    obtain ⟨j, hj⟩ := List.getElem?_of_mem he
    obtain ⟨phi, hphi⟩ : ∃ phi, (ctx.func.phis c)[j]? = some phi :=
      ⟨_, List.getElem?_eq_getElem (htakes.length_eq ▸ (List.getElem?_eq_some_iff.1 hj).1)⟩
    obtain ⟨hin, hkind⟩ := Select.mem_of_mem_phis (List.mem_of_getElem? hphi)
    obtain ⟨v, hfeeds⟩ := h.regular.exists_feeds htarget hin hkind hpred
    have hzip : (phi, e) ∈ (ctx.func.phis c).zip (taken t) :=
      List.mem_of_getElem? (i := j) (List.getElem?_zip_eq_some.2 ⟨hphi, hj⟩)
    exact hclose.copies _ (hlow.fed t c ht htarget (phi, e) hzip k b v hk hfeeds)

end Ended

/-- What the first phi of a block takes is read by the first move on top of the block. -/
theorem TakeCode.liveFrom {s : Selection} {mf : MachineFunction} {budget : RegisterSet} {e : Nat × Nat}
    {taken : List (Nat × Nat)} (h : TakeCode s (e :: taken) code) (hfree : ∀ o, ¬ s.Belongs e.2 o) (rest : List Instr) :
    mf.LiveFrom budget (Node.firstVirtual + e.2) (code ++ rest) := by
  generalize htaken : e :: taken = all at h
  induction h with
  | nil => cases htaken
  | @load n name _ _ hn _ ih =>
    refine .pass rfl (fun hmem => ?_) (ih htaken)
    have hsame : Operand.virtual e.2 = .virtual n := List.mem_singleton.1 (Instr.mem_defNodes_virtual.1 hmem)
    exact hfree (.label name) (Operand.virtual.inj hsame ▸ hn)
  | move =>
    cases htaken
    exact .use (Instr.mem_useNodes_virtual.2 List.mem_cons_self)

/-- A transfer stands behind the code that has none. -/
theorem exists_of_transfer {body exit before after : List Instr} {i : Instr} (hbody : ∀ j ∈ body, j.isTransfer = false)
    (hi : i.isTransfer = true) (h : body ++ exit = before ++ i :: after) :
    ∃ front, before = body ++ front ∧ exit = front ++ i :: after := by
  rcases List.append_eq_append_iff.1 h with hfront | ⟨back, hback, hrest⟩
  · exact hfront
  · cases back with
    | nil => exact ⟨[], by rw [hback, List.append_nil, List.append_nil], hrest.symm⟩
    | cons j back =>
      obtain ⟨rfl, -⟩ := List.cons.inj hrest
      rw [hbody i (by rw [hback]; simp)] at hi
      cases hi

namespace Selection.Ended

variable {ctx : SelectionContext} {s s' : Selection} (hended : s.Ended ctx s') {mf : MachineFunction}
  (hinsts : ∀ b, mf.instsOf b = s'.code.instsOf b)

include hended hinsts

/-- **Selected code writes every virtual register before it reads it** on every path, exactly if the entry has no phis. -/
theorem writesBeforeReads_iff (h : ctx.Regulated s'.slots) (budget : RegisterSet) : mf.WritesBeforeReads budget ↔
    ∀ e, ctx.func.layout.head? = some e → ctx.func.phis e = [] := by
  obtain ⟨⟨entry, hentry, hs⟩, hext, taken, sent, hlow⟩ := hended
  obtain ⟨e, rest, hlayout, -⟩ := h.regular.entry
  have hhead : ctx.func.layout.head? = some e := by rw [hlayout]; rfl
  have hfirst : ctx.func.layout[0]? = some e := by rw [hlayout]; rfl
  have htakes := hlow.takes 0 e hfirst (List.mem_of_getElem? hfirst)
  constructor
  · intro hwrites e' he'
    obtain rfl := Option.some.inj (hhead.symm.trans he')
    -- The first phi would take what nobody has written.
    by_contra hphis
    cases htaken : taken 0 with
    | nil =>
      rw [htaken] at htakes
      exact hphis (List.forall₂_nil_right_iff.1 htakes)
    | cons p pairs =>
      obtain ⟨top, mid, copies, hcode, htop, -, -, -⟩ := hlow.parts (List.getElem?_eq_some_iff.1 hfirst).1
      rw [htaken] at htop htakes
      obtain ⟨phi, -, hphi⟩ := exists_of_forall₂_right htakes List.mem_cons_self
      refine hwrites p.2 ?_
      rw [hinsts, hcode, List.append_assoc, List.append_assoc]
      exact htop.liveFrom hphi.scratch.free _
  · intro hphis
    have htaken : taken 0 = [] := by
      rw [hphis e hhead] at htakes
      exact List.forall₂_nil_left_iff.1 htakes
    refine mf.writesBeforeReads_of_strict budget (fun k n => ∃ b, ctx.func.layout[k]? = some b ∧ s'.Held ctx (taken k) k b n)
      (fun k => ∃ b, ctx.func.layout[k]? = some b ∧ ctx.func.Reach b) ⟨e, hfirst, .entry hhead⟩ ?_ ?_ ?_
    · rintro n ⟨b, hb, hheld⟩
      obtain rfl := Option.some.inj (hfirst.symm.trans hb)
      cases hheld with
      | label hk => exact hk rfl
      | param hk => exact hk rfl
      | value _ _ _ _ _ hne hdom => exact hdom (.entry hhead (Ne.symm hne))
      | temp hp =>
        rw [htaken] at hp
        exact absurd hp List.not_mem_nil
    · rintro k ⟨b, hk, hb⟩
      obtain ⟨body, hcode, -, hstrict, -⟩ := strict_block h hlow hk hs hentry hext hb
      rw [hinsts, hcode]
      exact hstrict.mono fun n hn => ⟨b, hk, hn⟩
    · rintro k ⟨b, hk, hb⟩ before i after hlist t htarget
      obtain ⟨body, hcode, hcalm, -, hclose⟩ := strict_block h hlow hk hs hentry hext hb
      rw [hinsts, hcode] at hlist
      obtain ⟨front, rfl, hexit⟩ := exists_of_transfer hcalm (MachineFunction.isTransfer_of_target htarget) hlist
      have hi : i ∈ s.exits k := hexit ▸ List.mem_append_right _ List.mem_cons_self
      have ht := (hs.exit (List.getElem?_eq_some_iff.1 hk).1 hi).2.2 t htarget
      have hat : ctx.func.layout[t]? = some ctx.func.layout[t] := List.getElem?_eq_getElem ht
      have hpred := hs.mem_preds h.regular.shaped hk hat hi htarget
      have hedge := (h.regular.edge_iff (List.mem_of_getElem? hk)).2
        ((h.regular.mem_preds_iff (List.mem_of_getElem? hat)).1 hpred).2
      refine ⟨⟨_, hat, hb.step hedge⟩, fun n ⟨c, hc, hheld⟩ => ?_⟩
      obtain rfl := Option.some.inj (hat.symm.trans hc)
      have hwritten := written_of_held h hlow hk hclose (fun _ => After.of_set) hat hpred hheld
      rw [after_append]
      exact .of_set (hwritten.mono (fun n hn => ⟨b, hk, hn⟩) fun _ => id)

/-- Nothing but transfers stands behind a transfer, and nothing behind one that control does not pass. -/
theorem transfersLast : mf.TransfersLast ∧ mf.ExitsLast := by
  obtain ⟨⟨entry, -, hs⟩, -, taken, sent, hlow⟩ := hended
  have hparts : ∀ k before i after, mf.instsOf k = before ++ i :: after → i.isTransfer = true → k < ctx.func.layout.length ∧
      ∃ front, s.exits k = front ++ i :: after := by
    intro k before i after hlist hi
    rw [hinsts] at hlist
    have hk : k < ctx.func.layout.length := by
      rw [← hlow.size]
      exact MachineFunction.lt_size_of_instsOf (by rw [hlist]; simp)
    obtain ⟨top, mid, copies, hcode, -, -, -, hcalm⟩ := hlow.parts hk
    rw [hcode] at hlist
    obtain ⟨front, -, hexit⟩ := exists_of_transfer (fun j hj => (hcalm j hj).1) hi hlist
    exact ⟨hk, front, hexit⟩
  refine ⟨fun k before i after hlist hi j hj => ?_, fun k before i after hlist hi => ?_⟩
  · obtain ⟨hk, front, hexit⟩ := hparts k before i after hlist hi
    exact (hs.exit hk (hexit ▸ List.mem_append_right _ (List.mem_cons_of_mem _ hj))).1
  · have htransfer : i.isTransfer = true := by cases i <;> first | rfl | cases hi
    obtain ⟨hk, front, hexit⟩ := hparts k before i after hlist htransfer
    obtain ⟨code, transfers, hcode, hbody⟩ := hs.code k _ (List.getElem?_eq_getElem hk) (List.getElem_mem hk)
    obtain ⟨hcalm, htransfers⟩ := hcode.calm hs.toSound
    rw [Selection.exits_of_body hbody (fun i hi => (hcalm i hi).1) fun i hi => (htransfers i hi).1] at hexit
    cases hcode with
    | mk _ _ hterm => exact hterm.exitsLast hexit hi

end Selection.Ended

namespace Function

variable {f : Function} {m : Module} {loops : LoopForest}

section

variable (hf : f.Produced) (hregular : f.Regular)

include hf hregular

theorem Produced.orderly : f.Orderly :=
  ⟨hf.sound, hregular.shaped, hf.tidy.tended.valued, hf.headed.params⟩

/-- Selection of a function in strict form keeps to its compares and its slots. -/
theorem regulated_of_run (hstrict : f.Strict) {fused : NatSet} {s s₀ : Selection} (hfused : f.fusedCompares = .ok fused)
    (hslots : (f.placedInsts.forM (Select.assignSlot f)).run (f.selectionStart loops) = .ok ((), s₀))
    (hsame : s.slots = s₀.slots) : ({ module := m, func := f, fused } : SelectionContext).Regulated s.slots := by
  refine ⟨⟨hf.sound, hregular, hstrict⟩, hf.headed, fun i hi => exists_fusable hfused hi, fun b hb i hi words hkind => ?_⟩
  rw [hsame]
  exact (reserved_of_run hslots).all i (List.mem_flatMap.2 ⟨b, hb, hi⟩) ⟨words, hkind⟩

end

/-- **Selected code is strict.** Every function in strict SSA form that comes from text, optimized or not, and that
verification accepts is selected to code in which no virtual register is live at the start of the first block, and every
one is written before it is read on every path, if and only if the entry has no phis. -/
theorem strict_select_iff {mf : MachineFunction} (hf : f.Produced) (hv : f.verify = .ok ()) (hstrict : f.Strict)
    (h : f.select m loops = .ok mf) (budget : RegisterSet) : ∃ l, Liveness.ofFunction mf budget = .ok l ∧
      ((∀ n, (l.liveIn.getD 0 .empty).contains (Node.firstVirtual + n) = false) ↔ mf.WritesBeforeReads budget) ∧
      (mf.WritesBeforeReads budget ↔ ∀ e, f.layout.head? = some e → f.phis e = []) := by
  have hregular := regular_of_verify hf.sound hv
  have horderly := hf.orderly hregular
  rw [select_eq] at h
  obtain ⟨s, hselection, hlink⟩ := Outcome.bind_eq_ok.1 h
  obtain ⟨fused, s₀, s₁, hfused, hslots, hsame, hended⟩ := stages_of_selection horderly hselection
  have hregulated := regulated_of_run (m := m) hf hregular hstrict hfused hslots hsame
  have hinsts := MachineFunction.instsOf_linkBlocks hlink
  obtain ⟨mf', hmf', hallotted⟩ := (hended.allotted horderly).link
  cases hmf'.symm.trans hlink
  obtain ⟨l, hl⟩ := Liveness.ofFunction_total mf budget hallotted.toLinked
  obtain ⟨htransfers, hexits⟩ := hended.transfersLast hinsts
  have hprecise := Liveness.precise_of_ofFunction (Liveness.explorable_cfg hallotted.toLinked) hl
  refine ⟨l, hl, forall_congr' fun n => ?_, hended.writesBeforeReads_iff hinsts hregulated budget⟩
  rw [← hprecise.contains_iff_liveFrom (Liveness.sound_of_ofFunction hl) htransfers hexits, Bool.not_eq_true]

/-- A function with a phi, but not in the entry. -/
theorem strict_select_iff_constantBranch : constantBranch.verify = .ok () ∧ constantBranch.Strict ∧
    ∃ tree mf l, DominatorTree.ofCfg constantBranch.cfg = .ok tree ∧
      constantBranch.select { functions := #[constantBranch] } (LoopForest.ofCfg constantBranch.cfg tree) = .ok mf ∧
      Liveness.ofFunction mf (.firstGeneral 2) = .ok l ∧
      (∀ n, (l.liveIn.getD 0 .empty).contains (Node.firstVirtual + n) = false) ∧ mf.WritesBeforeReads (.firstGeneral 2) := by
  obtain ⟨mf, hmf⟩ : ∃ mf, (DominatorTree.ofCfg constantBranch.cfg >>= fun tree =>
      constantBranch.select { functions := #[constantBranch] } (LoopForest.ofCfg constantBranch.cfg tree)) = .ok mf :=
    exists_of_toBool (by cbv)
  obtain ⟨tree, htree, hselect⟩ := Outcome.bind_eq_ok.1 hmf
  obtain ⟨l, hl, hnone, hphis⟩ :=
    strict_select_iff produced_constantBranch verify_constantBranch strict_constantBranch hselect (.firstGeneral 2)
  have hwrites := hphis.2 fun e he => by
    obtain rfl : 0 = e := Option.some.inj he
    rfl
  exact ⟨verify_constantBranch, strict_constantBranch, tree, mf, l, htree, hselect, hl, hnone.2 hwrites, hwrites⟩

/-- A phi of the entry that takes its value from an unreachable block. -/
def phiOfUnreachable : Function where
  name := "main"
  returnsValue := true
  values := #[
    { kind := .inst 0, name := some "p", uses := [⟨1, 0⟩] },
    { kind := .const 1, uses := [⟨0, 0⟩] }]
  insts := #[
    { kind := .phi, operands := [1], result := some 0, block := some 0 },
    { kind := .ret, operands := [0], result := none, block := some 0 },
    { kind := .jump 0, operands := [], result := none, block := some 1 }]
  blocks := #[
    { name := "entry", insts := [0, 1], preds := [1] },
    { name := "dead", insts := [2] }]
  layout := [0, 1]

/-- The function without the unreachable block: its phi is left without a value. -/
def emptyPhi : Function where
  name := "main"
  returnsValue := true
  values := #[
    { kind := .inst 0, name := some "p", uses := [⟨1, 0⟩] },
    { kind := .const 1 }]
  insts := #[
    { kind := .phi, operands := [], result := some 0, block := some 0 },
    { kind := .ret, operands := [0], result := none, block := some 0 },
    { kind := .jump 0, operands := [], result := none, block := none }]
  blocks := #[
    { name := "entry", insts := [0, 1] },
    { name := "dead", insts := [], removed := true }]
  layout := [0]

/-- Pruning makes it out of a function that is read from text. -/
theorem produced_emptyPhi : emptyPhi.Produced := by
  have hread : Module.parse ("func @main() -> int \x7b\nentry:\n %p = phi [^dead, 1]\n ret %p\ndead:\n jump ^entry\n\x7d") =
      .ok { functions := #[phiOfUnreachable] } := by cbv
  have hprune : (Pass.edit .pruneUnreachable).run phiOfUnreachable = (.ok (), emptyPhi) := by cbv
  exact .pass .pruneUnreachable (.read hread (Array.mem_singleton.2 rfl)) hprune

/-- The register from which the phi without a value takes one is live at the start, as nothing writes it. -/
theorem live_at_start_emptyPhi : emptyPhi.Produced ∧ emptyPhi.verify = .ok () ∧ emptyPhi.Strict ∧
    ∃ tree mf l, DominatorTree.ofCfg emptyPhi.cfg = .ok tree ∧
      emptyPhi.select { functions := #[emptyPhi] } (LoopForest.ofCfg emptyPhi.cfg tree) = .ok mf ∧
      Liveness.ofFunction mf (.firstGeneral 2) = .ok l ∧
      (l.liveIn.getD 0 .empty).contains (Node.firstVirtual + 1) = true ∧ ¬ mf.WritesBeforeReads (.firstGeneral 2) := by
  have hverify : emptyPhi.verify = .ok () := by cbv
  have hrun : (DominatorTree.ofCfg emptyPhi.cfg >>= fun tree =>
      emptyPhi.select { functions := #[emptyPhi] } (LoopForest.ofCfg emptyPhi.cfg tree) >>= fun mf =>
      Liveness.ofFunction mf (.firstGeneral 2) >>= fun l =>
      pure (mf.instsOf 0, (l.liveIn.getD 0 .empty).contains (Node.firstVirtual + 1))) =
      .ok ([.move (.virtual 0) (.virtual 1), .move .v0 (.virtual 0), .ret true], true) := by cbv
  obtain ⟨tree, htree, h₁⟩ := Outcome.bind_eq_ok.1 hrun
  obtain ⟨mf, hselect, h₂⟩ := Outcome.bind_eq_ok.1 h₁
  obtain ⟨l, hl, h₃⟩ := Outcome.bind_eq_ok.1 h₂
  obtain ⟨hinsts, hlive⟩ := Prod.mk.inj (Except.ok.inj h₃)
  refine ⟨produced_emptyPhi, hverify, strict_of_readsLocally (by decide), tree, mf, l, htree, hselect, hl, hlive,
    fun hwrites => hwrites 1 ?_⟩
  rw [hinsts]
  exact .use (Instr.mem_useNodes_virtual.2 List.mem_cons_self)

end Function

end SsaCompiler
