import SsaCompiler.Proofs.Ir.Strictness
import Mathlib.Data.List.Perm.Basic

/-!
# Rerouted edges

Folding a branch, splicing out a block and removing unreachable blocks have in common that a run computes
the same values as before and only goes over other edges: an edge to a block that holds nothing but a jump
may lead to the target of the jump at once. `Redirects` says what such a change keeps, and `Reroutes` that it
also keeps what runs compute.

The main statements are that strictness is kept (`Redirects.strict`), because every path of the new function
is a path of the old one with some blocks left out, and that runs show the same (`Reroutes.sameMeaning`).
-/

set_option autoImplicit false

namespace SsaCompiler

variable {i : InstId} {values : List Word}

namespace InstKind

/-- An action that goes somewhere else. -/
def Action.via {W : Type} (σ : BlockId → BlockId) : Action W → Action W
  | .goto target => .goto (σ target)
  | .stop o => .stop o
  | .effect value memory world events => .effect value memory world events

/-- The kind with other arms. -/
def retarget (σ : BlockId → BlockId) : InstKind → InstKind
  | branch t e => branch (σ t) (σ e)
  | jump t => jump (σ t)
  | kind => kind

/-- The arms of a kind with other arms. -/
theorem targets_retarget (σ : BlockId → BlockId) (kind : InstKind) :
    (kind.retarget σ).targets = kind.targets.map σ := by
  cases kind <;> rfl

variable {σ : BlockId → BlockId} {kind : InstKind} {W : Type}

/-- Only terminators have arms. -/
theorem retarget_of_not_isTerminator (h : kind.isTerminator = false) : kind.retarget σ = kind := by
  cases kind <;> first | rfl | cases h

/-- An instruction without arms goes nowhere. -/
theorem via_perform {env : IrEnv W} {m : Memory} {w : W} (h : kind.targets = []) :
    (kind.perform env i values m w).via σ = kind.perform env i values m w := by
  cases hact : kind.perform env i values m w with
  | goto target =>
    have htarget := (mem_targets_of_perform hact).2
    rw [h] at htarget
    cases htarget
  | stop o => rfl
  | effect value memory world events => rfl

/-- A kind with other arms goes to them. -/
theorem perform_retarget (env : IrEnv W) (σ : BlockId → BlockId) (kind : InstKind) (i : InstId) (values : List Word)
    (m : Memory) (w : W) : (kind.retarget σ).perform env i values m w = (kind.perform env i values m w).via σ := by
  cases kind with
  | branch t e =>
    match values with
    | [] => rfl
    | [c] =>
      unfold retarget perform Action.via
      dsimp only
      congr 1
      split <;> rfl
    | _ :: _ :: _ => rfl
  | jump t => cases values <;> rfl
  | _ => exact (via_perform rfl).symm

end InstKind

namespace Function

variable {f f' : Function} {hop : BlockId → Option BlockId} {ρ : InstId → InstId}

/-! ## Blocks of the same shape -/

variable {b t : BlockId} {before : List InstId}

/-- A block whose instructions are exchanged for others of the same sort ends in its only terminator. -/
theorem Regular.ends_of_map (h : f.Regular) (hb : b ∈ f.layout) (hinsts : f'.instsOf b = (f.instsOf b).map ρ)
    (hterm : ∀ i ∈ f.instsOf b, (f'.kind (ρ i)).isTerminator = (f.kind i).isTerminator) :
    ∃ before t, f'.instsOf b = before ++ [t] ∧ (f'.kind t).isTerminator = true ∧
      ∀ i ∈ before, (f'.kind i).isTerminator = false := by
  obtain ⟨before, t, ht, hlast, hbefore⟩ := h.ends b hb
  refine ⟨before.map ρ, ρ t, by rw [hinsts, ht, List.map_append]; rfl, ?_, fun i hi => ?_⟩
  · rw [hterm t (by rw [ht]; simp), hlast]
  · obtain ⟨j, hj, rfl⟩ := List.mem_map.1 hi
    rw [hterm j (by rw [ht]; simp [hj]), hbefore j hj]

/-- A block whose instructions are exchanged for others of the same sort begins with its phis. -/
theorem Regular.phis_first_of_map (h : f.Regular) (hb : b ∈ f.layout) (hinsts : f'.instsOf b = (f.instsOf b).map ρ)
    (hphi : ∀ i ∈ f.instsOf b, (f'.kind (ρ i)).isPhi = (f.kind i).isPhi) {after : List InstId}
    (hsplit : f'.instsOf b = before ++ i :: after) (hi : (f'.kind i).isPhi = true) :
    ∀ j ∈ before, (f'.kind j).isPhi = true := by
  rw [hinsts] at hsplit
  obtain ⟨before, rest, hold, rfl, hrest⟩ := List.map_eq_append_iff.1 hsplit
  obtain ⟨i, after, rfl, rfl, rfl⟩ := List.map_eq_cons_iff.1 hrest
  rw [hphi i (by rw [hold]; simp)] at hi
  intro j hj
  obtain ⟨k, hk, rfl⟩ := List.mem_map.1 hj
  rw [hphi k (by rw [hold]; simp [hk])]
  exact h.phis_first b hb before i after hold hi k hk

/-- Erasing a predecessor and its slot erases what the phi takes from it. -/
theorem zip_eraseIdx {α β : Type} (l : List α) (l' : List β) (k : Nat) (h : l.length = l'.length) :
    (l.eraseIdx k).zip (l'.eraseIdx k) = (l.zip l').eraseIdx k := by
  induction l generalizing l' k with
  | nil => simp
  | cons a rest ih =>
    cases l' with
    | nil => cases h
    | cons a' rest' =>
      cases k with
      | zero => rfl
      | succ k =>
        rw [List.eraseIdx_cons_succ, List.eraseIdx_cons_succ, List.zip_cons_cons, List.zip_cons_cons,
          List.eraseIdx_cons_succ, ih rest' k (Nat.succ.inj h)]

/-- The number of entries in a list without one of them. -/
theorem count_eraseIdx {l : List BlockId} {k : Nat} (h : l[k]? = some b) (p : BlockId) :
    (l.eraseIdx k).count p + (if p = b then 1 else 0) = l.count p := by
  obtain ⟨hk, hb⟩ := List.getElem?_eq_some_iff.1 h
  have hperm := (List.getElem_cons_eraseIdx_perm hk).count_eq p
  rw [List.count_cons, hb] at hperm
  rw [← hperm]
  congr 1
  by_cases hpb : p = b
  · simp [hpb]
  · simp [hpb, Ne.symm hpb]

/-! ## Rerouting -/

/-- The block at which an edge to `b` ends. -/
def landing (hop : BlockId → Option BlockId) (b : BlockId) : BlockId := (hop b).getD b

/-- A way from `p` to `t`, on which `m` is the last block before `t`: an edge from `p` itself, or two edges
through a block that is hopped over. -/
def Via (f : Function) (hop : BlockId → Option BlockId) (p m t : BlockId) : Prop :=
  hop p = none ∧ hop t = none ∧ (m = p ∧ t ∈ f.arms p ∨ m ∈ f.arms p ∧ hop m = some t)

/-- The second function holds the instructions of the first one, and its edges are edges of the first one or
lead over blocks that are hopped over. `hop` gives the targets of those blocks, and `ρ` the new places of the
instructions. -/
structure Redirects (f f' : Function) (hop : BlockId → Option BlockId) (ρ : InstId → InstId) : Prop where
  head : f'.layout.head? = f.layout.head?
  entry : ∀ e, f.layout.head? = some e → hop e = none
  kinds : ∀ v, (f'.value v).kind = (f.value v).kind
  listed : ∀ b, f.Reach b → hop b = none → b ∈ f'.layout
  insts : ∀ b, f.Reach b → hop b = none → f'.instsOf b = (f.instsOf b).map ρ
  body : ∀ b, f.Reach b → hop b = none → ∀ i ∈ f.instsOf b, (f.kind i).isTerminator = false →
    ρ i = i ∧ f'.kind i = f.kind i ∧ f'.result? i = f.result? i ∧
      ((f.kind i).isPhi = false → f'.operands i = f.operands i)
  ends : ∀ b, f.Reach b → hop b = none → ∀ t ∈ f.instsOf b, (f.kind t).isTerminator = true →
    (f'.kind (ρ t)).isTerminator = true ∧ f'.operands (ρ t) ⊆ f.operands t ∧
      (f'.kind (ρ t)).targets ⊆ (f.kind t).targets.map (landing hop)
  hops : ∀ m t, f.Reach m → hop m = some t →
    hop t = none ∧ ∃ j, f.instsOf m = [j] ∧ f.kind j = .jump t ∧ f.operands j = []
  fed : ∀ t, f.Reach t → hop t = none → ∀ phi ∈ f.phis t, ∀ p v, f.Reach p → hop p = none →
    f'.Feeds t phi p v → f.Feeds t phi p v ∨ ∃ m, f.Via hop p m t ∧ f.Feeds t phi m v

/-- The second function does the same as the first one, but for edges. -/
structure Reroutes (f f' : Function) (hop : BlockId → Option BlockId) (ρ : InstId → InstId) : Prop
    extends Redirects f f' hop ρ where
  /-- A terminator that can be run goes where it went. -/
  goes : ∀ b, f.Reach b → hop b = none → ∀ t ∈ f.instsOf b, (f.kind t).isTerminator = true →
    ∀ {W : Type} (env : IrEnv W) vals values, (f.operands t).mapM (f.read env vals) = some values →
      ∃ values', (f'.operands (ρ t)).mapM (f.read env vals) = some values' ∧ ∀ m w,
        (f'.kind (ρ t)).perform env (ρ t) values' m w =
          ((f.kind t).perform env t values m w).via (landing hop)
  feeds : ∀ p m t, f.Reach p → f.Via hop p m t → t ∈ f'.arms p → p ∈ f'.preds t ∧
    ∀ phi ∈ f.phis t, ∀ v, f.Feeds t phi m v → f'.Feeds t phi p v

variable {m p : BlockId} {phi : InstId}

namespace Redirects

section

variable (h : Redirects f f' hop ρ)

include h

/-- Values are read as before. -/
theorem read {W : Type} (env : IrEnv W) (vals : ValueId → Option Word) (v : ValueId) :
    f'.read env vals v = f.read env vals v := by
  unfold Function.read
  rw [h.kinds]

/-- Phis stay phis. -/
theorem isPhi {b : BlockId} (hb : f.Reach b) (hhop : hop b = none) {i : InstId} (hi : i ∈ f.instsOf b) :
    (f'.kind (ρ i)).isPhi = (f.kind i).isPhi := by
  cases hterm : (f.kind i).isTerminator with
  | false =>
    obtain ⟨hρ, hkind, -, -⟩ := h.body b hb hhop i hi hterm
    rw [hρ, hkind]
  | true =>
    rw [InstKind.not_isPhi (h.ends b hb hhop i hi hterm).1, InstKind.not_isPhi hterm]

/-- The phis of a block stay the same. -/
theorem phis (hb : f.Reach b) (hhop : hop b = none) : f'.phis b = f.phis b := by
  have hmap : ∀ l : List InstId, (∀ i ∈ l, i ∈ f.instsOf b) →
      (l.map ρ).takeWhile (fun i => (f'.kind i).isPhi) = l.takeWhile fun i => (f.kind i).isPhi := by
    intro l
    induction l with
    | nil => exact fun _ => rfl
    | cons i rest ih =>
      intro hl
      have hi := hl i List.mem_cons_self
      rw [List.map_cons, List.takeWhile_cons, List.takeWhile_cons, h.isPhi hb hhop hi]
      cases hphi : (f.kind i).isPhi with
      | false => rfl
      | true =>
        have hterm : (f.kind i).isTerminator = false := by rw [InstKind.isPhi_eq_true.1 hphi]; rfl
        rw [if_pos rfl, if_pos rfl, (h.body b hb hhop i hi hterm).1,
          ih fun j hj => hl j (List.mem_cons_of_mem _ hj)]
  unfold Function.phis
  rw [h.insts b hb hhop]
  exact hmap _ fun _ hi => hi

/-- The instructions behind the phis of a block are the old ones at their new places. -/
theorem code (hb : f.Reach b) (hhop : hop b = none) :
    (f'.instsOf b).dropWhile (fun i => (f'.kind i).isPhi) =
      ((f.instsOf b).dropWhile fun i => (f.kind i).isPhi).map ρ := by
  have hmap : ∀ l : List InstId, (∀ i ∈ l, i ∈ f.instsOf b) →
      (l.map ρ).dropWhile (fun i => (f'.kind i).isPhi) =
        (l.dropWhile fun i => (f.kind i).isPhi).map ρ := by
    intro l
    induction l with
    | nil => exact fun _ => rfl
    | cons i rest ih =>
      intro hl
      rw [List.map_cons, List.dropWhile_cons, List.dropWhile_cons, h.isPhi hb hhop (hl i List.mem_cons_self)]
      split
      · exact ih fun j hj => hl j (List.mem_cons_of_mem _ hj)
      · rfl
  rw [h.insts b hb hhop]
  exact hmap _ fun _ hi => hi

end

/-! ## Paths -/

variable (h : Redirects f f' hop ρ)

include h

/-- The arms of a block are those of its terminator at its new place. -/
theorem arms_eq (hb : f.Reach b) (hhop : hop b = none) {t : InstId}
    (ht : f.instsOf b = before ++ [t]) : f'.arms b = (f'.kind (ρ t)).targets := by
  unfold arms
  rw [h.insts b hb hhop, ht, List.map_append, List.getLast?_append]
  rfl

/-- Every edge of the new function is an edge of the old one, or leads over a block that is hopped over. -/
theorem landing_of_edge (hr : f.Regular) (hs : f.Sound) (hr' : f'.Regular) {c : BlockId}
    (hb : f.Reach b) (hhop : hop b = none) (hedge : f'.Edge b c) : ∃ a ∈ f.arms b, landing hop a = c := by
  obtain ⟨before, t, ht, hterm, -⟩ := hr.ends b (hr.mem_layout_of_reach hs hb)
  have hc := (hr'.edge_iff (h.listed b hb hhop)).1 hedge
  have hmem : t ∈ f.instsOf b := by rw [ht]; simp
  rw [h.arms_eq hb hhop ht] at hc
  unfold arms
  rw [ht, List.getLast?_append]
  exact List.mem_map.1 ((h.ends b hb hhop t hmem hterm).2.2 hc)

/-- A block that is hopped over leads to its target. -/
theorem edge_of_hop (hr : f.Regular) (hs : f.Sound) (hm : f.Reach m) (hhop : hop m = some t) : f.Edge m t := by
  obtain ⟨-, j, hj, hkind, -⟩ := h.hops m t hm hhop
  refine (hr.edge_iff (hr.mem_layout_of_reach hs hm)).2 ?_
  unfold arms
  rw [hj, List.getLast?_singleton]
  dsimp only
  rw [hkind]
  exact List.mem_cons_self

/-- The paths of the new function are paths of the old one with some blocks left out. -/
theorem reach (hr : f.Regular) (hs : f.Sound) (hr' : f'.Regular) (hb : f'.Reach b) : f.Reach b ∧ hop b = none := by
  induction hb with
  | @entry e he =>
    rw [h.head] at he
    exact ⟨.entry he, h.entry e he⟩
  | @step p c _ hedge ih =>
    obtain ⟨hp, hhop⟩ := ih
    obtain ⟨a, ha, rfl⟩ := h.landing_of_edge hr hs hr' hp hhop hedge
    have hreach : f.Reach a := hp.step ((hr.edge_iff (hr.mem_layout_of_reach hs hp)).2 ha)
    cases hhopa : hop a with
    | none =>
      rw [landing, hhopa]
      exact ⟨hreach, hhopa⟩
    | some t =>
      rw [landing, hhopa]
      exact ⟨hreach.step (h.edge_of_hop hr hs hreach hhopa), (h.hops a t hreach hhopa).1⟩

variable {d : BlockId} {v : ValueId}

/-- A path of the new function that avoids a block is such a path of the old one. -/
theorem avoids (hr : f.Regular) (hs : f.Sound) (hr' : f'.Regular) (hd : hop d = none) (hb : f'.Avoids d b) :
    f.Avoids d b := by
  induction hb with
  | @entry e he hne =>
    rw [h.head] at he
    exact .entry he hne
  | @step p c hp' hedge hne hp =>
    obtain ⟨hreach, hhop⟩ := h.reach hr hs hr' hp'.reach
    obtain ⟨a, ha, rfl⟩ := h.landing_of_edge hr hs hr' hreach hhop hedge
    have hedge' : f.Edge p a := (hr.edge_iff (hr.mem_layout_of_reach hs hreach)).2 ha
    cases hhopa : hop a with
    | none =>
      rw [landing, hhopa] at hne ⊢
      exact hp.step hedge' hne
    | some t =>
      rw [landing, hhopa] at hne ⊢
      have had : a ≠ d := by
        rintro rfl
        rw [hd] at hhopa
        cases hhopa
      exact (hp.step hedge' had).step (h.edge_of_hop hr hs (hreach.step hedge') hhopa) hne

/-- A block that defines a value is not hopped over. -/
theorem hop_eq_none (hs : f.Sound) (hd : f.Reach d) (hi : i ∈ f.instsOf d) {r : ValueId}
    (hresult : f.result? i = some r) : hop d = none := by
  cases hhop : hop d with
  | none => rfl
  | some t =>
    obtain ⟨-, j, hj, hkind, -⟩ := h.hops d t hd hhop
    rw [hj] at hi
    have hgives := hs.gives i r hresult
    rw [List.mem_singleton.1 hi, hkind] at hgives
    cases hgives

/-- What is available at a place stays available. -/
theorem available (hr : f.Regular) (hs : f.Sound) (hr' : f'.Regular) (hs' : f'.Sound) (hb : f.Reach b)
    (hhop : hop b = none) (hbefore : ∀ i ∈ before, i ∈ f.instsOf b) (hv : v < f.values.size)
    (havail : f.Available b before v) : f'.Available b (before.map ρ) v := by
  intro i hk
  rw [h.kinds] at hk
  have hresult := hs.result_of_kind i v hv hk
  have hterm : (f.kind i).isTerminator = false := by
    by_contra hterm
    have hgives := hs.gives i v hresult
    rw [InstKind.not_givesValue (by simpa using hterm)] at hgives
    cases hgives
  rcases havail i hk with hin | ⟨d, hd, hne, hdom⟩
  · left
    rw [← (h.body b hb hhop i (hbefore i hin) hterm).1]
    exact List.mem_map_of_mem hin
  · right
    have hreach := hdom.reach hb
    have hmem := (hs.placed d i).2 hd
    have hhopd := h.hop_eq_none hs hreach hmem hresult
    refine ⟨d, (hs'.placed d i).1 ?_, hne, fun havoid => hdom (h.avoids hr hs hr' hhopd havoid)⟩
    rw [h.insts d hreach hhopd, ← (h.body d hreach hhopd i hmem hterm).1]
    exact List.mem_map_of_mem hmem

/-- What a phi takes from a block is available at the end of each block that comes to it by a way through
that block. -/
theorem available_of_via (hr : f.Regular) (hs : f.Sound) (hstrict : f.Strict) (hp : f.Reach p) (ht : f.Reach t)
    (hvia : f.Via hop p m t) (hphi : phi ∈ f.phis t) (hv : v < f.values.size) (hfeeds : f.Feeds t phi m v) :
    f.Available p (f.instsOf p).dropLast v := by
  have hp' := hr.mem_layout_of_reach hs hp
  obtain ⟨hin, hisPhi⟩ := (hr.mem_phis (hr.mem_layout_of_reach hs ht)).1 hphi
  obtain ⟨-, -, ⟨rfl, -⟩ | ⟨harm, hhop⟩⟩ := hvia
  · exact hstrict.incoming t phi ht hin hisPhi m v hp hfeeds
  · have hedge : f.Edge p m := (hr.edge_iff hp').2 harm
    have havail := hstrict.incoming t phi ht hin hisPhi m v (hp.step hedge) hfeeds
    obtain ⟨-, j, hj, -, -⟩ := h.hops m t (hp.step hedge) hhop
    rw [hj] at havail
    intro i hk
    rcases havail i hk with hin | ⟨d, hd, hne, hdom⟩
    · cases hin
    · by_cases hdp : d = p
      · left
        rw [← hdp]
        exact hr.mem_dropLast hs (hdp ▸ hp') ((hs.placed d i).2 hd) (hs.result_of_kind i v hv hk)
      · exact .inr ⟨d, hd, hdp, hdom.of_edge hne hedge⟩

/-- A function stays strict when edges are rerouted. -/
theorem strict (hr : f.Regular) (hs : f.Sound) (hr' : f'.Regular)
    (hs' : f'.Sound) (hstrict : f.Strict) (hsize : f'.values.size = f.values.size) : f'.Strict where
  operand b before i after hb hinsts hphi v hv := by
    obtain ⟨hreach, hhop⟩ := h.reach hr hs hr' hb
    rw [h.insts b hreach hhop] at hinsts
    obtain ⟨before, rest, hsplit, rfl, hrest⟩ := List.map_eq_append_iff.1 hinsts
    obtain ⟨i, after, rfl, rfl, rfl⟩ := List.map_eq_cons_iff.1 hrest
    have hmem : i ∈ f.instsOf b := by rw [hsplit]; simp
    rw [h.isPhi hreach hhop hmem] at hphi
    have hv' : v ∈ f.operands i := by
      cases hterm : (f.kind i).isTerminator with
      | false =>
        obtain ⟨hρ, -, -, hoperands⟩ := h.body b hreach hhop i hmem hterm
        rw [hρ, hoperands hphi] at hv
        exact hv
      | true => exact (h.ends b hreach hhop i hmem hterm).2.1 hv
    refine h.available hr hs hr' hs' hreach hhop (fun j hj => by rw [hsplit]; simp [hj])
      (hs.lt_size_of_mem_operands hv') ?_
    exact hstrict.operand b before i after hreach hsplit hphi v hv'
  incoming b i hb hi hphi p v hp hfeeds := by
    obtain ⟨hreach, hhop⟩ := h.reach hr hs hr' hb
    obtain ⟨hreachp, hhopp⟩ := h.reach hr hs hr' hp
    have hin : i ∈ f.phis b := by
      rw [← h.phis hreach hhop]
      exact (hr'.mem_phis (h.listed b hreach hhop)).2 ⟨hi, hphi⟩
    have hv : v < f.values.size := by
      rw [← hsize]
      exact hs'.lt_size_of_mem_operands (List.of_mem_zip hfeeds).2
    have havail : f.Available p (f.instsOf p).dropLast v := by
      rcases h.fed b hreach hhop i hin p v hreachp hhopp hfeeds with hfeeds | ⟨m, hvia, hfeeds⟩
      · obtain ⟨hmem, hisPhi⟩ := (hr.mem_phis (hr.mem_layout_of_reach hs hreach)).1 hin
        exact hstrict.incoming b i hreach hmem hisPhi p v hreachp hfeeds
      · exact h.available_of_via hr hs hstrict hreachp hreach hvia hin hv hfeeds
    have hnew := h.available hr hs hr' hs' hreachp hhopp
      (fun j hj => List.mem_of_mem_dropLast hj) hv havail
    rwa [List.map_dropLast, ← h.insts p hreachp hhopp] at hnew

end Redirects

/-! ## Runs -/

namespace Reroutes

variable {W : Type} {env : IrEnv W}

/-- A phi takes the value that its block is fed with, whichever slot of the predecessor is first. -/
theorem incoming (h : Reroutes f f' hop ρ) (hr : f.Regular) (hs : f.Sound) (hr' : f'.Regular)
    (hagree : f'.AgreeingPhis) (hp : f.Reach p) (ht : f.Reach t) (hvia : f.Via hop p m t) (harm : t ∈ f'.arms p)
    {slot slot' : Nat} (hslot : f.predIndex? t m = some slot) (hslot' : f'.predIndex? t p = some slot')
    (vals : ValueId → Option Word) (hphi : phi ∈ f.phis t) :
    f'.incoming env vals slot' phi = f.incoming env vals slot phi := by
  have hhop : hop t = none := hvia.2.1
  have ht' := h.listed t ht hhop
  obtain ⟨hin, hisPhi⟩ := (hr.mem_phis (hr.mem_layout_of_reach hs ht)).1 hphi
  have hphi' := hphi
  rw [← h.phis ht hhop] at hphi'
  obtain ⟨hin', hisPhi'⟩ := (hr'.mem_phis ht').1 hphi'
  have hterm : (f.kind phi).isTerminator = false := by rw [InstKind.isPhi_eq_true.1 hisPhi]; rfl
  have hresult := (h.body t ht hhop phi hin hterm).2.2.1
  obtain ⟨v, hv, hfeeds⟩ := hr.feeds (hr.mem_layout_of_reach hs ht) hin hisPhi hslot
  obtain ⟨v', hv', hfeeds'⟩ := hr'.feeds ht' hin' hisPhi' hslot'
  have hvv := hagree t ht' phi hin' hisPhi' p v v' ((h.feeds p m t hp hvia harm).2 phi hphi v hfeeds)
    hfeeds'
  unfold Function.incoming
  rw [hv, hv', hresult, hvv]
  simp only [h.read]

variable {s : IrState W}

/-- Going over an edge. -/
theorem follow (h : Reroutes f f' hop ρ) (hr : f.Regular) (hs : f.Sound) (hr' : f'.Regular) (hagree : f'.AgreeingPhis)
    (hp : f.Reach p) (hvia : f.Via hop p m t) (htarget : t ∈ f'.arms p) (hs' : s.block = m) (code : List InstId) :
    (∀ events u, f.follow env s t = .next events u →
      f'.follow env { s with block := p, code } t = .next events { u with code := u.code.map ρ }) ∧
    ∀ o, f.follow env s t = .done o → f'.follow env { s with block := p, code } t = .done o := by
  subst hs'
  have hp' := hr.mem_layout_of_reach hs hp
  have hedge : f.Reach s.block ∧ f.Edge s.block t := by
    obtain ⟨-, -, ⟨hm, harm⟩ | ⟨harm, hhop⟩⟩ := hvia
    · rw [hm]
      exact ⟨hp, (hr.edge_iff hp').2 harm⟩
    · have hreach := hp.step ((hr.edge_iff hp').2 harm)
      exact ⟨hreach, h.edge_of_hop hr hs hreach hhop⟩
  have ht : f.Reach t := hedge.1.step hedge.2
  have hm' := hr.mem_layout_of_reach hs hedge.1
  obtain ⟨slot, hslot⟩ : ∃ slot, f.predIndex? t s.block = some slot := by
    rw [← Option.ne_none_iff_exists', ne_eq, predIndex_eq_none_iff, not_not]
    exact (hr.mem_preds_iff (hr.mem_layout_of_reach hs ht)).2 ⟨hm', (hr.edge_iff hm').1 hedge.2⟩
  obtain ⟨slot', hslot'⟩ : ∃ slot', f'.predIndex? t p = some slot' := by
    rw [← Option.ne_none_iff_exists', ne_eq, predIndex_eq_none_iff, not_not]
    exact (h.feeds p s.block t hp hvia htarget).1
  have hphis : (f'.phis t).mapM (f'.incoming env s.vals slot') =
      (f.phis t).mapM (f.incoming env s.vals slot) := by
    rw [h.phis ht hvia.2.1]
    exact mapM_congr_left fun phi hphi =>
      h.incoming hr hs hr' hagree hp ht hvia htarget hslot hslot' s.vals hphi
  constructor
  · intro events u hnext
    obtain ⟨rfl, slot₀, assigned, hslot₀, hassigned, rfl⟩ := follow_eq_next.1 hnext
    rw [hslot] at hslot₀
    obtain rfl := Option.some.inj hslot₀
    refine follow_eq_next.2 ⟨rfl, slot', assigned, hslot', hphis.trans hassigned, ?_⟩
    rw [h.code ht hvia.2.1]
  · intro o hdone
    obtain ⟨rfl, hnone⟩ := follow_eq_done.1 hdone
    refine follow_eq_done.2 ⟨rfl, fun slot₀ hslot₀ => ?_⟩
    obtain rfl := Option.some.inj (hslot'.symm.trans hslot₀)
    exact hphis.trans (hnone slot hslot)

/-- Going to a block that is hopped over changes nothing but the place. -/
theorem follow_hop (h : Reroutes f f' hop ρ) (hr : f.Regular) (hs : f.Sound) {a : BlockId} (hrun : f.Running env s)
    (ha : a ∈ f.arms s.block) (hhop : hop a = some t) :
    f.follow env s a = .next [] { s with block := a, code := f.instsOf a } := by
  have hreach : f.Reach a := hrun.reach.step ((hr.edge_iff hrun.listed).2 ha)
  obtain ⟨-, j, hj, hkind, -⟩ := h.hops a t hreach hhop
  have hphi : (f.kind j).isPhi = false := by rw [hkind]; rfl
  have hphis : f.phis a = [] := by
    unfold Function.phis
    rw [hj, List.takeWhile_cons_of_neg (by simp [hphi])]
  obtain ⟨slot, hslot⟩ : ∃ slot, f.predIndex? a s.block = some slot := by
    rw [← Option.ne_none_iff_exists', ne_eq, predIndex_eq_none_iff, not_not]
    exact (hr.mem_preds_iff (hr.mem_layout_of_reach hs hreach)).2 ⟨hrun.listed, ha⟩
  refine follow_eq_next.2 ⟨rfl, slot, [], hslot, by rw [hphis]; rfl, ?_⟩
  rw [hj, List.dropWhile_cons_of_neg (by simp [hphi])]
  rfl

/-- A state and the state in the new function that stands for it. In a block that is hopped over, the new
function is still in the block before, at the terminator that goes to the target at once. -/
inductive Stands (f f' : Function) (hop : BlockId → Option BlockId) (ρ : InstId → InstId) (env : IrEnv W) :
    IrState W → IrState W → Prop
  | here {s : IrState W} : hop s.block = none → Stands f f' hop ρ env s { s with code := s.code.map ρ }
  | before {s : IrState W} {p t : BlockId} {code : List InstId} : f.Reach p → f.Via hop p s.block t →
      t ∈ f'.arms p → hop s.block = some t → s.code = f.instsOf s.block →
      f'.step env { s with block := p, code } = f'.follow env { s with block := p, code } t →
      Stands f f' hop ρ env s { s with block := p, code }

variable (h : Reroutes f f' hop ρ)

include h

variable {rest : List InstId}

/-- Running an instruction that is not a terminator. -/
theorem step_body (hr : f.Regular) (hs : f.Sound) (hrun : f.Running env s) (hhop : hop s.block = none)
    (hcode : s.code = i :: rest) (hterm : (f.kind i).isTerminator = false)
    (hvalues : (f.operands i).mapM (f.read env s.vals) = some values) : f'.step env { s with code := s.code.map ρ } =
      match (f.kind i).perform env i values s.memory s.world with
      | .stop o => .done o
      | .goto target => f'.follow env { s with code := s.code.map ρ } target
      | .effect value memory world events =>
        .next events { s with code := rest.map ρ, vals := assign s.vals (f.result? i) value, memory, world } := by
  obtain ⟨hρ, hkind, hresult, hoperands⟩ :=
    h.body s.block hrun.reach hhop i (hrun.mem_instsOf hcode) hterm
  have hcode' : s.code.map ρ = i :: rest.map ρ := by rw [hcode, List.map_cons, hρ]
  have hvalues' : (f'.operands i).mapM (f'.read env s.vals) = some values := by
    rw [hoperands (hrun.not_isPhi hs hr hcode), ← hvalues]
    exact mapM_congr_left fun v _ => h.read env s.vals v
  rewrite [step_eq (s := { s with code := s.code.map ρ }) hcode' hvalues', hkind, hresult]
  rfl

/-- Running a terminator. -/
theorem step_end (hr : f.Regular) (hrun : f.Running env s) (hhop : hop s.block = none) (hcode : s.code = i :: rest)
    (hterm : (f.kind i).isTerminator = true) (hvalues : (f.operands i).mapM (f.read env s.vals) = some values) :
    (∀ o, (f.kind i).perform env i values s.memory s.world = .stop o →
      f'.step env { s with code := s.code.map ρ } = .done o) ∧
    ∀ a, (f.kind i).perform env i values s.memory s.world = .goto a → landing hop a ∈ f'.arms s.block ∧
      f'.step env { s with code := s.code.map ρ } =
        f'.follow env { s with code := s.code.map ρ } (landing hop a) := by
  obtain ⟨values', hvalues', hperform⟩ := h.goes s.block hrun.reach hhop i (hrun.mem_instsOf hcode) hterm
    env s.vals values hvalues
  have hcode' : s.code.map ρ = ρ i :: rest.map ρ := by rw [hcode, List.map_cons]
  have hread : (f'.operands (ρ i)).mapM (f'.read env s.vals) = some values' := by
    rw [← hvalues']
    exact mapM_congr_left fun v _ => h.read env s.vals v
  constructor
  · intro o hstop
    rw [step_eq (s := { s with code := s.code.map ρ }) hcode' hread, hperform, hstop]
    rfl
  · intro a hgoto
    have hgoto' := hperform s.memory s.world
    rw [hgoto] at hgoto'
    refine ⟨?_, ?_⟩
    · obtain ⟨before, hinsts, -, -⟩ := hrun.place
      rw [hcode, (hrun.arms_eq hr hcode hterm).1] at hinsts
      rw [h.arms_eq hrun.reach hhop hinsts]
      exact (InstKind.mem_targets_of_perform hgoto').2
    · rw [step_eq (s := { s with code := s.code.map ρ }) hcode' hread, hgoto']
      rfl

/-- A state in a block that is hopped over goes on to the target. -/
theorem step_hop (hreach : f.Reach s.block) (hhop : hop s.block = some t)
    (hcode : s.code = f.instsOf s.block) : f.step env s = f.follow env s t := by
  obtain ⟨-, j, hj, hkind, hoperands⟩ := h.hops s.block t hreach hhop
  have hvalues : (f.operands j).mapM (f.read env s.vals) = some [] := by rw [hoperands]; rfl
  rw [step_eq (hcode.trans hj) hvalues, hkind]
  rfl

/-- Steps are answered. -/
theorem simulation (hr : f.Regular) (hs : f.Sound) (hstrict : f.Strict) (hr' : f'.Regular) (hagree : f'.AgreeingPhis) :
    Runs.Simulation (f.step env) (f'.step env)
      (fun s s' => f.Running env s ∧ Stands f f' hop ρ env s s')
      (fun s => if (hop s.block).isSome then 0 else 1) where
  next := by
    rintro s s' events u ⟨hrun, hstands⟩ hnext
    have hrunu := hrun.next hs hr hnext
    cases hstands with
    | here hhop =>
      obtain ⟨i, rest, values, hcode, hvalues, ⟨a, hgoto, hfollow⟩ | ⟨value, memory, world, heffect, rfl⟩⟩ :=
        step_eq_next.1 hnext
      · obtain ⟨-, hterm, harm, -⟩ := hrun.edge_of_goto hr hcode hgoto
        obtain ⟨hland, hstep⟩ := (h.step_end hr hrun hhop hcode hterm hvalues).2 a hgoto
        cases hhopa : hop a with
        | none =>
          have hvia : f.Via hop s.block s.block a := ⟨hhop, hhopa, .inl ⟨rfl, harm⟩⟩
          rw [landing, hhopa] at hstep hland
          have hanswer := (h.follow hr hs hr' hagree hrun.reach hvia hland rfl (s.code.map ρ)).1 events u
            hfollow
          refine ⟨1, _, .single (hstep.trans hanswer), ⟨hrunu, .here ?_⟩, fun h0 => by cases h0⟩
          obtain ⟨-, slot, assigned, -, -, rfl⟩ := follow_eq_next.1 hfollow
          exact hhopa
        | some t =>
          -- The new function waits at the terminator until the old one has come to the target.
          rw [h.follow_hop hr hs hrun harm hhopa] at hfollow
          cases hfollow
          rw [landing, hhopa] at hstep hland
          have hreach : f.Reach a := hrun.reach.step ((hr.edge_iff hrun.listed).2 harm)
          have hvia : f.Via hop s.block a t := ⟨hhop, (h.hops a t hreach hhopa).1, .inr ⟨harm, hhopa⟩⟩
          refine ⟨0, _, .refl _, ⟨hrunu, ?_⟩, fun _ => ?_⟩
          · exact .before (s := { s with block := a, code := f.instsOf a }) hrun.reach hvia hland hhopa
              rfl hstep
          · rw [hhop, hhopa]
            exact Nat.zero_lt_one
      · have hterm := InstKind.not_isTerminator_of_perform heffect
        have hstep := h.step_body hr hs hrun hhop hcode hterm hvalues
        rw [heffect] at hstep
        exact ⟨1, _, .single hstep, ⟨hrunu, .here hhop⟩, fun h0 => by cases h0⟩
    | @before p t code hp hvia harm hhop hcode hstep =>
      rw [h.step_hop hrun.reach hhop hcode] at hnext
      have hanswer := (h.follow hr hs hr' hagree hp hvia harm rfl code).1 events u hnext
      refine ⟨1, _, .single (hstep.trans hanswer), ⟨hrunu, .here ?_⟩, fun h0 => by cases h0⟩
      obtain ⟨-, slot, assigned, -, -, rfl⟩ := follow_eq_next.1 hnext
      exact hvia.2.1
  done := by
    rintro s s' o ⟨hrun, hstands⟩ hdone
    cases hstands with
    | here hhop =>
      cases hcode : s.code with
      | nil =>
        refine Runs.ends_of_done ?_
        unfold step at hdone ⊢
        rw [hcode] at hdone
        exact hdone
      | cons i rest =>
        obtain ⟨values, hvalues⟩ := hrun.operands_defined hs hr hstrict hcode
        rw [← hcode]
        rcases stop_or_goto hcode hvalues hdone with hstop | ⟨a, hgoto, hfollow⟩
        · refine Runs.ends_of_done ?_
          cases hterm : (f.kind i).isTerminator with
          | false => rw [h.step_body hr hs hrun hhop hcode hterm hvalues, hstop]
          | true => exact (h.step_end hr hrun hhop hcode hterm hvalues).1 o hstop
        · obtain ⟨-, hterm, harm, -⟩ := hrun.edge_of_goto hr hcode hgoto
          obtain ⟨hland, hstep⟩ := (h.step_end hr hrun hhop hcode hterm hvalues).2 a hgoto
          cases hhopa : hop a with
          | none =>
            have hvia : f.Via hop s.block s.block a := ⟨hhop, hhopa, .inl ⟨rfl, harm⟩⟩
            rw [landing, hhopa] at hstep hland
            exact Runs.ends_of_done
              (hstep.trans ((h.follow hr hs hr' hagree hrun.reach hvia hland rfl (s.code.map ρ)).2 o hfollow))
          | some t =>
            rw [h.follow_hop hr hs hrun harm hhopa] at hfollow
            cases hfollow
    | before hp hvia harm hhop hcode hstep =>
      rw [h.step_hop hrun.reach hhop hcode] at hdone
      exact Runs.ends_of_done (hstep.trans ((h.follow hr hs hr' hagree hp hvia harm rfl _).2 o hdone))

/-- Runs show the same when edges are rerouted. -/
theorem sameMeaning (hr : f.Regular) (hs : f.Sound) (hstrict : f.Strict)
    (hr' : f'.Regular) (hagree : f'.AgreeingPhis) : f.SameMeaning f' := by
  refine sameMeaning_of_phis hr hr' h.head (fun e he => h.phis (.entry he) (h.entry e he)) ?_
  intro e hentry hphis W env m w
  have hblock : f'.layout.headD 0 = e ∧ f.layout.headD 0 = e := by
    rw [List.headD_eq_head?_getD, List.headD_eq_head?_getD, h.head, hentry]
    exact ⟨rfl, rfl⟩
  have hstart : f'.start m w = { f.start m w with code := ((f.start m w).code).map ρ } := by
    unfold start
    rw [hblock.1, hblock.2, h.insts e (.entry hentry) (h.entry e hentry)]
  rw [hstart]
  refine Runs.sameRuns_of_simulation (h.simulation hr hs hstrict hr' hagree)
    ⟨.start hentry hphis m w, .here ?_⟩
  change hop (f.layout.headD 0) = none
  rw [hblock.2]
  exact h.entry e hentry

end Reroutes

end Function

end SsaCompiler
