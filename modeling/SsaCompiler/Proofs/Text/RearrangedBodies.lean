import SsaCompiler.Proofs.Text.RearrangedPhis

/-!
# Bodies with rearranged phis

Up to the slots of its phis a body is built without a look at the pairs of phis. So two bodies that are the same but for
the order of these pairs are opened in the same way: the same blocks and phis are created, and the same code is built in
the same order.
-/

set_option autoImplicit false

namespace SsaCompiler

open List (Forall₂)

/-- Phis that were created for statements which are the same but for the order of the pairs. -/
structure PhiRearranged (e e' : BlockId × InstId × Statement) : Prop where
  block : e'.1 = e.1
  phi : e'.2.1 = e.2.1
  statement : e.2.2.Rearranged e'.2.2

/-! ## Statements of bodies -/

variable {b' : BlockSource} {sources sources' : List BlockSource} {α β : Type}

/-- The code of two blocks. -/
theorem BlockSource.Rearranged.code {b : BlockSource} (h : b.Rearranged b') :
    (b'.statements.filter fun s => !s.op.isPhi) = b.statements.filter fun s => !s.op.isPhi := by
  have hstatements := h.statements
  generalize b.statements = l, b'.statements = l' at hstatements
  induction hstatements with
  | nil => rfl
  | @cons s s' _ _ hs _ ih =>
    rw [List.filter_cons, List.filter_cons, hs.op.isPhi, ih]
    cases hphi : s.op.isPhi with
    | true => rfl
    | false => rw [hs.eq_of_not_isPhi hphi]

/-- The phis of two blocks. -/
theorem BlockSource.Rearranged.phis {b : BlockSource} (h : b.Rearranged b') :
    Forall₂ Statement.Rearranged (b.statements.filter fun s => s.op.isPhi) (b'.statements.filter fun s => s.op.isPhi) :=
  List.rel_filter (fun s s' hs => by simp only [hs.op.isPhi]) h.statements

/-- What a block reads that is not known. -/
theorem BlockSource.Rearranged.unknownOperand? {b b' : BlockSource} (h : b.Rearranged b') (known : List String) :
    Reader.unknownOperand? known b'.statements = Reader.unknownOperand? known b.statements := by
  have hstatements := h.statements
  generalize b.statements = l, b'.statements = l' at hstatements
  induction hstatements generalizing known with
  | nil => rfl
  | @cons s s' _ _ hs _ ih =>
    cases hphi : s.op.isPhi with
    | true =>
      unfold Reader.unknownOperand?
      rw [if_pos hphi, if_pos (hs.op.isPhi.trans hphi), ih]
    | false =>
      rw [hs.eq_of_not_isPhi hphi]
      unfold Reader.unknownOperand?
      rw [ih, ih]

/-! ## Lists of blocks -/

theorem forall₂_findIdx? {R : α → β → Prop} {p : α → Bool} {q : β → Bool} (hpq : ∀ a b, R a b → q b = p a)
    {l : List α} {l' : List β} (h : Forall₂ R l l') : l'.findIdx? q = l.findIdx? p := by
  induction h with
  | nil => rfl
  | cons hab _ ih => rw [List.findIdx?_cons, List.findIdx?_cons, hpq _ _ hab, ih]

theorem forall₂_getElem? {R : α → β → Prop} {l : List α} {l' : List β} (h : Forall₂ R l l') :
    ∀ k : Nat, Option.Rel R l[k]? l'[k]? := by
  induction h with
  | nil => exact fun _ => .none
  | cons hab _ ih =>
    intro k
    cases k with
    | zero => exact .some hab
    | succ k => exact ih k

theorem forall₂_eraseIdx {R : α → β → Prop} {l : List α} {l' : List β} (h : Forall₂ R l l') (k : Nat) :
    Forall₂ R (l.eraseIdx k) (l'.eraseIdx k) := by
  rw [List.eraseIdx_eq_take_drop_succ, List.eraseIdx_eq_take_drop_succ]
  exact List.rel_append (List.forall₂_take k h) (List.forall₂_drop (k + 1) h)

/-- Blocks with their numbers. -/
structure PlaceRearranged (p p' : BlockSource × BlockId) : Prop where
  source : p.1.Rearranged p'.1
  id : p'.2 = p.2

theorem forall₂_zip_ids (h : Forall₂ BlockSource.Rearranged sources sources') :
    ∀ ids : List BlockId, Forall₂ PlaceRearranged (sources.zip ids) (sources'.zip ids) := by
  induction h with
  | nil => exact fun _ => .nil
  | cons hab _ ih =>
    intro ids
    cases ids with
    | nil => exact .nil
    | cons id rest => exact .cons ⟨hab, rfl⟩ (ih rest)

/-! ## Opening bodies -/

namespace Reader

variable (b : Builder)

theorem agrees_createBlocks (h : Forall₂ BlockSource.Rearranged sources sources') :
    ∀ created, Agrees b.func Eq (createBlocks b sources created) (createBlocks b sources' created) := by
  induction h with
  | nil => exact fun _ => .pure rfl
  | @cons source source' rest rest' hsource _ ih =>
    intro created
    have hcreate : ModuleEdit.Separate (fun _ => True) b.func (b.edit (Edit.createBlock source.name)) :=
      .editFunction fun _ _ _ _ _ => trivial
    unfold createBlocks
    rw [hsource.name, hsource.line]
    have hrest : Agrees b.func Eq (do
        let id ← Reader.change (b.edit (Edit.createBlock source.name))
        createBlocks b rest (created ++ [(source.name, id)])) (do
        let id ← Reader.change (b.edit (Edit.createBlock source.name))
        createBlocks b rest' (created ++ [(source.name, id)])) :=
      (agrees_change hcreate).bind fun id _ hid => hid ▸ ih _
    dsimp only
    split
    · exact Agrees.bind (R := Eq) (.fault _ _ _ _) fun _ _ _ => hrest
    · exact hrest

theorem agrees_createPhi (block : BlockId) {s s' : Statement} (h : s.Rearranged s') :
    Agrees b.func Eq (createPhi b block s) (createPhi b block s') := by
  have hempty : ModuleEdit.Separate (Function.Marked fun _ => default) b.func (b.emptyPhi block) := b.separate_emptyPhi block
  unfold createPhi
  rw [h.result, h.line]
  refine (agrees_change hempty).bind fun e _ he => ?_
  subst he
  dsimp only
  split
  · exact (agrees_define b _ _ _).bind fun _ _ _ => .pure rfl
  · exact .pure rfl

theorem agrees_buildReady (func : FuncId) (blocks : List (String × BlockId)) (limit : Nat) :
    ∀ {pending pending' : List (BlockSource × BlockId)}, Forall₂ PlaceRearranged pending pending' →
      Agrees func (Forall₂ PlaceRearranged) (buildReady func blocks limit pending) (buildReady func blocks limit pending') := by
  induction limit with
  | zero => exact fun h => .pure h
  | succ limit ih =>
    intro pending pending' h
    refine .get_bind fun r r' hr => ?_
    rw [hr.values]
    dsimp only
    rw [forall₂_findIdx? (fun p p' hp => by rw [hp.source.unknownOperand?]) h]
    split
    · exact .pure h
    · rename_i k hk
      have hat := forall₂_getElem? h k
      revert hat
      cases pending[k]? <;> cases pending'[k]? <;> intro hat <;> cases hat
      · exact .pure h
      · rename_i p p' hp
        obtain ⟨source, c⟩ := p
        obtain ⟨source', c'⟩ := p'
        obtain ⟨hsource, rfl⟩ := hp
        dsimp only
        rw [hsource.code]
        exact Agrees.bind (R := Eq) (.forM fun s _ => agrees_buildStatement ⟨func, some _⟩ blocks s) fun _ _ _ =>
          ih (forall₂_eraseIdx h k)

/-- Opening two bodies. -/
theorem agrees_openBody {source source' : FunctionSource} (h : source.Rearranged source') :
    Agrees source.id (fun x y => y.1 = x.1 ∧ Forall₂ PhiRearranged x.2 y.2) (openBody source) (openBody source') := by
  unfold openBody
  rw [h.id, h.line, h.params]
  refine Agrees.bind (R := Eq) (.modify fun r r' hr => ⟨rfl, hr.module⟩) fun _ _ _ => ?_
  refine (agrees_defineParams ⟨source.id, none⟩ source.line source.params).bind fun _ _ _ => ?_
  refine (agrees_createBlocks ⟨source.id, none⟩ h.blocks []).bind fun blocks _ hblocks => ?_
  subst hblocks
  have hpending := forall₂_zip_ids h.blocks (blocks.map (·.2))
  refine Agrees.bind (R := Forall₂ (Forall₂ PhiRearranged)) (.mapM hpending fun p p' hp => .mapM hp.source.phis
    fun s s' hs => ?_) fun phis phis' hphis => ?_
  · rw [hp.id]
    exact (agrees_createPhi ⟨source.id, none⟩ p.2 hs).bind fun phi _ hphi => .pure ⟨rfl, hphi.symm, hs⟩
  · rw [← hpending.length_eq]
    refine (agrees_buildReady source.id blocks _ hpending).bind fun left left' hleft => ?_
    cases hleft with
    | nil => exact .pure ⟨rfl, List.rel_flatten hphis⟩
    | cons hp _ =>
      dsimp only [List.head?_cons]
      refine .get_bind fun r r' hr => ?_
      rw [hr.values, hp.source.unknownOperand?]
      split <;> exact .fault _ _ _ _

end Reader

end SsaCompiler
