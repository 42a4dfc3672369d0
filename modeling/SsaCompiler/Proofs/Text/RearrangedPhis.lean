import SsaCompiler.Proofs.Text.SeparateFunctions

/-!
# Texts with rearranged phis

Two texts are the same but for the order in which some of their phis list their pairs. The declarations of both are the
same, and the bodies are collected from both with the same statements, but for the pairs of these phis.
-/

set_option autoImplicit false

namespace SsaCompiler

open List (Forall₂)

/-! ## What is rearranged -/

/-- Operations that are the same but for the order of the pairs of a phi, which name distinct blocks. -/
inductive SourceOp.Rearranged : SourceOp → SourceOp → Prop
  | same (op : SourceOp) : Rearranged op op
  | phi {pairs pairs' : List (String × SourceOperand)} (hperm : pairs'.Perm pairs)
    (hnodup : (pairs.map Prod.fst).Nodup) : Rearranged (.phi pairs) (.phi pairs')

/-- Statements that are the same but for the order of the pairs of a phi. -/
structure Statement.Rearranged (s s' : Statement) : Prop where
  line : s'.line = s.line
  result : s'.result = s.result
  op : s.op.Rearranged s'.op

/-- Blocks that are the same but for the order of the pairs of phis. -/
structure BlockSource.Rearranged (b b' : BlockSource) : Prop where
  name : b'.name = b.name
  line : b'.line = b.line
  statements : Forall₂ Statement.Rearranged b.statements b'.statements

/-- Bodies that are the same but for the order of the pairs of phis. -/
structure FunctionSource.Rearranged (source source' : FunctionSource) : Prop where
  id : source'.id = source.id
  line : source'.line = source.line
  params : source'.params = source.params
  blocks : Forall₂ BlockSource.Rearranged source.blocks source'.blocks

/-- Tokens that are a phi statement. -/
def Token.ReadAsPhi (tokens : List Token) (result : Option String) (pairs : List (String × SourceOperand)) : Prop :=
  ∀ n, (LineReader.statement n).run n tokens = .ok { line := n, result, op := .phi pairs }

/-- Lines that are the same but for the order of the pairs of a phi, which name distinct blocks. -/
inductive TokenLine.Rearranged : TokenLine → TokenLine → Prop
  | same (l : TokenLine) : Rearranged l l
  | phi {n : Nat} {tokens tokens' : List Token} {result : Option String} {pairs pairs' : List (String × SourceOperand)}
    (h : Token.ReadAsPhi tokens result pairs) (h' : Token.ReadAsPhi tokens' result pairs') (hperm : pairs'.Perm pairs)
    (hnodup : (pairs.map Prod.fst).Nodup) : Rearranged ⟨n, tokens⟩ ⟨n, tokens'⟩

namespace Text

/-- A line of a text that is a phi statement. -/
def PhiLine (line : String) (result : Option String) (pairs : List (String × SourceOperand)) : Prop :=
  ∃ tokens, Token.scan line.toList = .ok tokens ∧ Token.ReadAsPhi tokens result pairs

/-- Lines of texts that are the same but for the order of the pairs of a phi, which name distinct blocks. -/
inductive LineRearranged : String → String → Prop
  | same (line : String) : LineRearranged line line
  | phi {line line' : String} {result : Option String} {pairs pairs' : List (String × SourceOperand)}
    (h : PhiLine line result pairs) (h' : PhiLine line' result pairs') (hperm : pairs'.Perm pairs)
    (hnodup : (pairs.map Prod.fst).Nodup) : LineRearranged line line'

/-- Texts that are the same but for the order of the pairs of some phis. -/
def Rearranged (text text' : String) : Prop := Forall₂ LineRearranged (lines text) (lines text')

end Text

/-! ## Statements -/

namespace SourceOp.Rearranged

variable {op op' : SourceOp} (h : op.Rearranged op')

include h

theorem isPhi : op'.isPhi = op.isPhi := by cases h <;> rfl

theorem isTerminator : op'.isTerminator = op.isTerminator := by cases h <;> rfl

/-- Only phis are rearranged. -/
theorem eq_of_not_isPhi (hphi : op.isPhi = false) : op' = op := by
  cases h with
  | same => rfl
  | phi => cases hphi

end SourceOp.Rearranged

variable {s s' : Statement}

theorem Statement.Rearranged.eq_of_not_isPhi (h : s.Rearranged s') (hphi : s.op.isPhi = false) : s' = s := by
  cases s
  cases s'
  obtain ⟨hline, hresult, hop⟩ := h
  simp only [Statement.mk.injEq]
  exact ⟨hline, hresult, hop.eq_of_not_isPhi hphi⟩

theorem Statement.Rearranged.refl (s : Statement) : s.Rearranged s := ⟨rfl, rfl, .same _⟩

theorem BlockSource.Rearranged.refl (b : BlockSource) : b.Rearranged b :=
  ⟨rfl, rfl, List.forall₂_same.2 fun s _ => .refl s⟩

variable {α β : Type}

variable {R : α → β → Prop}

/-- What is last in lists of related elements. -/
theorem forall₂_getLast? {l : List α} {l' : List β} (h : Forall₂ R l l') : Option.Rel R l.getLast? l'.getLast? := by
  have hreverse : Forall₂ R l.reverse l'.reverse := List.rel_reverse h
  rw [← List.head?_reverse, ← List.head?_reverse]
  generalize l.reverse = k, l'.reverse = k' at hreverse
  cases hreverse with
  | nil => exact .none
  | cons hfirst _ => exact .some hfirst

theorem forall₂_dropLast {l : List α} {l' : List β} (h : Forall₂ R l l') : Forall₂ R l.dropLast l'.dropLast := by
  rw [List.dropLast_eq_take, List.dropLast_eq_take, h.length_eq]
  exact List.forall₂_take _ h

theorem forall₂_concat {l : List α} {l' : List β} {a : α} {b : β} (h : Forall₂ R l l') (hab : R a b) :
    Forall₂ R (l ++ [a]) (l' ++ [b]) := List.rel_append h (.cons hab .nil)

variable {p : α → Bool} {q : β → Bool}

theorem forall₂_takeWhile (hpq : ∀ a b, R a b → q b = p a) {l : List α} {l' : List β} (h : Forall₂ R l l') :
    Forall₂ R (l.takeWhile p) (l'.takeWhile q) := by
  induction h with
  | nil => exact .nil
  | cons hab _ ih =>
    rw [List.takeWhile_cons, List.takeWhile_cons, hpq _ _ hab]
    split
    · exact .cons hab ih
    · exact .nil

theorem forall₂_zipIdx {l : List α} {l' : List β} (h : Forall₂ R l l') :
    ∀ n, Forall₂ (fun p p' => R p.1 p'.1 ∧ p'.2 = p.2) (l.zipIdx n) (l'.zipIdx n) := by
  induction h with
  | nil => exact fun _ => .nil
  | cons hab _ ih =>
    intro n
    rw [List.zipIdx_cons, List.zipIdx_cons]
    exact .cons ⟨hab, rfl⟩ (ih (n + 1))

theorem forall₂_find? (hpq : ∀ a b, R a b → q b = p a) {l : List α} {l' : List β} (h : Forall₂ R l l') :
    Option.Rel R (l.find? p) (l'.find? q) := by
  induction h with
  | nil => exact .none
  | cons hab _ ih =>
    rw [List.find?_cons, List.find?_cons, hpq _ _ hab]
    split
    · exact .some hab
    · exact ih

/-- Blocks that are rearranged end in a terminator together. -/
theorem BlockSource.Rearranged.isTerminated {b b' : BlockSource} (h : b.Rearranged b') :
    b'.isTerminated = b.isTerminated := by
  unfold BlockSource.isTerminated
  have hlast := forall₂_getLast? h.statements
  revert hlast
  cases b.statements.getLast? <;> cases b'.statements.getLast? <;> intro hlast <;> cases hlast
  · rfl
  · rename_i hs
    exact hs.op.isTerminator

/-! ## Lines -/

/-- A phi statement starts with the name of its result. -/
theorem Token.ReadAsPhi.starts {tokens : List Token} {result : Option String} {pairs : List (String × SourceOperand)}
    (h : Token.ReadAsPhi tokens result pairs) : ∃ name rest, tokens = .localName name :: .punct '=' :: rest := by
  by_contra hnot
  -- without the name the statement would lack its result
  have hnone : StateT.run LineReader.resultName tokens = .ok (none, tokens) := by
    refine congrArg Except.ok ?_
    dsimp only
    split
    · exact absurd ⟨_, _, rfl⟩ hnot
    · rfl
  have hgives : LineReader.Gives (fun s => s.op.isPhi = false) (do
      let opcode ← LineReader.ident
      let op ← LineReader.operation opcode
      LineReader.finish
      if op.producesValue then throw (.missingResultName opcode)
      return { line := 0, result := none, op } : LineReader Statement) := by
    refine .bind fun opcode => .bind fun op => .bind fun _ => ?_
    dsimp only
    split
    · exact .bind_of (.throw (Q := fun _ => False) _) fun _ => False.elim
    · rename_i hproduces
      refine .pure ?_
      cases op with
      | phi => exact absurd rfl hproduces
      | binary | alloca | load | store | gep | call | print | jump | branch | ret => rfl
  have hrun := h 0
  unfold LineReader.run LineReader.statement at hrun
  rw [StateT.run_bind, hnone] at hrun
  cases LineReader.Gives.of_run hgives hrun

namespace TokenLine.Rearranged

variable {l l' : TokenLine} (h : l.Rearranged l')

include h

theorem isEmpty : l'.tokens.isEmpty = l.tokens.isEmpty := by
  cases h with
  | same => rfl
  | phi hread hread' =>
    obtain ⟨name, rest, rfl⟩ := hread.starts
    obtain ⟨name', rest', rfl⟩ := hread'.starts
    rfl

theorem isClosing : Source.isClosing l' = Source.isClosing l := by
  cases h with
  | same => rfl
  | phi hread hread' =>
    obtain ⟨name, rest, rfl⟩ := hread.starts
    obtain ⟨name', rest', rfl⟩ := hread'.starts
    rfl

end TokenLine.Rearranged

namespace Source

open Outcome

/-- The lines with tokens of two texts. -/
theorem agree_tokenLines {text text' : String} (h : Text.Rearranged text text') :
    Agree (Forall₂ TokenLine.Rearranged) (tokenLines text) (tokenLines text') := by
  unfold tokenLines
  refine (Agree.mapM (forall₂_zipIdx h 0) ?_).bind fun lines lines' hlines =>
    List.rel_filter (fun l l' hl => by simp only [hl.isEmpty]) hlines
  rintro ⟨line, i⟩ ⟨line', i'⟩ ⟨hline, hi⟩
  cases hi
  cases hline with
  | same =>
    dsimp only
    split
    · exact .same _
    · trivial
  | phi hphi hphi' hperm hnodup =>
    obtain ⟨tokens, hscan, hread⟩ := hphi
    obtain ⟨tokens', hscan', hread'⟩ := hphi'
    dsimp only
    rw [hscan, hscan']
    exact .phi hread hread' hperm hnodup

/-- What is done with a statement of a body. -/
def enter (blocks : List BlockSource) (line : Nat) (s : Statement) : Outcome (List BlockSource) :=
  match blocks.getLast? with
  | none => faultAt line .outsideBlock
  | some block => do
    if block.isTerminated then faultAt line (.afterTerminator block.name)
    if s.op.isPhi && block.statements.any fun t => !t.op.isPhi then faultAt line .latePhi
    return blocks.dropLast ++ [{ block with statements := block.statements ++ [s] }]

/-- A line of a body is a label or a statement. -/
theorem bodyLine_eq (blocks : List BlockSource) (l : TokenLine) : (∃ label, l.tokens = [.ident label, .punct ':']) ∨
      bodyLine blocks l = (LineReader.statement l.number).run l.number l.tokens >>= enter blocks l.number := by
  unfold bodyLine
  split
  · rename_i label heq
    exact .inl ⟨label, heq⟩
  · exact .inr rfl

variable {blocks blocks' : List BlockSource} {lines lines' : List TokenLine}

theorem agree_enter (hblocks : Forall₂ BlockSource.Rearranged blocks blocks') (line : Nat) (hs : s.Rearranged s') :
    Agree (Forall₂ BlockSource.Rearranged) (enter blocks line s) (enter blocks' line s') := by
  unfold enter
  have hlast := forall₂_getLast? hblocks
  revert hlast
  cases blocks.getLast? <;> cases blocks'.getLast? <;> intro hlast <;> cases hlast
  · trivial
  · rename_i block block' hblock
    have hany : (block'.statements.any fun t => !t.op.isPhi) = block.statements.any fun t => !t.op.isPhi := by
      have hstatements := hblock.statements
      generalize block.statements = l, block'.statements = l' at hstatements
      induction hstatements with
      | nil => rfl
      | cons ht _ ih => rw [List.any_cons, List.any_cons, ht.op.isPhi, ih]
    dsimp only
    rw [hblock.isTerminated, hs.op.isPhi, hany]
    have hresult : Agree (Forall₂ BlockSource.Rearranged)
        (.ok (blocks.dropLast ++ [{ block with statements := block.statements ++ [s] }]))
        (.ok (blocks'.dropLast ++ [{ block' with statements := block'.statements ++ [s'] }])) :=
      forall₂_concat (forall₂_dropLast hblocks) ⟨hblock.name, hblock.line, forall₂_concat hblock.statements hs⟩
    split
    · trivial
    · split
      · trivial
      · exact hresult

theorem agree_bodyLine (hblocks : Forall₂ BlockSource.Rearranged blocks blocks') {l l' : TokenLine}
    (h : l.Rearranged l') : Agree (Forall₂ BlockSource.Rearranged) (bodyLine blocks l) (bodyLine blocks' l') := by
  cases h with
  | same =>
    rcases bodyLine_eq blocks l with ⟨label, hlabel⟩ | heq
    · unfold bodyLine
      rw [hlabel]
      exact forall₂_concat hblocks (.refl _)
    · rcases bodyLine_eq blocks' l with ⟨label, hlabel⟩ | heq'
      · unfold bodyLine
        rw [hlabel]
        exact forall₂_concat hblocks (.refl _)
      · rw [heq, heq']
        exact (Agree.refl (R := Eq) (fun _ => rfl) _).bind fun s s' hs => hs ▸ agree_enter hblocks _ (.refl s)
  | @phi n tokens tokens' result pairs pairs' hread hread' hperm hnodup =>
    have hstatement : ∀ {tokens result pairs} (blocks : List BlockSource), Token.ReadAsPhi tokens result pairs →
        bodyLine blocks ⟨n, tokens⟩ = enter blocks n { line := n, result, op := .phi pairs } := by
      intro tokens result pairs blocks hread
      rcases bodyLine_eq blocks ⟨n, tokens⟩ with ⟨label, hlabel⟩ | heq
      · obtain ⟨name, rest, rfl⟩ := hread.starts
        cases hlabel
      · rw [heq, hread n]
        rfl
    rw [hstatement blocks hread, hstatement blocks' hread']
    exact agree_enter hblocks n ⟨rfl, rfl, .phi hperm hnodup⟩

theorem agree_body (line : Nat) (name : String) (h : Forall₂ TokenLine.Rearranged lines lines') (closed : Bool) :
    Agree (Forall₂ BlockSource.Rearranged) (body line name lines closed) (body line name lines' closed) := by
  unfold body
  have hstart : Forall₂ BlockSource.Rearranged [] [] := .nil
  refine (Agree.foldlM h (fun _ _ _ _ hblocks hl => agree_bodyLine hblocks hl) hstart).bind fun blocks blocks' hblocks => ?_
  have hempty : blocks'.isEmpty = blocks.isEmpty := by cases hblocks <;> rfl
  have hopen := forall₂_find? (p := fun b : BlockSource => !b.isTerminated) (q := fun b : BlockSource => !b.isTerminated)
    (fun b b' hb => by rw [hb.isTerminated]) hblocks
  rw [hempty]
  dsimp only
  split
  · trivial
  · split
    · trivial
    · revert hopen
      cases blocks.find? _ <;> cases blocks'.find? _ <;> intro hopen <;> cases hopen
      · exact hblocks
      · trivial

/-- The declarations of two texts: the modules are the same, and the bodies are rearranged. -/
theorem agree_declarations (h : Forall₂ TokenLine.Rearranged lines lines') (m : Module) :
    Agree (fun x y => y.1 = x.1 ∧ Forall₂ FunctionSource.Rearranged x.2 y.2) (declarations m lines)
      (declarations m lines') := by
  induction hn : lines.length using Nat.strongRecOn generalizing lines lines' m with
  | ind n ih =>
    subst hn
    cases h with
    | nil =>
      rw [declarations]
      exact ⟨rfl, .nil⟩
    | @cons l l' rest rest' hl hrest =>
      rw [declarations, declarations]
      cases hl with
      | phi hread hread' =>
        -- such a line stands outside of a function in both texts
        obtain ⟨name, more, rfl⟩ := hread.starts
        obtain ⟨name', more', rfl⟩ := hread'.starts
        trivial
      | same =>
        have hsame : ∀ {α : Type} (x : Outcome α), Agree Eq x x := Agree.refl fun _ => rfl
        have hshort : rest.length < (l :: rest).length := Nat.lt_succ_self _
        refine (hsame _).bind fun keyword _ hkeyword => hkeyword ▸ ?_
        split
        · exact (hsame _).bind fun m₁ _ hm => hm ▸ ih _ hshort hrest m₁ rfl
        · exact (hsame _).bind fun m₁ _ hm => hm ▸ ih _ hshort hrest m₁ rfl
        · exact (hsame _).bind fun m₁ _ hm => hm ▸ ih _ hshort hrest m₁ rfl
        · refine (hsame _).bind fun s _ hs => hs ▸ ?_
          have hinner := forall₂_takeWhile (p := fun k => !isClosing k) (q := fun k => !isClosing k)
            (fun k k' hk => by rw [hk.isClosing]) hrest
          dsimp only
          rw [← hinner.length_eq, ← hrest.length_eq]
          refine (agree_body _ _ hinner _).bind fun blocks blocks' hblocks => ?_
          refine (ih _ ?_ (List.forall₂_drop _ hrest) _ rfl).bind fun x y hxy => ?_
          · simp only [List.length_drop, List.length_cons]
            omega
          · exact ⟨hxy.1, .cons ⟨rfl, rfl, rfl, hblocks⟩ hxy.2⟩
        · trivial

end Source

end SsaCompiler
