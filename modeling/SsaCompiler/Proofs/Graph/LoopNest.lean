import SsaCompiler.Proofs.Graph.NaturalLoops

/-!
# The loop forest

The loops around a block are its innermost loop, the parent of that loop, and so on (`Linked.mem_around_iff`). Entering
the blocks one after the other gives every loop its body and its children (`Listed`). In the end the forest is exactly
the natural loops of the graph (`Lists.exact`): one loop for every header, with its body, its smallest loop around as
parent, and the smallest loop around each block.
-/

set_option autoImplicit false

namespace SsaCompiler

namespace LoopForest

variable {g : Cfg} {t : DominatorTree}

/-! ## The loops around a block -/

variable {ids : List Nat} {b j : Nat}

namespace Linked

variable {d : Discovery} (h : Linked g d d.headers.size)

include h

variable {i : Nat}

/-- Of two loops around a block the later one is around the other, or they are the same. -/
theorem nested_of_le (hle : i ≤ j) (hj : j < d.headers.size) (hi : g.InLoop (d.header i) b)
    (hb : g.InLoop (d.header j) b) : g.InLoop (d.header j) (d.header i) := by
  rcases Nat.lt_or_eq_of_le hle with hlt | rfl
  · exact h.nested hlt hj hi hb
  · obtain ⟨p, hp⟩ := h.header i hj
    exact .header hp

/-- The loops around a loop, from the inside out. -/
theorem mem_enclosing_iff {limit : Nat} : ∀ {i : Nat}, i < d.headers.size → d.headers.size ≤ i + limit →
    (enclosing d.parents limit (some i)).Pairwise (· < ·) ∧ (enclosing d.parents limit (some i)).head? = some i ∧
      ∀ j, j ∈ enclosing d.parents limit (some i) ↔
        j < d.headers.size ∧ i ≤ j ∧ g.InLoop (d.header j) (d.header i) := by
  induction limit with
  | zero => exact fun hi hlimit => absurd hi (by omega)
  | succ limit ih =>
    intro i hi hlimit
    obtain ⟨p, hp⟩ := h.header i hi
    rw [enclosing]
    cases hparent : d.parents[i]?.join with
    | none =>
      rw [show enclosing d.parents limit none = [] by cases limit <;> rfl]
      refine ⟨List.pairwise_singleton _ i, rfl, fun j => ⟨fun hj => ?_, fun ⟨hj, hle, hin⟩ => ?_⟩⟩
      · rw [List.mem_singleton.1 hj]
        exact ⟨hi, le_rfl, .header hp⟩
      · refine List.mem_singleton.2 (by_contra fun hne => ?_)
        obtain ⟨q, -, hq⟩ := h.parent_of i j (by omega) hj hin
        rw [hparent] at hq
        cases hq
    | some q =>
      obtain ⟨hlt, hqlt, hq⟩ := h.parent i q hparent
      obtain ⟨hpairs, hhead, hmem⟩ := ih hqlt (by omega)
      refine ⟨List.pairwise_cons.2 ⟨fun j hj => ?_, hpairs⟩, rfl, fun j => ?_⟩
      · have hle := ((hmem j).1 hj).2.1
        omega
      · rw [List.mem_cons, hmem]
        constructor
        · rintro (rfl | ⟨hj, hle, hin⟩)
          · exact ⟨hi, le_rfl, .header hp⟩
          · exact ⟨hj, by omega, hin.trans hq⟩
        · rintro ⟨hj, hle, hin⟩
          by_cases hji : j = i
          · exact .inl hji
          · obtain ⟨q', hq'j, hq'⟩ := h.parent_of i j (by omega) hj hin
            rw [hparent] at hq'
            cases hq'
            exact .inr ⟨hj, hq'j, h.nested_of_le hq'j hj hq hin⟩

/-- The innermost loop around a header is its own. -/
theorem innermost_header (hi : i < d.headers.size) : d.innermost[d.header i]?.join = some i := by
  obtain ⟨p, hp⟩ := h.header i hi
  obtain ⟨j, hji, hj⟩ := h.innermost_of (d.header i) i hi (.header hp)
  obtain ⟨hjlt, hin⟩ := h.inner _ j hj
  rcases Nat.lt_or_eq_of_le hji with hlt | rfl
  · exact absurd hin.dominates (h.order j i hlt hi)
  · exact hj

/-- Loops have different headers. -/
theorem header_inj (hi : i < d.headers.size) (hj : j < d.headers.size) (heq : d.header i = d.header j) : i = j := by
  have hii := h.innermost_header hi
  rw [heq, h.innermost_header hj] at hii
  exact (Option.some.inj hii).symm

/-- The loops around a block, from the inside out. -/
theorem mem_around_iff (hb : d.innermost[b]?.join = some i) :
    (enclosing d.parents d.parents.size (some i)).Pairwise (· < ·) ∧
      (enclosing d.parents d.parents.size (some i)).head? = some i ∧
      ∀ j, j ∈ enclosing d.parents d.parents.size (some i) ↔ j < d.headers.size ∧ g.InLoop (d.header j) b := by
  obtain ⟨hi, hin⟩ := h.inner b i hb
  rw [h.size]
  obtain ⟨hpairs, hhead, hmem⟩ := h.mem_enclosing_iff hi (Nat.le_add_left _ _)
  refine ⟨hpairs, hhead, fun j => (hmem j).trans ⟨fun ⟨hj, _, hij⟩ => ⟨hj, hij.trans hin⟩, fun ⟨hj, hjb⟩ => ?_⟩⟩
  obtain ⟨k, hkj, hk⟩ := h.innermost_of b j hj hjb
  rw [hb] at hk
  cases hk
  exact ⟨hj, hkj, h.nested_of_le hkj hj hin hjb⟩

/-- A block without an innermost loop is in no loop. -/
theorem not_inLoop (hb : d.innermost[b]?.join = none) (hj : j < d.headers.size) : ¬ g.InLoop (d.header j) b := by
  intro hin
  obtain ⟨i, -, hi⟩ := h.innermost_of b j hj hin
  rw [hb] at hi
  cases hi

end Linked

/-! ## Entering blocks -/

/-- Entering a block into some loops. -/
theorem getElem?_foldl_add (block : Nat) (hnodup : ids.Nodup) (loops : Array NaturalLoop) (i : Nat) :
    (ids.foldl (fun loops id => loops.modify id fun l => { l with blocks := l.blocks ++ [block] }) loops)[i]? =
      if i ∈ ids then loops[i]?.map fun l => { l with blocks := l.blocks ++ [block] } else loops[i]? := by
  induction ids generalizing loops with
  | nil => rfl
  | cons id ids ih =>
    obtain ⟨hid, hnodup⟩ := List.nodup_cons.1 hnodup
    rw [List.foldl_cons, ih hnodup, Array.getElem?_modify]
    by_cases hi : i = id
    · subst hi
      rw [if_neg hid, if_pos rfl, if_pos List.mem_cons_self]
    · rw [if_neg (Ne.symm hi)]
      simp only [List.mem_cons, hi, false_or]

theorem size_foldl_add (block : Nat) (ids : List Nat) (loops : Array NaturalLoop) :
    (ids.foldl (fun loops id => loops.modify id fun l => { l with blocks := l.blocks ++ [block] }) loops).size =
      loops.size := by
  induction ids generalizing loops with
  | nil => rfl
  | cons id ids ih => exact (ih _).trans (Array.size_modify ..)

/-- What a loop lists when some blocks were entered into the bodies and some were entered as headers. -/
structure ListedLoop (g : Cfg) (d : Discovery) (bodies heads : List Nat) (i : Nat) (l : NaturalLoop) : Prop where
  header : l.header = d.header i
  parent : l.parent = d.parents[i]?.join
  blocks : ∃ rest, l.blocks = d.header i :: rest ∧ rest.Nodup ∧
    ∀ b, b ∈ rest ↔ b ∈ bodies ∧ b ≠ d.header i ∧ g.InLoop (d.header i) b
  nodup : l.children.Nodup
  children : ∀ c, c ∈ l.children ↔ c < d.headers.size ∧ d.header c ∈ heads ∧ d.parents[c]?.join = some i

namespace ListedLoop

variable {d : Discovery} {bodies heads : List Nat} {i block : Nat} {l : NaturalLoop}

variable (h : ListedLoop g d bodies heads i l)

include h

/-- A block of the loop is entered into its body. -/
theorem add (hnot : block ∉ bodies) (hne : block ≠ d.header i) (hin : g.InLoop (d.header i) block) :
    ListedLoop g d (block :: bodies) heads i { l with blocks := l.blocks ++ [block] } := by
  obtain ⟨rest, hrest, hnodup, hmem⟩ := h.blocks
  refine ⟨h.header, h.parent, ⟨rest ++ [block], by rw [hrest]; rfl, ?_, fun b => ?_⟩, h.nodup, h.children⟩
  · refine List.nodup_append.2 ⟨hnodup, List.nodup_singleton block, fun b hb c hc => ?_⟩
    rw [List.mem_singleton.1 hc]
    rintro rfl
    exact hnot ((hmem b).1 hb).1
  · rw [List.mem_append, List.mem_singleton, hmem, List.mem_cons]
    constructor
    · rintro (⟨hb, hrest⟩ | rfl)
      · exact ⟨.inr hb, hrest⟩
      · exact ⟨.inl rfl, hne, hin⟩
    · rintro ⟨rfl | hb, hrest⟩
      · exact .inr rfl
      · exact .inl ⟨hb, hrest⟩

/-- A block that is not listed behind the header changes nothing in the body. -/
theorem pass (hblock : block = d.header i ∨ ¬ g.InLoop (d.header i) block) :
    ListedLoop g d (block :: bodies) heads i l := by
  obtain ⟨rest, hrest, hnodup, hmem⟩ := h.blocks
  refine ⟨h.header, h.parent, ⟨rest, hrest, hnodup, fun b => (hmem b).trans ?_⟩, h.nodup, h.children⟩
  rw [List.mem_cons]
  refine ⟨fun hb => ⟨.inr hb.1, hb.2⟩, fun ⟨hb, hin⟩ => ⟨hb.resolve_left ?_, hin⟩⟩
  rintro rfl
  exact hblock.elim hin.1 fun hout => hout hin.2

/-- A child is entered when its header is. -/
theorem addChild (hl : Linked g d d.headers.size) {c : Nat}
    (hc : c < d.headers.size) (hparent : d.parents[c]?.join = some i) (hnot : d.header c ∉ heads) :
    ListedLoop g d bodies (d.header c :: heads) i { l with children := l.children ++ [c] } := by
  refine ⟨h.header, h.parent, h.blocks, ?_, fun c' => ?_⟩
  · refine List.nodup_append.2 ⟨h.nodup, List.nodup_singleton c, fun c' hc' x hx => ?_⟩
    rw [List.mem_singleton.1 hx]
    rintro rfl
    exact hnot ((h.children c').1 hc').2.1
  · rw [List.mem_append, List.mem_singleton, h.children, List.mem_cons]
    constructor
    · rintro (⟨hlt, hhead, hp⟩ | rfl)
      · exact ⟨hlt, .inr hhead, hp⟩
      · exact ⟨hc, .inl rfl, hparent⟩
    · rintro ⟨hlt, heq | hhead, hp⟩
      · exact .inr (hl.header_inj hlt hc heq)
      · exact .inl ⟨hlt, hhead, hp⟩

/-- The header of no child changes nothing among the children. -/
theorem passChild (hblock : ∀ c, c < d.headers.size → d.header c = block → d.parents[c]?.join ≠ some i) :
    ListedLoop g d bodies (block :: heads) i l := by
  refine ⟨h.header, h.parent, h.blocks, h.nodup, fun c => (h.children c).trans ?_⟩
  rw [List.mem_cons]
  exact ⟨fun hc => ⟨hc.1, .inr hc.2.1, hc.2.2⟩,
    fun ⟨hlt, hc, hp⟩ => ⟨hlt, hc.resolve_left fun heq => hblock c hlt heq hp, hp⟩⟩

/-- Putting the lists in order keeps what is listed. -/
theorem reverse : ListedLoop g d bodies heads i
      { l with blocks := l.blocks.take 1 ++ (l.blocks.drop 1).reverse, children := l.children.reverse } := by
  obtain ⟨rest, hrest, hnodup, hmem⟩ := h.blocks
  refine ⟨h.header, h.parent, ⟨rest.reverse, by rw [hrest]; rfl, List.nodup_reverse.2 hnodup, fun b => ?_⟩,
    List.nodup_reverse.2 h.nodup, fun c => ?_⟩
  · rw [List.mem_reverse]
    exact hmem b
  · exact List.mem_reverse.trans (h.children c)

end ListedLoop

/-- What the forest lists when some blocks were entered into the bodies and some were entered as headers. -/
structure Listed (g : Cfg) (d : Discovery) (bodies heads : List Nat) (state : Array NaturalLoop × List Nat) : Prop where
  size : state.1.size = d.headers.size
  loop : ∀ i l, state.1[i]? = some l → ListedLoop g d bodies heads i l
  nodup : state.2.Nodup
  top : ∀ c, c ∈ state.2 ↔ c < d.headers.size ∧ d.header c ∈ heads ∧ d.parents[c]?.join = none

namespace Listed

variable {d : Discovery} {bodies heads seen : List Nat} {state : Array NaturalLoop × List Nat} {block : Nat}

section

variable (h : Listed g d bodies heads state)

include h

theorem lt_size {i : Nat} {l : NaturalLoop} (hi : state.1[i]? = some l) : i < d.headers.size := by
  rw [← h.size]
  exact (Array.getElem?_eq_some_iff.1 hi).1

/-- A block is entered into the bodies of the loops around it that it does not head. -/
theorem addBody (hnot : block ∉ bodies) (hids : ids.Nodup)
    (hmem : ∀ i, i ∈ ids ↔ i < d.headers.size ∧ block ≠ d.header i ∧ g.InLoop (d.header i) block) :
    Listed g d (block :: bodies) heads (ids.foldl
      (fun loops id => loops.modify id fun l => { l with blocks := l.blocks ++ [block] }) state.1, state.2) := by
  refine ⟨(size_foldl_add block ids state.1).trans h.size, fun i l hi => ?_, h.nodup, h.top⟩
  rw [getElem?_foldl_add block hids] at hi
  split at hi
  · rename_i hin
    obtain ⟨-, hne, hin⟩ := (hmem i).1 hin
    obtain ⟨l₀, hl₀, rfl⟩ := Option.map_eq_some_iff.1 hi
    exact (h.loop i l₀ hl₀).add hnot hne hin
  · rename_i hout
    refine (h.loop i l hi).pass ?_
    by_cases heq : block = d.header i
    · exact .inl heq
    · exact .inr fun hin => hout ((hmem i).2 ⟨h.lt_size hi, heq, hin⟩)

/-- A block that is no header is no child. -/
theorem passHead (hnew : ∀ c, c < d.headers.size → d.header c ≠ block) : Listed g d bodies (block :: heads) state := by
  refine ⟨h.size, fun i l hi => (h.loop i l hi).passChild fun c hc heq => absurd heq (hnew c hc), h.nodup, fun c => ?_⟩
  rw [h.top, List.mem_cons]
  exact ⟨fun hc => ⟨hc.1, .inr hc.2.1, hc.2.2⟩, fun ⟨hlt, hc, hp⟩ => ⟨hlt, hc.resolve_left (hnew c hlt), hp⟩⟩

/-- A loop is entered as a child of the loop around it. -/
theorem linkParent (hl : Linked g d d.headers.size) {id p : Nat}
    (hid : id < d.headers.size) (hnot : d.header id ∉ heads) (hp : d.parents[id]?.join = some p) :
    Listed g d bodies (d.header id :: heads)
      (state.1.modify p fun l => { l with children := l.children ++ [id] }, state.2) := by
  refine ⟨(Array.size_modify ..).trans h.size, fun i l hi => ?_, h.nodup, fun c => ?_⟩
  · rw [Array.getElem?_modify] at hi
    split at hi
    · rename_i hpi
      subst hpi
      obtain ⟨l₀, hl₀, rfl⟩ := Option.map_eq_some_iff.1 hi
      exact (h.loop p l₀ hl₀).addChild hl hid hp hnot
    · rename_i hpi
      refine (h.loop i l hi).passChild fun c hc heq hci => hpi ?_
      rw [hl.header_inj hc hid heq, hp] at hci
      exact Option.some.inj hci
  · rw [h.top, List.mem_cons]
    refine ⟨fun hc => ⟨hc.1, .inr hc.2.1, hc.2.2⟩, fun ⟨hlt, hc, hnone⟩ => ⟨hlt, hc.resolve_left fun heq => ?_, hnone⟩⟩
    rw [hl.header_inj hlt hid heq, hp] at hnone
    cases hnone

/-- A loop is entered as an outermost one. -/
theorem linkTop (hl : Linked g d d.headers.size) {id : Nat}
    (hid : id < d.headers.size) (hnot : d.header id ∉ heads) (hp : d.parents[id]?.join = none) :
    Listed g d bodies (d.header id :: heads) (state.1, state.2 ++ [id]) := by
  refine ⟨h.size, fun i l hi => (h.loop i l hi).passChild fun c hc heq hci => ?_, ?_, fun c => ?_⟩
  · rw [hl.header_inj hc hid heq, hp] at hci
    cases hci
  · refine List.nodup_append.2 ⟨h.nodup, List.nodup_singleton id, fun c hc x hx => ?_⟩
    rw [List.mem_singleton.1 hx]
    rintro rfl
    exact hnot ((h.top c).1 hc).2.1
  · rw [List.mem_append, List.mem_singleton, h.top, List.mem_cons]
    constructor
    · rintro (⟨hlt, hhead, hnone⟩ | rfl)
      · exact ⟨hlt, .inr hhead, hnone⟩
      · exact ⟨hid, .inl rfl, hp⟩
    · rintro ⟨hlt, heq | hhead, hnone⟩
      · exact .inr (hl.header_inj hlt hid heq)
      · exact .inl ⟨hlt, hhead, hnone⟩

/-- The lists of one loop are put in order. -/
theorem reverse (id : Nat) : Listed g d bodies heads (state.1.modify id fun l =>
      { l with blocks := l.blocks.take 1 ++ (l.blocks.drop 1).reverse, children := l.children.reverse }, state.2) := by
  refine ⟨(Array.size_modify ..).trans h.size, fun i l hi => ?_, h.nodup, h.top⟩
  rw [Array.getElem?_modify] at hi
  split at hi
  · obtain ⟨l₀, hl₀, rfl⟩ := Option.map_eq_some_iff.1 hi
    exact (h.loop i l₀ hl₀).reverse
  · exact h.loop i l hi

end

/-- Entering one block. -/
theorem enter (h : Listed g d seen seen state) (hl : Linked g d d.headers.size) (hnot : block ∉ seen) :
    Listed g d (block :: seen) (block :: seen) (enterBlock d state block) := by
  unfold enterBlock
  cases hid : d.innermost[block]?.join with
  | none =>
    -- a header is in its own loop, so the block is no header and in no body
    have hout := fun i hi => hl.not_inLoop (j := i) hid hi
    refine (h.passHead fun c hc heq => ?_).addBody hnot List.nodup_nil fun i => ?_
    · obtain ⟨p, hp⟩ := hl.header c hc
      exact hout c hc (heq ▸ .header hp)
    · exact ⟨fun hi => absurd hi List.not_mem_nil, fun ⟨hi, _, hin⟩ => absurd hin (hout i hi)⟩
  | some id =>
    obtain ⟨hlt, hin⟩ := hl.inner block id hid
    obtain ⟨hpairs, hhead, hmem⟩ := hl.mem_around_iff hid
    have hheader : d.headers[id]? = some (d.header id) := by
      rw [Discovery.header, Array.getD_eq_getD_getElem?, Array.getElem?_eq_getElem hlt, Option.getD_some]
    by_cases heq : d.header id = block
    · subst heq
      simp only [hheader, if_true]
      obtain ⟨outer, houter⟩ : ∃ outer, enclosing d.parents d.parents.size (some id) = id :: outer := by
        cases hlist : enclosing d.parents d.parents.size (some id) with
        | nil => rw [hlist] at hhead; cases hhead
        | cons first outer => rw [hlist] at hhead; cases hhead; exact ⟨outer, rfl⟩
      rw [houter] at hpairs hmem
      obtain ⟨hfirst, hpairs⟩ := List.pairwise_cons.1 hpairs
      have hmem' : ∀ i, i ∈ outer ↔ i < d.headers.size ∧ d.header id ≠ d.header i ∧
          g.InLoop (d.header i) (d.header id) := by
        intro i
        constructor
        · intro hi
          obtain ⟨hilt, hii⟩ := (hmem i).1 (List.mem_cons_of_mem _ hi)
          exact ⟨hilt, fun heq => absurd (hfirst i hi) (hl.header_inj hlt hilt heq ▸ Nat.lt_irrefl id), hii⟩
        · rintro ⟨hilt, hne, hii⟩
          refine ((List.mem_cons.1 ((hmem i).2 ⟨hilt, hii⟩)).resolve_left ?_)
          rintro rfl
          exact hne rfl
      rw [houter, List.tail_cons]
      cases hp : d.parents[id]?.join with
      | some p => exact ((h.linkParent hl hlt hnot hp).reverse id).addBody hnot (hpairs.imp Nat.ne_of_lt) hmem'
      | none => exact ((h.linkTop hl hlt hnot hp).reverse id).addBody hnot (hpairs.imp Nat.ne_of_lt) hmem'
    · have hnew : ∀ c, c < d.headers.size → d.header c ≠ block := by
        rintro c hc rfl
        rw [hl.innermost_header hc] at hid
        cases hid
        exact heq rfl
      have hother : ¬ d.headers[id]? = some block := by
        rw [hheader]
        exact fun hsome => heq (Option.some.inj hsome)
      simp only [hother, if_false]
      refine (h.passHead hnew).addBody hnot (hpairs.imp Nat.ne_of_lt) fun i => (hmem i).trans ?_
      exact ⟨fun ⟨hi, hii⟩ => ⟨hi, (hnew i hi).symm, hii⟩, fun ⟨hi, _, hii⟩ => ⟨hi, hii⟩⟩

/-- Entering blocks one after the other. -/
theorem foldl_enter (hl : Linked g d d.headers.size) {blocks : List Nat} (h : Listed g d seen seen state)
    (hnodup : blocks.Nodup) (hnot : ∀ b ∈ blocks, b ∉ seen) :
    Listed g d (blocks.reverse ++ seen) (blocks.reverse ++ seen) (blocks.foldl (enterBlock d) state) := by
  induction blocks generalizing state seen with
  | nil => exact h
  | cons block blocks ih =>
    obtain ⟨hblock, hnodup⟩ := List.nodup_cons.1 hnodup
    have hstep := h.enter hl (hnot block List.mem_cons_self)
    rw [List.reverse_cons, List.append_assoc]
    refine ih hstep hnodup fun b hb hseen => ?_
    rcases List.mem_cons.1 hseen with rfl | hseen
    · exact hblock hb
    · exact hnot b (List.mem_cons_of_mem _ hb) hseen

end Listed

/-- Before any block is entered every loop lists its header only. -/
theorem listed_initial {d : Discovery} (hsize : d.parents.size = d.headers.size) :
    Listed g d [] [] ((d.headers.zip d.parents).map fun (header, parent) =>
      { header, blocks := [header], parent, children := [] : NaturalLoop }, []) := by
  refine ⟨by simp [hsize], fun i l hi => ?_, List.nodup_nil, by simp⟩
  obtain ⟨⟨header, parent⟩, hpair, rfl⟩ := Option.map_eq_some_iff.1 ((Array.getElem?_map ..).symm.trans hi)
  obtain ⟨hheader, hparent⟩ := Array.getElem?_zip_eq_some.1 hpair
  have hheader : d.header i = header := by rw [Discovery.header, Array.getD_eq_getD_getElem?, hheader]; rfl
  exact ⟨hheader.symm, by rw [hparent]; rfl, ⟨[], by rw [hheader], List.nodup_nil, by simp⟩, List.nodup_nil, by simp⟩

/-! ## The finished forest -/

/-- One of the loops with a property, with a body inside the bodies of all of them. -/
def Smallest (f : LoopForest) (P : Nat → NaturalLoop → Prop) (i : Nat) : Prop :=
  ∃ l, f.loops[i]? = some l ∧ P i l ∧ ∀ j m, f.loops[j]? = some m → P j m → l.blocks ⊆ m.blocks

/-- A forest that is exactly the natural loops of a graph. -/
structure Exact (g : Cfg) (f : LoopForest) : Prop where
  headers : (f.loops.toList.map (·.header)).Nodup ∧ ∀ h, (∃ l ∈ f.loops, l.header = h) ↔ ∃ p, g.BackEdge p h
  bodies : ∀ l ∈ f.loops, l.blocks.head? = some l.header ∧ l.blocks.Nodup ∧ ∀ b, b ∈ l.blocks ↔ g.InLoop l.header b
  parents : ∀ (i : Nat) (l : NaturalLoop), f.loops[i]? = some l →
    (∀ p, l.parent = some p ↔ f.Smallest (fun j m => j ≠ i ∧ l.blocks ⊆ m.blocks) p) ∧
      (l.parent = none ↔ ∀ (j : Nat) (m : NaturalLoop), f.loops[j]? = some m → j ≠ i → ¬ l.blocks ⊆ m.blocks)
  children : ∀ (i : Nat) (l : NaturalLoop), f.loops[i]? = some l →
    l.children.Nodup ∧ ∀ c, c ∈ l.children ↔ ∃ m : NaturalLoop, f.loops[c]? = some m ∧ m.parent = some i
  topLevel : f.topLevel.Nodup ∧ ∀ c, c ∈ f.topLevel ↔ ∃ m : NaturalLoop, f.loops[c]? = some m ∧ m.parent = none
  innermost : ∀ b, (∀ i, f.loopOf? b = some i ↔ f.Smallest (fun _ m => b ∈ m.blocks) i) ∧
    (f.loopOf? b = none ↔ ∀ l ∈ f.loops, b ∉ l.blocks)
  depth : ∀ b, f.blockDepth b = f.loops.toList.countP fun l => l.blocks.contains b

/-- The forest lists what was discovered. -/
structure Lists (g : Cfg) (d : Discovery) (f : LoopForest) : Prop where
  linked : Linked g d d.headers.size
  found : ∀ h p, g.BackEdge p h → ∃ i, i < d.headers.size ∧ d.header i = h
  size : f.loops.size = d.headers.size
  header : ∀ (i : Nat) (l : NaturalLoop), f.loops[i]? = some l → l.header = d.header i
  parent : ∀ (i : Nat) (l : NaturalLoop), f.loops[i]? = some l → l.parent = d.parents[i]?.join
  head : ∀ (i : Nat) (l : NaturalLoop), f.loops[i]? = some l → l.blocks.head? = some l.header ∧ l.blocks.Nodup
  body : ∀ (i : Nat) (l : NaturalLoop), f.loops[i]? = some l → ∀ b, b ∈ l.blocks ↔ g.InLoop l.header b
  children : ∀ (i : Nat) (l : NaturalLoop), f.loops[i]? = some l →
    l.children.Nodup ∧ ∀ c, c ∈ l.children ↔ c < d.headers.size ∧ d.parents[c]?.join = some i
  topLevel : f.topLevel.Nodup ∧ ∀ c, c ∈ f.topLevel ↔ c < d.headers.size ∧ d.parents[c]?.join = none
  innermost : f.innermost = d.innermost

theorem lists_ofCfg (ht : DominatorTree.Exact g t) : Lists g (discover g t) (ofCfg g t) := by
  have hfound := found_discover ht
  obtain ⟨hnodup, -, hblocks, -, -⟩ := ht.order_spec
  have hlisted := (listed_initial (g := g) hfound.linked.size).foldl_enter hfound.linked
    (List.nodup_reverse.2 hnodup) fun b _ => List.not_mem_nil
  rw [List.reverse_reverse, List.append_nil] at hlisted
  have hheader : ∀ c, c < (discover g t).headers.size → (discover g t).header c ∈ t.blocks := by
    intro c hc
    obtain ⟨p, hp⟩ := hfound.linked.header c hc
    exact (hblocks _).2 (Cfg.InLoop.header hp).reachable
  refine ⟨hfound.linked, fun h p hp => ?_, hlisted.size, fun i l hi => (hlisted.loop i l hi).header,
    fun i l hi => (hlisted.loop i l hi).parent, fun i l hi => ?_, fun i l hi b => ?_, fun i l hi => ?_, ?_, rfl⟩
  · exact hfound.found h p ((ht.postOrder_spec.1 h).2 (Cfg.InLoop.header hp).reachable) hp
  · obtain ⟨rest, hrest, hnd, hmem⟩ := (hlisted.loop i l hi).blocks
    rw [(hlisted.loop i l hi).header, hrest]
    exact ⟨rfl, List.nodup_cons.2 ⟨fun hin => ((hmem _).1 hin).2.1 rfl, hnd⟩⟩
  · obtain ⟨rest, hrest, -, hmem⟩ := (hlisted.loop i l hi).blocks
    obtain ⟨p, hp⟩ := hfound.linked.header i (hlisted.lt_size hi)
    rw [(hlisted.loop i l hi).header, hrest, List.mem_cons, hmem]
    refine ⟨fun hb => hb.elim (fun heq => heq.symm ▸ .header hp) fun hb => hb.2.2, fun hin => ?_⟩
    exact or_iff_not_imp_left.2 fun hne => ⟨(hblocks b).2 hin.reachable, hne, hin⟩
  · refine ⟨(hlisted.loop i l hi).nodup, fun c => ((hlisted.loop i l hi).children c).trans ?_⟩
    exact ⟨fun hc => ⟨hc.1, hc.2.2⟩, fun hc => ⟨hc.1, hheader c hc.1, hc.2⟩⟩
  · refine ⟨List.nodup_reverse.2 hlisted.nodup, fun c => List.mem_reverse.trans ((hlisted.top c).trans ?_)⟩
    exact ⟨fun hc => ⟨hc.1, hc.2.2⟩, fun hc => ⟨hc.1, hheader c hc.1, hc.2⟩⟩

namespace Lists

variable {d : Discovery} {f : LoopForest} (h : Lists g d f)

include h

variable {i : Nat} {l m : NaturalLoop}

theorem lt (hi : f.loops[i]? = some l) : i < d.headers.size := by
  rw [← h.size]
  exact (Array.getElem?_eq_some_iff.1 hi).1

theorem exists_loop (hi : i < d.headers.size) : ∃ l, f.loops[i]? = some l := by
  rw [← h.size] at hi
  exact ⟨_, Array.getElem?_eq_getElem hi⟩

section

variable (hi : f.loops[i]? = some l)

include hi

theorem backEdge : ∃ p, g.BackEdge p l.header := by
  rw [h.header i l hi]
  exact h.linked.header i (h.lt hi)

theorem mem_blocks : b ∈ l.blocks ↔ g.InLoop (d.header i) b := by
  rw [h.body i l hi, h.header i l hi]

/-- A loop is inside another one iff its header is. -/
theorem subset_iff (hj : f.loops[j]? = some m) : l.blocks ⊆ m.blocks ↔ g.InLoop (d.header j) (d.header i) := by
  obtain ⟨p, hp⟩ := h.linked.header i (h.lt hi)
  refine ⟨fun hsub => (h.mem_blocks hj).1 (hsub ((h.mem_blocks hi).2 (.header hp))), fun hin b hb => ?_⟩
  exact (h.mem_blocks hj).2 (hin.trans ((h.mem_blocks hi).1 hb))

/-- A loop inside another one was found before it. -/
theorem le_of_subset (hj : f.loops[j]? = some m) (hsub : l.blocks ⊆ m.blocks) : i ≤ j :=
  Nat.le_of_not_lt fun hlt => h.linked.order j i hlt (h.lt hi) ((h.subset_iff hi hj).1 hsub).dominates

end

/-- There is only one smallest loop with a property. -/
theorem smallest_unique {P : Nat → NaturalLoop → Prop} (hi : f.Smallest P i) (hj : f.Smallest P j) : i = j := by
  obtain ⟨l, hl, hPl, hleast⟩ := hi
  obtain ⟨m, hm, hPm, hleast'⟩ := hj
  exact Nat.le_antisymm (h.le_of_subset hl hm (hleast j m hm hPm)) (h.le_of_subset hm hl (hleast' i l hl hPl))

theorem header_nodup : (f.loops.toList.map (·.header)).Nodup := by
  rw [List.nodup_iff_injective_getElem]
  intro i j hij
  have hi : f.loops[i.1]? = some _ := Array.getElem?_eq_getElem (by simpa using i.2)
  have hj : f.loops[j.1]? = some _ := Array.getElem?_eq_getElem (by simpa using j.2)
  simp only [List.getElem_map, Array.getElem_toList] at hij
  rw [h.header _ _ hi, h.header _ _ hj] at hij
  exact Fin.ext (h.linked.header_inj (h.lt hi) (h.lt hj) hij)

theorem exists_header_iff (b : Nat) : (∃ l ∈ f.loops, l.header = b) ↔ ∃ p, g.BackEdge p b := by
  constructor
  · rintro ⟨l, hl, rfl⟩
    obtain ⟨i, hi⟩ := Array.mem_iff_getElem?.1 hl
    exact h.backEdge hi
  · rintro ⟨p, hp⟩
    obtain ⟨i, hlt, rfl⟩ := h.found b p hp
    obtain ⟨l, hl⟩ := h.exists_loop hlt
    exact ⟨l, Array.mem_of_getElem? hl, h.header i l hl⟩

theorem listed_iff (c : Nat) {parent : Option Nat} : c < d.headers.size ∧ d.parents[c]?.join = parent ↔
    ∃ m, f.loops[c]? = some m ∧ m.parent = parent := by
  constructor
  · rintro ⟨hlt, rfl⟩
    obtain ⟨m, hm⟩ := h.exists_loop hlt
    exact ⟨m, hm, h.parent c m hm⟩
  · rintro ⟨m, hm, rfl⟩
    exact ⟨h.lt hm, (h.parent c m hm).symm⟩

/-- The parent is the smallest loop around. -/
theorem smallest_of_parent {p : Nat} (hi : f.loops[i]? = some l) (hp : l.parent = some p) :
    f.Smallest (fun j m => j ≠ i ∧ l.blocks ⊆ m.blocks) p := by
  rw [h.parent i l hi] at hp
  obtain ⟨hlt, hplt, hin⟩ := h.linked.parent i p hp
  obtain ⟨m, hm⟩ := h.exists_loop hplt
  refine ⟨m, hm, ⟨by omega, (h.subset_iff hi hm).2 hin⟩, fun j n hn ⟨hne, hsub⟩ => (h.subset_iff hm hn).2 ?_⟩
  have hij := h.le_of_subset hi hn hsub
  have hjin := (h.subset_iff hi hn).1 hsub
  obtain ⟨q, hqj, hq⟩ := h.linked.parent_of i j (by omega) (h.lt hn) hjin
  rw [hp] at hq
  cases hq
  exact h.linked.nested_of_le hqj (h.lt hn) hin hjin

theorem exists_parent (hi : f.loops[i]? = some l) (hj : f.loops[j]? = some m) (hne : j ≠ i)
    (hsub : l.blocks ⊆ m.blocks) : ∃ p, l.parent = some p := by
  have hij := h.le_of_subset hi hj hsub
  obtain ⟨p, -, hp⟩ := h.linked.parent_of i j (by omega) (h.lt hj) ((h.subset_iff hi hj).1 hsub)
  exact ⟨p, (h.parent i l hi).trans hp⟩

/-- The innermost loop of a block is the smallest loop around it. -/
theorem smallest_of_loopOf? (hb : f.loopOf? b = some i) : f.Smallest (fun _ m => b ∈ m.blocks) i := by
  rw [loopOf?, h.innermost] at hb
  obtain ⟨hi, hin⟩ := h.linked.inner b i hb
  obtain ⟨l, hl⟩ := h.exists_loop hi
  refine ⟨l, hl, (h.mem_blocks hl).2 hin, fun j m hm hbm => (h.subset_iff hl hm).2 ?_⟩
  have hjin := (h.mem_blocks hm).1 hbm
  obtain ⟨k, hkj, hk⟩ := h.linked.innermost_of b j (h.lt hm) hjin
  rw [hb] at hk
  cases hk
  exact h.linked.nested_of_le hkj (h.lt hm) hin hjin

theorem exists_loopOf? (hj : f.loops[j]? = some m) (hb : b ∈ m.blocks) : ∃ i, f.loopOf? b = some i := by
  obtain ⟨i, -, hi⟩ := h.linked.innermost_of b j (h.lt hj) ((h.mem_blocks hj).1 hb)
  exact ⟨i, by rw [loopOf?, h.innermost, hi]⟩

theorem parents_eq : f.loops.map (·.parent) = d.parents := by
  refine Array.ext_getElem? fun i => ?_
  rw [Array.getElem?_map]
  cases hi : f.loops[i]? with
  | none =>
    have hle := Array.getElem?_eq_none_iff.1 hi
    rw [h.size, ← h.linked.size] at hle
    exact (Array.getElem?_eq_none hle).symm
  | some l =>
    have hlt : i < d.parents.size := h.linked.size ▸ h.lt hi
    rw [Option.map_some, h.parent i l hi, Array.getElem?_eq_getElem hlt, Option.join_some]

/-- The numbers of the loops around a block. -/
theorem countP_eq_length (hids : ids.Nodup) (hmem : ∀ i, i ∈ ids ↔ i < d.headers.size ∧ g.InLoop (d.header i) b) :
    f.loops.toList.countP (fun l => l.blocks.contains b) = ids.length := by
  have hnodup : ((f.loops.toList.zipIdx.filter fun e => e.1.blocks.contains b).map Prod.snd).Nodup := by
    refine (List.filter_sublist.map Prod.snd).nodup ?_
    rw [List.zipIdx_map_snd]
    exact List.nodup_range'
  have hperm := (List.perm_ext_iff_of_nodup hnodup hids).2 fun i => ?_
  · rw [← hperm.length_eq, List.length_map, ← List.countP_eq_length_filter]
    conv_lhs => rw [← List.zipIdx_map_fst 0 f.loops.toList, List.countP_map]
    rfl
  · rw [hmem, List.mem_map]
    constructor
    · rintro ⟨⟨l, j⟩, hl, rfl⟩
      obtain ⟨hl, hb⟩ := List.mem_filter.1 hl
      have hj : f.loops[j]? = some l := by
        rw [← Array.getElem?_toList]
        exact List.mk_mem_zipIdx_iff_getElem?.1 hl
      exact ⟨h.lt hj, (h.mem_blocks hj).1 (List.contains_iff_mem.1 hb)⟩
    · rintro ⟨hlt, hin⟩
      obtain ⟨l, hl⟩ := h.exists_loop hlt
      refine ⟨(l, i), List.mem_filter.2 ⟨List.mk_mem_zipIdx_iff_getElem?.2 ?_, ?_⟩, rfl⟩
      · rw [Array.getElem?_toList]
        exact hl
      · exact List.contains_iff_mem.2 ((h.mem_blocks hl).2 hin)

theorem blockDepth_eq (b : Nat) : f.blockDepth b = f.loops.toList.countP fun l => l.blocks.contains b := by
  rw [blockDepth]
  cases hb : f.loopOf? b with
  | none =>
    rw [loopOf?, h.innermost] at hb
    refine (h.countP_eq_length (List.nodup_nil : ([] : List Nat).Nodup) fun i => ?_).symm
    exact ⟨fun hi => absurd hi List.not_mem_nil, fun hi => absurd hi.2 (h.linked.not_inLoop hb hi.1)⟩
  | some i =>
    rw [loopOf?, h.innermost] at hb
    obtain ⟨hpairs, -, hmem⟩ := h.linked.mem_around_iff hb
    show (enclosing (f.loops.map (·.parent)) f.loops.size (some i)).length = _
    rw [h.parents_eq, h.size, ← h.linked.size]
    exact (h.countP_eq_length (hpairs.imp Nat.ne_of_lt) hmem).symm

theorem exact : Exact g f := by
  refine ⟨⟨h.header_nodup, h.exists_header_iff⟩, fun l hl => ?_, fun i l hi => ⟨fun p => ?_, ?_⟩, fun i l hi => ?_, ?_,
    fun b => ⟨fun i => ?_, ?_⟩, h.blockDepth_eq⟩
  · obtain ⟨i, hi⟩ := Array.mem_iff_getElem?.1 hl
    exact ⟨(h.head i l hi).1, (h.head i l hi).2, h.body i l hi⟩
  · refine ⟨h.smallest_of_parent hi, fun hp => ?_⟩
    obtain ⟨m, hm, ⟨hne, hsub⟩, _⟩ := id hp
    obtain ⟨q, hq⟩ := h.exists_parent hi hm hne hsub
    rw [hq, h.smallest_unique hp (h.smallest_of_parent hi hq)]
  · constructor
    · intro hnone j m hm hne hsub
      obtain ⟨p, hp⟩ := h.exists_parent hi hm hne hsub
      rw [hnone] at hp
      cases hp
    · intro hnone
      cases hp : l.parent with
      | none => rfl
      | some p =>
        obtain ⟨m, hm, ⟨hne, hsub⟩, -⟩ := h.smallest_of_parent hi hp
        exact absurd hsub (hnone p m hm hne)
  · refine ⟨(h.children i l hi).1, fun c => ((h.children i l hi).2 c).trans (h.listed_iff c)⟩
  · exact ⟨h.topLevel.1, fun c => (h.topLevel.2 c).trans (h.listed_iff c)⟩
  · refine ⟨h.smallest_of_loopOf?, fun hi => ?_⟩
    obtain ⟨l, hl, hb, _⟩ := id hi
    obtain ⟨j, hj⟩ := h.exists_loopOf? hl hb
    rw [hj, h.smallest_unique hi (h.smallest_of_loopOf? hj)]
  · constructor
    · intro hnone l hl hb
      obtain ⟨i, hi⟩ := Array.mem_iff_getElem?.1 hl
      obtain ⟨j, hj⟩ := h.exists_loopOf? hi hb
      rw [hnone] at hj
      cases hj
    · intro hnone
      cases hi : f.loopOf? b with
      | none => rfl
      | some i =>
        obtain ⟨l, hl, hb, -⟩ := h.smallest_of_loopOf? hi
        exact absurd hb (hnone l (Array.mem_of_getElem? hl))

end Lists

/-- The forest of any graph is exactly its natural loops: one loop for every target of a back edge, with its body, the
smallest loop around it as parent, the inverse as children, and for every block the smallest loop around it. -/
theorem natural_loops_exactly (hg : g.Explorable) (hc : g.Consistent) :
    ∃ t, DominatorTree.ofCfg g = .ok t ∧ Exact g (ofCfg g t) := by
  obtain ⟨t, ht, -⟩ := DominatorTree.ofCfg_total hg hc
  exact ⟨t, ht, (lists_ofCfg ⟨ht, hc⟩).exact⟩

/-- Cycles with two entries are no natural loops, and a loop of one block may be among them. -/
theorem natural_loops_exactly_crossedEntries : ∃ t, DominatorTree.ofCfg DominatorTree.crossedEntries = .ok t ∧
    Exact DominatorTree.crossedEntries (ofCfg DominatorTree.crossedEntries t) :=
  natural_loops_exactly DominatorTree.explorable_crossedEntries DominatorTree.consistent_crossedEntries

end LoopForest

end SsaCompiler
