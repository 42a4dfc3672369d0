import SsaCompiler.Graph.ReversePostorder
import SsaCompiler.Proofs.Edits
import Mathlib.Logic.Relation

/-!
# Reachable blocks

The depth-first walk visits exactly the blocks to which a path leads from the entry
(`isReachable_iff`). The argument is one invariant of the walk: what it will have listed at the end is
what it has listed so far, what it still has to leave, and what the blocks that it still has to
enter reach; and the successors of what it lists are listed or were entered before.
-/

set_option autoImplicit false

namespace SsaCompiler

namespace Cfg

/-- There is an edge between two blocks. -/
def Edge (g : Cfg) (a b : Nat) : Prop := ∃ succs, g.succs a = .ok succs ∧ b ∈ succs

/-- A path leads from the entry to a block. -/
def Reachable (g : Cfg) (b : Nat) : Prop := Relation.ReflTransGen g.Edge g.entry b

end Cfg

namespace ReversePostorder

/-- What a list of blocks has to do with the state of the walk that gives it. -/
structure WalkResult (g : Cfg) (entered : Array Bool) (left : List Nat) (pending : List Visit)
    (order : List Nat) : Prop where
  left_mem : ∀ b ∈ left, b ∈ order
  leave_mem : ∀ b, .leave b ∈ pending → b ∈ order
  enter_mem : ∀ b, .enter b ∈ pending → entered[b]? = some true ∨ b ∈ order
  origin : ∀ b ∈ order, b ∈ left ∨ .leave b ∈ pending ∨
    (∃ a, .enter a ∈ pending ∧ Relation.ReflTransGen g.Edge a b) ∧ b < entered.size ∧
      ∃ succs, g.succs b = .ok succs ∧ ∀ s ∈ succs, entered[s]? = some true ∨ s ∈ order

variable {g : Cfg} {order : List Nat} {b : Nat} {r : ReversePostorder}

/-- A block that is marked as entered was so before, or it is the one just entered. -/
theorem getElem?_set_true {entered : Array Bool} {s : Nat} {h : b < entered.size}
    (hs : (entered.set b true)[s]? = some true) : entered[s]? = some true ∨ s = b := by
  rw [Array.getElem?_set] at hs
  split at hs
  · rename_i heq
    exact .inr heq.symm
  · exact .inl hs

/-- The walk keeps its invariant. -/
theorem walk_result (g : Cfg) (entered : Array Bool) (left : List Nat) (pending : List Visit)
    (h : walk g entered left pending = .ok order) : WalkResult g entered left pending order := by
  fun_induction walk g entered left pending with
  | case1 entered left =>
    cases h
    exact ⟨fun _ hb => hb, by simp, by simp, fun _ hb => .inl hb⟩
  | case2 entered left b rest ih =>
    obtain ⟨hleft, hleave, henter, horigin⟩ := ih h
    refine ⟨fun c hc => hleft c (List.mem_cons_of_mem _ hc), ?_, ?_, ?_⟩
    · intro c hc
      rcases List.mem_cons.1 hc with hc | hc
      · cases hc
        exact hleft b List.mem_cons_self
      · exact hleave c hc
    · intro c hc
      exact henter c (by simpa using hc)
    · intro c hc
      rcases horigin c hc with hc | hc | ⟨⟨a, ha, hpath⟩, hrest⟩
      · rcases List.mem_cons.1 hc with rfl | hc
        · exact .inr (.inl List.mem_cons_self)
        · exact .inl hc
      · exact .inr (.inl (List.mem_cons_of_mem _ hc))
      · exact .inr (.inr ⟨⟨a, List.mem_cons_of_mem _ ha, hpath⟩, hrest⟩)
  | case3 entered left b rest hb hentered ih =>
    obtain ⟨hleft, hleave, henter, horigin⟩ := ih h
    refine ⟨hleft, fun c hc => hleave c (by simpa using hc), ?_, ?_⟩
    · intro c hc
      rcases List.mem_cons.1 hc with hc | hc
      · cases hc
        exact .inl (by rw [Array.getElem?_eq_getElem hb, hentered])
      · exact henter c hc
    · intro c hc
      rcases horigin c hc with hc | hc | ⟨⟨a, ha, hpath⟩, hrest⟩
      · exact .inl hc
      · exact .inr (.inl (List.mem_cons_of_mem _ hc))
      · exact .inr (.inr ⟨⟨a, List.mem_cons_of_mem _ ha, hpath⟩, hrest⟩)
  | case4 => cases h
  | case5 entered left b rest hb hentered succs hsuccs ih =>
    simp only [List.map_attach_eq_pmap, List.pmap_eq_map] at ih
    obtain ⟨hleft, hleave, henter, horigin⟩ := ih h
    have hbmem : b ∈ order := hleave b (by simp)
    have hknown : ∀ s, (entered.set b true)[s]? = some true ∨ s ∈ order →
        entered[s]? = some true ∨ s ∈ order := by
      rintro s (hs | hs)
      · rcases getElem?_set_true hs with hs | rfl
        · exact .inl hs
        · exact .inr hbmem
      · exact .inr hs
    refine ⟨hleft, fun c hc => hleave c (by simp at hc ⊢; exact .inr hc), ?_, ?_⟩
    · intro c hc
      rcases List.mem_cons.1 hc with hc | hc
      · cases hc
        exact .inr hbmem
      · exact hknown c (henter c (by simp [hc]))
    · intro c hc
      rcases horigin c hc with hc | hc | ⟨⟨a, ha, hpath⟩, hlt, l, hl, hls⟩
      · exact .inl hc
      · have hc' : c = b ∨ .leave c ∈ rest := by simpa using hc
        rcases hc' with rfl | hc'
        · refine .inr (.inr ⟨⟨c, List.mem_cons_self, .refl⟩, hb, succs, hsuccs, ?_⟩)
          exact fun s hs => hknown s (henter s (by simp [hs]))
        · exact .inr (.inl (List.mem_cons_of_mem _ hc'))
      · have ha' : a ∈ succs ∨ .enter a ∈ rest := by simpa using ha
        refine .inr (.inr ⟨?_, by simpa using hlt, l, hl, fun s hs => hknown s (hls s hs)⟩)
        rcases ha' with ha' | ha'
        · exact ⟨b, List.mem_cons_self, .head ⟨succs, hsuccs, ha'⟩ hpath⟩
        · exact ⟨a, List.mem_cons_of_mem _ ha', hpath⟩
  | case6 => cases h

/-- The places of blocks are those of listed blocks within the capacity. -/
theorem positions_isSome (order : List Nat) (capacity b : Nat) :
    ((positions order capacity)[b]?.join).isSome = true ↔ b ∈ order ∧ b < capacity := by
  have hfold : ∀ (l : List (Nat × Nat)) (places : Array (Option Nat)),
      ((l.foldl (fun places e => places.setIfInBounds e.1 (some e.2)) places)[b]?.join).isSome = true ↔
        (places[b]?.join).isSome = true ∨ (b ∈ l.map Prod.fst ∧ b < places.size) := by
    intro l
    induction l with
    | nil => simp
    | cons e l ih =>
      intro places
      rw [List.foldl_cons, ih, Array.getElem?_setIfInBounds, Array.size_setIfInBounds, List.map_cons,
        List.mem_cons]
      by_cases heb : e.1 = b
      · by_cases hb : b < places.size
        · simp [heb, hb]
        · simp [heb, hb]
      · simp [heb, Ne.symm heb]
  have hblank : ((Array.replicate capacity (none : Option Nat))[b]?.join).isSome = false := by
    rw [Array.getElem?_replicate]
    split <;> rfl
  rw [positions, hfold, hblank]
  simp

/-- The order comes from a walk from the entry. -/
theorem ofCfg_eq_ok (h : ofCfg g = .ok r) :
    walk g (Array.replicate g.capacity false) [] [.enter g.entry] = .ok r.order ∧
      r.position = positions r.order g.capacity := by
  obtain ⟨order, hwalk, h⟩ := Outcome.bind_eq_ok.1 h
  cases h
  exact ⟨hwalk, rfl⟩

/-- A path leads from the entry to each listed block, which is within the capacity and has known successors. -/
theorem origin_of_ofCfg (h : ofCfg g = .ok r) (hb : b ∈ r.order) :
    g.Reachable b ∧ b < g.capacity ∧ ∃ succs, g.succs b = .ok succs ∧ ∀ s ∈ succs, s ∈ r.order := by
  obtain ⟨-, -, -, horigin⟩ := walk_result g _ _ _ (ofCfg_eq_ok h).1
  rcases horigin b hb with hb | hb | ⟨⟨a, ha, hpath⟩, hlt, succs, hsuccs, hlisted⟩
  · cases hb
  · simp at hb
  · obtain rfl : a = g.entry := by simpa using ha
    refine ⟨hpath, by simpa using hlt, succs, hsuccs, fun s hs => (hlisted s hs).resolve_left ?_⟩
    rw [Array.getElem?_replicate]
    split <;> simp

/-- The walk reaches exactly the blocks to which a path leads. -/
theorem isReachable_iff (h : ofCfg g = .ok r) (b : Nat) : r.isReachable b = true ↔ g.Reachable b := by
  obtain ⟨hwalk, hpositions⟩ := ofCfg_eq_ok h
  rw [isReachable, position?, hpositions, positions_isSome]
  constructor
  · rintro ⟨hb, -⟩
    exact (origin_of_ofCfg h hb).1
  · intro hpath
    have hmem : b ∈ r.order := by
      induction hpath with
      | refl =>
        obtain ⟨-, -, henter, -⟩ := walk_result g _ _ _ hwalk
        refine (henter g.entry (by simp)).resolve_left ?_
        rw [Array.getElem?_replicate]
        split <;> simp
      | @tail c d _ hedge ih =>
        obtain ⟨succs, hsuccs, hd⟩ := hedge
        obtain ⟨-, -, l, hl, hlisted⟩ := origin_of_ofCfg h ih
        rw [hsuccs] at hl
        cases hl
        exact hlisted d hd
    exact ⟨hmem, (origin_of_ofCfg h hmem).2.1⟩

/-- A block that the walk reaches is listed. -/
theorem mem_order_of_isReachable (h : ofCfg g = .ok r) (hb : r.isReachable b = true) : b ∈ r.order := by
  rw [isReachable, position?, (ofCfg_eq_ok h).2, positions_isSome] at hb
  exact hb.1

/-- The blocks that are still to be left. -/
def leaving (pending : List Visit) : List Nat :=
  pending.filterMap fun
    | .leave b => some b
    | .enter _ => none

/-- The walk lists no block twice. The blocks that it has left or still has to leave were all entered. -/
theorem walk_nodup (g : Cfg) (entered : Array Bool) (left : List Nat) (pending : List Visit)
    (h : walk g entered left pending = .ok order) (hnodup : (leaving pending ++ left).Nodup)
    (hentered : ∀ b ∈ leaving pending ++ left, entered[b]? = some true) : order.Nodup := by
  fun_induction walk g entered left pending with
  | case1 entered left =>
    cases h
    exact hnodup
  | case2 entered left b rest ih =>
    have hperm : (leaving (.leave b :: rest) ++ left).Perm (leaving rest ++ b :: left) := by
      rw [show leaving (.leave b :: rest) = b :: leaving rest from rfl, List.cons_append]
      exact List.perm_middle.symm
    exact ih h (hperm.nodup_iff.1 hnodup) fun c hc => hentered c (hperm.mem_iff.2 hc)
  | case3 entered left b rest hb hbe ih => exact ih h hnodup hentered
  | case4 => cases h
  | case5 entered left b rest hb hbe succs hsuccs ih =>
    simp only [List.map_attach_eq_pmap, List.pmap_eq_map] at ih
    have hleaving : leaving ((succs.map Visit.enter).reverse ++ .leave b :: rest) = b :: leaving rest := by
      unfold leaving
      rw [List.filterMap_append, List.filterMap_reverse, List.filterMap_map]
      simp
    have hnot : b ∉ leaving rest ++ left := by
      intro hin
      have hmark := hentered b hin
      rw [Array.getElem?_eq_getElem hb] at hmark
      exact hbe (Option.some.inj hmark)
    refine ih h ?_ fun c hc => ?_
    · rw [hleaving, List.cons_append]
      exact List.nodup_cons.2 ⟨hnot, hnodup⟩
    · rw [hleaving, List.cons_append] at hc
      rw [Array.getElem?_set]
      split
      · rfl
      · rename_i hne
        exact hentered c ((List.mem_cons.1 hc).resolve_left (Ne.symm hne))
  | case6 => cases h

/-- What the walk leaves last comes first. -/
theorem head?_walk (g : Cfg) (entered : Array Bool) (left : List Nat) (pending : List Visit)
    (h : walk g entered left pending = .ok order) (hlast : pending.getLast? = some (.leave b)) :
    order.head? = some b := by
  fun_induction walk g entered left pending with
  | case1 => cases hlast
  | case2 entered left c rest ih =>
    cases rest with
    | nil =>
      cases hlast
      rw [walk] at h
      cases h
      rfl
    | cons v rest => exact ih h (by rwa [List.getLast?_cons_cons] at hlast)
  | case3 entered left c rest hc hce ih =>
    cases rest with
    | nil => cases hlast
    | cons v rest => exact ih h (by rwa [List.getLast?_cons_cons] at hlast)
  | case4 => cases h
  | case5 entered left c rest hc hce succs hsuccs ih =>
    simp only [List.map_attach_eq_pmap, List.pmap_eq_map] at ih
    refine ih h ?_
    rw [List.getLast?_append, List.getLast?_cons]
    cases rest with
    | nil => cases hlast
    | cons v rest =>
      rw [List.getLast?_cons_cons] at hlast
      rw [hlast]
      rfl
  | case6 => cases h

/-- The places of a list without repetition are its indices. -/
theorem positions_eq_some_iff (hnodup : order.Nodup) {capacity p : Nat} (hcap : ∀ c ∈ order, c < capacity) :
    (positions order capacity)[b]?.join = some p ↔ order[p]? = some b := by
  have hfold : ∀ (l : List (Nat × Nat)) (places : Array (Option Nat)), (l.map Prod.fst).Nodup →
      (∀ e ∈ l, e.1 < places.size) → ∀ q,
      (l.foldl (fun places e => places.setIfInBounds e.1 (some e.2)) places)[b]?.join = some q ↔
        (b, q) ∈ l ∨ (b ∉ l.map Prod.fst ∧ places[b]?.join = some q) := by
    intro l
    induction l with
    | nil => simp
    | cons e l ih =>
      intro places hnd hlt q
      rw [List.map_cons, List.nodup_cons] at hnd
      rw [List.foldl_cons, ih _ hnd.2 (fun d hd => by
        rw [Array.size_setIfInBounds]
        exact hlt d (List.mem_cons_of_mem _ hd)), Array.getElem?_setIfInBounds, List.map_cons]
      by_cases heb : e.1 = b
      · have hb := hlt e List.mem_cons_self
        have hnone : ∀ x, (b, x) ∉ l := fun x hx => hnd.1 (heb ▸ List.mem_map_of_mem (f := Prod.fst) hx)
        have hfst : b ∉ l.map Prod.fst := heb ▸ hnd.1
        rw [if_pos heb, if_pos hb]
        constructor
        · rintro (hin | ⟨-, hq⟩)
          · exact absurd hin (hnone q)
          · have hq' : e.2 = q := by simpa using hq
            exact .inl (List.mem_cons.2 (.inl (by rw [← heb, ← hq'])))
        · rintro (hin | ⟨hnot, -⟩)
          · rcases List.mem_cons.1 hin with hin | hin
            · refine .inr ⟨hfst, ?_⟩
              rw [← hin]
              rfl
            · exact absurd hin (hnone q)
          · exact absurd (List.mem_cons.2 (.inl heb.symm)) hnot
      · rw [if_neg heb]
        have hcons : (b, q) ∈ e :: l ↔ (b, q) ∈ l := by
          rw [List.mem_cons]
          refine ⟨fun h => h.resolve_left fun heq => heb (by rw [← heq]), .inr⟩
        rw [hcons, List.mem_cons, not_or]
        simp [Ne.symm heb]
  have hblank : (Array.replicate capacity (none : Option Nat))[b]?.join = none := by
    rw [Array.getElem?_replicate]
    split <;> rfl
  have hmap : (order.zipIdx).map Prod.fst = order := List.zipIdx_map_fst ..
  rw [positions, hfold _ _ (by rw [hmap]; exact hnodup) (fun e he => ?_), hblank]
  · simp [List.mem_zipIdx_iff_getElem?]
  · rw [Array.size_replicate]
    exact hcap e.1 (hmap ▸ List.mem_map_of_mem he)

/-- What the reverse postorder is: the reachable blocks, each once, the entry first, with their places. -/
theorem ofCfg_spec (h : ofCfg g = .ok r) :
    r.order.Nodup ∧ r.order.head? = some g.entry ∧ (∀ b, b ∈ r.order ↔ g.Reachable b) ∧
      (∀ b ∈ r.order, b < g.capacity) ∧ ∀ b p, r.position? b = some p ↔ r.order[p]? = some b := by
  obtain ⟨hwalk, hpositions⟩ := ofCfg_eq_ok h
  have hnodup : r.order.Nodup := walk_nodup g _ _ _ hwalk List.nodup_nil fun b hb => absurd hb List.not_mem_nil
  have hcap : ∀ b ∈ r.order, b < g.capacity := fun b hb => (origin_of_ofCfg h hb).2.1
  refine ⟨hnodup, ?_, fun b => ⟨fun hb => (origin_of_ofCfg h hb).1, fun hb => ?_⟩, hcap, fun b p => ?_⟩
  · rw [walk] at hwalk
    split at hwalk
    · split at hwalk
      · rename_i hlt hmark
        simp at hmark
      · split at hwalk
        · cases hwalk
        · exact head?_walk g _ _ _ hwalk (by simp)
    · cases hwalk
  · exact mem_order_of_isReachable h ((isReachable_iff h b).2 hb)
  · rw [position?, hpositions]
    exact positions_eq_some_iff hnodup hcap

/-- The walk asked every block of the order for its successors. -/
theorem succs_of_mem_order (h : ofCfg g = .ok r) (hb : b ∈ r.order) : ∃ succs, g.succs b = .ok succs := by
  obtain ⟨-, -, succs, hsuccs, -⟩ := origin_of_ofCfg h hb
  exact ⟨succs, hsuccs⟩

end ReversePostorder

end SsaCompiler
