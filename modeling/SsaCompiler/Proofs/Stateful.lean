import SsaCompiler.Proofs.Edits
import Mathlib.Logic.Relation

/-!
# Computations that carry a state

Selection and the pipeline carry a state through computations that may fail; a failure drops the state. `Leads`
says that a computation that succeeds changes its state by steps of a given sort only. It is closed under
sequencing, so what every step keeps is kept by the whole computation.
-/

set_option autoImplicit false

namespace SsaCompiler

namespace Stateful

open Relation

variable {σ α β : Type}

variable {next : α → StateT σ Outcome β}

/-- Two computations succeed one after the other when both do. -/
theorem bind_eq_ok {act : StateT σ Outcome α} {s s' : σ} {b : β} (h : (act >>= next).run s = .ok (b, s')) :
    ∃ a s₁, act.run s = .ok (a, s₁) ∧ (next a).run s₁ = .ok (b, s') := by
  rw [StateT.run_bind] at h
  cases hact : act.run s with
  | error e =>
    rw [hact] at h
    cases h
  | ok result =>
    rw [hact] at h
    exact ⟨result.1, result.2, rfl, h⟩

/-- The rest of a computation that looks at the state first. -/
theorem of_get_bind {next : σ → StateT σ Outcome β} {s : σ} {r : Outcome (β × σ)} (h : (get >>= next).run s = r) :
    (next s).run s = r := h

variable {a : α}

variable {outcome : Outcome α}

/-- A computation without state succeeds and leaves the state alone. -/
theorem lift_eq_ok {s s' : σ} (h : (liftM outcome : StateT σ Outcome α).run s = .ok (a, s')) :
    outcome = .ok a ∧ s' = s := by
  cases outcome with
  | error e => cases h
  | ok b =>
    cases h
    exact ⟨rfl, rfl⟩

/-- A successful computation changes its state by steps of one sort. -/
def Leads (S : σ → σ → Prop) (act : StateT σ Outcome α) : Prop :=
  ∀ ⦃s s' a⦄, act.run s = .ok (a, s') → ReflTransGen S s s'

namespace Leads

variable {S : σ → σ → Prop}

theorem pure (a : α) : Leads S (pure a : StateT σ Outcome α) := by
  intro s s' b h
  cases h
  exact .refl

theorem get : Leads S (get : StateT σ Outcome σ) := by
  intro s s' b h
  cases h
  exact .refl

/-- A computation without state. -/
theorem lift (outcome : Outcome α) : Leads S (liftM outcome : StateT σ Outcome α) := by
  intro s s' a h
  rw [(lift_eq_ok h).2]

theorem modify {change : σ → σ} (h : ∀ s, S s (change s)) : Leads S (modify change : StateT σ Outcome PUnit) := by
  intro s s' a hrun
  cases hrun
  exact .single (h s)

/-- A change of the state that is a step and gives a result. -/
theorem modifyGet {change : σ → α × σ} (h : ∀ s, S s (change s).2) :
    Leads S (modifyGet change : StateT σ Outcome α) := by
  intro s s' a hrun
  have hpair : (Except.ok (change s) : Outcome (α × σ)) = .ok (a, s') := hrun
  cases hs : change s with
  | mk b t =>
    rw [hs] at hpair
    cases hpair
    have hstep := h s
    rw [hs] at hstep
    exact .single hstep

theorem bind {act : StateT σ Outcome α} (h : Leads S act) (hnext : ∀ a, Leads S (next a)) : Leads S (act >>= next) := by
  intro s s' b hrun
  obtain ⟨a, s₁, hfirst, hrest⟩ := bind_eq_ok hrun
  exact (h hfirst).trans (hnext a hrest)

theorem forM {act : α → StateT σ Outcome PUnit} (h : ∀ a, Leads S (act a)) (list : List α) :
    Leads S (list.forM act) := by
  induction list with
  | nil => exact pure _
  | cons a rest ih => exact bind (h a) fun _ => ih

end Leads

variable {list : List α}

/-- What each result of a computation for the elements of a list has from its element. -/
theorem map_of_mapM {γ : Type} {act : α → StateT σ Outcome β} {f : β → γ} {g : α → γ}
    (hact : ∀ a b s s', (act a).run s = .ok (b, s') → f b = g a) :
    ∀ {s s' : σ} {found : List β}, (list.mapM act).run s = .ok (found, s') → found.map f = list.map g := by
  induction list with
  | nil =>
    intro s s' found h
    cases h
    rfl
  | cons a rest ih =>
    intro s s' found h
    rw [List.mapM_cons] at h
    obtain ⟨b, s₁, hfirst, h₁⟩ := bind_eq_ok h
    obtain ⟨more, s₂, hrest, hpure⟩ := bind_eq_ok h₁
    cases hpure
    rw [List.map_cons, List.map_cons, hact a b s s₁ hfirst, ih hrest]

variable {found : List β}

/-- There are as many results as elements. -/
theorem length_of_mapM {act : α → StateT σ Outcome β} {s s' : σ} (h : (list.mapM act).run s = .ok (found, s')) :
    found.length = list.length := by
  have hmap := map_of_mapM (f := fun _ => ()) (g := fun _ => ()) (fun _ _ _ _ _ => rfl) h
  simpa using congrArg List.length hmap

/-- Every result of a computation for the elements of a list is one for an element. -/
theorem exists_of_mem_mapM {act : α → StateT σ Outcome β} :
    ∀ {s s' : σ} {found : List β}, (list.mapM act).run s = .ok (found, s') → ∀ b ∈ found,
      ∃ a ∈ list, ∃ t t', (act a).run t = .ok (b, t') := by
  induction list with
  | nil =>
    intro s s' found h b hb
    cases h
    exact absurd hb List.not_mem_nil
  | cons a rest ih =>
    intro s s' found h c hc
    rw [List.mapM_cons] at h
    obtain ⟨b, s₁, hfirst, h₁⟩ := bind_eq_ok h
    obtain ⟨more, s₂, hrest, hpure⟩ := bind_eq_ok h₁
    cases hpure
    rcases List.mem_cons.1 hc with rfl | hc
    · exact ⟨a, List.mem_cons_self, s, s₁, hfirst⟩
    · obtain ⟨d, hd, hrun⟩ := ih hrest c hc
      exact ⟨d, List.mem_cons_of_mem _ hd, hrun⟩

/-- What the results of a computation for the elements of a list have built up, by the elements that are done. -/
theorem mapM_builds {act : α → StateT σ Outcome β} {P : List α → List β → σ → Prop}
    (hact : ∀ a ∈ list, ∀ done found s s' b, P done found s → (act a).run s = .ok (b, s') →
      P (done ++ [a]) (found ++ [b]) s') : ∀ {d : List α} {found new : List β} {s s' : σ}, P d found s →
      (list.mapM act).run s = .ok (new, s') → P (d ++ list) (found ++ new) s' := by
  induction list with
  | nil =>
    intro d found new s s' hP h
    cases h
    change P (d ++ []) (found ++ []) s
    rwa [List.append_nil, List.append_nil]
  | cons a rest ih =>
    intro d found new s s' hP h
    rw [List.mapM_cons] at h
    obtain ⟨b, s₁, hfirst, h₁⟩ := bind_eq_ok h
    obtain ⟨more, s₂, hrest, hpure⟩ := bind_eq_ok h₁
    cases hpure
    have hstep := hact a List.mem_cons_self d found s s₁ b hP hfirst
    have hmore := ih (fun c hc => hact c (List.mem_cons_of_mem _ hc)) hstep hrest
    rwa [List.append_assoc, List.append_assoc] at hmore

/-- What all results of a computation for the elements of a list have. -/
theorem forall_of_mapM {act : α → StateT σ Outcome β} {P : β → Prop}
    (hact : ∀ a b s s', (act a).run s = .ok (b, s') → P b) {s s' : σ} (h : (list.mapM act).run s = .ok (found, s')) :
    ∀ b ∈ found, P b := by
  intro b hb
  obtain ⟨a, -, t, t', hrun⟩ := exists_of_mem_mapM h b hb
  exact hact a b t t' hrun

/-- A computation from a state fails in an allowed way, or it ends with a result and a state that have a property. -/
def Meets (allowed : Failure → Prop) (act : StateT σ Outcome α) (s : σ) (post : α → σ → Prop) : Prop :=
  match act.run s with
  | .ok (a, s') => post a s'
  | .error e => allowed e

namespace Meets

variable {allowed : Failure → Prop} {act : StateT σ Outcome α} {s s' : σ} {post post' : α → σ → Prop}

section

variable (h : Meets allowed act s post)

include h

/-- What a computation that succeeds ends with. -/
theorem of_run (hrun : act.run s = .ok (a, s')) : post a s' := by
  unfold Meets at h
  rw [hrun] at h
  exact h

/-- How a computation fails. -/
theorem failsOnly : (act.run s).FailsOnly allowed := by
  intro e he
  unfold Meets at h
  rw [he] at h
  exact h

theorem mono (hle : ∀ a s', post a s' → post' a s') : Meets allowed act s post' := by
  unfold Meets at h ⊢
  split
  · rename_i hrun
    rw [hrun] at h
    exact hle _ _ h
  · rename_i hrun
    rw [hrun] at h
    exact h

/-- More failures may be allowed. -/
theorem allow {allowed' : Failure → Prop} (hle : ∀ e, allowed e → allowed' e) : Meets allowed' act s post := by
  unfold Meets at h ⊢
  split
  · rename_i hrun
    rw [hrun] at h
    exact h
  · rename_i hrun
    rw [hrun] at h
    exact hle _ h

theorem and (hrun : ∀ a s', act.run s = .ok (a, s') → post' a s') :
    Meets allowed act s fun a s' => post a s' ∧ post' a s' := by
  unfold Meets at h ⊢
  split
  · rename_i hok
    rw [hok] at h
    exact ⟨h, hrun _ _ hok⟩
  · rename_i herror
    rw [herror] at h
    exact h

end

theorem pure {a : α} (h : post a s) : Meets allowed (pure a : StateT σ Outcome α) s post := h

theorem get {post : σ → σ → Prop} (h : post s s) : Meets allowed (get : StateT σ Outcome σ) s post := h

theorem modify {change : σ → σ} {post : PUnit → σ → Prop} (h : post ⟨⟩ (change s)) :
    Meets allowed (modify change : StateT σ Outcome PUnit) s post := h

/-- Changing the state with a result. -/
theorem modifyGet {change : σ → α × σ} (h : post (change s).1 (change s).2) :
    Meets allowed (modifyGet change : StateT σ Outcome α) s post := h

/-- A computation without state. -/
theorem lift (h : outcome.FailsOnly allowed) (hpost : ∀ a, outcome = .ok a → post a s) :
    Meets allowed (liftM outcome : StateT σ Outcome α) s post := by
  cases outcome with
  | ok a => exact hpost a rfl
  | error e => exact h e rfl

theorem bind {post : β → σ → Prop} (h : Meets allowed act s fun a s' => Meets allowed (next a) s' post) :
    Meets allowed (act >>= next) s post := by
  unfold Meets at h ⊢
  rw [StateT.run_bind]
  cases hrun : act.run s with
  | error e =>
    rw [hrun] at h
    exact h
  | ok result =>
    rw [hrun] at h
    exact h

theorem forM {act : α → StateT σ Outcome PUnit} {I : List α → σ → Prop} (list : List α)
    (hstep : ∀ done a rest s, list = done ++ a :: rest → I done s →
      Meets allowed (act a) s fun _ s' => I (done ++ [a]) s') (hs : I [] s) :
    Meets allowed (list.forM act) s fun _ s' => I list s' := by
  suffices h : ∀ rest done s, list = done ++ rest → I done s → Meets allowed (rest.forM act) s fun _ s' => I list s' from
    h list [] s rfl hs
  intro rest
  induction rest with
  | nil =>
    intro done s hlist hs
    rw [List.append_nil] at hlist
    exact pure (hlist ▸ hs)
  | cons a rest ih =>
    intro done s hlist hs
    exact bind ((hstep done a rest s hlist hs).mono fun _ s' hs' => ih (done ++ [a]) s' (by simpa using hlist) hs')

theorem mapM {act : α → StateT σ Outcome β} {I : List α → List β → σ → Prop} (list : List α)
    (hstep : ∀ done a rest found s, list = done ++ a :: rest → I done found s →
      Meets allowed (act a) s fun b s' => I (done ++ [a]) (found ++ [b]) s') (hs : I [] [] s) :
    Meets allowed (list.mapM act) s fun found s' => I list found s' := by
  suffices h : ∀ rest done found s, list = done ++ rest → I done found s →
      Meets allowed (rest.mapM act) s fun more s' => I list (found ++ more) s' from h list [] [] s rfl hs
  intro rest
  induction rest with
  | nil =>
    intro done found s hlist hs
    rw [List.append_nil] at hlist
    rw [List.mapM_nil]
    exact pure (by rw [List.append_nil]; exact hlist ▸ hs)
  | cons a rest ih =>
    intro done found s hlist hs
    rw [List.mapM_cons]
    refine bind ((hstep done a rest found s hlist hs).mono fun b s' hs' => bind ?_)
    refine (ih (done ++ [a]) (found ++ [b]) s' (by simpa using hlist) hs').mono fun more s'' hs'' => pure ?_
    rwa [List.append_assoc] at hs''

/-- One more element. -/
theorem run_forM_snoc {act : α → StateT σ Outcome PUnit} {s s₁ s₂ : σ} (h : (list.forM act).run s = .ok (⟨⟩, s₁))
    (ha : (act a).run s₁ = .ok (⟨⟩, s₂)) : ((list ++ [a]).forM act).run s = .ok (⟨⟩, s₂) := by
  induction list generalizing s with
  | nil =>
    cases h
    change (act a >>= fun _ => Pure.pure ⟨⟩ : StateT σ Outcome PUnit).run s₁ = _
    rw [StateT.run_bind, ha]
    rfl
  | cons b rest ih =>
    obtain ⟨⟨⟩, s', hfirst, hrest⟩ := bind_eq_ok h
    change (act b >>= fun _ => (rest ++ [a]).forM act : StateT σ Outcome PUnit).run s = _
    rw [StateT.run_bind, hfirst]
    exact ih hrest

/-- One more element and its result. -/
theorem run_mapM_snoc {act : α → StateT σ Outcome β} {s s₁ s₂ : σ} {b : β}
    (h : (list.mapM act).run s = .ok (found, s₁)) (ha : (act a).run s₁ = .ok (b, s₂)) :
    ((list ++ [a]).mapM act).run s = .ok (found ++ [b], s₂) := by
  rw [List.mapM_append, StateT.run_bind, h]
  change (List.mapM act [a] >>= fun more => Pure.pure (found ++ more)).run s₁ = _
  rw [List.mapM_cons, List.mapM_nil, StateT.run_bind, StateT.run_bind, ha]
  rfl

/-- A computation for each element of a list, with the run of those that are done. -/
theorem forM_run {act : α → StateT σ Outcome PUnit} {I : List α → σ → Prop} (list : List α)
    (hstep : ∀ done a rest s', list = done ++ a :: rest → (done.forM act).run s = .ok (⟨⟩, s') → I done s' →
      Meets allowed (act a) s' fun _ s'' => I (done ++ [a]) s'') (hs : I [] s) :
    Meets allowed (list.forM act) s fun _ s' => I list s' := by
  refine (forM (I := fun done s' => (done.forM act).run s = .ok (⟨⟩, s') ∧ I done s') list
    (fun done a rest s₁ hlist ⟨hrun, hs₁⟩ => ?_) ⟨rfl, hs⟩).mono fun _ _ h => h.2
  exact ((hstep done a rest s₁ hlist hrun hs₁).and fun _ _ ha => run_forM_snoc hrun ha).mono fun _ _ h => ⟨h.2, h.1⟩

/-- The results of a computation for each element of a list, with the run of those that are done. -/
theorem mapM_run {act : α → StateT σ Outcome β} {I : List α → List β → σ → Prop} (list : List α)
    (hstep : ∀ done a rest found s', list = done ++ a :: rest → (done.mapM act).run s = .ok (found, s') →
      I done found s' → Meets allowed (act a) s' fun b s'' => I (done ++ [a]) (found ++ [b]) s'') (hs : I [] [] s) :
    Meets allowed (list.mapM act) s fun found s' => I list found s' := by
  refine (mapM (I := fun done found s' => (done.mapM act).run s = .ok (found, s') ∧ I done found s') list
    (fun done a rest found s₁ hlist ⟨hrun, hs₁⟩ => ?_) ⟨rfl, hs⟩).mono fun _ _ h => h.2
  exact ((hstep done a rest found s₁ hlist hrun hs₁).and fun _ _ ha => run_mapM_snoc hrun ha).mono
    fun _ _ h => ⟨h.2, h.1⟩

end Meets

/-- What steps keep, a computation that takes such steps keeps. -/
theorem Leads.keeps {S : σ → σ → Prop} {act : StateT σ Outcome α} {P : σ → Prop} (h : Leads S act)
    (hkeep : ∀ s s', S s s' → P s → P s') {s s' : σ} (hrun : act.run s = .ok (a, s')) (hs : P s) : P s' := by
  have hsteps := h hrun
  clear hrun
  induction hsteps with
  | refl => exact hs
  | tail _ hstep ih => exact hkeep _ _ hstep ih

end Stateful

end SsaCompiler
