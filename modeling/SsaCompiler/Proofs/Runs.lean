import Mathlib.Data.List.Infix

/-!
# Runs of deterministic systems

A system is a step function: from a state it goes on to another one, with what an observer sees of
the step, or it ends with an outcome. What a run shows is the sequence of all events up to some
point, the outcome if there is one, and whether there is none.

The main statement is `sameRuns_of_simulation`: when every step of one system is answered by some
steps of another one with the same events, and the answer is empty only while a measure falls, then
the runs of the two systems show exactly the same. Determinism of the second system turns the
forward argument into an equivalence.
-/

set_option autoImplicit false

namespace SsaCompiler

/-- What a system does in a state. -/
inductive Progress (σ ε ω : Type)
  /-- It goes on, and an observer sees the events. -/
  | next (events : List ε) (state : σ)
  /-- It ends. -/
  | done (outcome : ω)

namespace Runs

variable {σ τ υ ε ω : Type}

/-- The state after a number of steps, none of which ended the run, with the events on the way. -/
inductive StepsIn (step : σ → Progress σ ε ω) : Nat → σ → List ε → σ → Prop
  | refl (s : σ) : StepsIn step 0 s [] s
  | head {n : Nat} {s m u : σ} {e t : List ε} :
      step s = .next e m → StepsIn step n m t u → StepsIn step (n + 1) s (e ++ t) u

/-- A state that is reached, with the events on the way. -/
def Steps (step : σ → Progress σ ε ω) (s : σ) (t : List ε) (u : σ) : Prop :=
  ∃ n, StepsIn step n s t u

/-- The run ends with an outcome after showing exactly these events. -/
def Ends (step : σ → Progress σ ε ω) (s : σ) (t : List ε) (o : ω) : Prop :=
  ∃ u, Steps step s t u ∧ step u = .done o

/-- The run shows these events first, whatever it does later. -/
def Performs (step : σ → Progress σ ε ω) (s : σ) (t : List ε) : Prop :=
  ∃ t' u, Steps step s t' u ∧ t <+: t'

/-- The run never ends. -/
def Diverges (step : σ → Progress σ ε ω) (s : σ) : Prop :=
  ∀ t o, ¬ Ends step s t o

/-- Two runs show the same: they end after the same events with the same outcome, or neither ends; and
in any case they perform the same events in the same order. -/
structure SameRuns (step : σ → Progress σ ε ω) (s : σ) (step' : τ → Progress τ ε ω) (s' : τ) :
    Prop where
  ends_iff : ∀ t o, Ends step s t o ↔ Ends step' s' t o
  performs_iff : ∀ t, Performs step s t ↔ Performs step' s' t
  diverges_iff : Diverges step s ↔ Diverges step' s'

theorem SameRuns.refl (step : σ → Progress σ ε ω) (s : σ) : SameRuns step s step s :=
  ⟨fun _ _ => Iff.rfl, fun _ => Iff.rfl, Iff.rfl⟩

theorem SameRuns.trans {step₁ : σ → Progress σ ε ω} {step₂ : τ → Progress τ ε ω}
    {step₃ : υ → Progress υ ε ω} {s₁ : σ} {s₂ : τ} {s₃ : υ}
    (h : SameRuns step₁ s₁ step₂ s₂) (h' : SameRuns step₂ s₂ step₃ s₃) : SameRuns step₁ s₁ step₃ s₃ where
  ends_iff t o := (h.ends_iff t o).trans (h'.ends_iff t o)
  performs_iff t := (h.performs_iff t).trans (h'.performs_iff t)
  diverges_iff := h.diverges_iff.trans h'.diverges_iff

variable {t : List ε} {n : Nat} {s u : σ} {o : ω}

section Steps

variable {step : σ → Progress σ ε ω}

variable {e : List ε} {m : Nat} {v : σ}

theorem StepsIn.single (h : step s = .next e u) : StepsIn step 1 s e u := by
  have hrun := StepsIn.head h (StepsIn.refl u)
  rwa [List.append_nil] at hrun

variable {t' : List ε}

theorem StepsIn.append (h : StepsIn step n s t u) (h' : StepsIn step m u t' v) :
    StepsIn step (n + m) s (t ++ t') v := by
  induction h with
  | refl s => simpa using h'
  | @head n s p u e t hstep _ ih =>
    rw [List.append_assoc, Nat.add_right_comm]
    exact StepsIn.head hstep (ih h')

theorem Steps.append (h : Steps step s t u) (h' : Steps step u t' v) : Steps step s (t ++ t') v := by
  obtain ⟨n, h⟩ := h
  obtain ⟨m, h'⟩ := h'
  exact ⟨n + m, h.append h'⟩

theorem Steps.refl (s : σ) : Steps step s [] s := ⟨0, .refl s⟩

theorem Steps.single (h : step s = .next e u) : Steps step s e u :=
  ⟨1, .single h⟩

/-- A reached state with one more step. -/
theorem Steps.snoc (h : Steps step s t u) (h' : step u = .next e v) : Steps step s (t ++ e) v := h.append (.single h')

/-- Of two runs from one state the longer one continues the shorter one, because the system is
deterministic. -/
theorem StepsIn.split (h : StepsIn step n s t u) (h' : StepsIn step (n + m) s t' v) :
    ∃ t'', StepsIn step m u t'' v ∧ t' = t ++ t'' := by
  induction h generalizing t' with
  | refl s => exact ⟨t', by simpa using h', by simp⟩
  | @head n s p u e t hstep _ ih =>
    rw [Nat.add_right_comm] at h'
    cases h' with
    | head hstep' hrest =>
      rw [hstep] at hstep'
      cases hstep'
      obtain ⟨t'', hrun, rfl⟩ := ih hrest
      exact ⟨t'', hrun, by simp⟩

/-- A run does not go past a state in which the system ends. -/
theorem StepsIn.le_of_done (h : StepsIn step n s t u) (hdone : step u = .done o) (h' : StepsIn step m s t' v) :
    m ≤ n := by
  by_contra hlt
  obtain ⟨k, rfl⟩ : ∃ k, m = n + (k + 1) := ⟨m - n - 1, by omega⟩
  obtain ⟨t'', hrun, -⟩ := h.split h'
  cases hrun with
  | head hstep _ => rw [hdone] at hstep; cases hstep

/-- Where the system ends, the only events are none. -/
theorem ends_of_done (h : step s = .done o) : Ends step s [] o :=
  ⟨s, .refl s, h⟩

/-- A run that ends, with more steps before it. -/
theorem Ends.prepend (h : Steps step s t u) (h' : Ends step u t' o) : Ends step s (t ++ t') o := by
  obtain ⟨v, hrun, hdone⟩ := h'
  exact ⟨v, h.append hrun, hdone⟩

/-- A run ends in one way. -/
theorem Ends.unique {o' : ω} (h : Ends step s t o) (h' : Ends step s t' o') : t = t' ∧ o = o' := by
  obtain ⟨u, ⟨n, hrun⟩, hdone⟩ := h
  obtain ⟨u', ⟨m, hrun'⟩, hdone'⟩ := h'
  obtain rfl : n = m := Nat.le_antisymm (hrun'.le_of_done hdone' hrun) (hrun.le_of_done hdone hrun')
  obtain ⟨t'', hrest, rfl⟩ := hrun.split (m := 0) hrun'
  cases hrest
  rw [hdone] at hdone'
  cases hdone'
  exact ⟨(List.append_nil t).symm, rfl⟩

/-- What a run shows and how it ends, if it has no more than a number of states. -/
def outcome? (step : σ → Progress σ ε ω) : Nat → σ → Option (List ε × ω)
  | 0, _ => none
  | n + 1, s =>
    match step s with
    | .done o => some ([], o)
    | .next e u => (outcome? step n u).map fun r => (e ++ r.1, r.2)

/-- A run that was followed to its end. -/
theorem ends_of_outcome? (h : outcome? step n s = some (t, o)) : Ends step s t o := by
  induction n generalizing s t with
  | zero => cases h
  | succ n ih =>
    unfold outcome? at h
    split at h
    · rename_i hs
      cases h
      exact ends_of_done hs
    · rename_i e u hs
      obtain ⟨⟨t', o'⟩, hrest, heq⟩ := Option.map_eq_some_iff.1 h
      cases heq
      exact .prepend (.single hs) (ih hrest)

/-- What the next step shows. -/
def shown (step : σ → Progress σ ε ω) (s : σ) : List ε :=
  match step s with
  | .done _ => []
  | .next e _ => e

/-- Whether all states of a run pass a test, if it has no more than a number of them. -/
def passes (step : σ → Progress σ ε ω) (test : σ → Bool) : Nat → σ → Bool
  | 0, _ => false
  | n + 1, s => test s && match step s with
    | .done _ => true
    | .next _ u => passes step test n u

/-- A state of a run all of whose states pass a test. -/
theorem Steps.of_passes {test : σ → Bool} (hrun : Steps step s t u) (h : passes step test n s = true) :
    test u = true := by
  obtain ⟨k, hrun⟩ := hrun
  induction hrun generalizing n with
  | refl s =>
    cases n with
    | zero => cases h
    | succ n => exact (Bool.and_eq_true_iff.1 h).1
  | head hstep _ ih =>
    cases n with
    | zero => cases h
    | succ n =>
      rw [passes, hstep] at h
      exact ih (Bool.and_eq_true_iff.1 h).2

/-- What a run shows up to a reached state is performed. -/
theorem performs_of_steps (h : Steps step s t u) : Performs step s t :=
  ⟨t, u, h, List.prefix_rfl⟩

end Steps

section Simulation

variable {step : σ → Progress σ ε ω} {step' : τ → Progress τ ε ω}

/-- A relation under which the second system answers every step of the first one. An answer without a
step is allowed only while the measure falls, so that the second system cannot stand still. -/
structure Simulation (step : σ → Progress σ ε ω) (step' : τ → Progress τ ε ω)
    (related : σ → τ → Prop) (rank : σ → Nat) : Prop where
  next : ∀ {a b e a'}, related a b → step a = .next e a' →
    ∃ n b', StepsIn step' n b e b' ∧ related a' b' ∧ (n = 0 → rank a' < rank a)
  done : ∀ {a b o}, related a b → step a = .done o → Ends step' b [] o

variable {related : σ → τ → Prop} {rank : σ → Nat}

variable {a : σ} {b : τ}

/-- Every run of the first system is answered. -/
theorem Simulation.steps (sim : Simulation step step' related rank) {a' : σ} (hrel : related a b)
    (h : StepsIn step n a t a') : ∃ b', Steps step' b t b' ∧ related a' b' := by
  induction h generalizing b with
  | refl s => exact ⟨b, .refl b, hrel⟩
  | @head n s p u e t hstep _ ih =>
    obtain ⟨k, c, hrun, hc, -⟩ := sim.next hrel hstep
    obtain ⟨b', hrest, hb'⟩ := ih hc
    exact ⟨b', Steps.append ⟨k, hrun⟩ hrest, hb'⟩

/-- What the second system shows up to some state, the first one shows at some time, and when the second system ends
there, so does the first one, in the same way. The induction is on the number of steps that the second system has left;
a step of the first one that is answered by none lowers its measure. -/
theorem Simulation.answered (sim : Simulation step step' related rank) {k : Nat} {a : σ} {b b' : τ} {t : List ε}
    (hrel : related a b) (hrun : StepsIn step' k b t b') :
    Performs step a t ∧ ∀ o, step' b' = .done o → Ends step a t o := by
  cases hstep : step a with
  | done o' =>
    obtain ⟨c, ⟨j, hc⟩, hcdone⟩ := sim.done hrel hstep
    obtain ⟨m, rfl⟩ := Nat.exists_eq_add_of_le (hc.le_of_done hcdone hrun)
    obtain ⟨t'', hrest, heq⟩ := hrun.split hc
    refine ⟨⟨[], a, .refl a, ⟨t'', heq.symm⟩⟩, fun o hdone => ?_⟩
    obtain rfl : m = 0 := by
      have hge := hrun.le_of_done hdone hc
      omega
    cases hrest
    rw [List.append_nil] at heq
    rw [hcdone] at hdone
    cases hdone
    exact heq ▸ ends_of_done hstep
  | next e a' =>
    obtain ⟨j, c, hc, hrel', hrank⟩ := sim.next hrel hstep
    by_cases hjk : j ≤ k
    · obtain ⟨m, rfl⟩ := Nat.exists_eq_add_of_le hjk
      obtain ⟨t'', hrest, rfl⟩ := hc.split hrun
      obtain ⟨⟨u, v, huv, hpre⟩, hends⟩ := sim.answered hrel' hrest
      refine ⟨⟨e ++ u, v, Steps.append (.single hstep) huv, List.prefix_append_right_inj _ |>.2 hpre⟩, fun o hdone => ?_⟩
      exact Ends.prepend (.single hstep) (hends o hdone)
    · -- The answer to this one step already shows everything.
      obtain ⟨m, rfl⟩ := Nat.exists_eq_add_of_le (Nat.le_of_not_le hjk)
      obtain ⟨t'', -, heq⟩ := hrun.split hc
      exact ⟨⟨e, a', .single hstep, ⟨t'', heq.symm⟩⟩, fun o hdone => absurd (hrun.le_of_done hdone hc) hjk⟩
termination_by (k, rank a)
decreasing_by
  subst_vars
  by_cases hj : j = 0
  · rw [hj, Nat.zero_add]
    exact Prod.Lex.right _ (hrank hj)
  · exact Prod.Lex.left _ _ (by omega)

/-- Runs from related states show the same. -/
theorem sameRuns_of_simulation (sim : Simulation step step' related rank) (hrel : related a b) :
    SameRuns step a step' b := by
  have hends : ∀ t o, Ends step a t o ↔ Ends step' b t o := by
    intro t o
    constructor
    · rintro ⟨u, ⟨n, hrun⟩, hdone⟩
      obtain ⟨v, hv, hrel'⟩ := sim.steps hrel hrun
      have hlast := Ends.prepend hv (sim.done hrel' hdone)
      rwa [List.append_nil] at hlast
    · rintro ⟨v, ⟨n, hrun⟩, hdone⟩
      exact (sim.answered hrel hrun).2 o hdone
  refine ⟨hends, fun t => ⟨?_, ?_⟩, ?_⟩
  · rintro ⟨t', u, ⟨n, hrun⟩, hpre⟩
    obtain ⟨v, hv, -⟩ := sim.steps hrel hrun
    exact ⟨t', v, hv, hpre⟩
  · rintro ⟨t', v, ⟨n, hrun⟩, hpre⟩
    obtain ⟨u', w, hw, hpre'⟩ := (sim.answered hrel hrun).1
    exact ⟨u', w, hw, hpre.trans hpre'⟩
  · simp only [Diverges, hends]

/-- Two systems that end in the same way at once. -/
theorem sameRuns_of_done (h : step a = .done o) (h' : step' b = .done o) : SameRuns step a step' b := by
  have sim : Simulation step step' (fun s t => s = a ∧ t = b) (fun _ => 0) := by
    constructor
    · rintro s t e s' ⟨rfl, rfl⟩ hstep
      rw [h] at hstep
      cases hstep
    · rintro s t o' ⟨rfl, rfl⟩ hstep
      rw [h] at hstep
      cases hstep
      exact ends_of_done h'
  exact sameRuns_of_simulation sim ⟨rfl, rfl⟩

/-- Runs that end in different ways do not show the same. -/
theorem not_sameRuns_of_outcomes {m : Nat} {o' : ω} (h : (outcome? step n a).map Prod.snd = some o)
    (h' : (outcome? step' m b).map Prod.snd = some o') (hne : o ≠ o') : ¬ SameRuns step a step' b := by
  intro hsame
  obtain ⟨⟨t, _⟩, hfirst, rfl⟩ := Option.map_eq_some_iff.1 h
  obtain ⟨⟨t', _⟩, hsecond, rfl⟩ := Option.map_eq_some_iff.1 h'
  exact hne (((hsame.ends_iff _ _).1 (ends_of_outcome? hfirst)).unique (ends_of_outcome? hsecond)).2

end Simulation

/-! ## What some observers do not see -/

section Observe

variable {step : σ → Progress σ ε ω} {visible : ε → Bool}

/-- A system as an observer sees it who does not see all events. -/
def observe (visible : ε → Bool) (step : σ → Progress σ ε ω) (s : σ) : Progress σ ε ω :=
  match step s with
  | .next events s' => .next (events.filter visible) s'
  | .done o => .done o

theorem observe_eq_next {shown : List ε} : observe visible step s = .next shown u ↔
    ∃ events, step s = .next events u ∧ events.filter visible = shown := by
  unfold observe
  cases step s <;> simp [and_comm]

theorem observe_eq_done : observe visible step s = .done o ↔ step s = .done o := by
  unfold observe
  cases step s <;> simp

/-- Who sees everything sees the system itself. -/
theorem observe_of_visible (h : ∀ e, visible e = true) : observe visible step = step := by
  funext s
  unfold observe
  split
  · rename_i events s' hs
    rw [hs, List.filter_eq_self.2 fun e _ => h e]
  · rename_i o hs
    rw [hs]

/-- The observed system takes the same steps. -/
theorem StepsIn.observe {n : Nat} {s u : σ} {t : List ε} (h : StepsIn step n s t u) :
    StepsIn (Runs.observe visible step) n s (t.filter visible) u := by
  induction h with
  | refl s => exact .refl s
  | @head n s m u e t hstep _ ih =>
    rw [List.filter_append]
    exact .head (by rw [Runs.observe, hstep]) ih

/-- The observed system takes no other steps. -/
theorem StepsIn.of_observe (h : StepsIn (Runs.observe visible step) n s t u) :
    ∃ t₀, StepsIn step n s t₀ u ∧ t = t₀.filter visible := by
  induction h with
  | refl s => exact ⟨[], .refl s, rfl⟩
  | @head n s m u e t hstep _ ih =>
    obtain ⟨t₀, hrun, rfl⟩ := ih
    obtain ⟨events, hs, rfl⟩ := observe_eq_next.1 hstep
    exact ⟨events ++ t₀, .head hs hrun, by rw [List.filter_append]⟩

/-- An observed run ends as the run does. -/
theorem ends_observe_iff : Ends (observe visible step) s t o ↔ ∃ t₀, Ends step s t₀ o ∧ t = t₀.filter visible := by
  constructor
  · rintro ⟨u, ⟨n, hrun⟩, hdone⟩
    obtain ⟨t₀, hrun₀, rfl⟩ := hrun.of_observe
    exact ⟨t₀, ⟨u, ⟨n, hrun₀⟩, observe_eq_done.1 hdone⟩, rfl⟩
  · rintro ⟨t₀, ⟨u, ⟨n, hrun⟩, hdone⟩, rfl⟩
    exact ⟨u, ⟨n, hrun.observe⟩, observe_eq_done.2 hdone⟩

/-- An observed run performs what is visible of what the run performs. -/
theorem performs_observe_iff :
    Performs (observe visible step) s t ↔ ∃ t₀, Performs step s t₀ ∧ t <+: t₀.filter visible := by
  constructor
  · rintro ⟨t', u, ⟨n, hrun⟩, hpre⟩
    obtain ⟨t₀, hrun₀, rfl⟩ := hrun.of_observe
    exact ⟨t₀, performs_of_steps ⟨n, hrun₀⟩, hpre⟩
  · rintro ⟨t₀, ⟨t', u, ⟨n, hrun⟩, hpre₀⟩, hpre⟩
    exact ⟨t'.filter visible, u, ⟨n, hrun.observe⟩, hpre.trans (hpre₀.filter visible)⟩

/-- Runs that show the same do so to every observer. -/
theorem SameRuns.observe {step' : τ → Progress τ ε ω} {s' : τ} (h : SameRuns step s step' s') (visible : ε → Bool) :
    SameRuns (Runs.observe visible step) s (Runs.observe visible step') s' := by
  have hends : ∀ t o, Ends (Runs.observe visible step) s t o ↔
      Ends (Runs.observe visible step') s' t o := by
    intro t o
    rw [ends_observe_iff, ends_observe_iff]
    simp only [h.ends_iff]
  refine ⟨hends, fun t => ?_, ?_⟩
  · rw [performs_observe_iff, performs_observe_iff]
    simp only [h.performs_iff]
  · simp only [Diverges, hends]

end Observe

end Runs

end SsaCompiler
