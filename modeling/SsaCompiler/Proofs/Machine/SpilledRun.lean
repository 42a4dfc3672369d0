import SsaCompiler.Proofs.Machine.AssignedRun
import SsaCompiler.Proofs.Machine.Reloads

/-!
# Running spilled code

A function with a spilled register runs like the function itself for an observer who does not see the
word that the register lives in, as long as neither the function nor what surrounds it touches that
word. The relation between the states says where the value of the register is, as `Reloads` says it
of the code; loads and stores of the word are steps that the function itself does not take.
-/

set_option autoImplicit false

namespace SsaCompiler

/-- Callees and the system neither look at some words nor change them. -/
structure MachineEnv.Respects {W : Type} (env : MachineEnv W) (words : List Word) : Prop where
  call : ∀ callee regs count m m' w, Memory.AgreeOff words m m' →
    Option.Rel (fun r r' => Memory.AgreeOff words r.1 r'.1 ∧ (∀ a ∈ words, r'.1 a = m' a) ∧ r'.2 = r.2)
      (env.call callee regs count m w) (env.call callee regs count m' w)
  syscall : ∀ regs m m' w, Memory.AgreeOff words m m' →
    Option.Rel (fun r r' => r'.1 = r.1 ∧ Memory.AgreeOff words r.2.1 r'.2.1 ∧
      (∀ a ∈ words, r'.2.1 a = m' a) ∧ r'.2.2 = r.2.2) (env.syscall regs m w) (env.syscall regs m' w)

variable {i : Instr}

namespace Instr

variable {W : Type}

/-- Effects that differ at most in one word of memory, which stays as it was. -/
structure SameEffect (word : Word) (m' : Memory) (e e' : Effect W) : Prop where
  value : e'.value = e.value
  overwritten : e'.overwritten = e.overwritten
  world : e'.world = e.world
  events : e'.events = e.events
  target : e'.target = e.target
  memory : ∀ a, a ≠ word → e'.memory a = e.memory a
  kept : e'.memory word = m' word

/-- The words below the stack pointer depend on memory at their addresses only. -/
theorem outgoingWords_congr {sp word : Word} {count : Nat} {m m' : Memory}
    (hm : ∀ a, a ≠ word → m' a = m a) (hword : word ∉ (outgoingWords sp count m).map Prod.fst) :
    outgoingWords sp count m' = outgoingWords sp count m := by
  unfold outgoingWords at hword ⊢
  refine List.map_congr_left fun j hj => ?_
  dsimp only
  rw [hm]
  rintro heq
  exact hword (List.mem_map.2 ⟨_, List.mem_map.2 ⟨j, hj, rfl⟩, heq⟩)

/-- A call depends on the values of its sources through the registers only. -/
theorem perform_call (env : MachineEnv W) (callee : String) (argRegs stackArgs : Nat) (values : List Word)
    (regs : Register → Word) (m : Memory) (w : W) : (call callee argRegs stackArgs).perform env values regs m w =
      let event := MachineEvent.call callee ((Register.arguments.take argRegs).map regs)
        (outgoingWords (regs .sp) stackArgs m)
      match env.call callee regs stackArgs m w with
      | some (m', regs', w') =>
        .ok { overwritten := some regs', memory := m', world := w', events := [event] }
      | none => .error (.halted event) := by
  rcases values with _ | ⟨a, _ | ⟨b, _ | ⟨c, l⟩⟩⟩ <;> rfl

/-- A system call depends on the values of its sources through the registers only. -/
theorem perform_syscall (env : MachineEnv W) (values : List Word) (regs : Register → Word) (m : Memory) (w : W) :
    syscall.perform env values regs m w =
      let event := MachineEvent.syscall (regs .v0) (regs .a0)
      match env.syscall regs m w with
      | some (v, m', w') => .ok { value := some v, memory := m', world := w', events := [event] }
      | none => .error (.halted event) := by
  rcases values with _ | ⟨a, _ | ⟨b, _ | ⟨c, l⟩⟩⟩ <;> rfl

/-- What an instruction does when one word of memory is different: the same, if it does not touch that
word. -/
def Framed (env : MachineEnv W) (word : Word) (m m' : Memory) (i : Instr) (values : List Word)
    (regs : Register → Word) (w : W) : Prop :=
  (∀ e, i.perform env values regs m w = .ok e → (∀ ev ∈ e.events, word ∉ ev.touched) →
    ∃ e', i.perform env values regs m' w = .ok e' ∧ SameEffect word m' e e') ∧
  ∀ o, i.perform env values regs m w = .error o → (∀ ev, o = .halted ev → word ∉ ev.touched) →
    i.perform env values regs m' w = .error o

section Framed

variable {env : MachineEnv W} {word : Word} {m m' : Memory}

variable {values : List Word} {regs : Register → Word}

/-- An instruction that fails whatever memory holds. -/
theorem framed_of_error {w : W} {o : MachineOutcome} (h : ∀ m, i.perform env values regs m w = .error o) :
    Framed env word m m' i values regs w := by
  constructor
  · intro e he
    rw [h] at he
    cases he
  · intro o' ho _
    rw [h] at ho ⊢
    exact ho

/-- An instruction that leaves memory alone and does not look at it. -/
theorem framed_of_pure {w : W} (value : Option Word) (events : List MachineEvent) (target : Option Nat)
    (hm : ∀ a, a ≠ word → m' a = m a)
    (h : ∀ m, i.perform env values regs m w = .ok { value, memory := m, world := w, events, target }) :
    Framed env word m m' i values regs w := by
  constructor
  · intro e he _
    rw [h] at he
    cases he
    exact ⟨_, h m', rfl, rfl, rfl, rfl, rfl, hm, rfl⟩
  · intro o ho
    rw [h] at ho
    cases ho

variable {words : List Word}

section

variable (henv : env.Respects words) (hword : word ∈ words) (hm : ∀ a, a ≠ word → m' a = m a)

include henv hword hm

/-- Calls are framed when the environment respects the word. -/
theorem framed_call (callee : String) (argRegs stackArgs : Nat) (values : List Word) (regs : Register → Word) (w : W) :
    Framed env word m m' (call callee argRegs stackArgs) values regs w := by
  have hcall := henv.call callee regs stackArgs m m' w fun a ha => hm a fun heq => ha (heq ▸ hword)
  have hself := henv.call callee regs stackArgs m m w fun _ _ => rfl
  unfold Framed
  rw [perform_call, perform_call]
  generalize env.call callee regs stackArgs m w = r at hcall hself ⊢
  generalize env.call callee regs stackArgs m' w = r' at hcall ⊢
  dsimp only
  cases hcall with
  | none =>
    refine ⟨fun e he => (nomatch he), fun o ho hev => ?_⟩
    cases ho
    have hwords := hev _ rfl
    rw [MachineEvent.touched] at hwords
    rw [outgoingWords_congr hm hwords]
  | @some r r' hcall =>
    cases hself with
    | some hself =>
      obtain ⟨m₁, out⟩ := r
      obtain ⟨m₁', out'⟩ := r'
      obtain ⟨hoff, hkept, heq⟩ := hcall
      obtain rfl : out = out' := heq.symm
      refine ⟨fun e he hev => ?_, fun o ho => nomatch ho⟩
      cases he
      refine ⟨_, rfl, rfl, rfl, rfl, ?_, rfl, fun a ha => ?_, hkept word hword⟩
      · have hwords := hev _ (List.mem_singleton_self _)
        rw [MachineEvent.touched] at hwords
        rw [outgoingWords_congr hm hwords]
      · by_cases hin : a ∈ words
        · exact (hkept a hin).trans ((hm a ha).trans (hself.2.1 a hin).symm)
        · exact hoff a hin

/-- System calls are framed when the environment respects the word. -/
theorem framed_syscall (values : List Word) (regs : Register → Word) (w : W) :
    Framed env word m m' syscall values regs w := by
  have hcall := henv.syscall regs m m' w fun a ha => hm a fun heq => ha (heq ▸ hword)
  have hself := henv.syscall regs m m w fun _ _ => rfl
  unfold Framed
  rw [perform_syscall, perform_syscall]
  generalize env.syscall regs m w = r at hcall hself ⊢
  generalize env.syscall regs m' w = r' at hcall ⊢
  dsimp only
  cases hcall with
  | none => exact ⟨fun e he => (nomatch he), fun o ho _ => ho⟩
  | @some r r' hcall =>
    cases hself with
    | some hself =>
      obtain ⟨out, m₁, w₁⟩ := r
      obtain ⟨out', m₁', w₁'⟩ := r'
      obtain ⟨hout, hoff, hkept, hworld⟩ := hcall
      obtain rfl : out = out' := hout.symm
      obtain rfl : w₁ = w₁' := hworld.symm
      refine ⟨fun e he _ => ?_, fun o ho => nomatch ho⟩
      cases he
      refine ⟨_, rfl, rfl, rfl, rfl, rfl, rfl, fun a ha => ?_, hkept word hword⟩
      by_cases hin : a ∈ words
      · exact (hkept a hin).trans ((hm a ha).trans (hself.2.2.1 a hin).symm)
      · exact hoff a hin

end

section

variable (hm : ∀ a, a ≠ word → m' a = m a)

include hm

theorem framed_load (dst base : Operand) (offset : Word)
    (isIncoming : Bool) (values : List Word) (regs : Register → Word) (w : W) :
    Framed env word m m' (load dst base offset isIncoming) values regs w := by
  rcases values with _ | ⟨a, _ | ⟨b, l⟩⟩
  · exact framed_of_error fun _ => rfl
  · cases isIncoming with
    | true => exact framed_of_pure _ _ _ hm fun _ => rfl
    | false =>
      refine ⟨fun e he hev => ?_, fun o ho => nomatch ho⟩
      cases he
      have hne : a + offset ≠ word := by
        have htouched := hev _ (List.mem_singleton_self _)
        rw [MachineEvent.touched, List.mem_singleton] at htouched
        exact fun heq => htouched heq.symm
      refine ⟨_, rfl, ?_, rfl, rfl, ?_, rfl, hm, rfl⟩
      · exact congrArg some (hm _ hne)
      · exact congrArg (fun v => [MachineEvent.load (a + offset) v]) (hm _ hne)
  · exact framed_of_error fun _ => rfl

theorem framed_store (src base : Operand) (offset : Word) (values : List Word) (regs : Register → Word) (w : W) :
    Framed env word m m' (store src base offset) values regs w := by
  rcases values with _ | ⟨a, _ | ⟨b, _ | ⟨c, l⟩⟩⟩
  · exact framed_of_error fun _ => rfl
  · exact framed_of_error fun _ => rfl
  · refine ⟨fun e he hev => ?_, fun o ho => nomatch ho⟩
    cases he
    have hne : word ≠ b + offset := by
      have htouched := hev _ (List.mem_singleton_self _)
      rw [MachineEvent.touched, List.mem_singleton] at htouched
      exact htouched
    refine ⟨_, rfl, rfl, rfl, rfl, rfl, rfl, fun k hk => ?_, if_neg hne⟩
    change (if k = b + offset then a else m' k) = if k = b + offset then a else m k
    rw [hm k hk]
  · exact framed_of_error fun _ => rfl

theorem framed_binary (op : MachineOp) (dst lhs rhs : Operand) (values : List Word) (regs : Register → Word) (w : W) :
    Framed env word m m' (binary op dst lhs rhs) values regs w := by
  rcases values with _ | ⟨a, _ | ⟨b, _ | ⟨c, l⟩⟩⟩
  · exact framed_of_error fun _ => rfl
  · exact framed_of_error fun _ => rfl
  · cases hv : op.eval? a b with
    | none => exact framed_of_error (o := .fault) fun m => by rw [perform, hv]
    | some v => exact framed_of_pure (some v) [] none hm fun m => by rw [perform, hv]
  · exact framed_of_error fun _ => rfl

theorem framed_loadAddr (dst : Operand) (symbol : String) (values : List Word) (regs : Register → Word) (w : W) :
    Framed env word m m' (loadAddr dst symbol) values regs w := by
  rcases values with _ | ⟨a, l⟩
  · cases hv : env.address symbol with
    | none => exact framed_of_error (o := .fault) fun m => by rw [perform, hv]
    | some v => exact framed_of_pure (some v) [] none hm fun m => by rw [perform, hv]
  · exact framed_of_error fun _ => rfl

end

theorem framed (henv : env.Respects words) (hword : word ∈ words) (hm : ∀ a, a ≠ word → m' a = m a) (i : Instr)
    (values : List Word) (regs : Register → Word) (w : W) : Framed env word m m' i values regs w := by
  cases i with
  | call callee argRegs stackArgs => exact framed_call henv hword hm callee argRegs stackArgs values regs w
  | syscall => exact framed_syscall henv hword hm values regs w
  | load dst base offset isIncoming => exact framed_load hm dst base offset isIncoming values regs w
  | store src base offset => exact framed_store hm src base offset values regs w
  | binary op dst lhs rhs => exact framed_binary hm op dst lhs rhs values regs w
  | loadAddr dst symbol => exact framed_loadAddr hm dst symbol values regs w
  | ret usesV0 =>
    rcases values with _ | ⟨a, _ | ⟨b, _ | ⟨c, l⟩⟩⟩ <;> exact framed_of_error fun _ => rfl
  | compare | move | branch | jump =>
    all_goals
      rcases values with _ | ⟨a, _ | ⟨b, _ | ⟨c, l⟩⟩⟩ <;>
        first
          | exact framed_of_error fun _ => rfl
          | exact framed_of_pure _ _ _ hm fun _ => rfl

end Framed

end Instr

/-! ## Words that a run leaves alone -/

/-- No event of a run touches a word, nor does the call that it may end in. -/
structure Untouched {σ : Type} (step : σ → Progress σ MachineEvent MachineOutcome) (word : Word) (s : σ) :
    Prop where
  performs : ∀ t, Runs.Performs step s t → ∀ e ∈ t, word ∉ e.touched
  halted : ∀ t e, Runs.Ends step s t (.halted e) → word ∉ e.touched

namespace Untouched

variable {σ : Type} {step : σ → Progress σ MachineEvent MachineOutcome} {word : Word} {s s' : σ}

/-- The events of a step do not touch the word. -/
theorem events (h : Untouched step word s) {events : List MachineEvent} (hs : step s = .next events s') :
    ∀ e ∈ events, word ∉ e.touched :=
  h.performs events (Runs.performs_of_steps (.single hs))

/-- After a step the word is left alone as before. -/
theorem next (h : Untouched step word s) {events : List MachineEvent} (hs : step s = .next events s') :
    Untouched step word s' := by
  constructor
  · rintro t ⟨t', u, hrun, hpre⟩ e he
    have hmore := Runs.Steps.append (.single hs) hrun
    refine h.performs (events ++ t') (Runs.performs_of_steps hmore) e ?_
    exact List.mem_append_right _ (hpre.subset he)
  · intro t e hend
    exact h.halted (events ++ t) e (Runs.Ends.prepend (.single hs) hend)

/-- A word that a run leaves alone up to its end. -/
theorem of_ends {t : List MachineEvent} {o : MachineOutcome} (h : Runs.Ends step s t o) (ht : ∀ e ∈ t, word ∉ e.touched)
    (ho : ∀ e, o = .halted e → word ∉ e.touched) : Untouched step word s := by
  constructor
  · rintro t' ⟨t₁, u, ⟨n, hrun⟩, hpre⟩ e he
    obtain ⟨v, ⟨m, hend⟩, hdone⟩ := h
    obtain ⟨k, rfl⟩ := Nat.exists_eq_add_of_le (hend.le_of_done hdone hrun)
    obtain ⟨t₂, -, rfl⟩ := hrun.split hend
    exact ht e (List.mem_append_left _ (hpre.subset he))
  · intro t' e hend
    exact ho e (h.unique hend).2

/-- A last call does not touch the word. -/
theorem last (h : Untouched step word s) {e : MachineEvent} (hs : step s = .done (.halted e)) : word ∉ e.touched :=
  h.halted [] e (Runs.ends_of_done hs)

end Untouched

/-- An event that does not touch a word looks the same to an observer who does not see it. -/
theorem filter_isOutside_cons {word : Word} {hidden : List Word} {events : List MachineEvent}
    (h : ∀ e ∈ events, word ∉ e.touched) : events.filter (MachineEvent.isOutside (word :: hidden)) =
      events.filter (MachineEvent.isOutside hidden) := by
  refine List.filter_congr fun e he => ?_
  have hword := h e he
  cases e with
  | load a v | store a v =>
    rw [MachineEvent.touched, List.mem_singleton] at hword
    rw [MachineEvent.isOutside, MachineEvent.isOutside, List.contains_cons,
      beq_false_of_ne (fun heq => hword heq.symm), Bool.false_or]
  | _ => rfl

/-! ## One instruction -/

namespace SpilledRun

variable {W : Type} {mf mf' : MachineFunction} {budget : RegisterSet} {v : Nat} {word : Word}

/-- Where the value of the spilled register is. -/
def Found (v : Nat) (word : Word) (s s' : MachineState W) : Whereabouts → Prop
  | .memory => s'.memory word = s.vregs v
  | .both t => s'.memory word = s.vregs v ∧ s'.vregs t = s.vregs v
  | .temp t => s'.vregs t = s.vregs v

/-- The states of the two functions, the value of the spilled register apart. -/
structure Alike (mf : MachineFunction) (v : Nat) (word : Word) (s s' : MachineState W) : Prop where
  regs : s'.regs = s.regs
  cells : ∀ n, n < mf.vregCount → n ≠ v → s'.vregs n = s.vregs n
  world : s'.world = s.world
  memory : ∀ a, a ≠ word → s'.memory a = s.memory a
  block : s'.block = s.block

variable {s s' : MachineState W} {t : Nat}

variable {op : Operand}

/-- Operands that an instruction reads hold the same word. -/
theorem Alike.read (h : Alike mf v word s s') (hop : ∀ n, op = .virtual n → n < mf.vregCount)
    (hv : op = .virtual v → s'.vregs t = s.vregs v) : s'.read (Instr.renamed v t op) = s.read op := by
  have hreg : ∀ r, s'.reg r = s.reg r := fun r => by rw [MachineState.reg, MachineState.reg, h.regs]
  by_cases hopv : op = .virtual v
  · rw [Instr.renamed, if_pos hopv, hopv]
    exact hv hopv
  · rw [Instr.renamed, if_neg hopv]
    cases op with
    | fixed r | allocated r => exact hreg r
    | immediate c => rfl
    | «virtual» n =>
      refine h.cells n (hop n rfl) ?_
      rintro rfl
      exact hopv rfl

/-- What an instruction does on both sides, `t` standing for the spilled register on the second one. -/
structure Advances (mf : MachineFunction) (v t : Nat) (word : Word) (i : Instr)
    (s s' u u' : MachineState W) : Prop where
  alike : Alike mf v word u u'
  kept : u'.memory word = s'.memory word
  same : Operand.virtual v ∉ i.defs → u.vregs v = s.vregs v ∧ u'.vregs t = s'.vregs t
  written : Operand.virtual v ∈ i.defs → u'.vregs t = u.vregs v

/-- Where the temporary of the register holds its value, it can be read. -/
theorem Found.temp {loc : Whereabouts} (h : Found v word s s' loc) (ht : loc.temp? = some t) :
    s'.vregs t = s.vregs v := by
  cases loc with
  | memory => cases ht
  | both k =>
    obtain rfl := Option.some.inj ht
    exact h.2
  | temp k =>
    obtain rfl := Option.some.inj ht
    exact h

/-- An instruction that does not write the register leaves its value where it is. -/
theorem Advances.found {u u' : MachineState W} {loc : Whereabouts} (h : Advances mf v t word i s s' u u')
    (hd : Operand.virtual v ∉ i.defs) (ht : ∀ k, loc.temp? = some k → k = t) (hfound : Found v word s s' loc) :
    Found v word u u' loc := by
  obtain ⟨hsame, hsame'⟩ := h.same hd
  cases loc with
  | memory => exact h.kept.trans (Eq.trans hfound hsame.symm)
  | both k =>
    obtain rfl := ht k rfl
    exact ⟨h.kept.trans (hfound.1.trans hsame.symm), hsame'.trans (hfound.2.trans hsame.symm)⟩
  | temp k =>
    obtain rfl := ht k rfl
    exact hsame'.trans (Eq.trans hfound hsame.symm)

/-- Writing the destination on both sides. -/
theorem Alike.write (h : Alike mf v word s s') (ht : mf.vregCount ≤ t) (hv : v < mf.vregCount)
    (hop : ∀ n, op = .virtual n → n < mf.vregCount) (x : Word) :
    Alike mf v word (s.write op x) (s'.write (Instr.renamed v t op) x) ∧
      (s'.write (Instr.renamed v t op) x).memory = s'.memory ∧
      (op ≠ .virtual v → (s.write op x).vregs v = s.vregs v ∧
        (s'.write (Instr.renamed v t op) x).vregs t = s'.vregs t) ∧
      (op = .virtual v → (s'.write (Instr.renamed v t op) x).vregs t = (s.write op x).vregs v) := by
  by_cases hopv : op = .virtual v
  · subst hopv
    rw [Instr.renamed, if_pos rfl]
    refine ⟨⟨h.regs, fun n hn hnv => ?_, h.world, h.memory, h.block⟩, rfl, fun hne => absurd rfl hne,
      fun _ => ?_⟩
    · change Function.update s'.vregs t x n = Function.update s.vregs v x n
      rw [Function.update_of_ne (by omega), Function.update_of_ne hnv]
      exact h.cells n hn hnv
    · change Function.update s'.vregs t x t = Function.update s.vregs v x v
      rw [Function.update_self, Function.update_self]
  · rw [Instr.renamed, if_neg hopv]
    cases op with
    | immediate c => exact ⟨h, rfl, fun _ => ⟨rfl, rfl⟩, fun heq => absurd heq hopv⟩
    | «virtual» n =>
      have hn := hop n rfl
      have hnv : n ≠ v := by
        rintro rfl
        exact hopv rfl
      refine ⟨⟨h.regs, fun k hk hkv => ?_, h.world, h.memory, h.block⟩, rfl, fun _ => ⟨?_, ?_⟩,
        fun heq => absurd heq hopv⟩
      · change Function.update s'.vregs n x k = Function.update s.vregs n x k
        by_cases hkn : k = n
        · subst hkn
          rw [Function.update_self, Function.update_self]
        · rw [Function.update_of_ne hkn, Function.update_of_ne hkn]
          exact h.cells k hk hkv
      · exact Function.update_of_ne hnv.symm _ _
      · exact Function.update_of_ne (by omega) _ _
    | fixed r | allocated r =>
      refine ⟨⟨?_, h.cells, h.world, h.memory, h.block⟩, rfl, fun _ => ⟨rfl, rfl⟩, fun heq => absurd heq hopv⟩
      change Function.update s'.regs r x = Function.update s.regs r x
      rw [h.regs]

/-- A virtual register is written as the destination only. -/
theorem dst_of_mem_defs {n : Nat} (h : Operand.virtual n ∈ i.defs) : i.dst? = some (.virtual n) := by
  cases i <;> simp_all [Instr.defs, Instr.dst?, Operand.v0]

/-- The state after an effect on both sides. -/
theorem Alike.after {env : MachineEnv W} {s s' : MachineState W} (h : Alike mf v word s s')
    {i : Instr} {t : Nat} {rest rest' : List Instr} {e e' : Instr.Effect W} {values : List Word}
    {regs : Register → Word} {m : Memory} {w : W} (ht : mf.vregCount ≤ t) (hv : v < mf.vregCount)
    (hcount : ∀ n, Operand.virtual n ∈ i.defs → n < mf.vregCount)
    (he : i.perform env values regs m w = .ok e) (hsame : Instr.SameEffect word s'.memory e e') :
    Advances mf v t word i s s' (s.after mf i.dst? e rest)
      (s'.after mf' (i.dst?.map (Instr.renamed v t)) e' rest') := by
  obtain ⟨-, -, hvalue, hover⟩ := Instr.perform_ok he
  have hfinish : ∀ u u' : MachineState W, u = s.settle i.dst? e →
      u' = s'.settle (i.dst?.map (Instr.renamed v t)) e' → u'.regs = u.regs →
      (∀ n, n < mf.vregCount → n ≠ v → u'.vregs n = u.vregs n) →
      (Operand.virtual v ∉ i.defs → u.vregs v = s.vregs v ∧ u'.vregs t = s'.vregs t) →
      (Operand.virtual v ∈ i.defs → u'.vregs t = u.vregs v) →
      Advances mf v t word i s s' (s.after mf i.dst? e rest)
        (s'.after mf' (i.dst?.map (Instr.renamed v t)) e' rest') := by
    rintro u u' rfl rfl hregs hcells hkeep hwritten
    have hblock : e'.target.getD s'.block = e.target.getD s.block := by rw [hsame.target, h.block]
    exact ⟨⟨hregs, hcells, hsame.world, hsame.memory, hblock⟩, hsame.kept, hkeep, hwritten⟩
  unfold MachineState.settle at hfinish
  rw [hsame.overwritten, hsame.value] at hfinish
  cases hd : i.dst? with
  | none =>
    rw [hd] at hfinish
    have hno : Operand.virtual v ∉ i.defs := by
      intro hmem
      rw [dst_of_mem_defs hmem] at hd
      cases hd
    cases ho : e.overwritten with
    | none =>
      rw [ho] at hfinish
      exact hfinish s s' rfl rfl h.regs h.cells (fun _ => ⟨rfl, rfl⟩) (fun hmem => absurd hmem hno)
    | some new =>
      rw [ho] at hfinish
      refine hfinish (s.overwrite new) (s'.overwrite new) rfl rfl ?_ h.cells (fun _ => ⟨rfl, rfl⟩)
        (fun hmem => absurd hmem hno)
      funext r
      simp only [MachineState.overwrite, h.regs]
  | some op =>
    have hno : e.overwritten = none := by
      cases ho : e.overwritten with
      | none => rfl
      | some new =>
        rw [hover (by rw [ho]; rfl)] at hd
        cases hd
    obtain ⟨x, hx⟩ := Option.isSome_iff_exists.1 (hvalue (by rw [hd]; rfl))
    rw [hd, hno, hx] at hfinish
    have hmem := Instr.mem_defs_of_dst hd
    have hop : ∀ n, op = .virtual n → n < mf.vregCount := fun n hn => hcount n (hn ▸ hmem)
    obtain ⟨halike, -, hkeep, hwritten⟩ := h.write ht hv hop x
    refine hfinish _ _ rfl rfl halike.regs halike.cells (fun hnot => hkeep ?_) (fun hin => hwritten ?_)
    · rintro rfl
      exact hnot hmem
    · have hdst := dst_of_mem_defs hin
      rw [hd] at hdst
      exact Option.some.inj hdst

/-- Where the two functions go on behind an instruction. -/
def GoesOn (mf mf' : MachineFunction) (i : Instr) (rest rest' code code' : List Instr) : Prop :=
  (i.fallsThrough = true ∧ code = rest ∧ code' = rest') ∨
    ∃ b, i.target? = some b ∧ code = mf.instsOf b ∧ code' = mf'.instsOf b

/-- An instruction and the same with a temporary in the place of the spilled register. -/
theorem Alike.step {env : MachineEnv W} {words : List Word} (henv : env.Respects words)
    (hword : word ∈ words) {s s' : MachineState W} (h : Alike mf v word s s') (mf' : MachineFunction)
    (hunt : Untouched (mf.step env) word s) {i : Instr} {t : Nat} {rest rest' : List Instr}
    (hcode : s.code = i :: rest) (hcode' : s'.code = i.replace (.virtual v) (.virtual t) :: rest')
    (ht : mf.vregCount ≤ t) (hv : v < mf.vregCount)
    (hcount : ∀ n, Operand.virtual n ∈ i.sources ∨ Operand.virtual n ∈ i.defs → n < mf.vregCount)
    (hread : Operand.virtual v ∈ i.sources → s'.vregs t = s.vregs v) :
    (∀ events u, mf.step env s = .next events u → ∃ u', mf'.step env s' = .next events u' ∧
      Advances mf v t word i s s' u u' ∧ GoesOn mf mf' i rest rest' u.code u'.code) ∧
    ∀ o, mf.step env s = .done o → mf'.step env s' = .done o := by
  have hplain : s'.plainRegs = s.plainRegs := by
    funext r
    rw [MachineState.plainRegs, MachineState.plainRegs, MachineState.reg, MachineState.reg, h.regs]
  have hsources : (i.replace (.virtual v) (.virtual t)).sources.map s'.read = i.sources.map s.read := by
    rw [Instr.sources_replace, List.map_map]
    refine List.map_congr_left fun op hop => h.read (fun n hn => hcount n (.inl (hn ▸ hop))) fun hopv => ?_
    exact hread (hopv ▸ hop)
  have hbad : ((i.replace (.virtual v) (.virtual t)).dst?.any fun op => !op.isRegister) =
      i.dst?.any fun op => !op.isRegister := by
    rw [Instr.dst_replace]
    cases i.dst? with
    | none => rfl
    | some op =>
      change (!(Instr.renamed v t op).isRegister) = !op.isRegister
      unfold Instr.renamed
      split
      · rename_i hopv
        rw [hopv]
        rfl
      · rfl
  have hperform : ∀ m, (i.replace (.virtual v) (.virtual t)).perform env
      ((i.replace (.virtual v) (.virtual t)).sources.map s'.read) s'.plainRegs m s'.world =
      i.perform env (i.sources.map s.read) s.plainRegs m s.world := by
    intro m
    rw [hsources, hplain, h.world, Instr.replace_eq, Instr.perform_mapRegisters]
  obtain ⟨hok, herror⟩ := Instr.framed henv hword h.memory i (i.sources.map s.read)
    s.plainRegs s.world
  cases hd : (i.dst?.any fun op => !op.isRegister) with
  | true =>
    rw [MachineFunction.step_of_bad hcode hd, MachineFunction.step_of_bad hcode' (hbad.trans hd)]
    exact ⟨(fun _ _ hn => by cases hn), fun _ ho => ho⟩
  | false =>
    cases he : i.perform env (i.sources.map s.read) s.plainRegs s.memory s.world with
    | error o =>
      have hstep : mf.step env s = .done o := MachineFunction.step_of_error hcode hd he
      have he' := herror o he fun ev hev => hunt.last (hev ▸ hstep)
      rw [hstep, MachineFunction.step_of_error hcode' (hbad.trans hd) ((hperform _).trans he')]
      exact ⟨(fun _ _ hn => by cases hn), fun _ ho => ho⟩
    | ok e =>
      have hstep : mf.step env s = .next e.events (s.after mf i.dst? e rest) :=
        MachineFunction.step_of_ok hcode hd he
      obtain ⟨e', he', hsame⟩ := hok e he (hunt.events hstep)
      rw [hstep, MachineFunction.step_of_ok hcode' (hbad.trans hd) ((hperform _).trans he'),
        Instr.dst_replace, hsame.events]
      refine ⟨fun events u hn => ?_, (fun _ ho => by cases ho)⟩
      cases hn
      refine ⟨_, rfl, h.after ht hv (fun n hn => hcount n (.inr hn)) he hsame, ?_⟩
      obtain ⟨hfall, hjump, -, -⟩ := Instr.perform_ok he
      rw [MachineState.code_after, MachineState.code_after, hsame.target]
      cases htarget : e.target with
      | none => exact .inl ⟨hfall htarget, rfl, rfl⟩
      | some b => exact .inr ⟨b, hjump b htarget, rfl, rfl⟩

/-! ## Whole runs -/

section Simulation

variable {env : MachineEnv W} {words hidden : List Word} {base : Word} {awaited : MachineState W → Prop}

/-- The stack pointer stands still during a run. -/
def Steady (mf : MachineFunction) (env : MachineEnv W) (base : Word) (s : MachineState W) : Prop :=
  ∀ t u, Runs.Steps (mf.step env) s t u → u.regs .sp = base

/-- The stack pointer in the state itself. -/
theorem Steady.here (h : Steady mf env base s) : s.regs .sp = base :=
  h [] s (.refl s)

variable {code' rest : List Instr} {u : MachineState W}

/-- After a step the stack pointer stands still as before. -/
theorem Steady.next {events : List MachineEvent} (h : Steady mf env base s) (hstep : mf.step env s = .next events u) :
    Steady mf env base u :=
  fun t r hrun => h (events ++ t) r (.append (.single hstep) hrun)

/-- A condition that tells where a register is still to be read: it holds where an instruction reads the
register, and before an instruction that does not write it or the end of a block if it holds behind them. -/
structure Awaits (mf : MachineFunction) (env : MachineEnv W) (v : Nat) (awaited : MachineState W → Prop) :
    Prop where
  read : ∀ {s i rest}, s.code = i :: rest → Operand.virtual v ∈ i.sources → awaited s
  pass : ∀ {s u i rest events}, s.code = i :: rest → Operand.virtual v ∉ i.defs →
    mf.step env s = .next events u → awaited u → awaited s
  fall : ∀ {s u events}, s.code = [] → mf.step env s = .next events u → awaited u → awaited s

/-- The states of the function and of the one with a spilled register at the same place. -/
structure Related (env : MachineEnv W) (mf mf' : MachineFunction) (v : Nat)
    (awaited : MachineState W → Prop) (base word : Word) (s s' : MachineState W) : Prop where
  place : ∀ i ∈ s.code, i ∈ mf.placedInsts
  code : ∃ loc, Reloads True v mf.frameSize (Between mf mf') loc s.code s'.code ∧
    (∀ t, loc.temp? = some t → mf.vregCount ≤ t) ∧ (awaited s → Found v word s s' loc)
  alike : Alike mf v word s s'
  steady : Steady mf env base s
  untouched : Untouched (mf.step env) word s

/-- The spilled code stands at the instruction that the function runs next, a temporary in the place of the
spilled register, and the temporary holds the value if the instruction reads it. -/
def AtInstruction (v : Nat) (least : Nat) (s s' : MachineState W) (i : Instr) (t : Nat)
    (rest rest' : List Instr) : Prop :=
  s.code = i :: rest ∧ s'.code = i.replace (.virtual v) (.virtual t) :: rest' ∧ least ≤ t ∧
    (Operand.virtual v ∈ i.sources → s'.vregs t = s.vregs v)

/-- Related states at which no load or store of the word comes next. At the end of a block the word holds the
value. -/
structure Ready (env : MachineEnv W) (mf mf' : MachineFunction) (v : Nat)
    (awaited : MachineState W → Prop) (base word : Word) (s s' : MachineState W) : Prop where
  place : ∀ i ∈ s.code, i ∈ mf.placedInsts
  alike : Alike mf v word s s'
  steady : Steady mf env base s
  untouched : Untouched (mf.step env) word s
  code : (s.code = [] ∧ s'.code = [] ∧ (awaited s → Found v word s s' .memory)) ∨
    ∃ i t rest rest', AtInstruction v mf.vregCount s s' i t rest rest' ∧
      ∀ events u u', mf.step env s = .next events u → Advances mf v t word i s s' u u' →
        GoesOn mf mf' i rest rest' u.code u'.code →
        ∃ loc, Reloads True v mf.frameSize (Between mf mf') loc u.code u'.code ∧
          (∀ t, loc.temp? = some t → mf.vregCount ≤ t) ∧ (awaited u → Found v word u u' loc)

variable {code rest' : List Instr} {offset : Word}

/-- All that is run next is placed. -/
theorem placed_of_step {events : List MachineEvent} (hplace : ∀ i ∈ s.code, i ∈ mf.placedInsts)
    (hstep : mf.step env s = .next events u) : ∀ j ∈ u.code, j ∈ mf.placedInsts := by
  have hentered : ∀ b, u.code = mf.instsOf b → ∀ j ∈ u.code, j ∈ mf.placedInsts := fun b hu j hj =>
    MachineFunction.mem_placedInsts.2 ⟨b, hu ▸ hj⟩
  cases hc : s.code with
  | nil =>
    rw [MachineFunction.step_of_end hc] at hstep
    obtain ⟨-, -, rfl⟩ := MachineFunction.fallThrough_eq_next hstep
    exact hentered _ rfl
  | cons i rest =>
    rcases code_of_step hc hstep with ⟨-, -, hu⟩ | ⟨b, -, -, hu⟩
    · exact fun j hj => hplace j (hc ▸ List.mem_cons_of_mem _ (hu ▸ hj))
    · exact hentered b hu

/-- An instruction that writes the spilled register goes on to the next one. -/
theorem goesOn_of_writes (h : GoesOn mf mf' i rest rest' code code') (hd : Operand.virtual v ∈ i.defs) :
    code = rest ∧ code' = rest' := by
  rcases h with ⟨-, hcode, hcode'⟩ | ⟨b, hb, -, -⟩
  · exact ⟨hcode, hcode'⟩
  · rw [MachineFunction.defs_of_isTransfer (MachineFunction.isTransfer_of_target hb)] at hd
    cases hd

/-- Replacing a register that is not mentioned does nothing. -/
theorem replace_of_not_mem (hu : Operand.virtual v ∉ i.sources) (hd : Operand.virtual v ∉ i.defs) :
    i.replace (.virtual v) (.virtual t) = i := by
  have hsame : ∀ op, op ≠ .virtual v → Instr.mapOperand (Instr.renamed v t) op = op := by
    intro op hop
    rw [Instr.mapOperand_renamed, Instr.renamed, if_neg hop]
  have hsrc : ∀ op ∈ i.sources, Instr.mapOperand (Instr.renamed v t) op = op := fun op hop =>
    hsame op fun heq => hu (heq ▸ hop)
  have hdef : ∀ op ∈ i.defs, Instr.mapOperand (Instr.renamed v t) op = op := fun op hop =>
    hsame op fun heq => hd (heq ▸ hop)
  rw [Instr.replace_eq]
  cases i <;> simp_all [Instr.mapRegisters, Instr.sources, Instr.defs, Instr.mapOperand]

theorem step_load (hcode : s'.code = .load (.virtual t) .sp offset false :: code')
    (hword : word = s'.regs .sp + offset) : mf'.step env s' = .next [.load word (s'.memory word)]
      { s' with vregs := Function.update s'.vregs t (s'.memory word), code := code' } := by
  rw [MachineFunction.step_of_ok hcode rfl (e := {
    value := some (s'.memory word), memory := s'.memory, world := s'.world,
    events := [.load word (s'.memory word)] })]
  · rfl
  · rw [hword]
    rfl

theorem step_store (hcode : s'.code = .store (.virtual t) .sp offset :: code') (hword : word = s'.regs .sp + offset) :
    mf'.step env s' = .next [.store word (s'.vregs t)]
      { s' with memory := s'.memory.set word (s'.vregs t), code := code' } := by
  rw [MachineFunction.step_of_ok hcode rfl (e := {
    memory := s'.memory.set word (s'.vregs t), world := s'.world,
    events := [.store word (s'.vregs t)] })]
  · rfl
  · rw [hword]
    rfl

/-- Loads and stores of a word are all that happens. -/
def OnlyAt (word : Word) (events : List MachineEvent) : Prop :=
  ∀ e ∈ events, e.isOutside [word] = false

/-- Who does not see the word sees nothing of that. -/
theorem OnlyAt.filter {events : List MachineEvent} (h : OnlyAt word events) :
    events.filter (MachineEvent.isOutside (word :: hidden)) = [] := by
  refine List.filter_eq_nil_iff.2 fun e he => ?_
  have hword := h e he
  cases e with
  | load a x | store a x =>
    rw [MachineEvent.isOutside, Bool.not_eq_false', List.contains_cons, List.contains_nil, Bool.or_false] at hword
    rw [MachineEvent.isOutside, List.contains_cons, hword, Bool.true_or]
    exact Bool.false_ne_true
  | incoming | call | syscall => cases hword

section

variable (hbase : word = base + mf.frameSize) (hs : Spilled True mf v mf') (hawaits : Awaits mf env v awaited)

include hbase hs hawaits

/-- The spilled code gets ready by loads and stores of the word alone. -/
theorem ready_of_reloads {loc : Whereabouts} (hrel : Reloads True v mf.frameSize (Between mf mf') loc code code') :
    ∀ {s s' : MachineState W}, s.code = code → s'.code = code' → (∀ i ∈ code, i ∈ mf.placedInsts) →
      (∀ t, loc.temp? = some t → mf.vregCount ≤ t) → (awaited s → Found v word s s' loc) →
      Alike mf v word s s' → Steady mf env base s → Untouched (mf.step env) word s →
      ∃ events u', Runs.Steps (mf'.step env) s' events u' ∧ OnlyAt word events ∧
        Ready env mf mf' v awaited base word s u' := by
  have hready : ∀ {s s' : MachineState W}, Ready env mf mf' v awaited base word s s' →
      ∃ events u', Runs.Steps (mf'.step env) s' events u' ∧ OnlyAt word events ∧
        Ready env mf mf' v awaited base word s u' :=
    fun {s s'} h => ⟨[], s', .refl s', (fun e he => nomatch he), h⟩
  have hsilent : ∀ {s s' t' : MachineState W} {e : MachineEvent}, mf'.step env s' = .next [e] t' →
      e.isOutside [word] = false →
      (∃ events u', Runs.Steps (mf'.step env) t' events u' ∧ OnlyAt word events ∧
        Ready env mf mf' v awaited base word s u') →
      ∃ events u', Runs.Steps (mf'.step env) s' events u' ∧ OnlyAt word events ∧
        Ready env mf mf' v awaited base word s u' := by
    rintro s s' t' e hstep he ⟨events, u', hrun, honly, h⟩
    refine ⟨e :: events, u', .append (.single hstep) hrun, fun x hx => ?_, h⟩
    rcases List.mem_cons.1 hx with rfl | hx
    · exact he
    · exact honly x hx
  induction hrel with
  | nil =>
    intro s s' hc hc' hplace _ hfound halike hsteady hunt
    exact hready ⟨hc ▸ hplace, halike, hsteady, hunt, .inl ⟨hc, hc', hfound⟩⟩
  | @keep i rest rest' hu hd hrel ih =>
    intro s s' hc hc' hplace _ hfound halike hsteady hunt
    rw [← replace_of_not_mem (t := mf.vregCount) hu hd] at hc'
    refine hready ⟨hc ▸ hplace, halike, hsteady, hunt, .inr ⟨i, mf.vregCount, rest, rest',
      ⟨hc, hc', Nat.le_refl _, fun h => absurd h hu⟩, fun events u u' hstep hadv hgoes => ?_⟩⟩
    refine ⟨.memory, ?_, (fun k hk => nomatch hk), fun hlive => ?_⟩
    · rcases hgoes with ⟨-, hcode, hcode'⟩ | ⟨b, -, hcode, hcode'⟩
      · rw [hcode, hcode']
        exact hrel
      · rw [hcode, hcode']
        exact hs.code b
    · exact hadv.found hd (fun k hk => nomatch hk) (hfound (hawaits.pass hc hd hstep hlive))
  | @load t code code' ht hrel ih =>
    intro s s' hc hc' hplace _ hfound halike hsteady hunt
    have hw : word = s'.regs .sp + mf.frameSize := by rw [halike.regs, hsteady.here, hbase]
    refine hsilent (step_load hc' hw) (by simp [MachineEvent.isOutside])
      (ih hc rfl hplace ?_ ?_ ?_ hsteady hunt)
    · intro k hk
      exact Option.some.inj hk ▸ ht.1
    · intro hlive
      exact ⟨hfound hlive, (Function.update_self t _ _).trans (hfound hlive)⟩
    · refine ⟨halike.regs, fun n hn hnv => ?_, halike.world, halike.memory, halike.block⟩
      exact (Function.update_of_ne (Nat.ne_of_lt (hn.trans_le ht.1)) _ _).trans (halike.cells n hn hnv)
  | @enter t i rest rest' ht hu hd hrel ih =>
    intro s s' hc hc' hplace _ _ halike hsteady hunt
    refine hready ⟨hc ▸ hplace, halike, hsteady, hunt, .inr ⟨i, t, rest, rest',
      ⟨hc, hc', ht.1, fun h => absurd h hu⟩, fun events u u' _ hadv hgoes => ?_⟩⟩
    obtain ⟨hcode, hcode'⟩ := goesOn_of_writes hgoes hd
    refine ⟨.temp t, ?_, (fun k hk => Option.some.inj hk ▸ ht.1), fun _ => hadv.written hd⟩
    rw [hcode, hcode']
    exact hrel
  | @flush t code code' hrel ih =>
    intro s s' hc hc' hplace htemp hfound halike hsteady hunt
    have hw : word = s'.regs .sp + mf.frameSize := by rw [halike.regs, hsteady.here, hbase]
    refine hsilent (step_store hc' hw) (by simp [MachineEvent.isOutside])
      (ih hc rfl hplace htemp ?_ ?_ hsteady hunt)
    · intro hlive
      exact ⟨(if_pos rfl).trans (hfound hlive), hfound hlive⟩
    · refine ⟨halike.regs, halike.cells, halike.world, fun a ha => ?_, halike.block⟩
      exact (if_neg ha).trans (halike.memory a ha)
  | @leave t code code' hrel ih =>
    intro s s' hc hc' hplace _ hfound halike hsteady hunt
    exact ih hc hc' hplace (fun k hk => nomatch hk) (fun hlive => (hfound hlive).1) halike hsteady hunt
  | @read loc t i rest rest' hl hd htransfer hrel ih =>
    intro s s' hc hc' hplace htemp hfound halike hsteady hunt
    have hholds : Operand.virtual v ∈ i.sources → s'.vregs t = s.vregs v := fun hin =>
      (hfound (hawaits.read hc hin)).temp hl
    refine hready ⟨hc ▸ hplace, halike, hsteady, hunt, .inr ⟨i, t, rest, rest',
      ⟨hc, hc', htemp t hl, hholds⟩, fun events u u' hstep hadv hgoes => ?_⟩⟩
    have hafter : awaited u → Found v word u u' loc := fun hlive =>
      hadv.found hd (fun k hk => Option.some.inj (hk.symm.trans hl)) (hfound (hawaits.pass hc hd hstep hlive))
    rcases hgoes with ⟨hfall, hcode, hcode'⟩ | ⟨b, hb, hcode, hcode'⟩
    · exact ⟨loc, by rw [hcode, hcode']; exact hrel, htemp, hafter⟩
    · -- Memory holds the value at a transfer, so it does at the start of the next block.
      obtain rfl := htransfer trivial (MachineFunction.isTransfer_of_target hb)
      exact ⟨.memory, by rw [hcode, hcode']; exact hs.code b, (fun k hk => nomatch hk), fun hlive => (hafter hlive).1⟩
  | @write loc t i rest rest' hl hd hrel ih =>
    intro s s' hc hc' hplace htemp hfound halike hsteady hunt
    have hholds : Operand.virtual v ∈ i.sources → s'.vregs t = s.vregs v := fun hin =>
      (hfound (hawaits.read hc hin)).temp hl
    refine hready ⟨hc ▸ hplace, halike, hsteady, hunt, .inr ⟨i, t, rest, rest',
      ⟨hc, hc', htemp t hl, hholds⟩, fun events u u' _ hadv hgoes => ?_⟩⟩
    obtain ⟨hcode, hcode'⟩ := goesOn_of_writes hgoes hd
    refine ⟨.temp t, ?_, (fun k hk => Option.some.inj hk ▸ htemp t hl), fun _ => hadv.written hd⟩
    rw [hcode, hcode']
    exact hrel

/-- Related states become ready ones. -/
theorem Related.ready (h : Related env mf mf' v awaited base word s s') :
    ∃ events u', Runs.Steps (mf'.step env) s' events u' ∧ OnlyAt word events ∧
      Ready env mf mf' v awaited base word s u' := by
  obtain ⟨loc, hcode, htemp, hfound⟩ := h.code
  exact ready_of_reloads hbase hs hawaits hcode rfl rfl h.place htemp hfound h.alike h.steady h.untouched

end

/-- From ready states both functions take the same step. -/
theorem Ready.step (henv : env.Respects words) (hword : word ∈ words) (hcount : mf.Counted) (hv : v < mf.vregCount)
    (hs : Spilled True mf v mf') (hawaits : Awaits mf env v awaited) (h : Ready env mf mf' v awaited base word s s') :
    (∀ events u, mf.step env s = .next events u → ∃ u', mf'.step env s' = .next events u' ∧
      Related env mf mf' v awaited base word u u') ∧ ∀ o, mf.step env s = .done o → mf'.step env s' = .done o := by
  rcases h.code with ⟨hc, hc', hfound⟩ | ⟨i, t, rest, rest', ⟨hc, hc', ht, hread⟩, hnext⟩
  · -- Both functions fall through to the next block, or there is none.
    have hend : mf.step env s = mf.fallThrough s := MachineFunction.step_of_end hc
    have hend' : mf'.step env s' = if s.block + 1 < mf.blocks.size then
        .next [] { s' with block := s.block + 1, code := mf'.instsOf (s.block + 1) } else .done .fault := by
      rw [MachineFunction.step_of_end hc', MachineFunction.fallThrough, h.alike.block, hs.size]
    refine ⟨fun events u hstep => ?_, fun o hstep => ?_⟩
    · have hfall := hend ▸ hstep
      obtain ⟨hlast, rfl, rfl⟩ := MachineFunction.fallThrough_eq_next hfall
      refine ⟨_, hend'.trans (if_pos hlast), placed_of_step h.place hstep, ⟨.memory, hs.code _,
        (fun _ ht => by cases ht), fun hlive => hfound (hawaits.fall hc hstep hlive)⟩,
        ⟨h.alike.regs, h.alike.cells, h.alike.world, h.alike.memory, rfl⟩, h.steady.next hstep, h.untouched.next hstep⟩
    · rw [hend, MachineFunction.fallThrough] at hstep
      rw [hend']
      split at hstep
      · cases hstep
      · rename_i hlast
        rw [if_neg hlast]
        cases hstep
        rfl
  · have hi := h.place i (hc ▸ List.mem_cons_self)
    obtain ⟨hgo, hend⟩ := h.alike.step henv hword mf' h.untouched hc hc' ht hv (hcount i hi) hread
    refine ⟨fun events u hstep => ?_, hend⟩
    obtain ⟨u', hstep', hadv, hgoes⟩ := hgo events u hstep
    exact ⟨u', hstep', placed_of_step h.place hstep, hnext events u u' hstep hadv hgoes, hadv.alike,
      h.steady.next hstep, h.untouched.next hstep⟩

/-- Related states stay related: the function with the spilled register does what the function does,
with loads and stores of the word in between. -/
theorem simulation (henv : env.Respects words) (hword : word ∈ words) (hbase : word = base + mf.frameSize)
    (hcount : mf.Counted) (hv : v < mf.vregCount) (hs : Spilled True mf v mf') (hawaits : Awaits mf env v awaited) :
    Runs.Simulation (Runs.observe (MachineEvent.isOutside hidden) (mf.step env))
      (Runs.observe (MachineEvent.isOutside (word :: hidden)) (mf'.step env))
      (fun s s' => Related env mf mf' v awaited base word s s') fun _ => 0 := by
  have hget : ∀ {s s' : MachineState W}, Related env mf mf' v awaited base word s s' →
      ∃ n r, Runs.StepsIn (Runs.observe (MachineEvent.isOutside (word :: hidden)) (mf'.step env)) n s' [] r ∧
        Ready env mf mf' v awaited base word s r := by
    intro s s' hrel
    obtain ⟨quiet, r, ⟨n, hrun⟩, honly, hready⟩ := hrel.ready hbase hs hawaits
    have hnone : quiet.filter (MachineEvent.isOutside (word :: hidden)) = [] := honly.filter
    exact ⟨n, r, hnone ▸ hrun.observe, hready⟩
  constructor
  · intro s s' events u hrel hstep
    obtain ⟨n, r, hquiet, hready⟩ := hget hrel
    obtain ⟨all, hs₀, rfl⟩ := Runs.observe_eq_next.1 hstep
    obtain ⟨u', hstep', hrel'⟩ := (hready.step henv hword hcount hv hs hawaits).1 all u hs₀
    have hone : Runs.StepsIn (Runs.observe (MachineEvent.isOutside (word :: hidden)) (mf'.step env)) 1 r
        (all.filter (MachineEvent.isOutside hidden)) u' := by
      rw [← filter_isOutside_cons (hrel.untouched.events hs₀)]
      exact .single (by rw [Runs.observe, hstep'])
    exact ⟨n + 1, u', hquiet.append hone, hrel', fun h0 => absurd h0 (Nat.succ_ne_zero n)⟩
  · intro s s' o hrel hstep
    obtain ⟨n, r, hquiet, hready⟩ := hget hrel
    have hdone := (hready.step henv hword hcount hv hs hawaits).2 o (Runs.observe_eq_done.1 hstep)
    exact Runs.Ends.prepend ⟨n, hquiet⟩ (Runs.ends_of_done (Runs.observe_eq_done.2 hdone))

/-- The states in which both runs begin are related if the register is not awaited. -/
theorem related_start (hs : Spilled True mf v mf') (regs : Register → Word) (vregs : Nat → Word) (m : Memory) (w : W)
    (hfirst : ¬ awaited (mf.start regs vregs m w)) (hsteady : Steady mf env base (mf.start regs vregs m w))
    (hunt : Untouched (mf.step env) word (mf.start regs vregs m w)) :
    Related env mf mf' v awaited base word (mf.start regs vregs m w) (mf'.start regs vregs m w) where
  place _ hi := MachineFunction.mem_placedInsts.2 ⟨0, hi⟩
  code := ⟨.memory, hs.code 0, (fun _ ht => by cases ht), fun hlive => absurd hlive hfirst⟩
  alike := ⟨rfl, fun _ _ _ => rfl, rfl, fun _ _ => rfl, rfl⟩
  steady := hsteady
  untouched := hunt

/-! ## Functions that registers can be allocated for -/

/-- A register is awaited where it is live, as long as no control falls through. -/
theorem awaits_liveFrom (budget : RegisterSet) (hexits : mf.HasExits) :
    Awaits mf env v fun s => s.BeforeExit mf → mf.LiveFrom budget (Node.firstVirtual + v) s.code where
  read hc hin _ := hc ▸ .use (Instr.mem_useNodes_virtual.2 hin)
  pass {s u i rest events} hc hd hstep hlive hbefore := by
    have hnot : Node.firstVirtual + v ∉ i.defNodes budget := fun hmem => hd (Instr.mem_defNodes_virtual.1 hmem)
    have hbehind := hlive (hbefore.next hexits hstep)
    rw [hc]
    rcases code_of_step hc hstep with ⟨hfall, -, hu⟩ | ⟨b, hb, -, hu⟩
    · exact .pass hfall hnot (hu ▸ hbehind)
    · exact .jump hb hnot (hu ▸ hbehind)
  fall hc hstep _ hbefore := by
    rw [hbefore.step_of_end hc] at hstep
    cases hstep

/-- An instruction that does not write the stack pointer leaves it alone. -/
theorem sp_of_step (hsp : ∀ i ∈ mf.placedInsts, ∀ op ∈ i.defs, op.register? ≠ some .sp) {events : List MachineEvent}
    (hplace : ∀ i ∈ s.code, i ∈ mf.placedInsts) (hstep : mf.step env s = .next events u) : u.regs .sp = s.regs .sp := by
  unfold MachineFunction.step at hstep
  split at hstep
  · obtain ⟨-, -, rfl⟩ := MachineFunction.fallThrough_eq_next hstep
    rfl
  rename_i i rest hc
  split at hstep
  · cases hstep
  split at hstep
  · cases hstep
    exact MachineState.regs_after rfl fun op hop =>
      hsp i (hplace i (hc ▸ List.mem_cons_self)) op (Instr.mem_defs_of_dst hop)
  · cases hstep

/-- The stack pointer stands still in functions that do not write it. -/
theorem steady_of_keepsSp (hsp : ∀ i ∈ mf.placedInsts, ∀ op ∈ i.defs, op.register? ≠ some .sp)
    (hplace : ∀ i ∈ s.code, i ∈ mf.placedInsts) : Steady mf env (s.regs .sp) s := by
  rintro t u ⟨n, hrun⟩
  induction hrun with
  | refl s => rfl
  | @head n s p u e t hstep _ ih => exact (ih (placed_of_step hplace hstep)).trans (sp_of_step hsp hplace hstep)

/-- Spilling a register changes nothing for an observer who does not see its word. -/
theorem sameRuns_spilled (henv : env.Respects words) (hal : mf.Allocatable budget) (hcount : mf.Counted)
    (hv : v < mf.vregCount) (hs : Spilled True mf v mf') (regs : Register → Word) (vregs : Nat → Word)
    (m : Memory) (w : W) (hword : regs .sp + mf.frameSize ∈ words)
    (hunt : Untouched (mf.step env) (regs .sp + mf.frameSize) (mf.start regs vregs m w)) (hidden : List Word) :
    Runs.SameRuns (Runs.observe (MachineEvent.isOutside hidden) (mf.step env)) (mf.start regs vregs m w)
      (Runs.observe (MachineEvent.isOutside ((regs .sp + mf.frameSize) :: hidden)) (mf'.step env))
      (mf'.start regs vregs m w) := by
  refine Runs.sameRuns_of_simulation (simulation henv hword rfl hcount hv hs
    (awaits_liveFrom budget hal.exits)) ?_
  refine related_start hs regs vregs m w (fun hlive => hal.first v (hlive (hal.exits 0))) (steady_of_keepsSp hal.keepsSp fun i hi => ?_) hunt
  exact MachineFunction.mem_placedInsts.2 ⟨0, hi⟩

end Simulation

end SpilledRun

end SsaCompiler
