import SsaCompiler.Proofs.Ir.ListedNames
import SsaCompiler.Proofs.Ir.KeptNames
import SsaCompiler.Proofs.Pipeline.TextLabels

/-!
# Names that a listing defines twice

Values that have a name are listed by it, the others by their numbers, as `%v0`, `%v1` and so on, and extra lines are
numbered through the function, as `%t0`, `%t1` and so on. Names that were given are apart, and so are numbers; but a name
that was given may be one of the numbered ones. The names that the listing of a function defines are pairwise distinct
exactly if this is not so (`Compile.nodup_definitions_listing_iff`).
-/

set_option autoImplicit false

namespace SsaCompiler

open Token Listing

namespace Function

variable {m : Module} {f : Function}

/-- A numbered name tells its number. -/
theorem numbered_inj {base : String} {j k : Nat} (h : base ++ j.repr = base ++ k.repr) : j = k := by
  have hlist := congrArg String.toList h
  rw [String.toList_append, String.toList_append] at hlist
  have hdigits := List.append_cancel_left hlist
  rw [Nat.toList_repr, Nat.toList_repr] at hdigits
  simpa using congrArg (Nat.ofDigitChars 10 · 0) hdigits

theorem listedResult?_eq_some {i : InstId} {r : ValueId} (h : f.listedResult? m i = some r) : f.result? i = some r := by
  unfold listedResult? at h
  split at h
  · exact h
  · cases h

/-- No value is listed twice. -/
theorem nodup_listed (hs : f.Sound) (hh : f.Headed) : (f.listed m).Nodup := by
  refine List.nodup_append.2 ⟨hh.nodup, (Edit.nodup_placedInsts hs).filterMap fun i j r hi hj => ?_, fun v hv w hw heq => ?_⟩
  · have hkind := (hs.kind_of_result i r (listedResult?_eq_some hi)).2
    rw [(hs.kind_of_result j r (listedResult?_eq_some hj)).2] at hkind
    exact (ValueKind.inst.inj hkind).symm
  · obtain ⟨i, -, hr⟩ := List.mem_filterMap.1 hw
    obtain ⟨k, hk⟩ := hh.kind hv
    rw [heq, (hs.kind_of_result i w (listedResult?_eq_some hr)).2] at hk
    cases hk

/-- A numbered name of a listing: the name of an extra line or of a value that was given none. -/
def NumberedName (m : Module) (f : Function) (name : String) : Prop :=
  (∃ k < f.extraLines f.placedInsts, name = s!"t{k}") ∨ ∃ w ∈ f.listed m, (f.value w).name = none ∧ name = s!"v{w}"

/-- The names of a listing are pairwise distinct exactly if no name that was given is a numbered one. -/
theorem nodup_definitions_iff (h : f.Listable m) (hs : f.Sound) (hh : f.Headed) (hname : IsName f.name) :
    ∃ dump, f.listing m = .ok dump ∧ ((definitions dump).Nodup ↔
      ∀ v ∈ f.listed m, ∀ name, (f.value v).name = some name → ¬ f.NumberedName m name) := by
  obtain ⟨dump, hdump, hperm⟩ := listing_spec h hs hh hname
  have hextra : ∀ {j k : Nat}, extraName j = extraName k → j = k := numbered_inj
  have hfresh : ∀ {j k : Nat}, s!"v{j}" = s!"v{k}" → j = k := numbered_inj
  refine ⟨dump, hdump, ?_⟩
  rw [hperm.nodup_iff, List.nodup_append, List.nodup_map_iff_inj_on (nodup_listed hs hh)]
  refine ⟨fun ⟨hinj, _, hdisjoint⟩ v hv name hgiven hnumbered => ?_, fun hgiven => ⟨fun v hv w hw heq => ?_, ?_, ?_⟩⟩
  · have hlocal : f.localName v = name := by rw [localName, hgiven]; rfl
    rcases hnumbered with ⟨k, hk, rfl⟩ | ⟨w, hw, hnone, rfl⟩
    · exact hdisjoint _ (List.mem_map_of_mem hv) _ (List.mem_map_of_mem (List.mem_range.2 hk)) hlocal
    · have hsame : v = w := hinj v hv w hw (by rw [hlocal, localName, hnone]; rfl)
      rw [hsame, hnone] at hgiven
      cases hgiven
  · unfold localName at heq
    cases hnv : (f.value v).name with
    | some name =>
      cases hnw : (f.value w).name with
      | some name' =>
        rw [hnv, hnw] at heq
        exact h.names.apart v w name hnv (by rw [hnw]; exact congrArg some heq.symm)
      | none =>
        rw [hnv, hnw] at heq
        exact absurd (.inr ⟨w, hw, hnw, heq⟩) (hgiven v hv name hnv)
    | none =>
      cases hnw : (f.value w).name with
      | some name' =>
        rw [hnv, hnw] at heq
        exact absurd (.inr ⟨v, hv, hnv, heq.symm⟩) (hgiven w hw name' hnw)
      | none =>
        rw [hnv, hnw] at heq
        exact hfresh heq
  · exact List.nodup_range.map fun j k => hextra
  · intro a ha b hb heq
    obtain ⟨v, hv, rfl⟩ := List.mem_map.1 ha
    obtain ⟨k, hk, rfl⟩ := List.mem_map.1 hb
    unfold localName at heq
    cases hnv : (f.value v).name with
    | some name =>
      rw [hnv] at heq
      exact hgiven v hv name hnv (.inl ⟨k, List.mem_range.1 hk, heq⟩)
    | none =>
      rw [hnv] at heq
      have hlist := congrArg String.toList heq
      simp [extraName] at hlist

end Function

namespace Compile

open Stateful

variable {f : Function} {o : Options}

/-- Optimizing a function makes passes over it. -/
theorem produced_optimizeFunction {f' : Function} {s s' : Session} (hf : f.Produced)
    (h : (optimizeFunction o f).run s = .ok (f', s')) : f'.Produced := by
  have hdiscard : ∀ {α : Type} {edit : Edit α} {a : α} {f f' : Function}, edit.run f = (.ok a, f') →
      (discard edit).run f = (.ok (), f') := by
    intro α edit a f f' hrun
    change (edit >>= fun _ => pure ()).run f = _
    rw [Edits.run_bind, hrun]
    rfl
  rcases optimizeFunction_eq_ok h with rfl | ⟨stats, f₁, steps, hpromote, hsimplify⟩
  · exact hf
  · exact .pass .simplify (.pass .promote hf (hdiscard hpromote)) (hdiscard hsimplify)

/-- Optimizing a module optimizes its functions and leaves its globals and strings. -/
theorem optimizeModule_eq_ok {m m' : Module} {s s' : Session} (h : (optimizeModule o m).run s = .ok (m', s')) :
    m'.globals = m.globals ∧ m'.strings = m.strings ∧
      ∀ f' ∈ m'.functions, ∃ f ∈ m.functions, ∃ t t', (optimizeFunction o f).run t = .ok (f', t') := by
  obtain ⟨functions, s₁, hmap, h₁⟩ := bind_eq_ok h
  obtain ⟨_, s₂, -, hpure⟩ := bind_eq_ok h₁
  cases hpure
  refine ⟨rfl, rfl, fun f' hf' => ?_⟩
  obtain ⟨f, hf, t, t', hrun⟩ := exists_of_mem_mapM hmap f' (List.mem_toArray.1 hf')
  obtain ⟨_, t₁, -, hoptimize⟩ := bind_eq_ok hrun
  exact ⟨f, Array.mem_toList_iff.1 hf, t₁, t', hoptimize⟩

/-- The functions of a module that was read, and of the same module optimized, are listable. -/
theorem listable_of_parse {text : String} {m m' : Module} (hread : Module.parse text = .ok m)
    (h : m' = m ∨ ∃ o s s', (optimizeModule o m).run s = .ok (m', s')) (hf : f ∈ m'.functions) :
    f.Produced ∧ f.Listable m' := by
  have hspelled := (Module.spelled_parse hread).1
  have hlinked : ∀ f ∈ m.functions, f.Linked m.globals.size m.strings.size := fun f hf => by
    obtain ⟨id, hid, rfl⟩ := Array.mem_iff_getElem.1 hf
    have hl := Module.linked_parse hread id
    unfold Module.function at hl
    rwa [Array.getD_eq_getD_getElem?, Array.getElem?_eq_getElem hid] at hl
  rcases h with rfl | ⟨o, s, s', hrun⟩
  · have hproduced : f.Produced := .read hread hf
    exact ⟨hproduced, hspelled, hproduced.spelled, hlinked f hf⟩
  · obtain ⟨hglobals, hstrings, hfunctions⟩ := optimizeModule_eq_ok hrun
    have hnames : ∀ g ∈ m'.functions, IsName g.name := fun g hg => by
      obtain ⟨g₀, hg₀, t, t', hoptimize⟩ := hfunctions g hg
      rw [show g.name = g₀.name from congrArg Heading.name (outlines_optimizeFunction 0 0 hoptimize).heading]
      exact hspelled.functions g₀ hg₀
    obtain ⟨f₀, hf₀, t, t', hoptimize⟩ := hfunctions f hf
    have hproduced := produced_optimizeFunction (.read hread hf₀) hoptimize
    refine ⟨hproduced, ⟨hnames, hglobals ▸ hspelled.globals, hstrings ▸ hspelled.strings⟩, hproduced.spelled, ?_⟩
    rw [hglobals, hstrings]
    exact (hlinked f₀ hf₀).of_outlines (outlines_optimizeFunction _ _ hoptimize)

/-- The listing of a function of a module that was read, before or after optimizing the module: the names that it defines
are pairwise distinct exactly if no name that was given is a numbered one. -/
theorem nodup_definitions_listing_iff {text : String} {m m' : Module} (hread : Module.parse text = .ok m)
    (h : m' = m ∨ ∃ o s s', (optimizeModule o m).run s = .ok (m', s')) {f : Function} (hf : f ∈ m'.functions) :
    ∃ dump, f.listing m' = .ok dump ∧ ((definitions dump).Nodup ↔
      ∀ v ∈ f.listed m', ∀ name, (f.value v).name = some name → ¬ f.NumberedName m' name) := by
  obtain ⟨hproduced, hlistable⟩ := listable_of_parse hread h hf
  exact Function.nodup_definitions_iff hlistable hproduced.sound hproduced.headed (hlistable.module.functions f hf)

/-- A function whose sum is named like the first extra line, the test of the comparison behind it. -/
def takenName : Function where
  name := "main"
  returnsValue := true
  values := #[{ kind := .const 1, uses := [⟨0, 0⟩] }, { kind := .const 2, uses := [⟨0, 1⟩] },
    { kind := .inst 0, name := some "t0", uses := [⟨1, 0⟩] }, { kind := .const 3, uses := [⟨1, 1⟩] },
    { kind := .inst 1, name := some "c", uses := [⟨2, 0⟩] }]
  insts := #[{ kind := .binary .add, operands := [0, 1], result := some 2, block := some 0 },
    { kind := .binary .lt, operands := [2, 3], result := some 4, block := some 0 },
    { kind := .ret, operands := [4], result := none, block := some 0 }]
  blocks := #[{ name := "entry", insts := [0, 1, 2] }]
  layout := [0]

set_option maxRecDepth 4000 in
/-- The function is read from text and listed, but its listing defines a name twice. -/
theorem not_nodup_definitions_takenName :
    Module.parse "func @main() -> int \x7b\nentry:\n  %t0 = add 1, 2\n  %c = lt %t0, 3\n  ret %c\n\x7d\n" =
      .ok { functions := #[takenName] } ∧
      ∃ dump, takenName.listing { functions := #[takenName] } = .ok dump ∧ ¬ (definitions dump).Nodup := by
  have hread : Module.parse "func @main() -> int \x7b\nentry:\n  %t0 = add 1, 2\n  %c = lt %t0, 3\n  ret %c\n\x7d\n" =
      .ok { functions := #[takenName] } := by cbv
  obtain ⟨dump, hdump, hiff⟩ := nodup_definitions_listing_iff hread (.inl rfl) (Array.mem_singleton.2 rfl)
  refine ⟨hread, dump, hdump, fun hnodup => hiff.1 hnodup 2 ?_ "t0" rfl (.inl ⟨0, ?_, ?_⟩)⟩
  · decide
  · decide
  · decide

end Compile

end SsaCompiler
