import Mathlib.Data.List.Basic
import SsaCompiler.Check.Directive

/-!
# Matched directives

The matcher reads the directives from top to bottom and keeps two things: a cursor into the lines, and the patterns
that must not stand in what the next match skips. Here the same is said without a run. A sequence of cursors, one before
each directive and one behind the last, is a scan if each directive matches between the cursors around it
(`Directive.Scan`), and it is clear of its forbidden patterns if each of them is absent from the lines that the next
match skips (`Directive.Clear`). What counts as the next match is a parameter: every directive that matches a line or
the end of the output (`Directive.matching`), or those among them at which the matcher looks for forbidden patterns
(`Directive.searching`). The two differ in the expectation of an empty line, behind which a forbidden pattern stays
forbidden.
-/

set_option autoImplicit false

namespace SsaCompiler

namespace Directive

/-- Whether a directive matches something. -/
def matching : Directive → Bool
  | check _ | label _ | next _ | empty => true
  | absent _ | comment _ => false

/-- Whether the matcher looks for forbidden patterns when it comes to a directive. -/
def searching : Directive → Bool
  | check _ | label _ | next _ => true
  | empty | absent _ | comment _ => false

/-- Line `k` is the first one from the cursor on that contains the pattern. -/
structure FirstAt (lines : List String) (cursor : ℕ) (pattern : String) (k : ℕ) : Prop where
  from_cursor : cursor ≤ k
  holds : ∃ line, lines[k]? = some line ∧ Text.contains line pattern = true
  first : ∀ line ∈ (lines.take k).drop cursor, Text.contains line pattern = false

/-- A directive matches at a cursor and leaves it at another one. -/
inductive Step (lines : List String) : Directive → ℕ → ℕ → Prop
  | check {pattern : String} {c k : ℕ} :
    FirstAt lines c pattern k → Step lines (check pattern) c (k + 1)
  | label {pattern : String} {c k : ℕ} :
    FirstAt lines c pattern k → Step lines (label pattern) c (k + 1)
  | next {pattern line : String} {c : ℕ} :
    lines[c]? = some line → Text.contains line pattern = true → Step lines (next pattern) c (c + 1)
  | blank {line : String} {c : ℕ} :
    lines[c]? = some line → (Text.trim line).isEmpty = true → Step lines empty c (c + 1)
  | ended {c : ℕ} : lines.length ≤ c → Step lines empty c c
  | absent {pattern : String} {c : ℕ} : Step lines (absent pattern) c c
  | comment {text : String} {c : ℕ} : Step lines (comment text) c c

/-- Each directive matches between the cursor before it and the cursor behind it. -/
def Scan (lines : List String) (ds : List Directive) (cursor : ℕ → ℕ) : Prop :=
  ∀ (j : ℕ) (hj : j < ds.length), Step lines ds[j] (cursor j) (cursor (j + 1))

/-- The lines that directive `j` skips to match; behind the last directive, all lines that are left. -/
def skipped (lines : List String) (ds : List Directive) (cursor : ℕ → ℕ) (j : ℕ) : List String :=
  if j < ds.length then (lines.take (cursor (j + 1) - 1)).drop (cursor j)
  else lines.drop (cursor j)

/-- The first directive that counts as a match, from directive `i` on. -/
def nextMatch (counts : Directive → Bool) (ds : List Directive) (i : ℕ) : ℕ :=
  i + (ds.drop i).findIdx counts

/-- A pattern is absent from the lines skipped by the first match from directive `i` on. -/
def Unseen (counts : Directive → Bool) (lines : List String) (ds : List Directive)
    (cursor : ℕ → ℕ) (i : ℕ) (pattern : String) : Prop :=
  ∀ line ∈ skipped lines ds cursor (nextMatch counts ds i), Text.contains line pattern = false

/-- Every forbidden pattern is absent from the lines skipped by the next match behind it. -/
def Clear (counts : Directive → Bool) (lines : List String) (ds : List Directive)
    (cursor : ℕ → ℕ) : Prop :=
  ∀ (i : ℕ) (pattern : String), ds[i]? = some (absent pattern) →
    Unseen counts lines ds cursor i pattern

/-! ## Scans and forbidden patterns, one directive after the other -/

/-- The cursors from the second one on. -/
private def later (cursor : ℕ → ℕ) (j : ℕ) : ℕ := cursor (j + 1)

/-- The cursors with one more before them. -/
private def before (c : ℕ) (cursor : ℕ → ℕ) : ℕ → ℕ
  | 0 => c
  | j + 1 => cursor j

variable {lines : List String} {d : Directive} {ds : List Directive} {cursor : ℕ → ℕ}

/-- A scan is a step and a scan of the rest. -/
theorem scan_cons : Scan lines (d :: ds) cursor ↔
      Step lines d (cursor 0) (cursor 1) ∧ Scan lines ds (later cursor) := by
  constructor
  · intro h
    refine ⟨h 0 (by simp), ?_⟩
    intro j hj
    exact h (j + 1) (by simpa using hj)
  · rintro ⟨hstep, hrest⟩ j hj
    cases j with
    | zero => exact hstep
    | succ j => exact hrest j (by simpa using hj)

/-- The lines skipped by a later directive do not depend on the first one. -/
theorem skipped_succ (j : ℕ) : skipped lines (d :: ds) cursor (j + 1) = skipped lines ds (later cursor) j := by
  simp [skipped, later]

variable {counts : Directive → Bool} {pattern : String}

/-- Behind a later directive the first one plays no part. -/
theorem unseen_succ {i : ℕ} : Unseen counts lines (d :: ds) cursor (i + 1) pattern ↔
      Unseen counts lines ds (later cursor) i pattern := by
  have hnext : nextMatch counts (d :: ds) (i + 1) = nextMatch counts ds i + 1 := by
    simp only [nextMatch, List.drop_succ_cons]
    omega
  rw [Unseen, hnext, skipped_succ, Unseen]

/-- If the first directive counts as a match, a pattern must be absent from what that one skips. -/
theorem unseen_zero_of_counts (hd : counts d = true) : Unseen counts lines (d :: ds) cursor 0 pattern ↔
      ∀ line ∈ (lines.take (cursor 1 - 1)).drop (cursor 0), Text.contains line pattern = false := by
  simp [Unseen, nextMatch, List.findIdx_cons, hd, skipped]

/-- If the first directive does not count as a match, a pattern must be absent from what the rest skips. -/
theorem unseen_zero_of_not_counts (hd : counts d = false) : Unseen counts lines (d :: ds) cursor 0 pattern ↔
      Unseen counts lines ds (later cursor) 0 pattern := by
  have hnext : nextMatch counts (d :: ds) 0 = nextMatch counts ds 0 + 1 := by
    simp [nextMatch, List.findIdx_cons, hd]
  rw [Unseen, hnext, skipped_succ, Unseen]

/-- The patterns that a directive forbids. -/
def forbids : Directive → List String
  | absent pattern => [pattern]
  | _ => []

/-- No forbidden pattern is seen iff none that the first directive forbids is, and none of the rest. -/
theorem clear_cons : Clear counts lines (d :: ds) cursor ↔
      (∀ pattern ∈ d.forbids, Unseen counts lines (d :: ds) cursor 0 pattern) ∧
        Clear counts lines ds (later cursor) := by
  constructor
  · intro h
    constructor
    · intro pattern hp
      cases d <;> simp only [forbids, List.not_mem_nil, List.mem_singleton] at hp
      subst hp
      exact h 0 _ rfl
    · intro i pattern hi
      exact unseen_succ.mp (h (i + 1) pattern (by simpa using hi))
  · rintro ⟨hfirst, hrest⟩ i pattern hi
    cases i with
    | zero =>
      simp only [List.getElem?_cons_zero, Option.some.injEq] at hi
      subst hi
      exact hfirst pattern (by simp [forbids])
    | succ i => exact unseen_succ.mpr (hrest i pattern (by simpa using hi))

/-! ## What one directive does to the matcher -/

/-- The search for forbidden patterns passes iff none of them stands in a line. -/
theorem allAbsent_eq_ok_iff (patterns : List String) : allAbsent lines patterns = .ok () ↔
      ∀ pattern ∈ patterns, ∀ line ∈ lines, Text.contains line pattern = false := by
  induction patterns with
  | nil => simp [allAbsent]
  | cons pattern rest ih =>
    rw [allAbsent]
    cases hfind : lines.find? fun line => Text.contains line pattern with
    | none =>
      have habsent : ∀ line ∈ lines, Text.contains line pattern = false := by
        simpa using List.find?_eq_none.mp hfind
      rw [List.forall_mem_cons]
      exact ih.trans (iff_and_self.mpr fun _ => habsent)
    | some line =>
      have hline := List.find?_some hfind
      have hmem := List.mem_of_find?_eq_some hfind
      simp only [reduceCtorEq, false_iff]
      intro h
      have habsent := h pattern (by simp) line hmem
      simp_all

/-- The first line found behind a cursor. -/
theorem findIdx?_drop_eq_some_iff {c k : ℕ} :
    ((lines.drop c).findIdx? fun line => Text.contains line pattern) = some k ↔
      FirstAt lines c pattern (c + k) := by
  rw [List.findIdx?_eq_some_iff_getElem]
  constructor
  · rintro ⟨hk, hholds, hfirst⟩
    simp only [List.length_drop] at hk
    refine ⟨by omega, ⟨lines[c + k], List.getElem?_eq_getElem (by omega), by simpa using hholds⟩, ?_⟩
    intro line hline
    rw [← List.take_drop] at hline
    obtain ⟨j, hj, rfl⟩ := List.mem_take_iff_getElem.mp hline
    simpa using hfirst j (by omega)
  · rintro ⟨-, ⟨line, hline, hholds⟩, hfirst⟩
    obtain ⟨hlt, rfl⟩ := List.getElem?_eq_some_iff.mp hline
    refine ⟨by simp only [List.length_drop]; omega, by simpa using hholds, ?_⟩
    intro j hj
    have hlen : j < (lines.drop c).length := by simp only [List.length_drop]; omega
    have hmem : (lines.drop c)[j] ∈ (lines.take (c + k)).drop c := by
      rw [← List.take_drop]
      exact List.mem_take_iff_getElem.mpr ⟨j, by omega, rfl⟩
    simpa using hfirst _ hmem

/-- At a cursor either no line is left, or there is one to match. -/
theorem drop_cases (lines : List String) (c : ℕ) : (lines[c]? = none ∧ lines.drop c = []) ∨
      ∃ line, lines[c]? = some line ∧ lines.drop c = line :: lines.drop (c + 1) := by
  by_cases hc : c < lines.length
  · exact .inr ⟨lines[c], List.getElem?_eq_getElem hc, List.drop_eq_getElem_cons hc⟩
  · exact .inl ⟨List.getElem?_eq_none (by omega), List.drop_eq_nil_of_le (by omega)⟩

/-- The start of a section is matched like any other line: only the wording of the fault differs. -/
theorem matchFrom_label_eq_ok_iff {pending : List String} : matchFrom lines pending (label pattern :: ds) = .ok () ↔
      matchFrom lines pending (check pattern :: ds) = .ok () := by
  rw [matchFrom, matchFrom]
  cases lines.findIdx? fun line => Text.contains line pattern <;> simp

/-- A pattern is looked for from the cursor on, and the matching goes on behind the line where it is found. -/
theorem matchFrom_check_eq_ok_iff (c : ℕ) (pattern : String) (pending : List String) :
    matchFrom (lines.drop c) pending (check pattern :: ds) = .ok () ↔
      ∃ k, FirstAt lines c pattern k ∧
        (∀ p ∈ pending, ∀ line ∈ (lines.take k).drop c, Text.contains line p = false) ∧
          matchFrom (lines.drop (k + 1)) [] ds = .ok () := by
  rw [matchFrom]
  cases hfind : (lines.drop c).findIdx? fun line => Text.contains line pattern with
  | none =>
    simp only [reduceCtorEq, false_iff]
    rintro ⟨k, hk, -, -⟩
    obtain ⟨i, rfl⟩ := Nat.exists_eq_add_of_le hk.from_cursor
    rw [findIdx?_drop_eq_some_iff.mpr hk] at hfind
    cases hfind
  | some i =>
    have hfirst := findIdx?_drop_eq_some_iff.mp hfind
    have hgo : (do allAbsent ((lines.drop c).take i) pending
                   matchFrom ((lines.drop c).drop (i + 1)) [] ds) = .ok () ↔
        (∀ p ∈ pending, ∀ line ∈ (lines.take (c + i)).drop c, Text.contains line p = false) ∧
          matchFrom (lines.drop (c + i + 1)) [] ds = .ok () := by
      rw [List.take_drop, List.drop_drop, ← allAbsent_eq_ok_iff, Nat.add_assoc]
      cases allAbsent ((lines.take (c + i)).drop c) pending <;> simp [bind, Except.bind]
    refine hgo.trans ⟨fun h => ⟨c + i, hfirst, h⟩, ?_⟩
    rintro ⟨k, hk, h⟩
    obtain ⟨j, rfl⟩ := Nat.exists_eq_add_of_le hk.from_cursor
    -- The first line is the same whichever way it was found.
    have hsame := (findIdx?_drop_eq_some_iff.mpr hk).symm.trans hfind
    simp only [Option.some.injEq] at hsame
    exact hsame ▸ h

/-- The matcher comes past a directive iff the directive matches at the cursor, and, where it looks for forbidden
patterns, none of the pending ones stands in what is skipped. -/
theorem matchFrom_cons_eq_ok_iff (c : ℕ) (pending : List String) : matchFrom (lines.drop c) pending (d :: ds) = .ok () ↔
      ∃ c', Step lines d c c' ∧
        if d.searching then
          (∀ pattern ∈ pending, ∀ line ∈ (lines.take (c' - 1)).drop c,
            Text.contains line pattern = false) ∧ matchFrom (lines.drop c') [] ds = .ok ()
        else matchFrom (lines.drop c') (pending ++ d.forbids) ds = .ok () := by
  cases d with
  | check pattern =>
    rw [matchFrom_check_eq_ok_iff]
    constructor
    · rintro ⟨k, hk, h⟩
      exact ⟨k + 1, .check hk, by simpa [searching] using h⟩
    · rintro ⟨_, hstep, h⟩
      cases hstep with
      | check hk => exact ⟨_, hk, by simpa [searching] using h⟩
  | label pattern =>
    rw [matchFrom_label_eq_ok_iff, matchFrom_check_eq_ok_iff]
    constructor
    · rintro ⟨k, hk, h⟩
      exact ⟨k + 1, .label hk, by simpa [searching] using h⟩
    · rintro ⟨_, hstep, h⟩
      cases hstep with
      | label hk => exact ⟨_, hk, by simpa [searching] using h⟩
  | next pattern =>
    rcases drop_cases lines c with ⟨hnone, hdrop⟩ | ⟨line, hsome, hdrop⟩ <;> rw [hdrop, matchFrom]
    · simp only [reduceCtorEq, false_iff]
      rintro ⟨_, hstep, -⟩
      cases hstep with
      | next hline _ => simp [hnone] at hline
    · constructor
      · intro h
        split at h
        case isTrue hholds => exact ⟨c + 1, .next hsome hholds, by simpa [searching] using h⟩
        case isFalse => cases h
      · rintro ⟨_, hstep, h⟩
        cases hstep with
        | next hline hholds =>
          rw [hsome, Option.some.injEq] at hline
          rw [if_pos (hline ▸ hholds)]
          simpa [searching] using h
  | empty =>
    rcases drop_cases lines c with ⟨hnone, hdrop⟩ | ⟨line, hsome, hdrop⟩ <;> rw [hdrop, matchFrom]
    · constructor
      · intro h
        refine ⟨c, .ended (List.getElem?_eq_none_iff.mp hnone), ?_⟩
        simpa [searching, forbids, hdrop] using h
      · rintro ⟨_, hstep, h⟩
        cases hstep with
        | blank hline _ => simp [hnone] at hline
        | ended _ => simpa [searching, forbids, hdrop] using h
    · constructor
      · intro h
        split at h
        case isTrue hblank => exact ⟨c + 1, .blank hsome hblank, by simpa [searching, forbids] using h⟩
        case isFalse => cases h
      · rintro ⟨_, hstep, h⟩
        cases hstep with
        | blank hline hblank =>
          rw [hsome, Option.some.injEq] at hline
          rw [if_pos (hline ▸ hblank)]
          simpa [searching, forbids] using h
        | ended hle => simp [List.getElem?_eq_none hle] at hsome
  | absent pattern =>
    rw [matchFrom]
    constructor
    · intro h
      exact ⟨c, .absent, by simpa [searching, forbids] using h⟩
    · rintro ⟨_, hstep, h⟩
      cases hstep
      simpa [searching, forbids] using h
  | comment text =>
    rw [matchFrom]
    constructor
    · intro h
      exact ⟨c, .comment, by simpa [searching, forbids] using h⟩
    · rintro ⟨_, hstep, h⟩
      cases hstep
      simpa [searching, forbids] using h

/-! ## What the matcher accepts -/

/-- From a cursor on, the matcher accepts iff there is a scan that starts there, neither a pending pattern is seen nor
one that the directives forbid. -/
theorem matchFrom_eq_ok_iff (ds : List Directive) (c : ℕ) (pending : List String) :
    matchFrom (lines.drop c) pending ds = .ok () ↔
      ∃ cursor : ℕ → ℕ, cursor 0 = c ∧ Scan lines ds cursor ∧
        (∀ pattern ∈ pending, Unseen searching lines ds cursor 0 pattern) ∧
          Clear searching lines ds cursor := by
  induction ds generalizing c pending with
  | nil =>
    have hunseen (cursor : ℕ → ℕ) (pattern : String) : Unseen searching lines [] cursor 0 pattern ↔
        ∀ line ∈ lines.drop (cursor 0), Text.contains line pattern = false := by
      simp [Unseen, skipped, nextMatch]
    simp only [matchFrom, allAbsent_eq_ok_iff, hunseen]
    constructor
    · intro h
      exact ⟨fun _ => c, rfl, by simp [Scan], h, by simp [Clear]⟩
    · rintro ⟨cursor, rfl, -, h, -⟩
      exact h
  | cons d ds ih =>
    rw [matchFrom_cons_eq_ok_iff]
    simp only [ih, scan_cons, clear_cons]
    constructor
    · rintro ⟨c', hstep, h⟩
      cases hd : d.searching with
      | true =>
        simp only [hd, if_true] at h
        obtain ⟨habsent, cursor, rfl, hscan, -, hclear⟩ := h
        refine ⟨before c cursor, rfl, ⟨hstep, hscan⟩, ?_, ?_, hclear⟩
        · intro pattern hp
          exact (unseen_zero_of_counts hd).mpr (habsent pattern hp)
        · cases d <;> simp [searching, forbids] at hd ⊢
      | false =>
        simp only [hd] at h
        obtain ⟨cursor, rfl, hscan, hunseen, hclear⟩ := h
        have hlater (pattern : String) (hp : pattern ∈ pending ++ d.forbids) :
            Unseen searching lines (d :: ds) (before c cursor) 0 pattern :=
          (unseen_zero_of_not_counts hd).mpr (hunseen pattern hp)
        refine ⟨before c cursor, rfl, ⟨hstep, hscan⟩, ?_, ?_, hclear⟩
        · intro pattern hp
          exact hlater pattern (List.mem_append_left _ hp)
        · intro pattern hp
          exact hlater pattern (List.mem_append_right _ hp)
    · rintro ⟨cursor, rfl, ⟨hstep, hscan⟩, hpending, hforbids, hclear⟩
      refine ⟨cursor 1, hstep, ?_⟩
      cases hd : d.searching with
      | true =>
        simp only [if_true]
        refine ⟨?_, later cursor, rfl, hscan, by simp, hclear⟩
        intro pattern hp
        exact (unseen_zero_of_counts hd).mp (hpending pattern hp)
      | false =>
        simp only [Bool.false_eq_true, if_false]
        refine ⟨later cursor, rfl, hscan, ?_, hclear⟩
        intro pattern hp
        apply (unseen_zero_of_not_counts hd).mp
        rcases List.mem_append.mp hp with hp | hp
        · exact hpending pattern hp
        · exact hforbids pattern hp

/-- The expectation of an empty line skips nothing. -/
theorem Step.skips_nothing {c c' : ℕ} (h : Step lines empty c c') : (lines.take (c' - 1)).drop c = [] := by
  apply List.drop_eq_nil_of_le
  rw [List.length_take]
  cases h with
  | blank _ _ => omega
  | ended _ => omega

/-- The next match is where the matcher looks for forbidden patterns, unless it is the expectation of an empty line. -/
theorem nextMatch_cases (ds : List Directive) (i : ℕ) : nextMatch matching ds i = nextMatch searching ds i ∨
      ds[nextMatch matching ds i]? = some .empty := by
  rw [nextMatch, nextMatch, ← List.getElem?_drop]
  induction ds.drop i with
  | nil => simp
  | cons d rest ih =>
    cases d
    case absent | comment => simpa [List.findIdx_cons, matching, searching, ← Nat.add_assoc] using ih
    all_goals simp [List.findIdx_cons, matching, searching]

/-- The lines that the next match skips are free of a pattern if it is the expectation of an empty line. -/
theorem Scan.unseen_of_empty (hscan : Scan lines ds cursor) {i : ℕ}
    (hnext : ds[nextMatch matching ds i]? = some .empty) : Unseen matching lines ds cursor i pattern := by
  obtain ⟨hj, hd⟩ := List.getElem?_eq_some_iff.mp hnext
  have hstep := hscan _ hj
  rw [hd] at hstep
  rw [Unseen, skipped, if_pos hj, hstep.skips_nothing]
  simp

/-- A scan that the matcher finds clear is clear as the directives state it, and besides no forbidden pattern is seen
behind the expectation of an empty line that comes next. -/
theorem Scan.clear_searching_iff (hscan : Scan lines ds cursor) : Clear searching lines ds cursor ↔
      Clear matching lines ds cursor ∧
        ∀ (i : ℕ) (pattern : String), ds[i]? = some (absent pattern) →
          ds[nextMatch matching ds i]? = some .empty → Unseen searching lines ds cursor i pattern := by
  constructor
  · intro h
    refine ⟨?_, fun i pattern hi _ => h i pattern hi⟩
    intro i pattern hi
    rcases nextMatch_cases ds i with hsame | hempty
    · rw [Unseen, hsame]
      exact h i pattern hi
    · exact hscan.unseen_of_empty hempty
  · rintro ⟨hclear, hbehind⟩ i pattern hi
    rcases nextMatch_cases ds i with hsame | hempty
    · rw [Unseen, ← hsame]
      exact hclear i pattern hi
    · exact hbehind i pattern hi hempty

/-- The matcher accepts an output iff the directives can be matched from the top to the bottom and every forbidden
pattern is absent from the lines skipped by the next `CHECK`, `CHECK-LABEL` or `CHECK-NEXT`, or from all lines that are
left. This is at least what the directives state, namely that it is absent from the lines skipped by the next match, and
the excess is named: if the next match is a `CHECK-EMPTY`, the pattern stays forbidden behind it. -/
theorem validate_eq_ok_iff (output : String) (ds : List Directive) :
    (validate output ds = .ok () ↔
      ∃ cursor : ℕ → ℕ, cursor 0 = 0 ∧ Scan (Text.lines output) ds cursor ∧
        Clear searching (Text.lines output) ds cursor) ∧
    ∀ cursor : ℕ → ℕ, Scan (Text.lines output) ds cursor →
      (Clear searching (Text.lines output) ds cursor ↔
        Clear matching (Text.lines output) ds cursor ∧
          ∀ (i : ℕ) (pattern : String), ds[i]? = some (absent pattern) →
            ds[nextMatch matching ds i]? = some .empty →
              Unseen searching (Text.lines output) ds cursor i pattern) := by
  refine ⟨?_, fun cursor hscan => hscan.clear_searching_iff⟩
  have h := @matchFrom_eq_ok_iff (Text.lines output) ds 0 []
  simpa [validate] using h

/-- The cursors of a scan that expects an empty line and then a line `b`. -/
def cursorPastEmpty : ℕ → ℕ
  | 0 | 1 => 0
  | 2 => 1
  | _ => 3

/-- A line `a` is refused behind the empty line, although it is forbidden only up to the empty line. -/
theorem validate_eq_ok_iff_behindEmptyLine :
    validate "\na\nb\n" [absent "a", empty, check "b"] = .error (.present "a" "a") ∧
      cursorPastEmpty 0 = 0 ∧
      Scan (Text.lines "\na\nb\n") [absent "a", empty, check "b"] cursorPastEmpty ∧
      Clear matching (Text.lines "\na\nb\n") [absent "a", empty, check "b"] cursorPastEmpty ∧
      ¬ Clear searching (Text.lines "\na\nb\n") [absent "a", empty, check "b"] cursorPastEmpty := by
  have hrefused : validate "\na\nb\n" [absent "a", empty, check "b"] = .error (.present "a" "a") := by
    decide
  have hlines : Text.lines "\na\nb\n" = ["", "a", "b"] := by decide
  have hscan : Scan (Text.lines "\na\nb\n") [absent "a", empty, check "b"] cursorPastEmpty := by
    rw [hlines]
    intro j hj
    match j, hj with
    | 0, _ => exact .absent
    | 1, _ => exact .blank rfl (by decide)
    | 2, _ =>
      exact .check ⟨by decide, ⟨"b", rfl, by decide⟩, by decide⟩
  have hclear : Clear matching (Text.lines "\na\nb\n") [absent "a", empty, check "b"] cursorPastEmpty := by
    intro i pattern hi
    rcases i with _ | _ | _ | i
    · exact hscan.unseen_of_empty (by decide)
    all_goals simp at hi
  refine ⟨hrefused, rfl, hscan, hclear, ?_⟩
  intro h
  have haccepted := (validate_eq_ok_iff "\na\nb\n" [absent "a", empty, check "b"]).1.mpr
    ⟨cursorPastEmpty, rfl, hscan, h⟩
  rw [hrefused] at haccepted
  cases haccepted

end Directive

end SsaCompiler
