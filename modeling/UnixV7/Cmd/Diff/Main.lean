import Mathlib.Data.List.DropRight
import UnixV7.Cmd.Diff.Unravel
import UnixV7.Cmd.Diff.Output

/-!
# Files that are called equal

`main` of `diff.c` from the two files to the script. `readhash` gives up a line without a newline,
and so what stands behind the last newline of a file is never compared.
-/

namespace UnixV7

open Function

namespace Diff

/-- `main`, without its arguments. -/
def main (bflag : Bool) (opt : ℤ) (old new : List ℕ) : Option (List Change) := do
  let us ← prepare bflag (old.length + 1) old
  let vs ← prepare bflag (new.length + 1) new
  let J ← matching us vs
  let s ← check bflag old new us.length vs.length J
  output opt us.length vs.length s.J

/-! ## What is behind the lines is not read -/

variable {f f' g g' tail tail' : List ℕ} {bflag : Bool} {s s' : Reading}

theorem skipline_append {n : ℕ} (skipped : skipline f = some (n, g)) :
    skipline (f ++ tail) = some (n, g ++ tail) := by
  induction f generalizing n with
  | nil => cases skipped
  | cons c f ih =>
      rw [List.cons_append, skipline]
      rw [skipline] at skipped
      split at skipped
      next here =>
        obtain ⟨rfl, rfl⟩ := Prod.mk.inj (Option.some.inj skipped)
        exact if_pos here
      next other =>
        obtain ⟨⟨k, g'⟩, rest, same⟩ := Option.map_eq_some_iff.mp skipped
        obtain ⟨rfl, rfl⟩ := Prod.mk.inj same
        rw [if_neg other, ih rest]
        rfl

theorem blanks_append {c d n : ℕ} (passed : blanks c f = some (d, n, g)) :
    blanks c (f ++ tail) = some (d, n, g ++ tail) := by
  induction f generalizing c n with
  | nil =>
      rw [blanks.eq_def] at passed ⊢
      split at passed
      next here =>
        obtain ⟨rfl, rfl, rfl⟩ := passed
        exact if_pos here
      next => cases passed
  | cons e f ih =>
      rw [blanks.eq_def] at passed ⊢
      split at passed
      next here =>
        obtain ⟨rfl, rfl, rfl⟩ := passed
        exact if_pos here
      next other =>
        rw [if_neg other]
        show (if isspace e then _ else _) = _
        change (if isspace e then _ else _) = _ at passed
        split at passed
        next space =>
          obtain ⟨⟨d', k, g'⟩, rest, same⟩ := Option.map_eq_some_iff.mp passed
          obtain ⟨rfl, rfl, rfl⟩ := same
          exact (if_pos space).trans (congrArg (Option.map _) (ih rest))
        next char =>
          obtain ⟨rfl, rfl, rfl⟩ := passed
          exact if_neg char

theorem passBlanks_append {space : Bool} {c d n : ℕ}
    (passed : passBlanks space c f = some (d, n, g)) :
    passBlanks space c (f ++ tail) = some (d, n, g ++ tail) := by
  cases space with
  | false =>
      obtain ⟨rfl, rfl, rfl⟩ := passed
      rfl
  | true => exact blanks_append passed

theorem passLine_append {c n : ℕ} (passed : passLine c f = some (n, g)) :
    passLine c (f ++ tail) = some (n, g ++ tail) := by
  rw [passLine] at passed ⊢
  split at passed
  next other =>
    rw [if_pos other]
    exact skipline_append passed
  next here =>
    obtain ⟨rfl, rfl⟩ := passed
    exact if_neg here

theorem compare_append {fuel fuel' n m : ℕ} {same : Bool} (more : fuel ≤ fuel')
    (compared : compare bflag fuel f g = some (same, n, m, f', g')) :
    compare bflag fuel' (f ++ tail) (g ++ tail') = some (same, n, m, f' ++ tail, g' ++ tail') := by
  induction fuel generalizing fuel' f g same n m with
  | zero => cases compared
  | succ fuel ih =>
      obtain ⟨fuel', rfl⟩ := Nat.exists_eq_succ_of_ne_zero (Nat.ne_of_gt (Nat.zero_lt_of_lt more))
      cases f with
      | nil => cases compared
      | cons c f =>
          cases g with
          | nil => cases compared
          | cons d g =>
              rw [compare] at compared
              simp only [Option.bind_eq_bind, Option.bind_eq_some_iff] at compared
              obtain ⟨⟨c', k, f₁⟩, left, ⟨d', l, g₁⟩, right, compared⟩ := compared
              rw [List.cons_append, List.cons_append, compare, passBlanks_append left,
                passBlanks_append right]
              simp only [Option.bind_eq_bind, Option.bind_some]
              split at compared
              next other =>
                simp only [Option.bind_eq_some_iff] at compared
                obtain ⟨⟨k', f₂⟩, left', ⟨l', g₂⟩, right', compared⟩ := compared
                obtain ⟨rfl, rfl, rfl, rfl, rfl⟩ := compared
                rw [if_pos other, passLine_append left', passLine_append right']
                rfl
              next equal =>
                rw [if_neg equal]
                split at compared
                next stop =>
                  obtain ⟨rfl, rfl, rfl, rfl, rfl⟩ := compared
                  exact if_pos stop
                next go =>
                  simp only [Option.bind_eq_some_iff] at compared
                  obtain ⟨⟨same', k', l', f₂, g₂⟩, compared, result⟩ := compared
                  obtain ⟨rfl, rfl, rfl, rfl, rfl⟩ := result
                  rw [if_neg go, ih (Nat.le_of_succ_le_succ more) compared]
                  rfl

namespace Reading

/-- A reading of longer files. -/
def behind (s : Reading) (tail tail' : List ℕ) : Reading :=
  { s with old := s.old ++ tail, new := s.new ++ tail' }

theorem passOld_behind {i : ℕ} (passed : s.passOld i = some s') :
    (s.behind tail tail').passOld i = some (s'.behind tail tail') := by
  obtain ⟨⟨n, f⟩, skipped, rfl⟩ := Option.map_eq_some_iff.mp passed
  rw [passOld, behind, skipline_append skipped]
  rfl

theorem passNew_behind (tail tail' : List ℕ) {n : ℕ} (passed : s.passNew n = some s') :
    (s.behind tail tail').passNew n = some (s'.behind tail tail') := by
  induction n generalizing s with
  | zero =>
      obtain rfl := Option.some.inj passed
      rfl
  | succ n ih =>
      rw [passNew, Option.bind_eq_bind, Option.bind_eq_some_iff] at passed
      obtain ⟨⟨k, g⟩, skipped, passed⟩ := passed
      have next := ih passed
      rw [passNew, behind, skipline_append skipped]
      exact next

theorem pair_behind {i : ℕ} (paired : s.pair bflag i = some s') :
    (s.behind tail tail').pair bflag i = some (s'.behind tail tail') := by
  rw [pair, Option.bind_eq_bind, Option.bind_eq_some_iff] at paired
  obtain ⟨⟨same, n, m, f, g⟩, compared, whole⟩ := paired
  obtain rfl := Option.some.inj whole
  have longer : s.old.length + 1 ≤ (s.behind tail tail').old.length + 1 := by
    rw [behind, List.length_append]
    exact Nat.succ_le_succ (Nat.le_add_right _ _)
  have compared' : compare bflag ((s.behind tail tail').old.length + 1)
      (s.behind tail tail').old (s.behind tail tail').new = _ := compare_append longer compared
  rw [pair, compared']
  rfl

theorem line_behind {i : ℕ} (looked : s.line bflag i = some s') :
    (s.behind tail tail').line bflag i = some (s'.behind tail tail') := by
  rw [line] at looked ⊢
  split at looked
  next none =>
    rw [if_pos (show (s.behind tail tail').J i = 0 from none)]
    exact passOld_behind looked
  next some' =>
    rw [if_neg (show (s.behind tail tail').J i ≠ 0 from some')]
    rw [Option.bind_eq_bind, Option.bind_eq_some_iff] at looked
    obtain ⟨s₁, passed, paired⟩ := looked
    rw [show (s.behind tail tail').J i - (s.behind tail tail').j = s.J i - s.j from rfl,
      passNew_behind tail tail' passed]
    exact pair_behind paired

theorem lines_behind (tail tail' : List ℕ) {n i : ℕ} (looked : s.lines bflag n i = some s') :
    (s.behind tail tail').lines bflag n i = some (s'.behind tail tail') := by
  induction n generalizing s i with
  | zero =>
      obtain rfl := Option.some.inj looked
      rfl
  | succ n ih =>
      rw [lines, Option.bind_eq_some_iff] at looked
      obtain ⟨s₁, first, rest⟩ := looked
      rw [lines, line_behind first]
      exact ih rest

end Reading

/-- `check` reads no further than the lines that `prepare` counted. -/
theorem check_behind {len₀ len₁ : ℕ} {J : ℕ → ℕ} (checked : check bflag f g len₀ len₁ J = some s) :
    check bflag (f ++ tail) (g ++ tail') len₀ len₁ J = some (s.behind tail tail') := by
  rw [check, Option.bind_eq_bind, Option.bind_eq_some_iff] at checked
  obtain ⟨s₁, looked, passed⟩ := checked
  have looked' := Reading.lines_behind tail tail' looked
  have passed' := Reading.passNew_behind tail tail' passed
  rw [check]
  exact (congrArg (Option.bind · _) looked').trans passed'

/-! ## Whole lines -/

/-- A file up to its last newline. -/
def ended (f : List ℕ) : List ℕ := f.rdropWhile (· ≠ newline)

variable {line : List ℕ} {lines lines' old new : List (List ℕ)}

/-- Every file is lines and what is behind the last newline. -/
theorem exists_text (f : List ℕ) :
    ∃ lines tail, (∀ line ∈ lines, newline ∉ line) ∧ newline ∉ tail ∧ f = text lines ++ tail := by
  induction f with
  | nil => exact ⟨[], [], List.forall_mem_nil _, List.not_mem_nil, rfl⟩
  | cons c f ih =>
      obtain ⟨lines, tail, plain, lost, rfl⟩ := ih
      obtain rfl | other := eq_or_ne c newline
      · exact ⟨[] :: lines, tail, List.forall_mem_cons.mpr ⟨List.not_mem_nil, plain⟩, lost, rfl⟩
      · cases lines with
        | nil =>
            refine ⟨[], c :: tail, plain, fun mem => ?_, rfl⟩
            exact (List.mem_cons.mp mem).elim (fun same => other same.symm) lost
        | cons line lines =>
            obtain ⟨here, plain⟩ := List.forall_mem_cons.mp plain
            refine ⟨(c :: line) :: lines, tail, List.forall_mem_cons.mpr ⟨fun mem => ?_, plain⟩,
              lost, ?_⟩
            · exact (List.mem_cons.mp mem).elim (fun same => other same.symm) here
            · rw [text_cons, text_cons, List.cons_append, List.cons_append]

theorem ended_text (lost : newline ∉ tail) (lines : List (List ℕ)) :
    ended (text lines ++ tail) = text lines := by
  have pass : ∀ c ∈ tail.reverse, decide (c ≠ newline) = true := by
    intro c mem
    refine decide_eq_true fun same => lost ?_
    rw [← same]
    exact List.mem_reverse.mp mem
  rw [ended, List.rdropWhile, List.reverse_append, List.dropWhile_append_of_pos pass]
  induction lines using List.reverseRecOn with
  | nil => rfl
  | append_singleton lines line =>
      rw [text_append, text_cons, text_nil, List.append_cons, List.append_nil, ← List.append_assoc,
        List.reverse_concat]
      rw [List.dropWhile_cons_of_neg (by simp), ← List.reverse_concat, List.reverse_reverse]

/-- The lines are found in the text. -/
theorem text_inj (plain : ∀ line ∈ lines, newline ∉ line) (plain' : ∀ line ∈ lines', newline ∉ line)
    (same : text lines = text lines') : lines = lines' := by
  induction lines generalizing lines' with
  | nil =>
      cases lines' with
      | nil => rfl
      | cons line' lines' =>
          rw [text_cons, text_nil] at same
          exact absurd (List.append_eq_nil_iff.mp same.symm).2 (List.cons_ne_nil _ _)
  | cons line lines ih =>
      cases lines' with
      | nil =>
          rw [text_cons, text_nil] at same
          exact absurd (List.append_eq_nil_iff.mp same).2 (List.cons_ne_nil _ _)
      | cons line' lines' =>
          obtain ⟨here, plain⟩ := List.forall_mem_cons.mp plain
          obtain ⟨here', plain'⟩ := List.forall_mem_cons.mp plain'
          rw [text_cons, text_cons] at same
          have skipped := skipline_line here (text lines)
          rw [same, skipline_line here' (text lines')] at skipped
          obtain ⟨size, rest⟩ := Prod.mk.inj (Option.some.inj skipped)
          rw [ih plain plain' rest.symm,
            (List.append_inj same (Nat.succ.inj size).symm).1]

theorem length_le_text (lines : List (List ℕ)) : lines.length ≤ (text lines).length := by
  induction lines with
  | nil => exact Nat.le_refl 0
  | cons line lines ih =>
      rw [text_cons, List.length_append, List.length_cons, List.length_cons]
      exact (Nat.succ_le_succ ih).trans (Nat.le_add_left _ _)

/-- `anychange` stays 0 exactly when the lines are the same; what is behind the last newlines plays
no part. -/
theorem main_text (opt : ℤ) (plain : ∀ line ∈ old, newline ∉ line)
    (plain' : ∀ line ∈ new, newline ∉ line) (lost : newline ∉ tail) (lost' : newline ∉ tail') :
    ∃ xs, main false opt (text old ++ tail) (text new ++ tail') = some xs ∧
      (anychange xs = 0 ↔ old = new) := by
  obtain ⟨us, length, -, prepared⟩ := prepare_lines false plain
  obtain ⟨vs, length', nonzero, prepared'⟩ := prepare_lines false plain'
  obtain ⟨J, ps, found, common, unraveled, -⟩ := matching_spec us nonzero
  have pairs : Pairs old.length new.length J := by
    rw [← length, ← length']
    exact ⟨fun i low high => unraveled.le_length common low high,
      fun i j low less high some some' => unraveled.rising common low less high some some'⟩
  obtain ⟨s, xs, checked, scan, done, -, -, -, -, idle⟩ :=
    script_spec false opt plain plain' pairs
  have enough : ∀ (lines : List (List ℕ)) tail, lines.length < (text lines ++ tail).length + 1 := by
    intro lines tail
    rw [List.length_append]
    have := length_le_text lines
    omega
  refine ⟨xs, ?_, idle.trans ⟨?_, ?_⟩⟩
  · rw [main, prepared tail _ lost (enough old tail), prepared' tail' _ lost' (enough new tail')]
    simp only [Option.bind_eq_bind, Option.bind_some, found]
    rw [length, length', check_behind checked, Option.bind_some]
    exact scan
  · rintro ⟨size, place⟩
    refine List.ext_getElem size fun i inside inside' => ?_
    have here := done (i + 1) (Nat.le_add_left 1 i) inside
    rw [place (i + 1) (Nat.le_add_left 1 i) inside] at here
    split at here
    next equal =>
      rw [← here, Equal, Nat.add_sub_cancel, List.getD_eq_getElem _ _ inside,
        List.getD_eq_getElem _ _ inside'] at equal
      exact equal
    next => exact absurd here (Nat.succ_ne_zero i)
  · rintro rfl
    refine ⟨rfl, fun i low high => ?_⟩
    have same : us = vs := Option.some.inj
      ((prepared tail _ lost (enough old tail)).symm.trans
        (prepared' tail _ lost (enough old tail)))
    have here : J i = i := by
      refine unraveled.start i (high.trans ?_)
      rw [← length]
      exact le_common le_rfl (same ▸ le_rfl) (same ▸ rfl)
    rw [done i low high, here]
    exact if_pos rfl

/-- `diff` without `-b` calls only equal files equal exactly as long as files with the same lines up
to the last newline are the same altogether. -/
theorem equal_iff (opt : ℤ) (f g : List ℕ) :
    ∃ xs, main false opt f g = some xs ∧
      ((anychange xs = 0 → f = g) ↔ (ended f = ended g → f = g)) := by
  obtain ⟨lines, tail, plain, lost, rfl⟩ := exists_text f
  obtain ⟨lines', tail', plain', lost', rfl⟩ := exists_text g
  obtain ⟨xs, scan, idle⟩ := main_text opt plain plain' lost lost'
  refine ⟨xs, scan, ?_⟩
  rw [idle, ended_text lost, ended_text lost']
  exact imp_congr_left ⟨fun same => by rw [same], text_inj plain plain'⟩

/-- The files `b` and `c`, both without a newline, are called equal. -/
theorem called_equal :
    ¬ ∀ f g xs, main false 0 f g = some xs → anychange xs = 0 → f = g := by
  intro right
  have scan : main false 0 [98] [99] = some [⟨1, 0, 1, 0⟩] := by rfl
  exact absurd (right [98] [99] _ scan rfl) (by decide)

end Diff

end UnixV7
