import Mathlib.Data.List.TakeWhile
import UnixV7.Cmd.Diff3.Merge

/-!
# What is read

An open file always stands at the beginning of a line, and `cline` tells which. So `skip` moves by
the distance of two lines, `duplicate` compares lines, and what `edit` collects are the places of
lines in file 3.
-/

namespace UnixV7.Diff3

open Function Lines

variable {lines : Which → List (List Char)} {left right : List (List Char)} {k : Which → ℕ}
  {i : Which} {a b m n start nchar : ℕ} {r₁ r₂ : Range} {flag : Flag} {d : Diff} {de : List Diff}

/-- No line has a newline inside. -/
def Plain (lines : List (List Char)) : Prop := ∀ line ∈ lines, '\n' ∉ line

/-- The lines of a range. -/
def slice (lines : List (List Char)) (r : Range) : List (List Char) :=
  (lines.drop (r.start - 1)).take (r.stop - r.start)

/-- The place of the line with a number. -/
def place (lines : List (List Char)) (line : ℕ) : ℕ := offset '\n' lines (line - 1)

/-- Of each file some lines have been read. -/
def stand (lines : Which → List (List Char)) (k : Which → ℕ) : Input where
  fp i := ⟨unlines '\n' (lines i), offset '\n' (lines i) (k i)⟩
  cline := k

theorem Plain.drop (plain : Plain left) (n : ℕ) : Plain (left.drop n) :=
  fun line mem => plain line (List.mem_of_mem_drop mem)

theorem opened_eq : Input.opened (fun i => unlines '\n' (lines i)) = stand lines fun _ => 0 := rfl

@[simp] theorem cline_stand : (stand lines k).cline = k := rfl

theorem rest_stand (lines : Which → List (List Char)) (k : Which → ℕ) (i : Which) :
    ((stand lines k).fp i).rest = unlines '\n' ((lines i).drop (k i)) := drop_offset _ _ _

theorem getline_unlines (plain : Plain left) (inside : n < left.length) :
    getline (unlines '\n' (left.drop n)) = left[n].length + 1 := by
  have free : ∀ c ∈ left[n], decide (c ≠ '\n') = true := by
    intro c mem
    exact decide_eq_true fun same => plain left[n] (List.getElem_mem inside) (same ▸ mem)
  rw [List.drop_eq_getElem_cons inside, unlines_cons, getline, if_pos (by simp),
    List.takeWhile_append_of_pos free, List.takeWhile_cons_of_neg (by simp), List.append_nil]

theorem read_stand (inside : k i < (lines i).length) :
    (stand lines k).read i ((lines i)[k i].length + 1) = stand lines (update k i (k i + 1)) := by
  rw [Input.read, stand, stand, Input.mk.injEq]
  refine ⟨funext fun j => ?_, rfl⟩
  obtain rfl | other := eq_or_ne j i
  · rw [update_self, update_self, offset_succ inside]
    rfl
  · rw [update_of_ne other, update_of_ne other]

theorem skipLines_stand (plain : Plain (lines i)) (inside : k i + n ≤ (lines i).length) :
    (stand lines k).skipLines i n = .ok (offset '\n' (lines i) (k i + n) -
      offset '\n' (lines i) (k i), stand lines (update k i (k i + n))) := by
  induction n generalizing k with
  | zero => rw [Input.skipLines, Nat.add_zero, Nat.sub_self, update_eq_self]
  | succ n ih =>
      have here : k i < (lines i).length := by omega
      have next : update k i (k i + 1) i = k i + 1 := update_self i (k i + 1) k
      have later := ih (k := update k i (k i + 1)) (by omega)
      rw [next, update_idem] at later
      have line := offset_succ (a := '\n') here
      have inside' : k i + 1 + n ≤ (lines i).length := by omega
      have more := offset_le (a := '\n') (Nat.le_add_right (k i + 1) n) inside'
      rw [Input.skipLines]
      dsimp only
      rw [rest_stand, getline_unlines plain here, if_neg (Nat.succ_ne_zero _), read_stand here,
        later]
      rw [show k i + (n + 1) = k i + 1 + n by omega]
      simp only [bind, Except.bind]
      rw [Except.ok.injEq, Prod.mk.injEq]
      exact ⟨by omega, rfl⟩

/-- `skip` reads up to the line with a number. -/
theorem skip_stand (k : Which → ℕ) (start : ℕ) (plain : Plain (lines i)) (low : k i < start)
    (inside : start ≤ (lines i).length + 1) :
    (stand lines k).skip i start = .ok (place (lines i) start - offset '\n' (lines i) (k i),
      stand lines (update k i (start - 1))) := by
  have whole : k i + (start - 1 - k i) = start - 1 := by omega
  have read := skipLines_stand (k := k) (n := start - 1 - k i) plain (by omega)
  rw [whole] at read
  exact read

/-! ## Comparing -/

theorem compare_line {line line' : List Char} (free : '\n' ∉ line) (free' : '\n' ∉ line')
    (n : ℕ) (f g : List Char) (nchar : ℕ) :
    compare (n + 1) (line ++ '\n' :: f) (line' ++ '\n' :: g) nchar =
      if line = line' then compare n f g (nchar + line.length + 1)
      else .ok (false, nchar + (line.zip line' |>.takeWhile fun p => p.1 = p.2).length + 1) := by
  induction line generalizing line' nchar with
  | nil =>
      cases line' with
      | nil =>
          rw [List.nil_append, List.nil_append, compare, if_neg (not_not.mpr rfl), if_pos rfl,
            if_pos rfl]
          rfl
      | cons d line' =>
          have differ : '\n' ≠ d := fun same => free' (same ▸ List.mem_cons_self)
          rw [List.nil_append, List.cons_append, compare, if_pos differ, if_neg (by simp)]
          rfl
  | cons c line ih =>
      cases line' with
      | nil =>
          have differ : c ≠ '\n' := fun same => free (same ▸ List.mem_cons_self)
          rw [List.nil_append, List.cons_append, compare, if_pos differ, if_neg (by simp)]
          rfl
      | cons d line' =>
          rw [List.cons_append, List.cons_append, compare]
          by_cases same : c = d
          · subst same
            have inner : c ≠ '\n' := fun ends => free (ends ▸ List.mem_cons_self)
            rw [if_neg (not_not.mpr rfl), if_neg inner,
              ih (fun mem => free (List.mem_cons_of_mem c mem))
                (fun mem => free' (List.mem_cons_of_mem c mem))]
            simp only [List.cons.injEq, true_and, List.zip_cons_cons, List.length_cons,
              List.takeWhile_cons, decide_true, if_true]
            split <;> congr 2 <;> omega
          · rw [if_pos same, if_neg (by simp [same]), List.zip_cons_cons,
              List.takeWhile_cons_of_neg (by simp [same])]
            rfl

/-- The comparison of a number of lines. -/
theorem compare_unlines (plain : Plain left) (plain' : Plain right) (inside : n ≤ left.length)
    (inside' : n ≤ right.length) (nchar : ℕ) :
    ∃ m, compare n (unlines '\n' left) (unlines '\n' right) nchar =
      .ok (decide (left.take n = right.take n), m) := by
  induction n generalizing left right nchar with
  | zero => exact ⟨nchar, by rw [compare]; rfl⟩
  | succ n ih =>
      cases left with
      | nil => exact absurd inside (by simp)
      | cons line left =>
          cases right with
          | nil => exact absurd inside' (by simp)
          | cons line' right =>
              obtain ⟨free, plain⟩ := List.forall_mem_cons.mp plain
              obtain ⟨free', plain'⟩ := List.forall_mem_cons.mp plain'
              rw [unlines_cons, unlines_cons, compare_line free free', List.take_succ_cons,
                List.take_succ_cons]
              by_cases same : line = line'
              · obtain ⟨m, compared⟩ := ih plain plain' (Nat.le_of_succ_le_succ inside)
                  (Nat.le_of_succ_le_succ inside') (nchar + line.length + 1)
                refine ⟨m, ?_⟩
                rw [if_pos same, compared]
                simp only [same, List.cons.injEq, true_and]
              · have other : ¬ line :: left.take n = line' :: right.take n :=
                  fun lists => same (List.cons.inj lists).1
                rw [if_neg same, decide_eq_false other]
                exact ⟨_, rfl⟩

theorem repos_passed (s : Input) (nchar : ℕ) : (s.passed nchar).repos nchar = s := by
  obtain ⟨fp, cline⟩ := s
  have kept : ∀ f : File, (f.forth nchar).back nchar = f := by
    intro f
    rw [File.forth, File.back, Nat.add_sub_cancel]
  rw [Input.passed, Input.repos, Input.mk.injEq]
  refine ⟨funext fun i => ?_, rfl⟩
  match i with
  | .one => exact kept (fp .one)
  | .two => exact kept (fp .two)
  | .three => rfl

/-- `duplicate` answers whether the ranges have the same lines. -/
theorem duplicate_stand (plain : ∀ i, Plain (lines i)) (low₁ : k .one < r₁.start)
    (low₂ : k .two < r₂.start) (order₁ : r₁.start ≤ r₁.stop) (order₂ : r₂.start ≤ r₂.stop)
    (inside₁ : r₁.stop ≤ (lines .one).length + 1) (inside₂ : r₂.stop ≤ (lines .two).length + 1) :
    ∃ k' : Which → ℕ, k' .one < r₁.start ∧ k' .two < r₂.start ∧ k' .three = k .three ∧
      duplicate r₁ r₂ (stand lines k) =
        .ok (decide (slice (lines .one) r₁ = slice (lines .two) r₂), stand lines k') := by
  rw [duplicate]
  split
  next differ =>
    refine ⟨k, low₁, low₂, rfl, ?_⟩
    have lengths : (slice (lines .one) r₁).length ≠ (slice (lines .two) r₂).length := by
      rw [slice, slice, List.length_take, List.length_take, List.length_drop, List.length_drop]
      omega
    rw [decide_eq_false fun same => lengths (congrArg List.length same)]
  next equal =>
    have equal : r₁.stop - r₁.start = r₂.stop - r₂.start := not_not.mp equal
    generalize moved : update (update k .one (r₁.start - 1)) .two (r₂.start - 1) = k'
    have zero : k' .one = r₁.start - 1 := by
      rw [← moved, update_of_ne (show Which.one ≠ .two by decide), update_self]
    have one : k' .two = r₂.start - 1 := by rw [← moved, update_self]
    have two : k' .three = k .three := by
      rw [← moved, update_of_ne (show Which.three ≠ .two by decide),
        update_of_ne (show Which.three ≠ .one by decide)]
    have first := skip_stand k r₁.start (plain .one) low₁ (by omega)
    have stays : update k .one (r₁.start - 1) .two = k .two := update_of_ne (by decide) _ _
    have second := skip_stand (update k .one (r₁.start - 1)) r₂.start (plain .two) (by omega)
      (by omega)
    rw [moved] at second
    obtain ⟨m, compared⟩ := compare_unlines (n := r₁.stop - r₁.start)
      ((plain .one).drop (k' .one)) ((plain .two).drop (k' .two)) (by rw [List.length_drop]; omega)
      (by rw [List.length_drop]; omega) 0
    refine ⟨k', by omega, by omega, two, ?_⟩
    rw [first]
    simp only [bind, Except.bind]
    rw [second]
    simp only
    rw [rest_stand, rest_stand, compared]
    simp only
    rw [repos_passed, zero, one, equal, slice, slice, equal]

/-! ## Collecting -/

/-- The regions of which `edit` takes the lines of file 3. -/
def wanted (flag : Flag) (dup : Bool) : Bool := ¬ (dup.toNat + 1) &&& flag.eflag = 0

/-- What `edit` collects for a change: the places of its lines of file 3. -/
def entry (three : List (List Char)) (d : Diff) : Diff :=
  ⟨d.old, ⟨place three d.new.start, place three d.new.stop⟩⟩

theorem edit_idle {dup : Bool} (idle : wanted flag dup = false) (s : Input) :
    edit flag d dup de s = .ok (de, s) := by
  rw [edit, if_pos]
  simpa [wanted] using idle

theorem edit_stand {dup : Bool} (want : wanted flag dup = true) (plain : Plain (lines .three))
    (last : (de.head?.elim 0 fun e => e.new.stop) = offset '\n' (lines .three) (k .three))
    (low : k .three < d.new.start) (order : d.new.start ≤ d.new.stop)
    (inside : d.new.stop ≤ (lines .three).length + 1) :
    edit flag d dup de (stand lines k) =
      .ok (entry (lines .three) d :: de, stand lines (update k .three (d.new.stop - 1))) := by
  have some : ¬ (dup.toNat + 1) &&& flag.eflag = 0 := by simpa [wanted] using want
  have before : offset '\n' (lines .three) (k .three) ≤ place (lines .three) d.new.start :=
    offset_le (by omega) (by omega)
  have along : place (lines .three) d.new.start ≤ place (lines .three) d.new.stop :=
    offset_le (by omega) (by omega)
  have first := skip_stand k d.new.start plain low (by omega)
  rw [edit, if_neg some, first]
  simp only [bind, Except.bind]
  rw [last]
  obtain empty | more := Nat.eq_or_lt_of_le order
  · have none : d.new.stop - 1 - (stand lines (update k .three (d.new.start - 1))).cline .three =
        0 := by
      rw [cline_stand, update_self]
      omega
    have second : (stand lines (update k .three (d.new.start - 1))).skip .three d.new.stop =
        .ok (0, stand lines (update k .three (d.new.start - 1))) := by
      rw [Input.skip, none]
      rfl
    rw [second]
    simp only
    rw [entry, ← empty]
    congr 4
    · congr 1 <;> omega
  · have second := skip_stand (update k .three (d.new.start - 1)) d.new.stop plain
      (by rw [update_self]; omega) inside
    rw [second, update_idem, update_self]
    simp only
    rw [entry]
    have here : offset '\n' (lines .three) (d.new.start - 1) = place (lines .three) d.new.start :=
      rfl
    rw [here]
    congr 4
    · congr 1 <;> omega

/-! ## Printing -/

theorem copy_eq {fuel : ℕ} (enough : m ≤ fuel) (text : List Char) (inside : n + m ≤ text.length) :
    copy fuel m ⟨text, n⟩ = .ok ((text.drop n).take m) := by
  induction fuel generalizing m n with
  | zero =>
      obtain rfl := Nat.le_zero.mp enough
      rw [copy, List.take_zero]
  | succ fuel ih =>
      cases m with
      | zero => rw [copy, List.take_zero]
      | succ m =>
          generalize size : (if m + 1 > 512 then 512 else m + 1) = j
          have bounds : 0 < j ∧ j ≤ m + 1 := by split at size <;> omega
          rw [copy]
          rw [size, if_neg, File.forth, ih (by omega) (by dsimp only; omega)]
          · simp only [bind, Except.bind, File.rest]
            rw [← List.drop_drop, ← List.take_add, Nat.add_sub_cancel' bounds.2]
          · rw [not_not, File.rest, List.length_take_of_le]
            dsimp only
            rw [List.length_drop]
            omega

/-- What `edscript` prints for a change: a command, lines of file 3 and a period. -/
def printed (three : List (List Char)) (d : Diff) : List Char :=
  prange d.old ++ unlines '\n' (slice three d.new) ++ ['.', '\n']

theorem edscript_entries (three : List (List Char)) (pos : ℕ) {ds : List Diff}
    (inside : ∀ d ∈ ds, 0 < d.new.start ∧ d.new.start ≤ d.new.stop ∧
      d.new.stop ≤ three.length + 1) :
    edscript ⟨unlines '\n' three, pos⟩ (ds.map (entry three)) =
        .ok (ds.flatMap (printed three)) := by
  induction ds with
  | nil => rfl
  | cons d ds ih =>
      obtain ⟨⟨low, order, high⟩, others⟩ := List.forall_mem_cons.mp inside
      have forth : place three d.new.start ≤ place three d.new.stop :=
        offset_le (by omega) (by omega)
      have last : place three d.new.stop ≤ (unlines '\n' three).length := by
        rw [← offset_length]
        exact offset_le (by omega) le_rfl
      have text := between_offset '\n' three (show d.new.start - 1 ≤ d.new.stop - 1 by omega)
      rw [show d.new.stop - 1 - (d.new.start - 1) = d.new.stop - d.new.start by omega] at text
      have copied : copy (place three d.new.stop - place three d.new.start)
          (place three d.new.stop - place three d.new.start)
          ⟨unlines '\n' three, place three d.new.start⟩ =
            .ok (((unlines '\n' three).drop (place three d.new.start)).take
              (place three d.new.stop - place three d.new.start)) := copy_eq le_rfl _ (by omega)
      rw [List.map_cons, edscript]
      dsimp only [entry]
      rw [copied, place, place, text]
      simp only [bind, Except.bind]
      rw [ih others]
      rfl

end UnixV7.Diff3
