import Mathlib.Data.List.GetD
import Mathlib.Logic.Function.Basic
import UnixV7.Cmd.Diff.Readhash

/-!
# Paired lines are compared

`check` and `skipline` of `diff.c`: the two files are read in step, a pair of lines that differ is
broken, and the places where the lines end are written down. Each reading loop gives nothing where
it would run past the end of its file, since it then never ends.
-/

namespace UnixV7

open Function

namespace Diff

/-- `isspace` -/
def isspace (c : ℕ) : Bool := c = 32 ∨ 9 ≤ c ∧ c ≤ 13

/-- `skipline`: the characters up to the newline are counted. -/
def skipline : List ℕ → Option (ℕ × List ℕ)
  | [] => none
  | c :: f => if c = newline then some (1, f) else (skipline f).map fun (i, f) => (i + 1, f)

/-- The loop over blanks: what character follows them, how many more characters were taken, and
what is left. A newline is not passed. -/
def blanks (c : ℕ) (f : List ℕ) : Option (ℕ × ℕ × List ℕ) :=
  if c = newline then some (c, 0, f)
  else
    match f with
    | [] => none
    | c :: f =>
        if isspace c then (blanks c f).map fun (c, n, f) => (c, n + 1, f) else some (c, 1, f)

/-- The blanks at one place of a line, where both lines have some. -/
def passBlanks (space : Bool) (c : ℕ) (f : List ℕ) : Option (ℕ × ℕ × List ℕ) :=
  if space then blanks c f else some (c, 0, f)

/-- What is left of a line after its character `c`. -/
def passLine (c : ℕ) (f : List ℕ) : Option (ℕ × List ℕ) :=
  if c ≠ newline then skipline f else some (0, f)

/-- The comparison of two lines: whether they are equal, how many characters of each file were
taken, and what is left of the files. -/
def compare (bflag : Bool) : ℕ → List ℕ → List ℕ → Option (Bool × ℕ × ℕ × List ℕ × List ℕ)
  | fuel + 1, c :: f, d :: g => do
      let space := bflag && isspace c && isspace d
      let (c, n, f) ← passBlanks space c f
      let (d, m, g) ← passBlanks space d g
      if c ≠ d then do
        let (n', f) ← passLine c f
        let (m', g) ← passLine d g
        some (false, 1 + n + n', 1 + m + m', f, g)
      else if c = newline then some (true, 1 + n, 1 + m, f, g)
      else
        let (same, n', m', f, g) ← compare bflag fuel f g
        some (same, 1 + n + n', 1 + m + m', f, g)
  | _, _, _ => none

/-- The variables of `check`, with what is left of the two files. -/
structure Reading where
  old : List ℕ
  new : List ℕ
  ctold : ℕ
  ctnew : ℕ
  j : ℕ
  J : ℕ → ℕ
  ixold : ℕ → ℕ
  ixnew : ℕ → ℕ

namespace Reading

/-- `ixold[i] = ctold += skipline(0)` -/
def passOld (s : Reading) (i : ℕ) : Option Reading :=
  (skipline s.old).map fun (n, f) =>
    { s with old := f, ctold := s.ctold + n, ixold := update s.ixold i (s.ctold + n) }

/-- `ixnew[j] = ctnew += skipline(1); j++`, some times. -/
def passNew : ℕ → Reading → Option Reading
  | 0, s => some s
  | n + 1, s => do
      let (k, g) ← skipline s.new
      passNew n { s with
        new := g, ctnew := s.ctnew + k, ixnew := update s.ixnew s.j (s.ctnew + k), j := s.j + 1 }

/-- Line `i` of the first file and line `j` of the second are compared. -/
def pair (bflag : Bool) (s : Reading) (i : ℕ) : Option Reading := do
  let (same, n, m, f, g) ← compare bflag (s.old.length + 1) s.old s.new
  some
    { old := f, new := g, ctold := s.ctold + n, ctnew := s.ctnew + m, j := s.j + 1
      J := if same then s.J else update s.J i 0
      ixold := update s.ixold i (s.ctold + n), ixnew := update s.ixnew s.j (s.ctnew + m) }

/-- What `check` does with line `i` of the first file. -/
def line (bflag : Bool) (s : Reading) (i : ℕ) : Option Reading :=
  if s.J i = 0 then s.passOld i
  else do
    let s ← passNew (s.J i - s.j) s
    s.pair bflag i

/-- The loop of `check` over the lines of the first file. -/
def lines (bflag : Bool) : ℕ → ℕ → Reading → Option Reading
  | 0, _, s => some s
  | n + 1, i, s => (s.line bflag i).bind (lines bflag n (i + 1))

end Reading

/-- `check`, for files of `len₀` and `len₁` lines. -/
def check (bflag : Bool) (old new : List ℕ) (len₀ len₁ : ℕ) (J : ℕ → ℕ) : Option Reading := do
  let s ← Reading.lines bflag len₀ 1
    { old, new, ctold := 0, ctnew := 0, j := 1, J, ixold := fun _ => 0, ixnew := fun _ => 0 }
  s.passNew (len₁ + 1 - s.j)

/-! ## Lines up to blanks -/

/-- What `-b` leaves of a line: one space for each run of blanks, none at the end. -/
def squeeze : Bool → List ℕ → List ℕ
  | _, [] => []
  | space, c :: line =>
      if isspace c then squeeze true line
      else if space then 32 :: c :: squeeze false line
      else c :: squeeze false line

/-- What counts of a line when lines are compared. -/
def essence (bflag : Bool) (line : List ℕ) : List ℕ := if bflag then squeeze false line else line

variable {line line' f g rest rest' : List ℕ} {c d fuel : ℕ} {bflag : Bool}

theorem isspace_newline : isspace newline = true := rfl

/-- After a run of blanks a line without blanks at its beginning is left. -/
theorem squeeze_true (line : List ℕ) :
    squeeze true line =
      if line.dropWhile isspace = [] then [] else 32 :: squeeze false (line.dropWhile isspace) := by
  induction line with
  | nil => rfl
  | cons c line hyp =>
    rw [squeeze, List.dropWhile_cons]
    split
    · exact hyp
    · rename_i other
      rw [if_neg (List.cons_ne_nil c line), squeeze, if_neg other]
      rfl

/-- What a line becomes begins with its first character, unless that is a blank. -/
theorem squeeze_cons (other : isspace c = false) (line : List ℕ) :
    squeeze false (c :: line) = c :: squeeze false line := by
  rw [squeeze, other]
  rfl

theorem squeeze_blank (blank : isspace c = true) (line : List ℕ) :
    squeeze false (c :: line) = squeeze true line := by
  rw [squeeze, if_pos blank]

/-- A line that begins with a blank does not become one that begins with another character. -/
theorem squeeze_true_ne (other : isspace d = false) (line line' : List ℕ) :
    squeeze true line ≠ d :: line' := by
  rw [squeeze_true]
  split
  · exact (List.cons_ne_nil d line').symm
  · intro same
    rw [(List.cons.inj same).1.symm] at other
    exact absurd other (by decide)

theorem skipline_line (plain : newline ∉ line) (rest : List ℕ) :
    skipline (line ++ newline :: rest) = some (line.length + 1, rest) := by
  induction line with
  | nil => rfl
  | cons c line hyp =>
    obtain ⟨here, plain⟩ := not_or.mp (mt List.mem_cons.mpr plain)
    rw [List.cons_append, skipline, if_neg (Ne.symm here), hyp plain]
    rfl

/-- The loop over blanks takes those at the beginning of the line. -/
theorem blanks_line (some_char : c ≠ newline) (plain : newline ∉ line) :
    ∃ d n g, blanks c (line ++ newline :: rest) = some (d, n, g) ∧
      d :: g = line.dropWhile isspace ++ newline :: rest ∧
      n + (line.dropWhile isspace).length = line.length + 1 := by
  induction line generalizing c with
  | nil =>
    refine ⟨newline, 1, rest, ?_, rfl, rfl⟩
    rw [blanks.eq_def, if_neg some_char]
    show (if isspace newline then _ else _) = _
    rw [if_pos isspace_newline, blanks.eq_def, if_pos rfl]
    rfl
  | cons e line hyp =>
    obtain ⟨here, plain⟩ := not_or.mp (mt List.mem_cons.mpr plain)
    rw [List.cons_append, blanks.eq_def, if_neg some_char, List.dropWhile_cons]
    show ∃ d n g, (if isspace e then _ else _) = _ ∧ _
    cases blank : isspace e with
    | true =>
      obtain ⟨d, n, g, taken, whole, count⟩ := hyp (Ne.symm here) plain
      refine ⟨d, n + 1, g, ?_, whole, ?_⟩
      · rw [if_pos rfl, taken]
        rfl
      · rw [if_pos rfl, List.length_cons]
        omega
    | false =>
      refine ⟨e, 1, line ++ newline :: rest, rfl, rfl, ?_⟩
      rw [if_neg (by decide), Nat.add_comm]

/-- Lines that begin with different characters, not both blanks, are different. -/
theorem essence_ne (heads : c ≠ d) (whole : c :: f = line ++ newline :: rest)
    (whole' : d :: g = line' ++ newline :: rest')
    (blank : bflag = true → isspace c = true → isspace d = true → c = newline ∧ d = newline) :
    essence bflag line ≠ essence bflag line' := by
  cases bflag with
  | false =>
    intro same
    change line = line' at same
    subst same
    cases line with
    | nil => exact heads ((List.cons.inj whole).1.trans (List.cons.inj whole').1.symm)
    | cons e line => exact heads ((List.cons.inj whole).1.trans (List.cons.inj whole').1.symm)
  | true =>
    show squeeze false line ≠ squeeze false line'
    cases left : isspace c with
    | true =>
      cases right : isspace d with
      | true => exact absurd ((blank rfl left right).1.trans (blank rfl left right).2.symm) heads
      | false =>
        cases line' with
        | nil => exact absurd right (by rw [(List.cons.inj whole').1]; decide)
        | cons e line' =>
          obtain ⟨rfl, -⟩ := List.cons.inj whole'
          rw [squeeze_cons right]
          cases line with
          | nil => exact (List.cons_ne_nil d _).symm
          | cons e line =>
            obtain ⟨rfl, -⟩ := List.cons.inj whole
            rw [squeeze_blank left]
            exact squeeze_true_ne right line _
    | false =>
      cases line with
      | nil => exact absurd left (by rw [(List.cons.inj whole).1]; decide)
      | cons e line =>
        obtain ⟨rfl, -⟩ := List.cons.inj whole
        rw [squeeze_cons left]
        cases line' with
        | nil => exact List.cons_ne_nil c _
        | cons e line' =>
          obtain ⟨rfl, -⟩ := List.cons.inj whole'
          cases right : isspace d with
          | true =>
            rw [squeeze_blank right]
            exact (squeeze_true_ne left line' _).symm
          | false =>
            rw [squeeze_cons right]
            exact fun same => heads (List.cons.inj same).1

/-- What is left of a line from its character `c` on. -/
theorem passLine_line (whole : c :: f = line ++ newline :: rest) (plain : newline ∉ line) :
    passLine c f = some (line.length, rest) := by
  cases line with
  | nil =>
    obtain ⟨rfl, rfl⟩ := List.cons.inj whole
    rfl
  | cons e line =>
    obtain ⟨rfl, rfl⟩ := List.cons.inj whole
    obtain ⟨here, plain⟩ := not_or.mp (mt List.mem_cons.mpr plain)
    rw [passLine, if_pos (Ne.symm here)]
    exact skipline_line plain _

/-- The blanks at the beginning of both lines are passed. -/
theorem passed (whole : c :: f = line ++ newline :: rest) (plain : newline ∉ line)
    (blank : isspace c = true) :
    ∃ c' n f', blanks c f = some (c', n, f') ∧
      c' :: f' = line.dropWhile isspace ++ newline :: rest ∧
      n + (line.dropWhile isspace).length = line.length := by
  cases line with
  | nil =>
    obtain ⟨rfl, rfl⟩ := List.cons.inj whole
    exact ⟨newline, 0, f, by rw [blanks.eq_def, if_pos rfl], rfl, rfl⟩
  | cons e line =>
    obtain ⟨rfl, rfl⟩ := List.cons.inj whole
    obtain ⟨here, plain⟩ := not_or.mp (mt List.mem_cons.mpr plain)
    rw [List.dropWhile_cons, if_pos blank]
    exact blanks_line (Ne.symm here) plain

/-- No blank stands at the beginning of what is left when blanks are dropped. -/
theorem head_dropWhile (whole : c :: f = line.dropWhile isspace ++ newline :: rest)
    (blank : isspace c = true) : c = newline := by
  cases left : line.dropWhile isspace with
  | nil =>
    rw [left] at whole
    exact (List.cons.inj whole).1
  | cons e line' =>
    have other := List.head_dropWhile_not isspace (l := line)
      (by rw [left]; exact List.cons_ne_nil _ _)
    simp only [left, List.head_cons] at other
    rw [left] at whole
    rw [(List.cons.inj whole).1, other] at blank
    exact absurd blank (by decide)

/-- A line that begins with a blank, or is empty, becomes what is left when its blanks are dropped,
behind one space. -/
theorem squeeze_head (whole : c :: f = line ++ newline :: rest) (blank : isspace c = true) :
    squeeze false line = if line.dropWhile isspace = [] then []
      else 32 :: squeeze false (line.dropWhile isspace) := by
  rw [← squeeze_true]
  cases line with
  | nil => rfl
  | cons e line =>
    obtain ⟨rfl, -⟩ := List.cons.inj whole
    rw [squeeze_blank blank, squeeze, if_pos blank]

/-- Nothing is left of a line only if it is blank. -/
theorem squeeze_dropWhile_ne (some : line.dropWhile isspace ≠ []) :
    squeeze false (line.dropWhile isspace) ≠ [] := by
  have other := List.head_dropWhile_not isspace some
  cases left : line.dropWhile isspace with
  | nil => exact absurd left some
  | cons e line' =>
    simp only [left, List.head_cons] at other
    rw [squeeze_cons other]
    exact List.cons_ne_nil _ _

/-- Two lines that begin with blanks are equal up to blanks if the rests are. -/
theorem squeeze_head_iff (whole : c :: f = line ++ newline :: rest)
    (whole' : d :: g = line' ++ newline :: rest') (blank : isspace c = true)
    (blank' : isspace d = true) :
    squeeze false line = squeeze false line' ↔
      squeeze false (line.dropWhile isspace) = squeeze false (line'.dropWhile isspace) := by
  rw [squeeze_head whole blank, squeeze_head whole' blank']
  by_cases none : line.dropWhile isspace = []
  · by_cases none' : line'.dropWhile isspace = []
    · simp [none, none']
    · simp [none, none', squeeze, (squeeze_dropWhile_ne none').symm]
  · by_cases none' : line'.dropWhile isspace = []
    · simp [none, none', squeeze, squeeze_dropWhile_ne none]
    · simp [none, none']

/-- Where the comparison stands after one character of each file and the blanks at that place:
lines `k` and `k'` are left, which are equal if and only if the whole lines are. -/
theorem ahead (bflag : Bool) (whole : c :: f = line ++ newline :: rest)
    (whole' : d :: g = line' ++ newline :: rest') (plain : newline ∉ line)
    (plain' : newline ∉ line') :
    ∃ c' n f' k d' m g' k',
      passBlanks (bflag && isspace c && isspace d) c f = some (c', n, f') ∧
      passBlanks (bflag && isspace c && isspace d) d g = some (d', m, g') ∧
      c' :: f' = k ++ newline :: rest ∧ d' :: g' = k' ++ newline :: rest' ∧
      n + k.length = line.length ∧ m + k'.length = line'.length ∧
      newline ∉ k ∧ newline ∉ k' ∧
      (essence bflag line = essence bflag line' ↔ essence bflag k = essence bflag k') ∧
      (bflag = true → isspace c' = true → isspace d' = true → c' = newline ∧ d' = newline) := by
  by_cases space : (bflag && isspace c && isspace d) = true
  · obtain ⟨both, blank'⟩ := Bool.and_eq_true_iff.mp space
    obtain ⟨rfl, blank⟩ := Bool.and_eq_true_iff.mp both
    obtain ⟨c', n, f', taken, left, count⟩ := passed whole plain blank
    obtain ⟨d', m, g', taken', left', count'⟩ := passed whole' plain' blank'
    refine ⟨c', n, f', _, d', m, g', _, (if_pos space).trans taken, (if_pos space).trans taken',
      left, left', count, count', fun mem => plain ((List.dropWhile_sublist _).subset mem),
      fun mem => plain' ((List.dropWhile_sublist _).subset mem), ?_, ?_⟩
    · exact squeeze_head_iff whole whole' blank blank'
    · exact fun _ here here' => ⟨head_dropWhile left here, head_dropWhile left' here'⟩
  · refine ⟨c, 0, f, line, d, 0, g, line', if_neg space, if_neg space, whole, whole',
      Nat.zero_add _, Nat.zero_add _, plain, plain', Iff.rfl, fun flag here here' => ?_⟩
    exact absurd (by rw [flag, here, here']; rfl) space

/-- A line in a file begins with some character. -/
theorem line_cons (line rest : List ℕ) : ∃ c f, c :: f = line ++ newline :: rest := by
  cases line with
  | nil => exact ⟨_, _, rfl⟩
  | cons c line => exact ⟨_, _, rfl⟩

/-- The newline ends the line. -/
theorem eq_nil_of_newline (whole : newline :: f = line ++ newline :: rest)
    (plain : newline ∉ line) : line = [] ∧ f = rest := by
  cases line with
  | nil => exact ⟨rfl, (List.cons.inj whole).2⟩
  | cons e line =>
    refine absurd ?_ plain
    rw [← (List.cons.inj whole).1]
    exact List.mem_cons_self

/-- Another character is the first of the line. -/
theorem eq_cons_of_ne (whole : c :: f = line ++ newline :: rest) (other : c ≠ newline) :
    ∃ line', line = c :: line' ∧ f = line' ++ newline :: rest := by
  cases line with
  | nil => exact absurd (List.cons.inj whole).1 other
  | cons e line =>
    obtain ⟨rfl, rfl⟩ := List.cons.inj whole
    exact ⟨line, rfl, rfl⟩

/-- Lines that begin with the same character, no blank, are equal if the rests are. -/
theorem essence_cons_iff (bflag : Bool) (other : bflag = true → isspace c = false) :
    essence bflag (c :: line) = essence bflag (c :: line') ↔
      essence bflag line = essence bflag line' := by
  cases bflag with
  | false => exact ⟨fun same => (List.cons.inj same).2, fun same => congrArg (c :: ·) same⟩
  | true =>
    show squeeze false _ = squeeze false _ ↔ squeeze false _ = squeeze false _
    rw [squeeze_cons (other rfl), squeeze_cons (other rfl)]
    exact ⟨fun same => (List.cons.inj same).2, fun same => congrArg (c :: ·) same⟩

/-- The comparison takes one line of each file and says whether the lines are equal. -/
theorem compare_line (bflag : Bool) (plain : newline ∉ line) (plain' : newline ∉ line')
    (enough : line.length < fuel) (rest rest' : List ℕ) :
    compare bflag fuel (line ++ newline :: rest) (line' ++ newline :: rest') =
      some (decide (essence bflag line = essence bflag line'), line.length + 1, line'.length + 1,
        rest, rest') := by
  induction fuel generalizing line line' with
  | zero => omega
  | succ fuel hyp =>
    obtain ⟨c, f, whole⟩ := line_cons line rest
    obtain ⟨d, g, whole'⟩ := line_cons line' rest'
    obtain ⟨c', n, f', k, d', m, g', k', taken, taken', left, left', count, count', plain, plain',
      same, blank⟩ := ahead bflag whole whole' plain plain'
    rw [← whole, ← whole', compare, taken, taken']
    simp only [Option.bind_eq_bind, Option.bind_some]
    by_cases heads : c' = d'
    · subst heads
      rw [if_neg (not_not.mpr rfl)]
      by_cases stop : c' = newline
      · subst stop
        obtain ⟨rfl, rfl⟩ := eq_nil_of_newline left plain
        obtain ⟨rfl, rfl⟩ := eq_nil_of_newline left' plain'
        rw [List.length_nil, Nat.add_zero] at count count'
        rw [if_pos rfl, decide_eq_true (same.mpr rfl), Nat.add_comm 1, Nat.add_comm 1, count,
          count']
      · obtain ⟨k, rfl, rfl⟩ := eq_cons_of_ne left stop
        obtain ⟨k', rfl, rfl⟩ := eq_cons_of_ne left' stop
        rw [List.length_cons] at count count'
        have other : bflag = true → isspace c' = false := fun flag =>
          Bool.eq_false_iff.mpr fun here => stop (blank flag here here).1
        rw [if_neg stop, hyp (mt (List.mem_cons_of_mem _) plain)
          (mt (List.mem_cons_of_mem _) plain') (by omega), Option.bind_some]
        simp only [same, essence_cons_iff bflag other]
        rw [show 1 + n + (k.length + 1) = line.length + 1 by omega,
          show 1 + m + (k'.length + 1) = line'.length + 1 by omega]
    · have differ := essence_ne heads left left' blank
      rw [if_pos heads, passLine_line left plain, passLine_line left' plain']
      simp only [Option.bind_some]
      rw [decide_eq_false (mt same.mp differ),
        show 1 + n + k.length = line.length + 1 by omega,
        show 1 + m + k'.length = line'.length + 1 by omega]

/-! ## The loop over the lines -/

/-- `J` pairs lines of the first file, of `m`, with lines of the second, of `n`, in order. -/
structure Pairs (m n : ℕ) (J : ℕ → ℕ) : Prop where
  inside : ∀ i, 1 ≤ i → i ≤ m → J i ≤ n
  rising : ∀ i j, 1 ≤ i → i < j → j ≤ m → J i ≠ 0 → J j ≠ 0 → J i < J j

/-- Where line `i` of the first file and line `j` of the second are equal. -/
def Equal (bflag : Bool) (old new : List (List ℕ)) (i j : ℕ) : Prop :=
  essence bflag (old.getD (i - 1) []) = essence bflag (new.getD (j - 1) [])

instance : Decidable (Equal bflag old new i j) := inferInstanceAs (Decidable (_ = _))

/-- The pairs that are left. -/
def kept (bflag : Bool) (old new : List (List ℕ)) (J : ℕ → ℕ) (i : ℕ) : ℕ :=
  if Equal bflag old new i (J i) then J i else 0

/-- The place in a file where its line `i` ends. -/
def lineEnd (lines : List (List ℕ)) (i : ℕ) : ℕ := (text (lines.take i)).length

variable {old new : List (List ℕ)} {J : ℕ → ℕ} {s : Reading} {i n : ℕ}

/-- The file from line `i` on. -/
theorem text_drop {lines : List (List ℕ)} (inside : i < lines.length) :
    text (lines.drop i) = lines.getD i [] ++ newline :: text (lines.drop (i + 1)) := by
  rw [List.drop_eq_getElem_cons inside, text_cons, List.getD_eq_getElem _ _ inside]

theorem lineEnd_succ {lines : List (List ℕ)} (inside : i < lines.length) :
    lineEnd lines (i + 1) = lineEnd lines i + ((lines.getD i []).length + 1) := by
  rw [lineEnd, lineEnd, List.take_add_one, List.getElem?_eq_getElem inside, Option.toList_some,
    text_append, text_cons, List.length_append, List.length_append, List.getD_eq_getElem _ _ inside]
  rfl

theorem plain_getD {lines : List (List ℕ)} (plain : ∀ line ∈ lines, newline ∉ line) (i : ℕ) :
    newline ∉ lines.getD i [] := by
  rw [List.getD_eq_getElem?_getD]
  cases here : lines[i]? with
  | none => exact List.not_mem_nil
  | some line => exact plain line (List.mem_of_getElem? here)

/-- The first file has been read up to line `i`. -/
structure OldRead (old : List (List ℕ)) (i : ℕ) (s : Reading) : Prop where
  left : s.old = text (old.drop i)
  count : s.ctold = lineEnd old i
  places : ∀ x ≤ i, s.ixold x = lineEnd old x

/-- The second file has been read up to line `j`. -/
structure NewRead (new : List (List ℕ)) (s : Reading) : Prop where
  low : 1 ≤ s.j
  high : s.j ≤ new.length + 1
  left : s.new = text (new.drop (s.j - 1))
  count : s.ctnew = lineEnd new (s.j - 1)
  places : ∀ y < s.j, s.ixnew y = lineEnd new y

/-- One line of the first file is read. -/
theorem OldRead.next (read : OldRead old i s) (inside : i < old.length) {g : List ℕ} {j k : ℕ}
    {J ixnew : ℕ → ℕ} :
    OldRead old (i + 1)
      { new := g, ctnew := k, j, J, ixnew
        old := text (old.drop (i + 1))
        ctold := s.ctold + ((old.getD i []).length + 1)
        ixold := update s.ixold (i + 1) (s.ctold + ((old.getD i []).length + 1)) } where
  left := rfl
  count := by rw [lineEnd_succ inside, ← read.count]
  places := by
    intro x most
    show update s.ixold (i + 1) _ x = _
    rcases Nat.lt_or_eq_of_le most with less | rfl
    · rw [update_of_ne (Nat.ne_of_lt less), read.places x (Nat.le_of_lt_succ less)]
    · rw [update_self, lineEnd_succ inside, ← read.count]

/-- A line of the first file is passed. -/
theorem OldRead.pass (read : OldRead old i s) (plain : ∀ line ∈ old, newline ∉ line)
    (inside : i < old.length) :
    ∃ s', s.passOld (i + 1) = some s' ∧ OldRead old (i + 1) s' ∧
      s' = { s with old := s'.old, ctold := s'.ctold, ixold := s'.ixold } := by
  have taken := skipline_line (plain_getD plain i) (text (old.drop (i + 1)))
  rw [← text_drop inside, ← read.left] at taken
  rw [Reading.passOld, taken]
  exact ⟨_, rfl, read.next inside, rfl⟩

/-- The place of the next line in the second file. -/
theorem NewRead.places_update (read : NewRead new s) (inside : s.j ≤ new.length) {k : ℕ}
    (size : k = (new.getD (s.j - 1) []).length + 1) :
    ∀ y < s.j + 1, update s.ixnew s.j (s.ctnew + k) y = lineEnd new y := by
  intro y less
  rcases Nat.lt_or_eq_of_le (Nat.le_of_lt_succ less) with less | rfl
  · rw [update_of_ne (Nat.ne_of_lt less), read.places y less]
  · have here := lineEnd_succ (by have := read.low; omega : s.j - 1 < new.length)
    rw [Nat.sub_add_cancel read.low] at here
    rw [update_self, here, size, read.count]

/-- One line of the second file is passed. -/
theorem NewRead.next (read : NewRead new s) (inside : s.j ≤ new.length) {f : List ℕ} {k : ℕ}
    {J ixold : ℕ → ℕ} :
    NewRead new
      { old := f, ctold := k, J, ixold
        new := text (new.drop (s.j - 1 + 1))
        ctnew := s.ctnew + ((new.getD (s.j - 1) []).length + 1)
        ixnew := update s.ixnew s.j (s.ctnew + ((new.getD (s.j - 1) []).length + 1))
        j := s.j + 1 } where
  low := Nat.le_add_left 1 s.j
  high := Nat.succ_le_succ inside
  left := by
    show text (new.drop (s.j - 1 + 1)) = text (new.drop (s.j + 1 - 1))
    rw [Nat.add_sub_cancel, Nat.sub_add_cancel read.low]
  count := by
    have here : s.j - 1 < new.length := by have := read.low; omega
    show s.ctnew + _ = lineEnd new (s.j + 1 - 1)
    rw [read.count, ← lineEnd_succ here, Nat.sub_add_cancel read.low, Nat.add_sub_cancel]
  places := read.places_update inside rfl

/-- Lines of the second file are passed. -/
theorem NewRead.pass (read : NewRead new s) (plain : ∀ line ∈ new, newline ∉ line)
    (inside : s.j + n ≤ new.length + 1) :
    ∃ s', s.passNew n = some s' ∧ NewRead new s' ∧ s'.j = s.j + n ∧
      s' = { s with new := s'.new, ctnew := s'.ctnew, ixnew := s'.ixnew, j := s'.j } := by
  induction n generalizing s with
  | zero => exact ⟨s, rfl, read, rfl, rfl⟩
  | succ n hyp =>
    have low := read.low
    have here : s.j - 1 < new.length := by omega
    have taken := skipline_line (plain_getD plain (s.j - 1))
      (text (new.drop (s.j - 1 + 1)))
    rw [← text_drop here, ← read.left] at taken
    rw [Reading.passNew, taken]
    have next : NewRead new
        { s with
          new := text (new.drop (s.j - 1 + 1))
          ctnew := s.ctnew + ((new.getD (s.j - 1) []).length + 1)
          ixnew := update s.ixnew s.j (s.ctnew + ((new.getD (s.j - 1) []).length + 1))
          j := s.j + 1 } :=
      read.next (by omega)
    obtain ⟨s', passed, read', count, same⟩ :=
      hyp next (show s.j + 1 + n ≤ new.length + 1 by omega)
    refine ⟨s', passed, read', ?_, ?_⟩
    · rw [count]
      exact Nat.succ_add_eq_add_succ s.j n
    · rw [same]

/-- What has been read of the files when the lines of the first up to `i` have been looked at, and
what has become of `J`. -/
structure Checked (bflag : Bool) (old new : List (List ℕ)) (J : ℕ → ℕ) (i : ℕ) (s : Reading) :
    Prop where
  oldRead : OldRead old i s
  newRead : NewRead new s
  done : ∀ x, 1 ≤ x → x ≤ i → s.J x = kept bflag old new J x
  todo : ∀ x, i < x → s.J x = J x
  ahead : ∀ x, i < x → x ≤ old.length → J x ≠ 0 → s.j ≤ J x

theorem kept_of_zero (none : J i = 0) : kept bflag old new J i = 0 := by
  rw [kept, none]
  split <;> rfl

/-- One pair is looked at. -/
theorem Checked.pair (checked : Checked bflag old new J i s) (pairs : Pairs old.length new.length J)
    (plain : ∀ line ∈ old, newline ∉ line) (plain' : ∀ line ∈ new, newline ∉ line)
    (inside : i < old.length) (here : s.j = J (i + 1)) :
    ∃ s', s.pair bflag (i + 1) = some s' ∧ Checked bflag old new J (i + 1) s' := by
  have low := checked.newRead.low
  have high := pairs.inside (i + 1) (Nat.le_add_left 1 i) inside
  have inside' : s.j - 1 < new.length := by omega
  have taken := compare_line bflag (plain_getD plain i) (plain_getD plain' (s.j - 1))
    (by
      rw [checked.oldRead.left, text_drop inside, List.length_append]
      omega : (old.getD i []).length < s.old.length + 1)
    (text (old.drop (i + 1))) (text (new.drop (s.j - 1 + 1)))
  rw [← text_drop inside, ← text_drop inside', ← checked.oldRead.left,
    ← checked.newRead.left] at taken
  have same : essence bflag (old.getD i []) = essence bflag (new.getD (s.j - 1) []) ↔
      Equal bflag old new (i + 1) (J (i + 1)) := by rw [Equal, here, Nat.add_sub_cancel]
  simp only [same] at taken
  rw [Reading.pair, taken]
  refine ⟨_, rfl, checked.oldRead.next inside, checked.newRead.next (by omega), ?_, ?_, ?_⟩
  · intro x one most
    rcases Nat.lt_or_eq_of_le most with less | rfl
    · rw [← checked.done x one (Nat.le_of_lt_succ less)]
      show (if _ then s.J else update s.J (i + 1) 0) x = s.J x
      split
      · rfl
      · exact update_of_ne (Nat.ne_of_lt less) _ _
    · show (if _ then s.J else update s.J (i + 1) 0) (i + 1) = _
      rw [kept]
      by_cases equal : Equal bflag old new (i + 1) (J (i + 1))
      · rw [if_pos equal, decide_eq_true equal, if_pos rfl, checked.todo _ (Nat.lt_succ_self i)]
      · rw [if_neg equal, decide_eq_false equal, if_neg (by decide), update_self]
  · intro x more
    rw [← checked.todo x (Nat.lt_of_succ_lt more)]
    show (if _ then s.J else update s.J (i + 1) 0) x = s.J x
    split
    · rfl
    · exact update_of_ne (Nat.ne_of_gt more) _ _
  · intro x more most some
    have rising := pairs.rising (i + 1) x (Nat.le_add_left 1 i) more most (by omega) some
    show s.j + 1 ≤ J x
    omega

/-- One line of the first file is looked at. -/
theorem Checked.step (checked : Checked bflag old new J i s) (pairs : Pairs old.length new.length J)
    (plain : ∀ line ∈ old, newline ∉ line) (plain' : ∀ line ∈ new, newline ∉ line)
    (inside : i < old.length) :
    ∃ s', s.line bflag (i + 1) = some s' ∧ Checked bflag old new J (i + 1) s' := by
  have here := checked.todo (i + 1) (Nat.lt_succ_self i)
  rw [Reading.line, here]
  by_cases none : J (i + 1) = 0
  · obtain ⟨s', passed, read, same⟩ := checked.oldRead.pass plain inside
    rw [if_pos none]
    refine ⟨s', passed, read, ?_, ?_, ?_, ?_⟩
    · rw [same]
      exact ⟨checked.newRead.low, checked.newRead.high, checked.newRead.left,
        checked.newRead.count, checked.newRead.places⟩
    · intro x one most
      rw [same]
      rcases Nat.lt_or_eq_of_le most with less | rfl
      · exact checked.done x one (Nat.le_of_lt_succ less)
      · exact here.trans (none.trans (kept_of_zero none).symm)
    · intro x more
      rw [same]
      exact checked.todo x (Nat.lt_of_succ_lt more)
    · intro x more most some
      rw [same]
      exact checked.ahead x (Nat.lt_of_succ_lt more) most some
  · have behind := checked.ahead (i + 1) (Nat.lt_succ_self i) inside none
    have high := pairs.inside (i + 1) (Nat.le_add_left 1 i) inside
    obtain ⟨s', passed, read, count, same⟩ :=
      checked.newRead.pass (n := J (i + 1) - s.j) plain' (by omega)
    have caught : Checked bflag old new J i s' := by
      refine ⟨?_, read, ?_, ?_, ?_⟩
      · rw [same]
        exact ⟨checked.oldRead.left, checked.oldRead.count, checked.oldRead.places⟩
      · rw [same]
        exact checked.done
      · rw [same]
        exact checked.todo
      · intro x more most some
        rcases Nat.lt_or_eq_of_le (Nat.succ_le_of_lt more) with later | rfl
        · have := pairs.rising (i + 1) x (Nat.le_add_left 1 i) later most none some
          omega
        · show s'.j ≤ J (i + 1)
          omega
    rw [if_neg none, passed]
    exact caught.pair pairs plain plain' inside (by omega)

/-- The lines from one on are looked at. -/
theorem Checked.run (checked : Checked bflag old new J i s)
    (pairs : Pairs old.length new.length J) (plain : ∀ line ∈ old, newline ∉ line)
    (plain' : ∀ line ∈ new, newline ∉ line) (inside : i + n = old.length) :
    ∃ s', s.lines bflag n (i + 1) = some s' ∧ Checked bflag old new J old.length s' := by
  induction n generalizing i s with
  | zero => exact ⟨s, rfl, inside ▸ checked⟩
  | succ n hyp =>
    obtain ⟨s', looked, checked'⟩ := checked.step pairs plain plain' (by omega)
    obtain ⟨s'', rest, checked''⟩ := hyp checked' (by omega)
    exact ⟨s'', by rw [Reading.lines, looked]; exact rest, checked''⟩

/-- `check` leaves the pairs of equal lines and writes down the ends of all lines. -/
theorem check_spec (pairs : Pairs old.length new.length J) (plain : ∀ line ∈ old, newline ∉ line)
    (plain' : ∀ line ∈ new, newline ∉ line) :
    ∃ s, check bflag (text old) (text new) old.length new.length J = some s ∧
      (∀ i, 1 ≤ i → i ≤ old.length → s.J i = kept bflag old new J i) ∧
      (∀ i, old.length < i → s.J i = J i) ∧
      (∀ i ≤ old.length, s.ixold i = lineEnd old i) ∧
      ∀ j ≤ new.length, s.ixnew j = lineEnd new j := by
  have begun : Checked bflag old new J 0
      { old := text old, new := text new, ctold := 0, ctnew := 0, j := 1, J
        ixold := fun _ => 0, ixnew := fun _ => 0 } := by
    refine ⟨⟨rfl, rfl, fun x most => ?_⟩,
      ⟨Nat.le_refl 1, Nat.le_add_left 1 _, rfl, rfl, fun y less => ?_⟩,
      fun x one none => by omega, fun x more => rfl, fun x more most some => by
        show 1 ≤ J x
        omega⟩
    · rw [Nat.le_zero.mp most]
      rfl
    · rw [Nat.lt_one_iff.mp less]
      rfl
  obtain ⟨s, looked, checked⟩ := begun.run pairs plain plain' (Nat.zero_add _)
  have high := checked.newRead.high
  obtain ⟨s', passed, read, count, same⟩ :=
    checked.newRead.pass (n := new.length + 1 - s.j) plain' (by omega)
  refine ⟨s', by rw [check, looked]; exact passed, ?_, ?_, ?_, ?_⟩
  · rw [same]
    exact checked.done
  · rw [same]
    exact checked.todo
  · rw [same]
    exact checked.oldRead.places
  · exact fun j most => read.places j (by omega)

end Diff

end UnixV7
