import UnixV7.Cmd.Diff3.Found

/-!
# What the script makes of file 1

The editor is modelled as far as the commands that `edscript` writes go; what it does with any other
line is left open. A line of text goes into the buffer as it is, while `getchr` masks its bytes with
0177 and `gettty` drops nulls and gives up at `LBSIZE-2` of them. The regions are printed from the
last to the first, so that a command finds the lines before it as they are in file 1.
-/

namespace UnixV7.Diff3

open Function Fuel Lines Touching

/-- The buffer of the editor, the current line, and whether lines are taken as text. -/
structure Ed where
  lines : List (List Char)
  dot : ℕ
  input : Bool

inductive Command
  | a (addr : ℕ)
  | c (addr1 addr2 : ℕ)

/-- The number at the beginning of a line. -/
def number (line : List Char) : Option (ℕ × List Char) :=
  if line.takeWhile Char.isDigit = [] then none
  else some (Nat.ofDigitChars 10 (line.takeWhile Char.isDigit) 0, line.dropWhile Char.isDigit)

/-- The commands with numbers for addresses that open the text of a range. -/
def command (line : List Char) : Option Command :=
  match number line with
  | some (n, ['a']) => some (.a n)
  | some (n, ['c']) => some (.c n n)
  | some (n, ',' :: rest) =>
      match number rest with
      | some (m, ['c']) => some (.c n m)
      | _ => none
  | _ => none

namespace Ed

/-- A line of text, behind the current line. -/
def insert (ed : Ed) (line : List Char) : Ed where
  lines := ed.lines.take ed.dot ++ line :: ed.lines.drop ed.dot
  dot := ed.dot + 1
  input := true

/-- One line of a script. A wrong address is answered by a question mark. -/
def step (other : List Char → Ed → Ed) (ed : Ed) (line : List Char) : Ed :=
  if ed.input then
    if line = ['.'] then { ed with input := false } else ed.insert line
  else
    match command line with
    | some (.a n) => if n ≤ ed.lines.length then { ed with dot := n, input := true } else ed
    | some (.c n m) =>
        if 1 ≤ n ∧ n ≤ m ∧ m ≤ ed.lines.length then
          ⟨ed.lines.take (n - 1) ++ ed.lines.drop m, n - 1, true⟩
        else ed
    | none => other line ed

/-- The editor with a file and a script. -/
def run (other : List Char → Ed → Ed) (script : List Char) (file : List (List Char)) : Ed :=
  (split '\n' [] script).foldl (step other) ⟨file, file.length, false⟩

end Ed

/-- File 1 from the line behind `n` on, with the lines of file 3 in the regions. -/
def replaced (one three : List (List Char)) : ℕ → List Region → List (List Char)
  | n, [] => one.drop n
  | n, r :: rs =>
      (one.drop n).take (r.one.start - 1 - n) ++ slice three r.three ++
        replaced one three (r.one.stop - 1) rs

variable {other : List Char → Ed → Ed} {one three text : List (List Char)} {r : Range} {d : Diff}
  {m n dot : ℕ} {rs : List Region} {lines : Which → List (List Char)} {d13 d23 : List Diff}
  {flag : Flag}

/-! ## Commands -/

/-- The line of a command. -/
def header (r : Range) : List Char :=
  if r.stop ≤ r.start then decimal (r.start - 1) ++ ['a']
  else
    decimal r.start ++ (if r.start + 1 < r.stop then ',' :: decimal (r.stop - 1) else []) ++ ['c']

/-- The lines that are printed for a change. -/
def scriptLines (three : List (List Char)) (d : Diff) : List (List Char) :=
  header d.old :: (slice three d.new ++ [['.']])

theorem prange_eq (r : Range) : prange r = header r ++ ['\n'] := by
  rw [prange, header]
  split
  · rw [List.append_assoc]
    rfl
  · rw [List.append_assoc, List.append_assoc, List.append_assoc]
    rfl

theorem printed_eq (three : List (List Char)) (d : Diff) :
    printed three d = unlines '\n' (scriptLines three d) := by
  rw [printed, scriptLines, unlines_cons, unlines_append, prange_eq, List.append_assoc,
    List.append_assoc]
  rfl

theorem newline_notMem_decimal (n : ℕ) : '\n' ∉ decimal n := by
  intro mem
  have digit := Nat.isDigit_of_mem_toDigits (by decide) (by decide) mem
  exact absurd digit (by decide)

theorem newline_notMem_header (r : Range) : '\n' ∉ header r := by
  rw [header]
  split
  · simp [newline_notMem_decimal]
  · split <;> simp [newline_notMem_decimal]

theorem plain_scriptLines (plain : Plain three) (d : Diff) : Plain (scriptLines three d) := by
  refine List.forall_mem_cons.mpr ⟨newline_notMem_header d.old, fun line mem => ?_⟩
  obtain mem | mem := List.mem_append.mp mem
  · exact plain line (List.mem_of_mem_drop (List.mem_of_mem_take mem))
  · obtain rfl := List.mem_singleton.mp mem
    decide

/-- A number is read as it was written. -/
theorem number_decimal (n : ℕ) {c : Char} (other : c.isDigit = false) (rest : List Char) :
    number (decimal n ++ c :: rest) = some (n, c :: rest) := by
  have digits : ∀ c ∈ decimal n, c.isDigit = true := fun c mem =>
    Nat.isDigit_of_mem_toDigits (by decide) (by decide) mem
  have taken : (decimal n ++ c :: rest).takeWhile Char.isDigit = decimal n := by
    rw [List.takeWhile_append_of_pos digits, List.takeWhile_cons_of_neg (by simp [other]),
      List.append_nil]
  have left : (decimal n ++ c :: rest).dropWhile Char.isDigit = c :: rest := by
    rw [List.dropWhile_append_of_pos digits, List.dropWhile_cons_of_neg (by simp [other])]
  have some : decimal n ≠ [] := Nat.toDigits_ne_nil
  rw [number, taken, left, if_neg some, decimal, Nat.ofDigitChars_toDigits (by decide) (by decide)]

/-- The command of a range opens the text at its place. -/
theorem command_header (low : 0 < r.start) :
    command (header r) =
      some (if r.stop ≤ r.start then .a (r.start - 1) else .c r.start (r.stop - 1)) := by
  have a := number_decimal (r.start - 1) (c := 'a') (by decide) []
  have c := number_decimal r.start (c := 'c') (by decide) []
  have c' := number_decimal (r.stop - 1) (c := 'c') (by decide) []
  have comma := number_decimal r.start (c := ',') (by decide) (decimal (r.stop - 1) ++ ['c'])
  by_cases empty : r.stop ≤ r.start
  · rw [header, if_pos empty, command, a, if_pos empty]
    rfl
  · rw [header, if_neg empty, if_neg empty]
    by_cases more : r.start + 1 < r.stop
    · rw [if_pos more, List.append_assoc, List.cons_append, command, comma]
      show (match number (decimal (r.stop - 1) ++ ['c']) with
        | some (m, ['c']) => some (Command.c r.start m)
        | _ => none) = _
      rw [c']
      rfl
    · have last : r.stop - 1 = r.start := by omega
      rw [if_neg more, List.append_nil, command, c, last]
      rfl

/-! ## One region -/

theorem foldl_insert (none : ['.'] ∉ text) (inside : dot ≤ one.length) :
    text.foldl (Ed.step other) ⟨one, dot, true⟩ =
      ⟨one.take dot ++ text ++ one.drop dot, dot + text.length, true⟩ := by
  induction text generalizing one dot with
  | nil => rw [List.append_nil, List.take_append_drop]; rfl
  | cons line text ih =>
      obtain ⟨first, others⟩ := not_or.mp (List.mem_cons.not.mp none)
      have size : (one.take dot).length = dot := List.length_take_of_le inside
      have step : Ed.step other ⟨one, dot, true⟩ line =
          ⟨one.take dot ++ line :: one.drop dot, dot + 1, true⟩ := by
        rw [Ed.step, if_pos rfl, if_neg (Ne.symm first)]
        rfl
      have split :
          one.take dot ++ line :: one.drop dot = one.take dot ++ [line] ++ one.drop dot := by
        rw [List.append_assoc]
        rfl
      have length : (one.take dot ++ [line]).length = dot + 1 := by
        rw [List.length_append, size]
        rfl
      rw [List.foldl_cons, step, ih others (by rw [split, List.length_append, length]; omega),
        split, List.take_left' length, List.drop_left' length, List.length_cons, List.append_assoc,
        List.append_assoc, List.append_assoc, Ed.mk.injEq]
      exact ⟨rfl, by omega, rfl⟩

/-- The lines of a command put the lines of file 3 in the place of a range. -/
theorem foldl_scriptLines (other : List Char → Ed → Ed) (one : List (List Char)) (dot : ℕ)
    (low : 0 < d.old.start) (order : d.old.start ≤ d.old.stop)
    (high : d.old.stop ≤ one.length + 1) (none : ['.'] ∉ slice three d.new) :
    ∃ dot', (scriptLines three d).foldl (Ed.step other) ⟨one, dot, false⟩ =
      ⟨one.take (d.old.start - 1) ++ slice three d.new ++ one.drop (d.old.stop - 1),
        dot', false⟩ := by
  obtain ⟨before, begun, inside, head, tail⟩ : ∃ before : List (List Char),
      Ed.step other ⟨one, dot, false⟩ (header d.old) = ⟨before, d.old.start - 1, true⟩ ∧
        d.old.start - 1 ≤ before.length ∧
        before.take (d.old.start - 1) = one.take (d.old.start - 1) ∧
        before.drop (d.old.start - 1) = one.drop (d.old.stop - 1) := by
    rw [Ed.step, if_neg Bool.false_ne_true, command_header low]
    by_cases empty : d.old.stop ≤ d.old.start
    · have same : d.old.stop = d.old.start := by omega
      have inside : d.old.start - 1 ≤ one.length := by omega
      rw [if_pos empty]
      exact ⟨one, if_pos inside, inside, rfl, by rw [same]⟩
    · have size : (one.take (d.old.start - 1)).length = d.old.start - 1 :=
        List.length_take_of_le (by omega)
      rw [if_neg empty]
      refine ⟨_, if_pos (by dsimp only; omega), ?_, List.take_left' size, List.drop_left' size⟩
      rw [List.length_append, size]
      exact Nat.le_add_right _ _
  refine ⟨d.old.start - 1 + (slice three d.new).length, ?_⟩
  rw [scriptLines, List.foldl_cons, begun, List.foldl_append, foldl_insert none inside, head, tail,
    List.foldl_cons, List.foldl_nil, Ed.step, if_pos rfl, if_pos rfl]

/-! ## All regions -/

theorem replaced_skip (rs : List Region) (le : m ≤ n) (ahead : ∀ r ∈ rs, n < r.one.start) :
    replaced one three m rs = (one.drop m).take (n - m) ++ replaced one three n rs := by
  have cut : ∀ l, (one.drop m).take (n - m) ++ (one.drop n).take l =
      (one.drop m).take (n - m + l) := by
    intro l
    rw [List.take_add, List.drop_drop, Nat.add_sub_cancel' le]
  cases rs with
  | nil =>
      have rest : one.drop n = (one.drop m).drop (n - m) := by
        rw [List.drop_drop, Nat.add_sub_cancel' le]
      rw [replaced, replaced, rest, List.take_append_drop]
  | cons r rs =>
      have first := ahead r List.mem_cons_self
      rw [replaced, replaced, ← List.append_assoc, ← List.append_assoc, cut,
        show n - m + (r.one.start - 1 - n) = r.one.start - 1 - m by omega]

/-- The script puts all regions in place. -/
theorem foldl_regions (other : List Char → Ed → Ed) (rs : List Region)
    (apart : rs.Pairwise fun r s => r.three.stop < s.three.start ∧ r.one.stop ≤ s.one.start)
    (inside : ∀ r ∈ rs, r.Inside lines) (none : ∀ r ∈ rs, ['.'] ∉ slice (lines .three) r.three)
    (dot : ℕ) :
    ∃ dot', ((rs.map Region.diff).reverse.flatMap
      (scriptLines (lines .three))).foldl (Ed.step other)
      ⟨lines .one, dot, false⟩ = ⟨replaced (lines .one) (lines .three) 0 rs, dot', false⟩ := by
  induction rs generalizing dot with
  | nil => exact ⟨dot, rfl⟩
  | cons r rs ih =>
      obtain ⟨later, apart⟩ := List.pairwise_cons.mp apart
      obtain ⟨first, inside⟩ := List.forall_mem_cons.mp inside
      obtain ⟨plain, none⟩ := List.forall_mem_cons.mp none
      obtain ⟨middle, done⟩ := ih apart inside none dot
      have low : 0 < r.one.start := first.old_low
      have order : r.one.start ≤ r.one.stop := first.old_order
      have high : r.one.stop ≤ (lines .one).length + 1 := first.old_high
      have ahead : ∀ s ∈ rs, r.one.stop - 1 < s.one.start := by
        intro s mem
        have next := (later s mem).2
        omega
      have size : ((lines .one).take (r.one.stop - 1)).length = r.one.stop - 1 :=
        List.length_take_of_le (by omega)
      have shape : replaced (lines .one) (lines .three) 0 rs =
          (lines .one).take (r.one.stop - 1) ++
            replaced (lines .one) (lines .three) (r.one.stop - 1) rs := by
        rw [replaced_skip rs (Nat.zero_le _) ahead, List.drop_zero, Nat.sub_zero]
      obtain ⟨dot', put⟩ := foldl_scriptLines (d := r.diff) other
        (replaced (lines .one) (lines .three) 0 rs) middle low order
        (by rw [shape, List.length_append, size]; show r.one.stop ≤ _; omega) plain
      refine ⟨dot', ?_⟩
      rw [List.map_cons, List.reverse_cons, List.flatMap_append, List.flatMap_singleton,
        List.foldl_append, done, put, replaced, List.drop_zero, Nat.sub_zero]
      have head : (replaced (lines .one) (lines .three) 0 rs).take (r.one.start - 1) =
          (lines .one).take (r.one.start - 1) := by
        rw [shape, List.take_append_of_le_length (by omega), List.take_take,
          Nat.min_eq_left (by omega)]
      have tail : (replaced (lines .one) (lines .three) 0 rs).drop (r.one.stop - 1) =
          replaced (lines .one) (lines .three) (r.one.stop - 1) rs := by
        rw [shape, List.drop_left' size]
      show Ed.mk ((replaced (lines .one) (lines .three) 0 rs).take (r.one.start - 1) ++
        slice (lines .three) r.three ++ (replaced (lines .one) (lines .three) 0 rs).drop
          (r.one.stop - 1)) _ _ = _
      rw [head, tail]

/-! ## The script -/

/-- The regions that the option asks for, in their order. -/
structure Merged (flag : Flag) (lines : Which → List (List Char)) (d13 d23 : List Diff)
    (rs : List Region) : Prop where
  mem : ∀ r, r ∈ rs ↔ Wanted flag lines r ∧ ∃ x ∈ d13, IsRegion d13 d23 x r
  apart : rs.Pairwise fun r s => r.three.stop < s.three.start

/-- What `diff3` prints. -/
theorem diff3_settles (plain : ∀ i, Plain (lines i))
    (listed₁ : Listed (lines .one) (lines .three) d13)
    (listed₂ : Listed (lines .two) (lines .three) d23) (flag : Flag) :
    ∃ rs, Found flag lines d13 d23 [] d13 1 rs ∧
      Settles (diff3 flag d13 d23 fun i => unlines '\n' (lines i))
        (unlines '\n' ((rs.map Region.diff).reverse.flatMap (scriptLines (lines .three)))) := by
  obtain ⟨rs, k', found, bound, settled⟩ := merge_spec plain listed₁ listed₂ flag
  have inside : ∀ d ∈ (rs.map Region.diff).reverse, 0 < d.new.start ∧ d.new.start ≤ d.new.stop ∧
      d.new.stop ≤ (lines .three).length + 1 := by
    intro d mem
    obtain ⟨r, member, rfl⟩ := List.mem_map.mp (List.mem_reverse.mp mem)
    have inside := found.inside r member
    exact ⟨inside.new_low, inside.new_order, inside.new_high⟩
  have texts : (printed (lines .three)) = fun d => unlines '\n' (scriptLines (lines .three) d) :=
    funext (printed_eq (lines .three))
  refine ⟨rs, found, bound, fun fuel enough => ?_⟩
  have merged : merge flag fuel d13 d23 [] (stand lines fun _ => 0) = _ := settled fuel enough
  rw [diff3, opened_eq, merged]
  simp only [bind, Except.bind]
  rw [stand, edscript_entries (lines .three) _ inside, texts, unlines, List.flatMap_assoc]
  rfl

/-- As long as no line that is taken from file 3 is a period, the script makes of file 1 the file
with the regions that are asked for replaced, whatever the editor does with other commands. -/
theorem script_merges (flag : Flag) (lines : Which → List (List Char))
    (plain : ∀ i, Plain (lines i))
    (d13 d23 : List Diff) (correct : Correct (lines .one) (lines .three) 1 1 d13)
    (correct' : Correct (lines .two) (lines .three) 1 1 d23) (few : d13.length ≤ NC)
    (_few' : d23.length ≤ NC)
    (none : ∀ r, Wanted flag lines r → (∃ x ∈ d13, IsRegion d13 d23 x r) →
      ['.'] ∉ slice (lines .three) r.three) :
    ∃ rs script, Merged flag lines d13 d23 rs ∧ rs.length ≤ NC ∧
      Settles (diff3 flag d13 d23 fun i => unlines '\n' (lines i)) script ∧
      ∀ other, (Ed.run other script (lines .one)).lines =
        replaced (lines .one) (lines .three) 0 rs := by
  obtain ⟨rs, found, settled⟩ := diff3_settles plain correct.listed correct'.listed flag
  refine ⟨rs, _, ⟨found.mem, found.apart.imp And.left⟩, found.few.trans few, settled,
    fun other => ?_⟩
  have lines_plain : Plain ((rs.map Region.diff).reverse.flatMap (scriptLines (lines .three))) := by
    intro line mem
    obtain ⟨d, -, mem⟩ := List.mem_flatMap.mp mem
    exact plain_scriptLines (plain .three) d line mem
  have clear : ∀ r ∈ rs, ['.'] ∉ slice (lines .three) r.three := fun r mem =>
    none r ((found.mem r).mp mem).1 ((found.mem r).mp mem).2
  obtain ⟨dot', done⟩ := foldl_regions other rs found.apart found.inside clear
    (lines .one).length
  rw [Ed.run, split_unlines lines_plain, done]

/-- The change of a file of one line. -/
def changed : Diff := ⟨⟨1, 2⟩, ⟨1, 2⟩⟩

/-- Files 1 and 2 have the line `a`. -/
def alike (line : List Char) : Which → List (List Char)
  | .one => [['a']]
  | .two => [['a']]
  | .three => [line]

theorem correct_changed (line : List Char) : Correct [['a']] [line] 1 1 [changed] :=
  .cons le_rfl le_rfl rfl (by decide) (by decide) le_rfl le_rfl (by simp) (.none rfl)

theorem plain_alike {line : List Char} (free : '\n' ∉ line) (i : Which) : Plain (alike line i) := by
  match i with
  | .one => exact List.forall_mem_singleton.mpr (by decide)
  | .two => exact List.forall_mem_singleton.mpr (by decide)
  | .three => exact List.forall_mem_singleton.mpr free

/-- A line changed in file 3. -/
theorem script_merges_letter : ∃ rs script, Merged .three (alike ['b']) [changed] [changed] rs ∧
    rs.length ≤ NC ∧
    Settles (diff3 .three [changed] [changed] fun i => unlines '\n' (alike ['b'] i)) script ∧
    ∀ other, (Ed.run other script [['a']]).lines = replaced [['a']] [['b']] 0 rs :=
  script_merges .three (alike ['b']) (plain_alike (by decide)) [changed] [changed]
    (correct_changed _) (correct_changed _) (by decide) (by decide) fun _ _ _ mem =>
      absurd (List.mem_of_mem_drop (List.mem_of_mem_take mem)) (by decide)

theorem mem_replaced {line : List Char} {s : Region} (mem : s ∈ rs)
    (inner : line ∈ slice three s.three) (n : ℕ) : line ∈ replaced one three n rs := by
  induction rs generalizing n with
  | nil => exact absurd mem List.not_mem_nil
  | cons r rs ih =>
      rw [replaced]
      obtain rfl | mem := List.mem_cons.mp mem
      · exact List.mem_append_left _ (List.mem_append_right _ inner)
      · exact List.mem_append_right _ (ih mem _)

theorem isRegion_changed : IsRegion [changed] [changed] changed ⟨⟨1, 2⟩, ⟨1, 2⟩, ⟨1, 2⟩⟩ where
  both := ⟨changed, List.mem_singleton_self _, .refl⟩
  three := by
    refine .of_closed (· = changed) ?_ ?_ rfl ?_ ⟨changed, rfl, rfl⟩ ⟨changed, rfl, rfl⟩
    · rintro u v - mem -
      simpa using mem
    · rintro u rfl v rfl
      exact .refl
    · rintro u rfl
      exact ⟨le_rfl, le_rfl⟩
  one := rfl
  two := rfl

/-- A line that is a period ends the text early. -/
theorem period_lost : ¬ ∀ (flag : Flag) (lines : Which → List (List Char)) (d13 d23 : List Diff),
    (∀ i, Plain (lines i)) → Correct (lines .one) (lines .three) 1 1 d13 →
    Correct (lines .two) (lines .three) 1 1 d23 → d13.length ≤ NC → d23.length ≤ NC →
    ∃ rs script, Merged flag lines d13 d23 rs ∧
      Settles (diff3 flag d13 d23 fun i => unlines '\n' (lines i)) script ∧
      (Ed.run (fun _ ed => ed) script (lines .one)).lines =
        replaced (lines .one) (lines .three) 0 rs := by
  intro all
  obtain ⟨rs, script, merged, settled, result⟩ := all .e (alike ['.']) [changed] [changed]
    (plain_alike (by decide)) (correct_changed _) (correct_changed _) (by decide) (by decide)
  have printed : Settles (diff3 .e [changed] [changed] fun i => unlines '\n' (alike ['.'] i))
      ['1', 'c', '\n', '.', '\n', '.', '\n'] := by
    refine ⟨2, fun fuel enough => ?_⟩
    obtain ⟨fuel, rfl⟩ := Nat.exists_eq_add_of_le' enough
    rfl
  obtain rfl := settled.unique printed
  have want : Wanted .e (alike ['.']) ⟨⟨1, 2⟩, ⟨1, 2⟩, ⟨1, 2⟩⟩ := by
    rw [Wanted]
    decide
  have region := (merged.mem _).mpr ⟨want, changed, List.mem_singleton_self _, isRegion_changed⟩
  have kept : ['.'] ∈ replaced [['a']] [['.']] 0 rs :=
    mem_replaced region (by decide) 0
  have left : (Ed.run (fun _ ed => ed) ['1', 'c', '\n', '.', '\n', '.', '\n'] [['a']]).lines = [] :=
    rfl
  have same : [] = replaced [['a']] [['.']] 0 rs := left.symm.trans result
  rw [← same] at kept
  exact absurd kept List.not_mem_nil

end UnixV7.Diff3
