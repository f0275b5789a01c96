import UnixV7.Cmd.Diff.Report
import UnixV7.Cmd.Diff3.Merge

/-!
# Reading a report

`readin`, `getchange` and `number` of `diff3.c`. The lines of a report that begin with a digit are
those that say which lines were changed, and the ranges read from them are the ones that `diff`
printed.
-/

namespace UnixV7.Diff3

open Lines

/-- `digit` -/
def digit (c : Char) : Bool := '0' ≤ c ∧ c ≤ '9'

namespace Readin

/-- The loop of `number`, in which a large number does not grow further. -/
def numberLoop (nn : ℕ) : List Char → ℕ × List Char
  | [] => (nn, [])
  | c :: lc =>
      if digit c then
        numberLoop (if nn < 100000000 then nn * 10 + (c.toNat - '0'.toNat) else nn) lc
      else (nn, c :: lc)

/-- `number`: the number, and what is left of the line. -/
def number (lc : List Char) : ℕ × List Char := numberLoop 0 lc

/-- Two numbers with a comma between them, or one that stands for both. -/
def pair (p : List Char) : ℕ × ℕ × List Char :=
  let (a, p) := number p
  if p.head? = some ',' then
    let (b, p) := number p.tail
    (a, b, p)
  else (a, a, p)

/-- What `readin` makes of the line of a change. -/
def change (line : List Char) : Diff :=
  let (a, b, p) := pair line
  let kind := p.head?
  let (c, d, _) := pair p.tail
  let a := if kind = some 'a' then a + 1 else a
  let c := if kind = some 'd' then c + 1 else c
  ⟨⟨a, b + 1⟩, ⟨c, d + 1⟩⟩

/-- What `getline` leaves of a line in `line[256]`. -/
def buffer (text : List Char) : List Char := text.take 254 ++ ['\n']

/-- The loop of `readin` over the lines, none where there are too many changes. -/
def loop (i : ℕ) : List (List Char) → Option (List Diff)
  | [] => some []
  | text :: file =>
      let line := buffer text
      if line.head?.elim false digit then
        if NC ≤ i then none else (loop (i + 1) file).map (change line :: ·)
      else loop i file

end Readin

/-- `readin`, of a file that is open. -/
def readin (file : List Char) : Option (List Diff) := Readin.loop 0 (split '\n' [] file)

namespace Readin

variable {c : Char} {n i : ℕ} {ds rest : List Char}

/-- A number below a thousand millions is read as it is. -/
theorem numberLoop_digits (plain : ∀ c ∈ ds, digit c) (fits : Nat.ofDigitChars 10 ds n < 1000000000)
    (other : digit c = false) (rest : List Char) :
    numberLoop n (ds ++ c :: rest) = (Nat.ofDigitChars 10 ds n, c :: rest) := by
  induction ds generalizing n with
  | nil =>
      rw [List.nil_append, numberLoop, other]
      rfl
  | cons d ds ih =>
      obtain ⟨head, tail⟩ := List.forall_mem_cons.mp plain
      rw [Nat.ofDigitChars_cons] at fits ⊢
      have most := fits
      rw [Nat.ofDigitChars_eq_ofDigitChars_zero] at most
      have one : 0 < 10 ^ ds.length := by positivity
      have small : n < 100000000 := by
        have bound := Nat.le_mul_of_pos_left (10 * n + (d.toNat - '0'.toNat)) one
        omega
      rw [List.cons_append, numberLoop, if_pos head, if_pos small, Nat.mul_comm]
      exact ih tail fits

theorem digit_of_mem_decimal (mem : c ∈ decimal n) : digit c := by
  have within := Nat.isDigit_of_mem_toDigits (by decide) (by decide) mem
  simp only [Char.isDigit, Bool.and_eq_true, decide_eq_true_eq] at within
  exact decide_eq_true within

theorem number_decimal (small : n < 1000000000) (other : digit c = false) (rest : List Char) :
    number (decimal n ++ c :: rest) = (n, c :: rest) := by
  have value : Nat.ofDigitChars 10 (decimal n) 0 = n :=
    Nat.ofDigitChars_toDigits (by decide) (by decide)
  rw [number, numberLoop_digits (fun c => digit_of_mem_decimal) (by rwa [value]) other, value]

/-- The text of two numbers that `range` prints. -/
def rangeText (a b : ℕ) : List Char :=
  decimal (if b < a then b else a) ++ if a < b then ',' :: decimal b else []

/-- Both numbers are read, or one for both. -/
theorem pair_rangeText {a b : ℕ} (order : a ≤ b + 1) (small : b < 1000000000)
    (other : digit c = false) (some : c ≠ ',') (rest : List Char) :
    pair (rangeText a b ++ c :: rest) = (if b < a then b else a, b, c :: rest) := by
  rw [rangeText]
  by_cases more : a < b
  · have first := number_decimal (n := a) (by omega) (show digit ',' = false from rfl)
      (decimal b ++ c :: rest)
    have second := number_decimal small other rest
    rw [if_pos more, if_neg (by omega), List.append_assoc, List.cons_append, pair, first]
    dsimp only
    rw [List.head?_cons, if_pos rfl, List.tail_cons, second]
  · have one : (if b < a then b else a) = b := by
      split <;> omega
    have first := number_decimal small other rest
    rw [if_neg more, List.append_nil, one, pair, first]
    dsimp only
    rw [List.head?_cons, if_neg (by simpa using some)]

/-! ## The line of a change -/

variable {x : Diff.Change} {m : ℕ}

/-- The ranges of a change. -/
def ranges (x : Diff.Change) : Diff3.Diff := ⟨⟨x.a, x.b + 1⟩, ⟨x.c, x.d + 1⟩⟩

/-- A line as `diff3` reads it. -/
def chars (line : List ℕ) : List Char := line.map Char.ofNat

theorem chars_toNat (line : List Char) : chars (line.map Char.toNat) = line := by
  have same : Char.ofNat ∘ Char.toNat = id := funext Char.ofNat_toNat
  rw [chars, List.map_map, same, List.map_id]

/-- The letter between the ranges. -/
def letter (x : Diff.Change) : Char := if x.b < x.a then 'a' else if x.d < x.c then 'd' else 'c'

theorem chars_range (a b : ℕ) : chars (Diff.range a b [','.toNat]) = rangeText a b := by
  have text : Diff.range a b [','.toNat] = (rangeText a b).map Char.toNat := by
    rw [Diff.range, rangeText, List.map_append]
    congr 1
    split <;> rfl
  rw [text, chars_toNat]

theorem ofNat_kind (x : Diff.Change) : Char.ofNat x.kind = letter x := by
  rw [Diff.Change.kind, letter]
  split
  · rfl
  · split <;> rfl

/-- The line of a change has its ranges with the letter between. -/
theorem chars_header (x : Diff.Change) :
    chars (x.header 0) = rangeText x.a x.b ++ letter x :: rangeText x.c x.d := by
  rw [Diff.Change.header, if_pos (by decide), if_pos (by decide), chars, List.map_append,
    List.map_cons, ofNat_kind]
  exact congrArg₂ (· ++ letter x :: ·) (chars_range x.a x.b) (chars_range x.c x.d)

theorem digit_letter (x : Diff.Change) : digit (letter x) = false := by
  rw [letter]
  split
  · rfl
  · split <;> rfl

theorem letter_ne_comma (x : Diff.Change) : letter x ≠ ',' := by
  rw [letter]
  split
  · decide
  · split <;> decide

/-- The ranges are read from the line that was printed for them. -/
theorem change_header (inside : x.Inside m n) (some : ¬x.Idle) (small : m < 1000000000)
    (small' : n < 1000000000) : change (chars (x.header 0) ++ ['\n']) = ranges x := by
  have first := pair_rangeText inside.old_order (inside.old_high.trans_lt small) (digit_letter x)
    (letter_ne_comma x) (rangeText x.c x.d ++ ['\n'])
  have second := pair_rangeText inside.new_order (inside.new_high.trans_lt small')
    (show digit '\n' = false from rfl) (by decide) []
  have order := inside.old_order
  have order' := inside.new_order
  rw [Diff.Change.Idle, not_and] at some
  rw [change, chars_header, List.append_assoc, List.cons_append, first]
  dsimp only
  rw [List.tail_cons, second, List.head?_cons]
  dsimp only
  rw [letter, ranges]
  by_cases added : x.b < x.a
  · have kept : ¬x.d < x.c := some added
    simp [added, kept]
    omega
  · by_cases deleted : x.d < x.c
    · simp [added, deleted]
      omega
    · simp [added, deleted]

theorem length_decimal (small : n < 1000000000) : (decimal n).length ≤ 9 :=
  (Nat.length_toDigits_le_iff (by decide) (by decide)).mpr small

theorem length_rangeText (a : ℕ) {b : ℕ} (small : b < 1000000000) :
    (rangeText a b).length ≤ 19 := by
  have first := length_decimal (n := if b < a then b else a) (by split <;> omega)
  have second := length_decimal small
  rw [rangeText, List.length_append]
  by_cases more : a < b
  · rw [if_pos more, List.length_cons]
    omega
  · rw [if_neg more, List.length_nil]
    omega

/-- The line of a change fits into the buffer. -/
theorem buffer_header (inside : x.Inside m n) (small : m < 1000000000) (small' : n < 1000000000) :
    buffer (chars (x.header 0)) = chars (x.header 0) ++ ['\n'] := by
  have first := length_rangeText x.a (inside.old_high.trans_lt small)
  have second := length_rangeText x.c (inside.new_high.trans_lt small')
  rw [buffer, List.take_of_length_le]
  rw [chars_header, List.length_append, List.length_cons]
  omega

theorem exists_decimal_cons (n : ℕ) : ∃ c rest, decimal n = c :: rest ∧ digit c := by
  obtain ⟨c, rest, parts⟩ := List.exists_cons_of_ne_nil (Nat.toDigits_ne_nil (n := n) (b := 10))
  have mem : c ∈ decimal n := by
    rw [decimal, parts]
    exact List.mem_cons_self
  exact ⟨c, rest, parts, digit_of_mem_decimal mem⟩

/-- The line begins with a digit. -/
def begins (line : List Char) : Bool := line.head?.elim false digit

/-- The line of a change begins with a digit. -/
theorem begins_header (x : Diff.Change) (rest : List Char) :
    begins (chars (x.header 0) ++ rest) = true := by
  obtain ⟨c, others, parts, first⟩ := exists_decimal_cons (if x.b < x.a then x.b else x.a)
  rw [chars_header, rangeText, parts, List.cons_append, List.cons_append, List.cons_append]
  exact first

theorem begins_buffer {line : List Char} (other : begins line = false) :
    begins (buffer line) = false := by
  cases line with
  | nil => rfl
  | cons c line => exact other

/-! ## The lines of a report -/

variable {old new : List (List ℕ)} {lines : List (List Char)}

theorem loop_cons (i : ℕ) (line : List Char) (file : List (List Char)) :
    loop i (line :: file) =
      if begins (buffer line) then
        if NC ≤ i then none else (loop (i + 1) file).map (change (buffer line) :: ·)
      else loop i file := rfl

/-- Lines that begin otherwise are passed. -/
theorem loop_pass (pass : ∀ line ∈ lines, begins line = false) (file : List (List Char)) :
    loop i (lines ++ file) = loop i file := by
  induction lines with
  | nil => rfl
  | cons line lines ih =>
      obtain ⟨other, others⟩ := List.forall_mem_cons.mp pass
      rw [List.cons_append, loop_cons, begins_buffer other, ih others]
      rfl

theorem loop_header (inside : x.Inside old.length new.length) (some : ¬x.Idle)
    (small : old.length < 1000000000) (small' : new.length < 1000000000)
    (file : List (List Char)) :
    loop i (chars (x.header 0) :: file) =
      if NC ≤ i then none else (loop (i + 1) file).map (ranges x :: ·) := by
  rw [loop_cons, buffer_header inside small small', if_pos (begins_header x _),
    change_header inside some small small']

/-- No line of a file is taken for the line of a change. -/
theorem pass_lines (x : Diff.Change) (old new : List (List ℕ)) :
    ∀ line ∈ (x.lines 0 old new).tail, begins (chars line) = false := by
  have marked : ∀ (lines : List (List ℕ)), ∀ mark : List ℕ, begins (chars mark) = false →
    mark ≠ [] →
      ∀ line ∈ lines.map (mark ++ ·), begins (chars line) = false := by
    intro lines mark other some line mem
    obtain ⟨l, -, rfl⟩ := List.mem_map.mp mem
    obtain ⟨n, rest, rfl⟩ := List.exists_cons_of_ne_nil some
    exact other
  intro line mem
  rw [Diff.Change.lines] at mem
  split at mem
  · exact absurd mem List.not_mem_nil
  · rw [List.tail_cons, if_pos rfl, if_pos rfl] at mem
    obtain inside | inside := List.mem_append.mp mem
    · obtain inside | inside := List.mem_append.mp inside
      · obtain inside | inside := List.mem_append.mp inside
        · exact marked _ Diff.oldMark (by decide) (by decide) line inside
        · split at inside
          · obtain rfl := List.mem_singleton.mp inside
            decide
          · exact absurd inside List.not_mem_nil
      · exact marked _ Diff.newMark (by decide) (by decide) line inside
    · exact absurd inside List.not_mem_nil

/-- A change is read from what is printed for it. -/
theorem loop_change (inside : x.Inside old.length new.length) (some : ¬x.Idle)
    (small : old.length < 1000000000) (small' : new.length < 1000000000)
    (file : List (List Char)) :
    loop i ((x.lines 0 old new).map chars ++ file) =
      if NC ≤ i then none else (loop (i + 1) file).map (ranges x :: ·) := by
  obtain ⟨others, parts⟩ : ∃ others, x.lines 0 old new = x.header 0 :: others := by
    rw [Diff.Change.lines, if_neg some]
    exact ⟨_, rfl⟩
  have pass := pass_lines x old new
  rw [parts, List.tail_cons] at pass
  rw [parts, List.map_cons, List.cons_append, loop_header inside some small small', loop_pass]
  intro line mem
  obtain ⟨l, inside, rfl⟩ := List.mem_map.mp mem
  exact pass l inside

/-- The changes are read as long as there is room for them. -/
theorem loop_changes {xs : List Diff.Change} (inside : ∀ x ∈ xs, x.Inside old.length new.length)
    (some : ∀ x ∈ xs, ¬x.Idle) (small : old.length < 1000000000)
    (small' : new.length < 1000000000) (room : i ≤ NC) :
    loop i ((xs.flatMap (Diff.Change.lines 0 old new)).map chars) =
      if i + xs.length ≤ NC then Option.some (xs.map ranges) else none := by
  induction xs generalizing i with
  | nil => exact (if_pos room).symm
  | cons x xs ih =>
      obtain ⟨first, others⟩ := List.forall_mem_cons.mp inside
      obtain ⟨busy, rest⟩ := List.forall_mem_cons.mp some
      rw [List.flatMap_cons, List.map_append, loop_change first busy small small', List.length_cons]
      by_cases full : NC ≤ i
      · rw [if_pos full, if_neg (by omega)]
      · rw [if_neg full, ih others rest (by omega),
          show i + 1 + xs.length = i + (xs.length + 1) by omega]
        split <;> rfl

theorem ofNat_eq_newline {n : ℕ} (same : Char.ofNat n = '\n') : n = Diff.newline := by
  by_cases valid : n.isValidChar
  · rw [Char.ofNat, dif_pos valid] at same
    exact congrArg Char.toNat same
  · rw [Char.ofNat, dif_neg valid] at same
    exact absurd same (by decide)

theorem chars_text (lines : List (List ℕ)) :
    chars (Diff.text lines) = unlines '\n' (lines.map chars) := by
  induction lines with
  | nil => rfl
  | cons line lines ih =>
      rw [Diff.text_cons, List.map_cons, unlines_cons, ← ih, chars, List.map_append]
      rfl

theorem newline_notMem_chars {line : List ℕ} (plain : Diff.newline ∉ line) :
    '\n' ∉ chars line := by
  intro mem
  obtain ⟨n, inside, same⟩ := List.mem_map.mp mem
  exact plain (ofNat_eq_newline same ▸ inside)

/-- `readin` finds the ranges of the changes in what `diff` prints for them. -/
theorem readin_text {xs : List Diff.Change} (plain : ∀ line ∈ old, Diff.newline ∉ line)
    (plain' : ∀ line ∈ new, Diff.newline ∉ line)
    (inside : ∀ x ∈ xs, x.Inside old.length new.length) (some : ∀ x ∈ xs, ¬x.Idle)
    (small : old.length < 1000000000) (small' : new.length < 1000000000) :
    readin (chars (Diff.text (xs.flatMap (Diff.Change.lines 0 old new)))) =
      if xs.length ≤ NC then Option.some (xs.map ranges) else none := by
  have free : ∀ line ∈ (xs.flatMap (Diff.Change.lines 0 old new)).map chars, '\n' ∉ line := by
    intro line mem
    obtain ⟨l, printed, rfl⟩ := List.mem_map.mp mem
    obtain ⟨x, -, printed⟩ := List.mem_flatMap.mp printed
    exact newline_notMem_chars (Diff.plain_lines 0 plain plain' x l printed)
  rw [readin, chars_text, split_unlines free, loop_changes inside some small small' (Nat.zero_le _),
    Nat.zero_add]

end Readin

end UnixV7.Diff3
