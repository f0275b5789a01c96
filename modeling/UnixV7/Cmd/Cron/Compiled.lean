import UnixV7.Cmd.Cron.Fields
import UnixV7.Library.Lines

/-!
# What is compiled

The lines are compiled one by one: what is stored of a line does not depend on the lines behind it,
and the input is left at the next one.
-/

namespace UnixV7.Cron

open UnixV7.Lines

variable {l tail stored : List UInt8} {rest : Option (List UInt8)} {read : Read}

/-- A line ends here. -/
def Ends (tail : List UInt8) : Prop := ∀ c ∈ tail.head?, c = newline

/-- `read` is what is read of a line with `tail` behind it: `stored` is stored of it, and if it is
not ignored then `rest` is to come. -/
inductive Agrees (tail : List UInt8) : Read → List UInt8 → Option (List UInt8) → Prop
  | kept {stored rest : List UInt8} : newline ∉ rest →
      Agrees tail ⟨stored, rest ++ tail, true⟩ stored (some rest)
  | ignored {stored rest : List UInt8} : newline ∉ rest →
      Agrees tail ⟨stored, rest ++ tail, false⟩ stored none

theorem Agrees.after (agrees : Agrees tail read stored rest) (before : List UInt8) :
    Agrees tail (read.after before) (before ++ stored) rest := by
  cases agrees with
  | kept free => exact .kept free
  | ignored free => exact .ignored free

/-- A line is not read beyond its end. -/
theorem Ends.dropWhile (ends : Ends tail) {p : UInt8 → Bool} (stop : p newline = false)
    (l : List UInt8) : (l ++ tail).dropWhile p = l.dropWhile p ++ tail := by
  induction l with
  | nil =>
      cases tail with
      | nil => rfl
      | cons c tail =>
          obtain rfl := ends c rfl
          rw [List.nil_append, List.dropWhile_cons_of_neg (by simp [stop])]
          rfl
  | cons c l ih =>
      rw [List.cons_append, List.dropWhile_cons, List.dropWhile_cons, ih]
      split
      next => rfl
      next => rfl

theorem Ends.takeWhile (ends : Ends tail) {p : UInt8 → Bool} (stop : p newline = false)
    (l : List UInt8) : (l ++ tail).takeWhile p = l.takeWhile p := by
  induction l with
  | nil =>
      cases tail with
      | nil => rfl
      | cons c tail =>
          obtain rfl := ends c rfl
          rw [List.nil_append, List.takeWhile_cons_of_neg (by simp [stop])]
          rfl
  | cons c l ih => rw [List.cons_append, List.takeWhile_cons, List.takeWhile_cons, ih]

theorem free_dropWhile (free : newline ∉ l) (p : UInt8 → Bool) : newline ∉ l.dropWhile p :=
  fun mem => free ((List.dropWhile_suffix p).subset mem)

/-! ## Numbers -/

theorem digit_value {c : UInt8} (digit : isdigit c) (n : ℕ) :
    BitVec.ofNat 32 n * 10 + BitVec.ofNat 32 c.toNat - BitVec.ofNat 32 48 =
      BitVec.ofNat 32 (n * 10 + (c.toNat - 48)) := by
  have low : 48 ≤ c.toNat := by
    simp only [isdigit, Bool.and_eq_true, decide_eq_true_eq] at digit
    exact digit.1
  obtain ⟨m, exact⟩ := Nat.exists_eq_add_of_le low
  have ten : (10 : BitVec 32).toNat = 10 := rfl
  rw [exact]
  apply BitVec.eq_of_toNat_eq
  simp only [BitVec.toNat_sub, BitVec.toNat_add, BitVec.toNat_mul, BitVec.toNat_ofNat, ten]
  omega

theorem digits_eq (n : ℕ) (stdin : List UInt8) :
    digits (BitVec.ofNat 32 n) stdin =
      (BitVec.ofNat 32 ((stdin.takeWhile isdigit).foldl (fun n c => n * 10 + (c.toNat - 48)) n),
        stdin.dropWhile isdigit) := by
  induction stdin generalizing n with
  | nil => rfl
  | cons c stdin ih =>
      rw [digits, List.takeWhile_cons, List.dropWhile_cons]
      split
      next digit => rw [digit_value digit, ih, List.foldl_cons]
      next => rfl

theorem number_eq (stdin : List UInt8) :
    (number stdin).2 = stdin.dropWhile isdigit ∧
      ((number stdin).1 < 0 ↔ 100 ≤ cut stdin) ∧
      (cut stdin < 100 → (number stdin).1 = cut stdin) := by
  have read := digits_eq 0 stdin
  have exact : (digits 0 stdin).1.toInt =
      if 2 * cut stdin < 2 ^ 32 then (cut stdin : ℤ) else cut stdin - 2 ^ 32 := by
    rw [show (0 : BitVec 32) = BitVec.ofNat 32 0 from rfl, read, BitVec.toInt_eq_toNat_cond,
      BitVec.toNat_ofNat]
    rfl
  have small : cut stdin < 2 ^ 32 := Nat.mod_lt _ (by decide)
  refine ⟨congrArg Prod.snd read, ?_, ?_⟩
  · rw [number]
    dsimp only
    rw [exact]
    split_ifs <;> omega
  · intro less
    rw [number]
    dsimp only
    rw [exact]
    split_ifs <;> omega

theorem Ends.cut (ends : Ends tail) (l : List UInt8) : cut (l ++ tail) = cut l := by
  rw [Cron.cut, Cron.cut, ends.takeWhile (by decide)]

/-- A number of a line. -/
theorem Ends.number (ends : Ends tail) (l : List UInt8) :
    (number (l ++ tail)).2 = l.dropWhile isdigit ++ tail ∧
      ((Cron.number (l ++ tail)).1 < 0 ↔ 100 ≤ Cron.cut l) ∧
      (Cron.cut l < 100 → code (Cron.number (l ++ tail)).1 = byte (Cron.cut l)) := by
  obtain ⟨behind, large, small⟩ := number_eq (l ++ tail)
  rw [ends.cut] at large small
  rw [ends.dropWhile (by decide)] at behind
  refine ⟨behind, large, fun less => ?_⟩
  rw [small less]
  rfl

/-! ## Fields -/

theorem mlist_eq (stdin : List UInt8) :
    mlist stdin =
      if (number stdin).1 < 0 then ⟨[], (number stdin).2, false⟩
      else
        match (number stdin).2 with
        | [] => ⟨[code (number stdin).1], [], false⟩
        | c :: rest =>
            if c = comma then (mlist rest).after [code (number stdin).1]
            else if isblank c then ⟨[code (number stdin).1, LIST], rest, true⟩
            else ⟨[code (number stdin).1], c :: rest, false⟩ := by
  rw [mlist]
  split
  next => rfl
  next =>
    split
    next none => rw [none]
    next c rest next => rw [next]

theorem mlist_agrees (ends : Ends tail) (free : newline ∉ l) :
    Agrees tail (mlist (l ++ tail))
      ((members l).1.map byte ++ if (members l).2.isSome then [LIST] else []) (members l).2 := by
  obtain ⟨behind, large, small⟩ := ends.number l
  have free' := free_dropWhile free isdigit
  fun_induction members l with
  | case1 l many =>
      rw [mlist_eq, if_pos (large.mpr many), behind]
      exact .ignored free'
  | case2 l few none =>
      rw [none, List.nil_append] at behind
      rw [mlist_eq, if_neg (mt large.mp few), behind, small (Nat.lt_of_not_le few)]
      cases tail with
      | nil => exact .ignored List.not_mem_nil
      | cons c rest =>
          obtain rfl := ends c rfl
          exact .ignored List.not_mem_nil
  | case3 l few rest next ih =>
      rw [next] at free' behind
      rw [mlist_eq, if_neg (mt large.mp few), behind, small (Nat.lt_of_not_le few)]
      obtain ⟨-, free'⟩ := not_or.mp (mt List.mem_cons.mpr free')
      obtain ⟨behind, large, small⟩ := ends.number rest
      exact (ih free' behind large small (free_dropWhile free' isdigit)).after _
  | case4 l few c rest next other blank =>
      rw [next] at free' behind
      rw [mlist_eq, if_neg (mt large.mp few), behind, small (Nat.lt_of_not_le few)]
      obtain ⟨-, free'⟩ := not_or.mp (mt List.mem_cons.mpr free')
      simp only [List.cons_append, if_neg other, if_pos blank]
      exact .kept free'
  | case5 l few c rest next other blank =>
      rw [next] at free' behind
      rw [mlist_eq, if_neg (mt large.mp few), behind, small (Nat.lt_of_not_le few)]
      simp only [List.cons_append, if_neg other, if_neg blank]
      exact .ignored free'

theorem mrange_agrees (ends : Ends tail) (free : newline ∉ l) (low : ℕ) :
    Agrees tail ((mrange (l ++ tail)).after [RANGE, byte low]) (upper low l).stored
      (upper low l).rest := by
  obtain ⟨behind, large, small⟩ := ends.number l
  have free' := free_dropWhile free isdigit
  fun_cases upper low l with
  | case1 many =>
      rw [mrange, if_pos (large.mpr many), behind]
      exact .ignored free'
  | case2 few none =>
      rw [none, List.nil_append] at behind
      rw [mrange, if_neg (mt large.mp few), behind, small (Nat.lt_of_not_le few)]
      cases tail with
      | nil => exact .ignored List.not_mem_nil
      | cons c rest =>
          obtain rfl := ends c rfl
          exact .ignored List.not_mem_nil
  | case3 few c rest next blank =>
      rw [next] at free' behind
      rw [mrange, if_neg (mt large.mp few), behind, small (Nat.lt_of_not_le few)]
      obtain ⟨-, free'⟩ := not_or.mp (mt List.mem_cons.mpr free')
      simp only [List.cons_append, if_pos blank]
      exact .kept free'
  | case4 few c rest next blank =>
      rw [next] at free' behind
      rw [mrange, if_neg (mt large.mp few), behind, small (Nat.lt_of_not_le few)]
      simp only [List.cons_append, if_neg blank]
      exact .ignored free'

theorem field_number (ends : Ends tail) {c : UInt8} {rest : List UInt8}
    (first : l.dropWhile isblank = c :: rest) (inner : c ≠ newline) (other : c ≠ star)
    (few : ¬ 100 ≤ cut (c :: rest)) :
    field (l ++ tail) =
      match (c :: rest).dropWhile isdigit ++ tail with
      | [] => ⟨[], [], false⟩
      | d :: behind =>
          if d = comma then (mlist behind).after [LIST, byte (cut (c :: rest))]
          else if d = dash then (mrange behind).after [RANGE, byte (cut (c :: rest))]
          else if isblank d then ⟨[EXACT, byte (cut (c :: rest))], behind, true⟩
          else ⟨[], d :: behind, false⟩ := by
  have blanks := ends.dropWhile (p := isblank) (by decide) l
  obtain ⟨behind, large, small⟩ := ends.number (c :: rest)
  rw [first] at blanks
  rw [field, blanks]
  simp only [List.cons_append] at behind large small ⊢
  rewrite [if_neg inner, if_neg other, if_neg (mt large.mp few), behind,
    small (Nat.lt_of_not_le few)]
  rfl

/-- A number and what is behind it are in the line. -/
theorem free_number (free : newline ∉ l) {c : UInt8} {rest : List UInt8}
    (first : l.dropWhile isblank = c :: rest) :
    c ≠ newline ∧ newline ∉ (c :: rest).dropWhile isdigit := by
  have free' := free_dropWhile free isblank
  rw [first] at free'
  exact ⟨fun same => free' (same ▸ List.mem_cons_self), free_dropWhile free' isdigit⟩

theorem field_agrees (ends : Ends tail) (free : newline ∉ l) :
    Agrees tail (field (l ++ tail)) (piece l).stored (piece l).rest := by
  have blanks := ends.dropWhile (p := isblank) (by decide) l
  have free' := free_dropWhile free isblank
  fun_cases piece l with
  | case1 none =>
      rw [none, List.nil_append] at blanks
      rw [field, blanks]
      cases tail with
      | nil => exact .ignored List.not_mem_nil
      | cons c rest =>
          obtain rfl := ends c rfl
          exact .ignored List.not_mem_nil
  | case2 rest first =>
      rw [first] at free' blanks
      rw [field, blanks]
      exact .kept (not_or.mp (mt List.mem_cons.mpr free')).2
  | case3 c rest first other many =>
      rw [first] at free' blanks
      have apart : c ≠ newline := fun same => free' (same ▸ List.mem_cons_self)
      obtain ⟨behind, large, -⟩ := ends.number (c :: rest)
      rw [field, blanks]
      simp only [List.cons_append] at behind large ⊢
      rw [if_neg apart, if_neg other, if_pos (large.mpr many), behind]
      exact .ignored (free_dropWhile free' isdigit)
  | case4 c rest first other few none =>
      obtain ⟨inner, -⟩ := free_number free first
      rw [field_number ends first inner other few, none, List.nil_append]
      cases tail with
      | nil => exact .ignored List.not_mem_nil
      | cons d behind =>
          obtain rfl := ends d rfl
          exact .ignored List.not_mem_nil
  | case5 c rest first other few behind none next =>
      obtain ⟨inner, free⟩ := free_number free first
      rw [next] at free
      have agrees := mlist_agrees ends (not_or.mp (mt List.mem_cons.mpr free)).2
      rw [none] at agrees
      rw [field_number ends first inner other few, next, Piece.stored, List.map_cons]
      have whole := agrees.after [LIST, byte (cut (c :: rest))]
      rw [if_neg (by decide), List.append_nil] at whole
      exact whole
  | case6 c rest first other few behind rest' some next =>
      obtain ⟨inner, free⟩ := free_number free first
      rw [next] at free
      have agrees := mlist_agrees ends (not_or.mp (mt List.mem_cons.mpr free)).2
      rw [some] at agrees
      rw [field_number ends first inner other few, next, Piece.stored, Entry.codes, List.map_cons]
      have whole := agrees.after [LIST, byte (cut (c :: rest))]
      rw [if_pos Option.isSome_some] at whole
      exact whole
  | case7 c rest first other few behind next apart =>
      obtain ⟨inner, free⟩ := free_number free first
      rw [next] at free
      rw [field_number ends first inner other few, next]
      exact mrange_agrees ends (not_or.mp (mt List.mem_cons.mpr free)).2 _
  | case8 c rest first other few d behind next apart apart' blank =>
      obtain ⟨inner, free⟩ := free_number free first
      rw [next] at free
      rw [field_number ends first inner other few, next]
      simp only [List.cons_append, if_neg apart, if_neg apart', if_pos blank]
      exact .kept (not_or.mp (mt List.mem_cons.mpr free)).2
  | case9 c rest first other few d behind next apart apart' blank =>
      obtain ⟨inner, free⟩ := free_number free first
      rw [next] at free
      rw [field_number ends first inner other few, next]
      simp only [List.cons_append, if_neg apart, if_neg apart', if_neg blank]
      exact .ignored free

/-! ## Lines -/

variable {more : List UInt8} {k : ℕ}

theorem ends_newline (more : List UInt8) : Ends (newline :: more) := by
  intro c mem
  exact (Option.some.inj mem).symm

theorem ends_nil : Ends [] := fun c mem => absurd mem (by simp)

theorem ignore_newline (free : newline ∉ l) (more : List UInt8) :
    ignore (l ++ newline :: more) = some more := by
  induction l with
  | nil => exact if_pos rfl
  | cons c l ih =>
      obtain ⟨other, free⟩ := not_or.mp (mt List.mem_cons.mpr free)
      rw [List.cons_append, ignore, if_neg (Ne.symm other), ih free]

theorem ignore_nil (free : newline ∉ l) : ignore l = none := by
  induction l with
  | nil => rfl
  | cons c l ih =>
      obtain ⟨other, free⟩ := not_or.mp (mt List.mem_cons.mpr free)
      rw [ignore, if_neg (Ne.symm other), ih free]

theorem text_newline {cmd : List UInt8} (free : newline ∉ cmd) (more : List UInt8) :
    text (cmd ++ newline :: more) = ⟨newlines cmd ++ [newline, 0], more, true⟩ := by
  induction cmd with
  | nil => exact if_pos rfl
  | cons c cmd ih =>
      obtain ⟨other, free⟩ := not_or.mp (mt List.mem_cons.mpr free)
      rw [List.cons_append, text, if_neg (Ne.symm other), ih free]
      rfl

theorem text_nil {cmd : List UInt8} (free : newline ∉ cmd) :
    text cmd = ⟨newlines cmd, [], false⟩ := by
  induction cmd with
  | nil => rfl
  | cons c cmd ih =>
      obtain ⟨other, free⟩ := not_or.mp (mt List.mem_cons.mpr free)
      rw [text, if_neg (Ne.symm other), ih free]
      rfl

/-- What is read of a line that ends in a newline. -/
def Ended (more : List UInt8) (read : Read) (reading : Reading) : Prop :=
  read.stored = reading.codes true ∧
    if reading.command.isSome then read.kept ∧ read.stdin = more
    else ¬ read.kept ∧ ignore read.stdin = some more

/-- What is read of a line at the end of the file. -/
def Last (read : Read) (reading : Reading) : Prop :=
  read.stored = reading.codes false ∧ ¬ read.kept ∧ ignore read.stdin = none

theorem codes_cons (entry : Entry) (reading : Reading) (ended : Bool) :
    { reading with entries := entry :: reading.entries : Reading }.codes ended =
      entry.codes ++ reading.codes ended := by
  rw [Reading.codes, List.flatMap_cons, List.append_assoc]
  rfl

theorem fields_ended (free : newline ∉ l) (more : List UInt8) :
    Ended more (fields k (l ++ newline :: more)) (reading k l) := by
  induction k generalizing l with
  | zero =>
      have blanks := (ends_newline more).dropWhile (p := isblank) (by decide) l
      have free' := free_dropWhile free isblank
      rw [fields, reading, blanks]
      cases first : l.dropWhile isblank with
      | nil => exact ⟨rfl, Bool.false_ne_true, rfl⟩
      | cons c cmd =>
          rw [first] at free'
          have inner : c ≠ newline := fun same => free' (same ▸ List.mem_cons_self)
          have stored := text_newline free' more
          rw [List.cons_append] at stored ⊢
          simp only [if_neg inner, stored]
          exact ⟨rfl, rfl, rfl⟩
  | succ k ih =>
      have agrees := field_agrees (ends_newline more) free
      rw [fields, reading]
      cases read : piece l with
      | broken begun =>
          rw [read] at agrees
          generalize field (l ++ newline :: more) = read at agrees
          cases agrees with
          | ignored free => exact ⟨rfl, Bool.false_ne_true, ignore_newline free more⟩
      | whole entry rest =>
          rw [read] at agrees
          generalize field (l ++ newline :: more) = read at agrees
          cases agrees with
          | kept free =>
              obtain ⟨stored, next⟩ := ih free
              refine ⟨?_, next⟩
              rw [codes_cons, ← stored]
              rfl

theorem fields_last (free : newline ∉ l) : Last (fields k l) (reading k l) := by
  induction k generalizing l with
  | zero =>
      have free' := free_dropWhile free isblank
      rw [fields, reading]
      cases first : l.dropWhile isblank with
      | nil => exact ⟨rfl, Bool.false_ne_true, rfl⟩
      | cons c cmd =>
          rw [first] at free'
          have inner : c ≠ newline := fun same => free' (same ▸ List.mem_cons_self)
          simp only [if_neg inner, text_nil free']
          refine ⟨?_, Bool.false_ne_true, rfl⟩
          exact (List.append_nil _).symm
  | succ k ih =>
      have agrees := field_agrees ends_nil free
      rw [List.append_nil] at agrees
      rw [fields, reading]
      cases read : piece l with
      | broken begun =>
          rw [read] at agrees
          generalize field l = read at agrees
          cases agrees with
          | ignored free =>
              refine ⟨rfl, Bool.false_ne_true, ?_⟩
              rw [List.append_nil]
              exact ignore_nil free
      | whole entry rest =>
          rw [read] at agrees
          generalize field l = read at agrees
          cases agrees with
          | kept free =>
              obtain ⟨stored, next⟩ := ih free
              rw [List.append_nil]
              refine ⟨?_, next⟩
              rw [codes_cons, ← stored]
              rfl

theorem line_ended (free : newline ∉ l) (more : List UInt8) :
    Ended more (line (l ++ newline :: more)) (reading 5 l) := fields_ended free more

theorem line_last (free : newline ∉ l) : Last (line l) (reading 5 l) := fields_last free

/-! ## Lengths -/

theorem members_length (l : List UInt8) :
    (members l).1.length + ((members l).2.elim 0 fun rest => rest.length + 1) ≤ l.length + 1 := by
  have length := (List.dropWhile_suffix isdigit (l := l)).length_le
  fun_induction members l with
  | case1 l many => exact Nat.zero_le _
  | case2 l few none => exact Nat.le_add_left _ _
  | case3 l few rest next ih =>
      rw [next, List.length_cons] at length
      have := ih (List.dropWhile_suffix isdigit).length_le
      dsimp only
      rw [List.length_cons]
      omega
  | case4 l few c rest next other blank =>
      rw [next, List.length_cons] at length
      rw [List.length_singleton, Option.elim_some]
      omega
  | case5 l few c rest next other blank => exact Nat.le_add_left _ _

theorem upper_length (low : ℕ) (l : List UInt8) :
    (upper low l).stored.length + ((upper low l).rest.elim 0 List.length) ≤ l.length + 3 := by
  have length := (List.dropWhile_suffix isdigit (l := l)).length_le
  fun_cases upper low l with
  | case1 many => exact Nat.le_add_left _ _
  | case2 few none => exact Nat.le_add_left _ _
  | case3 few c rest next blank =>
      rw [next, List.length_cons] at length
      simp only [Piece.stored, Piece.rest, Entry.codes, Option.elim_some, List.length_cons,
        List.length_nil]
      omega
  | case4 few c rest next blank => exact Nat.le_add_left _ _

/-- A field is stored in two bytes more than it has characters, at most. -/
theorem piece_length (l : List UInt8) :
    (piece l).stored.length + ((piece l).rest.elim 0 List.length) ≤ l.length + 2 := by
  have blanks := (List.dropWhile_suffix isblank (l := l)).length_le
  fun_cases piece l with
  | case1 none => exact Nat.zero_le _
  | case2 rest first =>
      rw [first, List.length_cons] at blanks
      simp only [Piece.stored, Piece.rest, Entry.codes, Option.elim_some, List.length_singleton]
      omega
  | case3 c rest first other many => exact Nat.zero_le _
  | case4 c rest first other few none => exact Nat.zero_le _
  | case5 c rest first other few behind none next =>
      have digits := (List.dropWhile_suffix isdigit (l := c :: rest)).length_le
      have length := members_length behind
      rw [none] at length
      rw [first] at blanks
      rw [next, List.length_cons, List.length_cons] at digits
      simp only [Piece.stored, Piece.rest, Option.elim_none, List.length_cons, List.length_map]
        at length blanks ⊢
      omega
  | case6 c rest first other few behind rest' some next =>
      have digits := (List.dropWhile_suffix isdigit (l := c :: rest)).length_le
      have length := members_length behind
      rw [some] at length
      rw [first] at blanks
      rw [next, List.length_cons, List.length_cons] at digits
      simp only [Piece.stored, Piece.rest, Entry.codes, Option.elim_some, List.length_cons,
        List.length_map, List.length_append, List.length_nil] at length blanks ⊢
      omega
  | case7 c rest first other few behind next apart =>
      have digits := (List.dropWhile_suffix isdigit (l := c :: rest)).length_le
      have length := upper_length (cut (c :: rest)) behind
      rw [first, List.length_cons] at blanks
      rw [next, List.length_cons, List.length_cons] at digits
      omega
  | case8 c rest first other few d behind next apart apart' blank =>
      have digits := (List.dropWhile_suffix isdigit (l := c :: rest)).length_le
      rw [first] at blanks
      rw [next, List.length_cons, List.length_cons] at digits
      simp only [Piece.stored, Piece.rest, Entry.codes, Option.elim_some, List.length_cons,
        List.length_nil] at blanks ⊢
      omega
  | case9 c rest first other few d behind next apart apart' blank => exact Nat.zero_le _

theorem reading_length (k : ℕ) (l : List UInt8) (ended : Bool) :
    ((reading k l).codes ended).length ≤ l.length + 2 * k + 2 := by
  induction k generalizing l with
  | zero =>
      have blanks := (List.dropWhile_suffix isblank (l := l)).length_le
      rw [reading]
      cases first : l.dropWhile isblank with
      | nil => exact Nat.zero_le _
      | cons c cmd =>
          rw [first] at blanks
          have last : (if ended then [newline, 0] else []).length ≤ 2 := by
            cases ended with
            | false => exact Nat.zero_le _
            | true => exact Nat.le_refl _
          simp only [Reading.codes, newlines, List.flatMap_nil, List.nil_append, List.length_append,
            List.length_map]
          omega
  | succ k ih =>
      have length := piece_length l
      rw [reading]
      cases read : piece l with
      | broken begun =>
          rw [read] at length
          simp only [Reading.codes, List.flatMap_nil, List.nil_append]
          simp only [Piece.stored, Piece.rest, Option.elim_none] at length
          omega
      | whole entry rest =>
          rw [read] at length
          have next := ih rest
          simp only [Piece.stored, Piece.rest, Option.elim_some] at length
          rw [codes_cons, List.length_append]
          omega

/-! ## The list -/

variable {s : State} {t : List UInt8} {place : ℕ → ℕ}

/-- The list holds the bytes `t` and the next one is stored behind them. -/
structure Holds (s : State) (t : List UInt8) : Prop where
  cp : s.cp = s.list + t.length
  inside : t.length ≤ s.listsize
  cell : ∀ k (less : k < t.length), s.bin (s.list + k) = t[k]

theorem Holds.store (holds : Holds s t) (room : t.length < s.listsize) (c : UInt8) :
    ∃ next, store s c = .ok next ∧ Holds next (t ++ [c]) ∧ next.list = s.list ∧
      next.listsize = s.listsize := by
  have cp := holds.cp
  refine ⟨_, if_pos ⟨by omega, by omega⟩, ⟨?_, ?_, fun k less => ?_⟩, rfl, rfl⟩
  · rw [List.length_append, List.length_singleton]
    dsimp only
    omega
  · rw [List.length_append]
    exact room
  · rw [List.length_append, List.length_singleton] at less
    dsimp only
    obtain old | new := Nat.lt_or_ge k t.length
    · rw [Function.update_of_ne (by omega), holds.cell k old, List.getElem_append_left old]
    · have last : k = t.length := by omega
      subst last
      rw [cp, Function.update_self, List.getElem_append_right (Nat.le_refl _)]
      simp

/-- Bytes are stored when there is room for them. -/
theorem Holds.stores (holds : Holds s t) (cs : List UInt8)
    (room : t.length + cs.length ≤ s.listsize) :
    ∃ next, cs.foldlM Cron.store s = .ok next ∧ Holds next (t ++ cs) ∧ next.list = s.list ∧
      next.listsize = s.listsize := by
  induction cs generalizing s t with
  | nil => exact ⟨s, rfl, by rwa [List.append_nil], rfl, rfl⟩
  | cons c cs ih =>
      rw [List.length_cons] at room
      obtain ⟨next, stored, holds', list, size⟩ := holds.store (by omega) c
      have room' : (t ++ [c]).length + cs.length ≤ next.listsize := by
        rw [List.length_append, List.length_singleton, size]
        omega
      obtain ⟨last, stored', holds'', list', size'⟩ := ih holds' room'
      refine ⟨last, ?_, by rwa [List.append_assoc] at holds'', list'.trans list, size'.trans size⟩
      rw [List.foldlM_cons, stored]
      exact stored'

/-- Otherwise one would be stored outside. -/
theorem Holds.overflow (holds : Holds s t) (cs : List UInt8)
    (full : s.listsize < t.length + cs.length) : cs.foldlM Cron.store s = .error .outside := by
  induction cs generalizing s t with
  | nil => exact absurd holds.inside (Nat.not_le_of_lt full)
  | cons c cs ih =>
      rw [List.length_cons] at full
      rw [List.foldlM_cons]
      obtain room | none := Nat.lt_or_ge t.length s.listsize
      · obtain ⟨next, stored, holds', -, size⟩ := holds.store room c
        rw [stored]
        refine ih holds' ?_
        rw [List.length_append, List.length_singleton, size]
        omega
      · have cp := holds.cp
        have outside : Cron.store s c = .error .outside := if_neg fun both => by omega
        rw [outside]
        rfl

/-- What is stored of a line that is ignored is left. -/
theorem Holds.back (holds : Holds s (t ++ stored)) :
    Holds { s with cp := s.list + t.length } t := by
  have inside := holds.inside
  rw [List.length_append] at inside
  refine ⟨rfl, Nat.le_of_add_right_le inside, fun k less => ?_⟩
  have cell := holds.cell k (by rw [List.length_append]; omega)
  rwa [List.getElem_append_left less] at cell

theorem Holds.grow (holds : Holds s t) (place : ℕ → ℕ) (i : ℕ) : Holds (grow place s i) t := by
  have cp := holds.cp
  have inside := holds.inside
  refine ⟨?_, ?_, fun k less => ?_⟩
  · simp only [Cron.grow]
    omega
  · simp only [Cron.grow]
    omega
  · simp only [Cron.grow, Bytes.splice]
    rw [if_pos ⟨by omega, by omega⟩, Nat.add_sub_cancel_left, holds.cell k less]

/-! ## The file -/

variable {lines : List (List UInt8)} {last : List UInt8}

/-- What is left of a line in the list. -/
def entry (l : List UInt8) : List UInt8 :=
  if (reading 5 l).command.isSome then (reading 5 l).codes true else []

/-- What is left of the lines. -/
def compiled (lines : List (List UInt8)) : List UInt8 := lines.flatMap entry

/-- The list is not longer than its room: `p` bytes of `size` are taken when the lines are read.
Before a line is read there must be room for its length and two bytes more, or the list grows. -/
def Roomy : ℕ → ℕ → List (List UInt8) → List UInt8 → Prop
  | p, size, [], last =>
      p + (last.length + 2) ≤ size → p + ((reading 5 last).codes false).length ≤ size
  | p, size, l :: lines, last =>
      (p + (l.length + 2) ≤ size → p + ((reading 5 l).codes true).length ≤ size) ∧
      Roomy (p + (entry l).length)
        (if p + (l.length + 2) ≤ size then size else size + (l.length + 2 + LISTS)) lines last

theorem apart_newline (free : newline ∉ l) : ∀ c ∈ l, c != newline :=
  fun _ mem => bne_iff_ne.mpr fun same => free (same ▸ mem)

theorem takeWhile_newline (free : newline ∉ l) (more : List UInt8) :
    (l ++ newline :: more).takeWhile (· != newline) = l :=
  takeWhile_append (apart_newline free) (by decide) more

theorem takeWhile_last (free : newline ∉ l) : l.takeWhile (· != newline) = l :=
  List.takeWhile_eq_self_iff.mpr (apart_newline free)

/-- Where a line is stored: in the list as it is, or in one that has grown. -/
def roomed (place : ℕ → ℕ) (s : State) (i : ℕ) : State :=
  if s.cp + i > s.list + s.listsize then grow place s i else s

theorem Holds.roomed (holds : Holds s t) (place : ℕ → ℕ) (i : ℕ) :
    Holds (roomed place s i) t ∧
      (roomed place s i).listsize =
        if t.length + i ≤ s.listsize then s.listsize else s.listsize + (i + LISTS) := by
  have cp := holds.cp
  unfold Cron.roomed
  obtain room | full := Nat.lt_or_ge (s.list + s.listsize) (s.cp + i)
  · rw [if_pos room, if_neg (by omega)]
    exact ⟨holds.grow place i, rfl⟩
  · rw [if_neg (Nat.not_lt_of_ge full), if_pos (by omega)]
    exact ⟨holds, rfl⟩

/-- A line that is not too long for the room there was before is stored. -/
theorem Holds.room (holds : Holds s t) (place : ℕ → ℕ) (l : List UInt8) (ended : Bool) :
    t.length + ((reading 5 l).codes ended).length ≤ (Cron.roomed place s (l.length + 2)).listsize ↔
      (t.length + (l.length + 2) ≤ s.listsize →
        t.length + ((reading 5 l).codes ended).length ≤ s.listsize) := by
  have length := reading_length 5 l ended
  have inside := holds.inside
  have lists : LISTS = 512 := rfl
  rw [(holds.roomed place _).2]
  split
  next room => exact ⟨fun le _ => le, fun le => le room⟩
  next full => exact iff_of_true (by omega) fun room => absurd room full

/-- The loop over a line that ends in a newline. -/
theorem loop_newline (free : newline ∉ l) (more : List UInt8) {next : State}
    (stored : ((reading 5 l).codes true).foldlM store (roomed place s (l.length + 2)) = .ok next) :
    loop place s (l ++ newline :: more) =
      if (reading 5 l).command.isSome then loop place next more
      else loop place { next with cp := (roomed place s (l.length + 2)).cp } more := by
  obtain ⟨codes, kept⟩ := line_ended free more
  rw [← codes, roomed] at stored
  rw [loop, takeWhile_newline free]
  rw [stored]
  dsimp only
  split at kept
  next some => rw [dif_pos kept.1, kept.2, if_pos some]
  next none =>
    rw [dif_neg kept.1, if_neg none]
    split
    next ended =>
      rw [kept.2] at ended
      cases ended
    next rest found =>
      rw [kept.2] at found
      cases found
      rfl

theorem loop_overflow (stdin : List UInt8) (full : (line stdin).stored.foldlM store
      (roomed place s ((stdin.takeWhile (· != newline)).length + 2)) = .error .outside) :
    loop place s stdin = .error .outside := by
  rw [roomed] at full
  rw [loop, full]

/-- The loop over what is behind the last newline. -/
theorem loop_last (free : newline ∉ l) {next : State}
    (stored : ((reading 5 l).codes false).foldlM store (roomed place s (l.length + 2)) = .ok next) :
    loop place s l =
      [EOS, EOS].foldlM store { next with cp := (roomed place s (l.length + 2)).cp } := by
  obtain ⟨codes, ignored, ended⟩ := line_last free
  rw [← codes, roomed] at stored
  rw [loop, takeWhile_last free]
  rw [stored]
  dsimp only
  rw [dif_neg ignored]
  split
  next => rfl
  next rest found =>
    rw [ended] at found
    cases found

/-- No line has a newline. -/
def Whole (lines : List (List UInt8)) : Prop := ∀ l ∈ lines, newline ∉ l

theorem loop_roomy (holds : Holds s t) (whole : Whole lines) (free : newline ∉ last)
    (roomy : Roomy t.length s.listsize lines last) :
    ∃ next, loop place s (unlines newline lines ++ last) = .ok next ∧
      Holds next (t ++ compiled lines ++ [EOS, EOS]) := by
  induction lines generalizing s t with
  | nil =>
      have room := (holds.room place last false).mpr roomy
      obtain ⟨holds', size⟩ := holds.roomed place (last.length + 2)
      obtain ⟨next, stored, behind, list, size'⟩ := holds'.stores _ room
      have back := behind.back
      rw [unlines_nil, List.nil_append, loop_last free stored, holds'.cp, ← list]
      have room' : t.length + [EOS, EOS].length ≤ next.listsize := by
        have lists : LISTS = 512 := rfl
        have inside := holds.inside
        rw [size', size, List.length_cons, List.length_cons, List.length_nil]
        split <;> omega
      obtain ⟨last, stored, holds'', -⟩ := back.stores [EOS, EOS] room'
      refine ⟨last, stored, ?_⟩
      rwa [compiled, List.flatMap_nil, List.append_nil]
  | cons l lines ih =>
      obtain ⟨first, others⟩ := List.forall_mem_cons.mp whole
      obtain ⟨here, roomy⟩ := roomy
      have room := (holds.room place l true).mpr here
      obtain ⟨holds', size⟩ := holds.roomed place (l.length + 2)
      obtain ⟨next, stored, behind, list, size'⟩ := holds'.stores _ room
      have parts : t ++ compiled (l :: lines) = t ++ entry l ++ compiled lines := by
        rw [compiled, List.flatMap_cons, ← compiled, List.append_assoc]
      rw [unlines_cons, List.append_assoc, List.cons_append, loop_newline first _ stored, parts]
      rw [← size, ← size', ← List.length_append] at roomy
      split
      next some =>
        have same : entry l = (reading 5 l).codes true := if_pos some
        rw [same] at roomy ⊢
        exact ih behind others roomy
      next none =>
        have same : entry l = [] := if_neg none
        rw [same, List.append_nil] at roomy ⊢
        rw [holds'.cp, ← list]
        exact ih behind.back others roomy

theorem loop_full (holds : Holds s t) (whole : Whole lines) (free : newline ∉ last)
    (full : ¬ Roomy t.length s.listsize lines last) :
    loop place s (unlines newline lines ++ last) = .error .outside := by
  induction lines generalizing s t with
  | nil =>
      have none := mt (holds.room place last false).mp full
      obtain ⟨holds', -⟩ := holds.roomed place (last.length + 2)
      rw [unlines_nil, List.nil_append]
      refine loop_overflow last ?_
      rw [takeWhile_last free, (line_last free).1]
      exact holds'.overflow _ (Nat.lt_of_not_le none)
  | cons l lines ih =>
      obtain ⟨first, others⟩ := List.forall_mem_cons.mp whole
      obtain ⟨holds', size⟩ := holds.roomed place (l.length + 2)
      rw [unlines_cons, List.append_assoc, List.cons_append]
      obtain none | here := Nat.lt_or_ge (roomed place s (l.length + 2)).listsize
        (t.length + ((reading 5 l).codes true).length)
      · refine loop_overflow _ ?_
        rw [takeWhile_newline first, (line_ended first _).1]
        exact holds'.overflow _ none
      · obtain ⟨next, stored, behind, list, size'⟩ := holds'.stores _ here
        have full := fun roomy => full ⟨(holds.room place l true).mp here, roomy⟩
        rw [← size, ← size', ← List.length_append] at full
        rw [loop_newline first _ stored]
        split
        next some =>
          have same : entry l = (reading 5 l).codes true := if_pos some
          rw [same] at full
          exact ih behind others full
        next none =>
          have same : entry l = [] := if_neg none
          rw [same, List.append_nil] at full
          rw [holds'.cp, ← list]
          exact ih behind.back others full

end UnixV7.Cron
