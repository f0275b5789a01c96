import Mathlib.Data.Int.Notation
import UnixV7.Library.Bytes

/-!
# The compiler of the crontab

`number` and `init` of `cron.c`. The standard input is the list of its bytes that are still to be
read. A line is compiled by `line`, which tells what is stored; `init` stores it in `list`, whose
place `realloc` may change.
-/

namespace UnixV7.Cron

def LISTS : ℕ := 512

def EXACT : UInt8 := 100

def ANY : UInt8 := 101

def LIST : UInt8 := 102

def RANGE : UInt8 := 103

def EOS : UInt8 := 104

def newline : UInt8 := '\n'.toUInt8

def star : UInt8 := '*'.toUInt8

def comma : UInt8 := ','.toUInt8

def dash : UInt8 := '-'.toUInt8

def percent : UInt8 := '%'.toUInt8

def isdigit (c : UInt8) : Bool := '0'.toUInt8 ≤ c && c ≤ '9'.toUInt8

def isblank (c : UInt8) : Bool := c == ' '.toUInt8 || c == '\t'.toUInt8

/-! ## Numbers -/

/-- The loop of `number` over the digits, with the wrapping arithmetic of `int`. -/
def digits (n : BitVec 32) : List UInt8 → BitVec 32 × List UInt8
  | [] => (n, [])
  | c :: stdin =>
      if isdigit c then digits (n * 10 + BitVec.ofNat 32 c.toNat - BitVec.ofNat 32 48) stdin
      else (n, c :: stdin)

/-- The number, or less than zero, and the input from the character on that is put back. -/
def number (stdin : List UInt8) : ℤ × List UInt8 :=
  let read := digits 0 stdin
  (if read.1.toInt ≥ 100 then -1 else read.1.toInt, read.2)

theorem digits_length (n : BitVec 32) (stdin : List UInt8) :
    (digits n stdin).2.length ≤ stdin.length := by
  induction stdin generalizing n with
  | nil => exact Nat.le_refl 0
  | cons c stdin ih =>
      rw [digits]
      split
      · exact Nat.le_trans (ih _) (Nat.le_succ _)
      · exact Nat.le_refl _

theorem number_length (stdin : List UInt8) : (number stdin).2.length ≤ stdin.length :=
  digits_length 0 stdin

/-- The byte that is stored for a number. -/
def code (n : ℤ) : UInt8 := UInt8.ofNat n.toNat

/-! ## Lines -/

/-- What is stored of a part of a line, the input after it, and whether it is not ignored. Of a line
that is ignored the input begins with the character that was read last. -/
structure Read where
  stored : List UInt8
  stdin : List UInt8
  kept : Bool

/-- What was stored before. -/
def Read.after (before : List UInt8) (read : Read) : Read :=
  { read with stored := before ++ read.stored }

/-- The loop at `mlist`. -/
def mlist (stdin : List UInt8) : Read :=
  let n := (number stdin).1
  if n < 0 then ⟨[], (number stdin).2, false⟩
  else
    match _next : (number stdin).2 with
    | [] => ⟨[code n], [], false⟩
    | c :: rest =>
        if c = comma then (mlist rest).after [code n]
        else if isblank c then ⟨[code n, LIST], rest, true⟩
        else ⟨[code n], c :: rest, false⟩
termination_by stdin.length
decreasing_by
  have length := number_length stdin
  rw [_next] at length
  exact length

/-- The part at `mrange`. -/
def mrange (stdin : List UInt8) : Read :=
  let n := (number stdin).1
  if n < 0 then ⟨[], (number stdin).2, false⟩
  else
    match (number stdin).2 with
    | [] => ⟨[], [], false⟩
    | c :: stdin => if isblank c then ⟨[code n], stdin, true⟩ else ⟨[], c :: stdin, false⟩

/-- One of the five fields. -/
def field (stdin : List UInt8) : Read :=
  match stdin.dropWhile isblank with
  | [] => ⟨[], [], false⟩
  | c :: stdin =>
      if c = newline then ⟨[], c :: stdin, false⟩
      else if c = star then ⟨[ANY], stdin, true⟩
      else
        let n := (number (c :: stdin)).1
        if n < 0 then ⟨[], (number (c :: stdin)).2, false⟩
        else
          match (number (c :: stdin)).2 with
          | [] => ⟨[], [], false⟩
          | c :: stdin =>
              if c = comma then (mlist stdin).after [LIST, code n]
              else if c = dash then (mrange stdin).after [RANGE, code n]
              else if isblank c then ⟨[EXACT, code n], stdin, true⟩
              else ⟨[], c :: stdin, false⟩

/-- The loop that stores the command. -/
def text : List UInt8 → Read
  | [] => ⟨[], [], false⟩
  | c :: stdin =>
      if c = newline then ⟨[newline, 0], stdin, true⟩
      else (text stdin).after [if c = percent then newline else c]

/-- The fields from `i` on, in number `k`, and the command. -/
def fields : ℕ → List UInt8 → Read
  | 0, stdin =>
      match stdin.dropWhile isblank with
      | [] => ⟨[], [], false⟩
      | c :: stdin => if c = newline then ⟨[], c :: stdin, false⟩ else text (c :: stdin)
  | k + 1, stdin =>
      let read := field stdin
      if read.kept then (fields k read.stdin).after read.stored else read

/-- A line. -/
def line (stdin : List UInt8) : Read := fields 5 stdin

/-- The rest of a line is ignored; `none` at the end of the file. -/
def ignore : List UInt8 → Option (List UInt8)
  | [] => none
  | c :: stdin => if c = newline then some stdin else ignore stdin

/-! ## What is read gets shorter -/

theorem mlist_length (stdin : List UInt8) : (mlist stdin).stdin.length ≤ stdin.length := by
  have length := number_length stdin
  fun_induction mlist stdin with
  | case1 stdin => exact length
  | case2 stdin => exact Nat.zero_le _
  | case3 stdin n _ rest next ih =>
      rw [next, List.length_cons] at length
      have := ih (number_length rest)
      exact Nat.le_trans this (by omega)
  | case4 stdin n _ c rest next =>
      rw [next, List.length_cons] at length
      exact Nat.le_of_succ_le length
  | case5 stdin n _ c rest next =>
      rw [next] at length
      exact length

theorem mrange_length (stdin : List UInt8) : (mrange stdin).stdin.length ≤ stdin.length := by
  have length := number_length stdin
  fun_cases mrange stdin with
  | case1 => exact length
  | case2 => exact Nat.zero_le _
  | case3 n _ c rest next =>
      rw [next, List.length_cons] at length
      exact Nat.le_of_succ_le length
  | case4 n _ c rest next =>
      rw [next] at length
      exact length

theorem field_length (stdin : List UInt8) : (field stdin).stdin.length ≤ stdin.length := by
  have blanks := (List.dropWhile_suffix isblank (l := stdin)).length_le
  fun_cases field stdin with
  | case1 => exact Nat.zero_le _
  | case2 rest first =>
      rw [first] at blanks
      exact blanks
  | case3 rest first =>
      rw [first, List.length_cons] at blanks
      exact Nat.le_of_succ_le blanks
  | case4 c rest first =>
      rw [first] at blanks
      exact Nat.le_trans (number_length _) blanks
  | case5 => exact Nat.zero_le _
  | case6 c rest first _ _ n _ behind next =>
      have length := number_length (c :: rest)
      rw [next, List.length_cons] at length
      rw [first] at blanks
      exact Nat.le_trans (mlist_length behind) (by omega)
  | case7 c rest first _ _ n _ behind next =>
      have length := number_length (c :: rest)
      rw [next, List.length_cons] at length
      rw [first] at blanks
      exact Nat.le_trans (mrange_length behind) (by omega)
  | case8 c rest first _ _ n _ d behind next =>
      have length := number_length (c :: rest)
      rw [next, List.length_cons] at length
      rw [first] at blanks
      exact Nat.le_trans (Nat.le_of_succ_le length) blanks
  | case9 c rest first _ _ n _ d behind next =>
      have length := number_length (c :: rest)
      rw [next] at length
      rw [first] at blanks
      exact Nat.le_trans length blanks

/-- The newline behind the command is read. -/
theorem text_length (stdin : List UInt8) :
    (text stdin).stdin.length + (if (text stdin).kept then 1 else 0) ≤ stdin.length := by
  induction stdin with
  | nil => exact Nat.le_refl 0
  | cons c stdin ih =>
      rw [text]
      split
      next => exact Nat.le_refl _
      next => exact Nat.le_succ_of_le ih

theorem fields_length (k : ℕ) (stdin : List UInt8) :
    (fields k stdin).stdin.length + (if (fields k stdin).kept then 1 else 0) ≤ stdin.length := by
  induction k generalizing stdin with
  | zero =>
      have blanks := (List.dropWhile_suffix isblank (l := stdin)).length_le
      rw [fields]
      cases first : stdin.dropWhile isblank with
      | nil => exact Nat.zero_le _
      | cons c rest =>
          rw [first] at blanks
          dsimp only
          split
          next => exact blanks
          next => exact Nat.le_trans (text_length _) blanks
  | succ k ih =>
      rw [fields]
      split
      next => exact Nat.le_trans (ih _) (field_length stdin)
      next => exact field_length stdin

theorem ignore_length {stdin rest : List UInt8} (found : ignore stdin = some rest) :
    rest.length < stdin.length := by
  induction stdin with
  | nil => cases found
  | cons c stdin ih =>
      rw [ignore] at found
      split at found
      next =>
        cases found
        exact Nat.lt_succ_self _
      next => exact Nat.lt_succ_of_lt (ih found)

theorem line_kept {stdin : List UInt8} (kept : (line stdin).kept) :
    (line stdin).stdin.length < stdin.length := by
  have length := fields_length 5 stdin
  rw [← line, if_pos kept] at length
  exact length

theorem line_ignored {stdin rest : List UInt8} (found : ignore (line stdin).stdin = some rest) :
    rest.length < stdin.length := by
  have length := fields_length 5 stdin
  exact Nat.lt_of_lt_of_le (ignore_length found) (Nat.le_trans (Nat.le_add_right _ _) length)

/-! ## The list -/

/-- A byte would be stored outside of the list. -/
inductive Fault
  | outside
deriving DecidableEq

/-- The list, the place where the next byte is stored, and memory. -/
structure State where
  list : ℕ
  listsize : ℕ
  cp : ℕ
  bin : Bytes

/-- A byte is stored. -/
def store (s : State) (c : UInt8) : Except Fault State :=
  if s.list ≤ s.cp ∧ s.cp < s.list + s.listsize then
    .ok { s with bin := Function.update s.bin s.cp c, cp := s.cp + 1 }
  else .error .outside

/-- The list grows. `place` is where `realloc` puts it, with what it holds. -/
def grow (place : ℕ → ℕ) (s : State) (i : ℕ) : State :=
  let listsize := s.listsize + (i + LISTS)
  let list := place listsize
  { list := list
    listsize := listsize
    cp := list + (s.cp - s.list)
    bin := s.bin.splice list s.listsize fun a => s.bin (s.list + a) }

/-- The loop of `init`. -/
def loop (place : ℕ → ℕ) (s : State) (stdin : List UInt8) : Except Fault State :=
  let i := (stdin.takeWhile (· != newline)).length + 2
  let s := if s.cp + i > s.list + s.listsize then grow place s i else s
  match (line stdin).stored.foldlM store s with
  | .error fault => .error fault
  | .ok next =>
      if _kept : (line stdin).kept then loop place next (line stdin).stdin
      else
        match _rest : ignore (line stdin).stdin with
        | none => [EOS, EOS].foldlM store { next with cp := s.cp }
        | some rest => loop place { next with cp := s.cp } rest
termination_by stdin.length
decreasing_by
  · exact line_kept _kept
  · exact line_ignored _rest

/-- The list is compiled from the file. -/
def init (place : ℕ → ℕ) (bin : Bytes) (file : List UInt8) : Except Fault State :=
  loop place ⟨place LISTS, LISTS, place LISTS, bin⟩ file

end UnixV7.Cron
