import Mathlib.Data.Int.Notation
import Mathlib.Data.List.GetD
import Mathlib.Data.List.Induction
import UnixV7.Library.Bytes
import UnixV7.Library.Fuel
import UnixV7.Library.Lines

/-!
# The end of a file

`main` of `tail.c`. The end of the input is kept in a ring of bytes. What `read` gives is taken from
a list of pieces: a call gets the first one, or as much of it as it asks for.
-/

namespace UnixV7.Tail

open UnixV7.Fuel UnixV7.Lines

/-- The fuel is spent. -/
inductive Fault
  | running

def LBIN : ℕ := 4097

def newline : UInt8 := '\n'.toUInt8

/-- The character behind the number. -/
inductive Kind
  | b
  | c
  | l
  | r
deriving DecidableEq

/-- The argument: the sign, the digits and the character. -/
structure Arg where
  fromend : Bool
  digits : List ℕ
  kind : Kind

/-- The number, which stays below 2^31. -/
def number (digits : List ℕ) : ℕ :=
  digits.foldl (fun n d => if n ≤ 214748363 then n * 10 + d else 0x7fffffff) 0

/-! ## Reading -/

/-- `read` with room for `len` bytes: what it gives and the pieces to come. -/
def read (len : ℕ) : List (List UInt8) → List UInt8 × List (List UInt8)
  | [] => ([], [])
  | piece :: pieces =>
      if piece.length ≤ len then (piece, pieces) else (piece.take len, piece.drop len :: pieces)

/-- The bytes that are still to come. -/
def left (pieces : List (List UInt8)) : ℕ := pieces.flatten.length

theorem read_flatten (len : ℕ) (pieces : List (List UInt8)) :
    (read len pieces).1 ++ (read len pieces).2.flatten = pieces.flatten := by
  cases pieces with
  | nil => rfl
  | cons piece pieces =>
      rw [read]
      split
      · rfl
      · rw [List.flatten_cons, ← List.append_assoc, List.take_append_drop, List.flatten_cons]

theorem left_read {len : ℕ} {pieces : List (List UInt8)} (some : (read len pieces).1 ≠ []) :
    left (read len pieces).2 < left pieces := by
  have lengths := congrArg List.length (read_flatten len pieces)
  have positive := List.length_pos_iff.mpr some
  rw [List.length_append] at lengths
  unfold left
  omega

/-- The buffer with the place behind the last byte; `part` tells that it was never full. -/
structure Ring where
  bin : Bytes
  i : ℕ
  part : Bool

/-- The loop that fills the ring. -/
def fill (ring : Ring) (pieces : List (List UInt8)) : Ring :=
  let got := (read (LBIN - ring.i) pieces).1
  if _more : got ≠ [] then
    let bin := ring.bin.splice ring.i got.length fun a => got.getD a 0
    if ring.i + got.length < LBIN then
      fill { ring with bin := bin, i := ring.i + got.length } (read (LBIN - ring.i) pieces).2
    else fill ⟨bin, 0, false⟩ (read (LBIN - ring.i) pieces).2
  else ring
termination_by left pieces
decreasing_by
  · exact left_read _more
  · exact left_read _more

/-- The buffer at the start. -/
def empty : Ring := ⟨fun _ => 0, 0, true⟩

/-- What `write` takes from the buffer. -/
def slice (bin : Bytes) (a n : ℕ) : List UInt8 := (List.range n).map fun m => bin (a + m)

/-! ## From the end -/

/-- Back to a newline or to `i`, or to the start of what was read. -/
def back (ring : Ring) : ℕ → ℕ → Except Fault (Option ℕ)
  | 0, _ => .error .running
  | fuel + 1, k =>
      if k = 0 ∧ ring.part then .ok none
      else
        let k := if k = 0 then LBIN - 1 else k - 1
        if ring.bin k ≠ newline ∧ k ≠ ring.i then back ring fuel k else .ok (some k)

/-- The line between two newlines. -/
def line (ring : Ring) (k lastnl : ℕ) : List UInt8 :=
  if k < lastnl then slice ring.bin (k + 1) (lastnl - k)
  else slice ring.bin (k + 1) (LBIN - k - 1) ++ slice ring.bin 0 (lastnl + 1)

/-- Back over lines: where `k` ends, and what is written on the way. -/
def backs (ring : Ring) (bkwds : Bool) (n : ℕ) :
    ℕ → ℕ → ℕ → List UInt8 → Except Fault (Option ℕ × List UInt8)
  | 0, _, _, _ => .error .running
  | fuel + 1, lastnl, j, out => do
      match ← back ring fuel lastnl with
      | none => .ok (none, if bkwds then out ++ slice ring.bin 0 (lastnl + 1) else out)
      | some k =>
          let out := if bkwds ∧ j > 0 then out ++ line ring k lastnl else out
          if j < n ∧ k ≠ ring.i then backs ring bkwds n fuel k (j + 1) out else .ok (some k, out)

/-- On to a newline or to `i`. -/
def forth (ring : Ring) : ℕ → ℕ → Except Fault ℕ
  | 0, _ => .error .running
  | fuel + 1, k =>
      let k := if k + 1 ≥ LBIN then 0 else k + 1
      if ring.bin k ≠ newline ∧ k ≠ ring.i then forth ring fuel k else .ok k

/-- The last writes: what is behind `k`. -/
def rest (ring : Ring) (k : ℤ) : List UInt8 :=
  if k < ring.i then slice ring.bin (k + 1).toNat (ring.i - k - 1).toNat
  else slice ring.bin (k + 1).toNat (LBIN - k - 1).toNat ++ slice ring.bin 0 ring.i

/-- A trailing newline is forced when lines are written backwards. -/
def forced (ring : Ring) : Ring :=
  if ring.bin (if ring.i = 0 then LBIN - 1 else ring.i - 1) ≠ newline then
    let bin := Function.update ring.bin ring.i newline
    if ring.i + 1 ≥ LBIN then ⟨bin, 0, false⟩ else { ring with bin := bin, i := ring.i + 1 }
  else ring

/-- What is written of the characters in the ring. -/
def lastChars (ring : Ring) (n : ℕ) : List UInt8 :=
  let k : ℤ :=
    if n ≤ ring.i then ring.i - n
    else if ring.part then 0
    else if n ≥ LBIN then ring.i + 1
    else ring.i - n + LBIN
  rest ring (k - 1)

/-- What is written of the lines in the ring. -/
def lastLines (ring : Ring) (bkwds : Bool) (n fuel : ℕ) : Except Fault (List UInt8) := do
  let ring := if bkwds then forced ring else ring
  let found ← backs ring bkwds n fuel ring.i 0 []
  if bkwds then .ok found.2
  else
    match found.1 with
    | none => .ok (rest ring (-1))
    | some k =>
        if k = ring.i then do
          let k ← forth ring fuel k
          .ok (rest ring k)
        else .ok (rest ring k)

/-! ## From the beginning -/

/-- Over the end of a line; `none` at the end of the input. -/
def skipLine (buf : List UInt8) (pieces : List (List UInt8)) :
    Option (List UInt8 × List (List UInt8)) :=
  match buf with
  | c :: buf => if c ≠ newline then skipLine buf pieces else some (buf, pieces)
  | [] =>
      if _more : (read 512 pieces).1 ≠ [] then
        skipLine (read 512 pieces).1 (read 512 pieces).2
      else none
termination_by (left pieces, buf.length)
decreasing_by
  · exact Prod.Lex.right _ (Nat.lt_succ_self _)
  · exact Prod.Lex.left _ _ (left_read _more)

/-- The same over `n` lines. -/
def skipLines : ℕ → List UInt8 → List (List UInt8) → Option (List UInt8 × List (List UInt8))
  | 0, buf, pieces => some (buf, pieces)
  | n + 1, buf, pieces => skipLine buf pieces >>= fun next => skipLines n next.1 next.2

/-- Over `n` characters of a pipe. -/
def skipChars (n : ℕ) (pieces : List (List UInt8)) : Option (List (List UInt8)) :=
  if n = 0 then some pieces
  else
    let got := (read (if n > 512 then 512 else n) pieces).1
    if _more : got ≠ [] then
      skipChars (n - got.length) (read (if n > 512 then 512 else n) pieces).2
    else none
termination_by left pieces
decreasing_by exact left_read _more

/-- The loop at `copy`. -/
def copy (pieces : List (List UInt8)) : List UInt8 :=
  if _more : (read 512 pieces).1 ≠ [] then
    (read 512 pieces).1 ++ copy (read 512 pieces).2
  else []
termination_by left pieces
decreasing_by exact left_read _more

/-- What is written for an argument and the input `text`. From a place in the input on `deliver`
gives the pieces. -/
def tail (arg : Arg) (piped : Bool) (text : List UInt8)
    (deliver : List UInt8 → List (List UInt8)) (fuel : ℕ) : Except Fault (List UInt8) :=
  let n := number arg.digits
  let n := if ¬ arg.fromend ∧ n > 0 then n - 1 else n
  let n :=
    match arg.kind with
    | .b => if n < 4194304 then n * 512 else 0x7fffffff
    | .r => if n = 0 then LBIN else n
    | _ => n
  let bkwds := arg.kind = .r
  let bylines := arg.kind = .l ∨ arg.kind = .r
  if arg.fromend ∨ bkwds then
    if n = 0 then .ok []
    else
      let di := if bylines then LBIN - 1 else n
      let place := if ¬ piped ∧ text.length > di then text.length - di else 0
      if ¬ piped ∧ ¬ bylines then .ok (copy (deliver (text.drop place)))
      else
        let ring := fill empty (deliver (text.drop place))
        if bylines then lastLines ring bkwds n fuel else .ok (lastChars ring n)
  else if bylines then
    match skipLines n [] (deliver text) with
    | none => .ok []
    | some (buf, pieces) => .ok (buf ++ copy pieces)
  else if piped then
    match skipChars n (deliver text) with
    | none => .ok []
    | some pieces => .ok (copy pieces)
  else .ok (copy (deliver (text.drop n)))

/-! ## What `read` gives -/

variable {pieces : List (List UInt8)} {text : List UInt8} {ring : Ring} {lines : List (List UInt8)}

/-- Every piece has a byte. -/
def Pieces (pieces : List (List UInt8)) : Prop := ∀ piece ∈ pieces, piece ≠ []

theorem read_pieces (pieced : Pieces pieces) (len : ℕ) : Pieces (read len pieces).2 := by
  cases pieces with
  | nil => exact pieced
  | cons piece pieces =>
      obtain ⟨-, others⟩ := List.forall_mem_cons.mp pieced
      rw [read]
      split
      · exact others
      next long =>
        refine List.forall_mem_cons.mpr ⟨fun none => long ?_, others⟩
        exact List.drop_eq_nil_iff.mp none

theorem read_length (len : ℕ) (pieces : List (List UInt8)) : (read len pieces).1.length ≤ len := by
  cases pieces with
  | nil => exact Nat.zero_le _
  | cons piece pieces =>
      rw [read]
      split
      next short => exact short
      next => exact List.length_take_le _ _

theorem read_nil (pieced : Pieces pieces) {len : ℕ} (room : 0 < len)
    (none : (read len pieces).1 = []) : pieces = [] := by
  cases pieces with
  | nil => rfl
  | cons piece pieces =>
      have some := (List.forall_mem_cons.mp pieced).1
      rw [read] at none
      split at none
      · exact absurd none some
      · obtain empty | zero := List.take_eq_nil_iff.mp none
        · exact absurd empty room.ne'
        · exact absurd zero some

theorem copy_eq (pieced : Pieces pieces) : copy pieces = pieces.flatten := by
  fun_induction copy pieces with
  | case1 pieces more ih => rw [ih (read_pieces pieced 512), read_flatten]
  | case2 pieces none =>
      rw [read_nil pieced (by decide : 0 < 512) (not_not.mp none)]
      rfl

/-! ## The ring -/

/-- The ring of 4097 places has the last bytes of the text. -/
structure Kept (ring : Ring) (text : List UInt8) : Prop where
  place : ring.i = text.length % 4097
  part : ring.part = true ↔ text.length < 4097
  cell : ∀ a (inside : a < text.length), text.length ≤ a + 4097 →
    ring.bin (a % 4097) = text[a]

theorem Kept.empty : Kept empty [] where
  place := rfl
  part := by decide
  cell a inside := absurd inside (Nat.not_lt_zero a)

theorem Kept.append (kept : Kept ring text) {got : List UInt8} (some : got ≠ [])
    (room : got.length ≤ 4097 - ring.i) :
    Kept (if ring.i + got.length < 4097 then
        ⟨ring.bin.splice ring.i got.length fun a => got.getD a 0, ring.i + got.length, ring.part⟩
      else ⟨ring.bin.splice ring.i got.length fun a => got.getD a 0, 0, false⟩) (text ++ got) := by
  have place := kept.place
  have positive := List.length_pos_iff.mpr some
  have cell : ∀ a (inside : a < (text ++ got).length), (text ++ got).length ≤ a + 4097 →
      (ring.bin.splice ring.i got.length fun a => got.getD a 0) (a % 4097) = (text ++ got)[a] := by
    intro a inside near
    rw [List.length_append] at inside near
    rw [Bytes.splice]
    obtain old | new := Nat.lt_or_ge a text.length
    · rw [if_neg (by omega), kept.cell a old (by omega), List.getElem_append_left old]
    · have index : a % 4097 - ring.i = a - text.length := by omega
      rw [if_pos (by omega), index, List.getElem_append_right new, List.getD_eq_getElem]
  split
  next inside =>
    refine ⟨?_, ?_, cell⟩
    · rw [List.length_append]
      dsimp only
      omega
    · rw [List.length_append]
      have part := kept.part
      dsimp only
      rw [part]
      omega
  next full =>
    refine ⟨?_, ?_, cell⟩
    · rw [List.length_append]
      dsimp only
      omega
    · rw [List.length_append]
      refine iff_of_false Bool.false_ne_true ?_
      omega

theorem fill_kept (kept : Kept ring text) (pieced : Pieces pieces) :
    Kept (fill ring pieces) (text ++ pieces.flatten) := by
  have size : LBIN = 4097 := rfl
  fun_induction fill ring pieces generalizing text with
  | case1 ring pieces got more bin inside =>
      rename_i ih
      have next := kept.append more (read_length _ _)
      rw [if_pos (show ring.i + got.length < 4097 from inside)] at next
      have rest := ih next (read_pieces pieced _)
      rwa [List.append_assoc, read_flatten] at rest
  | case2 ring pieces got more bin full =>
      rename_i ih
      have next := kept.append more (read_length _ _)
      rw [if_neg (show ¬ ring.i + got.length < 4097 from full)] at next
      have rest := ih next (read_pieces pieced _)
      rwa [List.append_assoc, read_flatten] at rest
  | case3 ring pieces got =>
      rename_i none
      have place := kept.place
      rw [read_nil pieced (by omega : 0 < LBIN - ring.i) (not_not.mp none)]
      rwa [List.flatten_nil, List.append_nil]

/-- The bytes of the text from `a` up to `b`. -/
def between (text : List UInt8) (a b : ℕ) : List UInt8 := (text.take b).drop a

theorem between_append (text : List UInt8) {a b c : ℕ} (le : a ≤ b) (le' : b ≤ c)
    (inside : b ≤ text.length) : between text a b ++ between text b c = between text a c := by
  have first : (text.take c).take b = text.take b := by rw [List.take_take, Nat.min_eq_left le']
  have parts := List.take_append_drop b (text.take c)
  have length : a ≤ (text.take b).length := by
    rw [List.length_take]
    omega
  calc (text.take b).drop a ++ (text.take c).drop b
      = (text.take b ++ (text.take c).drop b).drop a :=
        (List.drop_append_of_le_length length).symm
    _ = (text.take c).drop a := by rw [← first, parts]

/-- A part of the ring that does not go over its end. -/
theorem Kept.slice (kept : Kept ring text) {a b : ℕ} (le : a ≤ b) (inside : b ≤ text.length)
    (near : text.length ≤ a + 4097) (whole : a % 4097 + (b - a) ≤ 4097) :
    slice ring.bin (a % 4097) (b - a) = between text a b := by
  refine List.ext_getElem ?_ fun m small _ => ?_
  · rw [Tail.slice, List.length_map, List.length_range, between, List.length_drop, List.length_take]
    omega
  · simp only [Tail.slice, List.length_map, List.length_range] at small
    have index : a % 4097 + m = (a + m) % 4097 := by omega
    simp only [Tail.slice, between, List.getElem_map, List.getElem_range, List.getElem_drop,
      List.getElem_take]
    rw [index]
    exact kept.cell (a + m) (by omega) (by omega)

theorem between_self (text : List UInt8) (a : ℕ) : between text a a = [] :=
  List.drop_eq_nil_of_le (List.length_take_le a text)

theorem between_length (text : List UInt8) (a : ℕ) : between text a text.length = text.drop a := by
  rw [between, List.take_length]

theorem slice_zero (bin : Bytes) (a : ℕ) : Tail.slice bin a 0 = [] := rfl

/-- From a place on up to the end of its turn around the ring. -/
theorem Kept.slice_turn (kept : Kept ring text) {a b : ℕ} (turn : b % 4097 = 0) (less : a < b)
    (next : b ≤ a + 4097) (inside : b ≤ text.length) (near : text.length ≤ a + 4097) :
    Tail.slice ring.bin (a % 4097 + 1) (4097 - a % 4097 - 1) = between text (a + 1) b := by
  obtain last | inner := Nat.eq_or_lt_of_le (show a + 1 ≤ b from less)
  · have none : 4097 - a % 4097 - 1 = 0 := by omega
    rw [none, slice_zero, last, between_self]
  · have start : a % 4097 + 1 = (a + 1) % 4097 := by omega
    have count : 4097 - a % 4097 - 1 = b - (a + 1) := by omega
    rw [start, count]
    exact kept.slice (by omega) inside (by omega) (by omega)

/-- From the beginning of a turn around the ring on. -/
theorem Kept.slice_start (kept : Kept ring text) {a b : ℕ} (turn : a % 4097 = 0) (le : a ≤ b)
    (inside : b ≤ text.length) (near : text.length ≤ a + 4097) (next : b ≤ a + 4097) :
    Tail.slice ring.bin 0 (b - a) = between text a b := by
  have whole := kept.slice le inside near (by omega)
  rwa [turn] at whole

/-- What is between two places of the ring. -/
theorem Kept.line (kept : Kept ring text) {a b : ℕ} (less : a < b) (inside : b < text.length)
    (near : text.length ≤ a + 4097) :
    line ring (a % 4097) (b % 4097) = between text (a + 1) (b + 1) := by
  rw [Tail.line]
  split
  next same =>
    have start : a % 4097 + 1 = (a + 1) % 4097 := by omega
    have count : b % 4097 - a % 4097 = b + 1 - (a + 1) := by omega
    rw [start, count]
    exact kept.slice (by omega) inside (by omega) (by omega)
  next other =>
    have turn : (b - b % 4097) % 4097 = 0 := by omega
    have count : b % 4097 + 1 = b + 1 - (b - b % 4097) := by omega
    rw [← between_append text (b := b - b % 4097) (by omega) (by omega) (by omega), count]
    exact congrArg₂ (· ++ ·)
      (kept.slice_turn turn (by omega) (by omega) (by omega) (by omega))
      (kept.slice_start turn (by omega) (by omega) (by omega) (by omega))

/-- What is behind a place of the ring. -/
theorem Kept.rest (kept : Kept ring text) {a : ℕ} (inside : a < text.length)
    (near : text.length ≤ a + 4097) :
    rest ring (a % 4097 : ℕ) = text.drop (a + 1) := by
  have place := kept.place
  rw [← between_length, Tail.rest]
  have start : ((a % 4097 : ℕ) + 1 : ℤ).toNat = a % 4097 + 1 := by omega
  split
  next same =>
    have first : a % 4097 + 1 = (a + 1) % 4097 := by omega
    have count : ((ring.i : ℤ) - (a % 4097 : ℕ) - 1).toNat = text.length - (a + 1) := by omega
    rw [start, first, count]
    exact kept.slice (by omega) le_rfl (by omega) (by omega)
  next other =>
    have turn : (text.length - text.length % 4097) % 4097 = 0 := by omega
    have count : ((LBIN : ℤ) - (a % 4097 : ℕ) - 1).toNat = 4097 - a % 4097 - 1 := by
      have size : LBIN = 4097 := rfl
      omega
    have behind : ring.i = text.length - (text.length - text.length % 4097) := by omega
    rw [start, count, ← between_append text (b := text.length - text.length % 4097) (by omega)
      (by omega) (by omega), kept.slice_turn turn (by omega) (by omega) (by omega) near]
    congr 1
    rw [behind]
    exact kept.slice_start turn (by omega) le_rfl (by omega) (by omega)

/-- A ring that was never full. -/
theorem Kept.rest_part (kept : Kept ring text) (small : text.length < 4097) :
    Tail.rest ring (-1) = text := by
  have place := kept.place
  have negative : (-1 : ℤ) < ring.i := by omega
  have count : ((ring.i : ℤ) - -1 - 1).toNat = text.length - 0 := by omega
  rw [Tail.rest, if_pos negative, count]
  have whole := kept.slice_start (b := text.length) rfl (Nat.zero_le _) le_rfl (by omega) (by omega)
  rwa [between_length] at whole

/-- As many characters as are asked for, as there are, or as the ring holds but one. -/
theorem lastChars_eq (kept : Kept ring text) (n : ℕ) :
    lastChars ring n = text.drop (text.length - min n 4096) := by
  have size : LBIN = 4097 := rfl
  have place := kept.place
  rw [lastChars]
  obtain few | many := Nat.lt_or_ge ring.i n
  · rw [if_neg (Nat.not_le_of_lt few)]
    obtain part | full := em (text.length < 4097)
    · have none : text.length - min n 4096 = 0 := by omega
      rw [if_pos (kept.part.mpr part), none]
      exact kept.rest_part part
    · rw [if_neg (mt kept.part.mp full)]
      obtain large | small := Nat.lt_or_ge n 4097
      · have index : (ring.i - n + LBIN - 1 : ℤ) = ((text.length - n - 1) % 4097 : ℕ) := by omega
        have start : text.length - n - 1 + 1 = text.length - min n 4096 := by omega
        rw [if_neg (by omega), index, kept.rest (by omega) (by omega), start]
      · have index : (ring.i + 1 - 1 : ℤ) = ((text.length - 4097) % 4097 : ℕ) := by omega
        have start : text.length - 4097 + 1 = text.length - min n 4096 := by omega
        rw [if_pos (by omega), index, kept.rest (by omega) (by omega), start]
  · rw [if_pos many, Tail.rest, if_pos (by omega)]
    have first : ((ring.i : ℤ) - n - 1 + 1).toNat = (text.length - n) % 4097 := by omega
    have count : ((ring.i : ℤ) - (ring.i - n - 1) - 1).toNat = text.length - (text.length - n) := by
      omega
    have start : text.length - n = text.length - min n 4096 := by omega
    rw [first, count, kept.slice (by omega) le_rfl (by omega) (by omega), between_length, start]

/-! ## Back and forth over newlines -/

theorem Kept.getElem (kept : Kept ring text) {a : ℕ} (inside : a < text.length)
    (near : text.length ≤ a + 4097) : some (ring.bin (a % 4097)) = text[a]? := by
  rw [kept.cell a inside near, List.getElem?_eq_getElem inside]

/-- Back to the last newline before a place. -/
theorem back_spec (kept : Kept ring text) {a b : ℕ} (less : a < b) (inside : b ≤ text.length)
    (near : text.length ≤ a + 4097) (here : text[a]? = some newline)
    (free : ∀ c, a < c → c < b → text[c]? ≠ some newline) :
    Settles (fun fuel => back ring fuel (b % 4097)) (some (a % 4097)) := by
  have size : LBIN = 4097 := rfl
  have place := kept.place
  have part := kept.part
  obtain ⟨gap, measure⟩ : ∃ gap, b = a + 1 + gap := ⟨b - a - 1, by omega⟩
  have first : ¬ (b % 4097 = 0 ∧ ring.part) := fun both => by
    have := part.mp both.2
    omega
  have index : (if b % 4097 = 0 then LBIN - 1 else b % 4097 - 1) = (b - 1) % 4097 := by
    split <;> omega
  have cell := kept.getElem (a := b - 1) (by omega) (by omega)
  induction gap generalizing b with
  | zero =>
      have last : b - 1 = a := by omega
      refine (Settles.pure (some (a % 4097))).succ fun fuel => ?_
      rw [back, if_neg first]
      dsimp only
      rw [index, last]
      rw [last, here] at cell
      exact if_neg fun both => both.1 (Option.some.inj cell)
  | succ gap ih =>
      have other : text[b - 1]? ≠ some newline := free (b - 1) (by omega) (by omega)
      refine (ih (b := b - 1) (by omega) (by omega) (fun c low high => free c low (by omega))
        (by omega) (fun both => ?_) ?_ ?_).succ fun fuel => ?_
      · have := part.mp both.2
        omega
      · split <;> omega
      · exact kept.getElem (by omega) (by omega)
      · rw [back, if_neg first]
        dsimp only
        rw [index]
        refine if_pos ⟨fun same => other ?_, ?_⟩
        · rw [← cell, same]
        · omega

/-- Back to the start of what was read. -/
theorem back_none (kept : Kept ring text) (small : text.length < 4097) {b : ℕ}
    (inside : b ≤ text.length) (free : ∀ c < b, text[c]? ≠ some newline) :
    Settles (fun fuel => back ring fuel b) none := by
  have place := kept.place
  have part := kept.part.mpr small
  induction b with
  | zero => exact (Settles.pure none).succ fun fuel => if_pos ⟨rfl, part⟩
  | succ b ih =>
      have cell := kept.getElem (a := b) inside (by omega)
      rw [Nat.mod_eq_of_lt (by omega)] at cell
      refine (ih (by omega) fun c low => free c (by omega)).succ fun fuel => ?_
      rw [back, if_neg fun both => Nat.succ_ne_zero b both.1]
      dsimp only
      rw [if_neg (Nat.succ_ne_zero b), Nat.add_sub_cancel]
      refine if_pos ⟨fun same => free b (Nat.lt_succ_self b) ?_, by omega⟩
      rw [← cell, same]

/-- On to the next newline. -/
theorem forth_spec (kept : Kept ring text) {a b : ℕ} (less : a < b) (inside : b < text.length)
    (near : text.length ≤ a + 4097) (here : text[b]? = some newline)
    (free : ∀ c, a < c → c < b → text[c]? ≠ some newline) :
    Settles (fun fuel => forth ring fuel (a % 4097)) (b % 4097) := by
  have size : LBIN = 4097 := rfl
  have place := kept.place
  obtain ⟨gap, measure⟩ : ∃ gap, b = a + 1 + gap := ⟨b - a - 1, by omega⟩
  induction gap generalizing a with
  | zero =>
      have cell := kept.getElem (a := b) (by omega) (by omega)
      have index : (if a % 4097 + 1 ≥ LBIN then 0 else a % 4097 + 1) = b % 4097 := by
        split <;> omega
      refine (Settles.pure (b % 4097)).succ fun fuel => ?_
      rw [forth, index]
      rw [here] at cell
      exact if_neg fun both => both.1 (Option.some.inj cell)
  | succ gap ih =>
      have cell := kept.getElem (a := a + 1) (by omega) (by omega)
      have index : (if a % 4097 + 1 ≥ LBIN then 0 else a % 4097 + 1) = (a + 1) % 4097 := by
        split <;> omega
      have other : text[a + 1]? ≠ some newline := free (a + 1) (by omega) (by omega)
      refine (ih (a := a + 1) (by omega) (by omega) (fun c low high => free c (by omega) high)
        (by omega)).succ fun fuel => ?_
      rw [forth, index]
      refine if_pos ⟨fun same => other ?_, ?_⟩
      · rw [← cell, same]
      · omega

/-! ## Back over lines -/

/-- The place of the newline before a line. -/
def mark (lines : List (List UInt8)) (s : ℕ) : ℕ := offset newline lines s - 1

/-- The lines from `q` up to `s`, the last one first. -/
def reversed (lines : List (List UInt8)) (q s : ℕ) : List UInt8 :=
  unlines newline ((lines.take s).drop q).reverse

theorem reversed_self (lines : List (List UInt8)) (q : ℕ) : reversed lines q q = [] := by
  rw [reversed, List.drop_eq_nil_of_le (List.length_take_le q lines)]
  rfl

theorem reversed_succ {q s : ℕ} (le : q ≤ s) (inside : s < lines.length) :
    reversed lines q (s + 1) = lines[s] ++ newline :: reversed lines q s := by
  have length : q ≤ (lines.take s).length := by
    rw [List.length_take]
    omega
  rw [reversed, List.take_succ_eq_append_getElem inside, List.drop_append_of_le_length length,
    List.reverse_append, List.reverse_singleton, List.singleton_append, unlines_cons]
  rfl

/-- A line in the text. -/
theorem between_offset {s : ℕ} (inside : s < lines.length) :
    between (unlines newline lines) (offset newline lines s) (offset newline lines (s + 1)) =
      lines[s] ++ [newline] := by
  have parts := unlines_append newline (lines.take s) [lines[s]]
  rw [between, take_offset, List.take_succ_eq_append_getElem inside, parts, offset, List.drop_left,
    unlines_cons, unlines_nil]

/-- No line has a newline. -/
def Whole (lines : List (List UInt8)) : Prop := ∀ line ∈ lines, newline ∉ line

/-- Between two marks there is no newline. -/
theorem Whole.free (whole : Whole lines) {s c : ℕ} (inside : s < lines.length)
    (low : offset newline lines s ≤ c) (high : c < mark lines (s + 1)) :
    (unlines newline lines)[c]? ≠ some newline := by
  unfold mark at high
  exact getElem_inside inside (whole _ (List.getElem_mem inside)) low (by omega)

/-- What of the text is asked for: the lines from `q` on, in number `n` unless they are all, and
with 4096 bytes at most. -/
structure Asked (lines : List (List UInt8)) (n q : ℕ) : Prop where
  inside : q ≤ lines.length
  room : (unlines newline lines).length ≤ offset newline lines q + 4096
  count : q = 0 ∧ lines.length ≤ n ∨ 0 < q ∧ lines.length - q = n

theorem mark_succ {lines : List (List UInt8)} {s : ℕ} (inside : s < lines.length) :
    mark lines (s + 1) + 1 = offset newline lines (s + 1) := by
  have next := offset_succ (a := newline) inside
  unfold mark
  omega

theorem mark_lt {s : ℕ} (inside : s < lines.length) :
    mark lines (s + 1) < (unlines newline lines).length := by
  have last := offset_le (a := newline) (k := s + 1) inside le_rfl
  rw [offset_length, ← mark_succ inside] at last
  exact last

/-- From the first newline there is no way back. -/
theorem backs_first (bkwds : Bool) (n j : ℕ) (kept : Kept ring (unlines newline lines))
    (whole : Whole lines) (some : 0 < lines.length)
    (small : (unlines newline lines).length < 4097) (out : List UInt8) :
    Settles (fun fuel => backs ring bkwds n fuel (mark lines 1 % 4097) j out)
      (none, if bkwds then out ++ reversed lines 0 1 else out) := by
  have inside := mark_lt some
  have next := mark_succ some
  rw [Nat.zero_add] at inside next
  have back := back_none kept small inside.le fun c high => whole.free some (Nat.zero_le c) high
  have written : slice ring.bin 0 (mark lines 1 + 1) = reversed lines 0 1 := by
    have part := kept.slice_start (a := 0) (b := mark lines 1 + 1) rfl (Nat.zero_le _) inside
      (by omega) (by omega)
    have text := between_offset some
    rw [offset_zero, Nat.zero_add] at text
    rw [Nat.sub_zero] at part
    rw [part, next, text, reversed_succ le_rfl some, reversed_self]
  rw [Nat.mod_eq_of_lt (inside.trans small)]
  obtain ⟨bound, back⟩ := back
  refine ⟨bound + 1, fun fuel enough => ?_⟩
  obtain ⟨fuel, rfl⟩ : ∃ rest, fuel = rest + 1 := ⟨fuel - 1, by omega⟩
  have found : Tail.back ring fuel (mark lines 1) = .ok none := back fuel (by omega)
  dsimp only
  rw [backs, found, written]
  rfl

/-- From one mark to the one before it. -/
theorem backs_turn (bkwds : Bool) (n : ℕ) {j s : ℕ} (later : 0 < j)
    (kept : Kept ring (unlines newline lines)) (whole : Whole lines) (first : 0 < s)
    (inside : s < lines.length)
    (room : (unlines newline lines).length ≤ offset newline lines s + 4096) (out : List UInt8)
    {result : Option ℕ × List UInt8}
    (go : Settles (fun fuel => if j < n ∧ mark lines s % 4097 ≠ ring.i then
        backs ring bkwds n fuel (mark lines s % 4097) (j + 1)
          (if bkwds then out ++ (lines[s] ++ [newline]) else out)
      else .ok (some (mark lines s % 4097),
        if bkwds then out ++ (lines[s] ++ [newline]) else out)) result) :
    Settles (fun fuel => backs ring bkwds n fuel (mark lines (s + 1) % 4097) j out) result := by
  obtain ⟨s, rfl⟩ : ∃ s', s = s' + 1 := ⟨s - 1, by omega⟩
  have low := mark_succ (show s < lines.length by omega)
  have high := mark_succ inside
  have last := mark_lt inside
  have step := offset_succ (a := newline) inside
  have here : (unlines newline lines)[mark lines (s + 1)]? = some newline :=
    getElem_separator newline (by omega)
  have back := back_spec kept (a := mark lines (s + 1)) (b := mark lines (s + 1 + 1)) (by omega)
    last.le (by omega) here fun c above below => whole.free inside (by omega) below
  have written := kept.line (a := mark lines (s + 1)) (b := mark lines (s + 1 + 1)) (by omega) last
    (by omega)
  rw [low, high, between_offset inside] at written
  obtain ⟨m, back⟩ := back
  obtain ⟨m', go⟩ := go
  refine ⟨max m m' + 1, fun fuel enough => ?_⟩
  obtain ⟨fuel, rfl⟩ : ∃ rest, fuel = rest + 1 := ⟨fuel - 1, by omega⟩
  have found : Tail.back ring fuel (mark lines (s + 1 + 1) % 4097) =
      .ok (some (mark lines (s + 1) % 4097)) := back fuel (by omega)
  have rest := go fuel (by omega)
  dsimp only at rest ⊢
  rw [backs, found, ← rest, ← written]
  cases bkwds with
  | false => rfl
  | true =>
      simp only [bind, Except.bind, true_and, gt_iff_lt, later, if_true]

/-- From the mark of a line back to the last one that is asked for. -/
theorem backs_run (bkwds : Bool) {n q s : ℕ} (kept : Kept ring (unlines newline lines))
    (whole : Whole lines) (asked : Asked lines n q) (above : q < s) (inside : s ≤ lines.length)
    (out : List UInt8) :
    Settles (fun fuel => backs ring bkwds n fuel (mark lines s % 4097) (lines.length - s + 1) out)
      (if q = 0 then none else some (mark lines q % 4097),
        if bkwds then out ++ reversed lines q s else out) := by
  have place := kept.place
  have room := asked.room
  have count := asked.count
  induction s generalizing out with
  | zero => exact absurd above (Nat.not_lt_zero q)
  | succ s ih =>
      have here : s < lines.length := inside
      obtain first | more := Nat.eq_zero_or_pos s
      · obtain rfl : q = 0 := by omega
        obtain rfl := first
        rw [offset_zero] at room
        exact backs_first bkwds n _ kept whole here (by omega) out
      · have order := offset_le (a := newline) (show q ≤ s by omega) here.le
        refine backs_turn bkwds n (Nat.succ_pos _) kept whole more here (by omega) out ?_
        have text := reversed_succ (show q ≤ s by omega) here
        obtain last | further := Nat.eq_or_lt_of_le (show q ≤ s by omega)
        · subst last
          have stop : ¬ (lines.length - (q + 1) + 1 < n ∧ mark lines q % 4097 ≠ ring.i) := by
            omega
          rw [if_neg (show q ≠ 0 by omega), text, reversed_self]
          exact (Settles.pure _).congr fun _ => if_neg stop
        · have less := offset_lt (a := newline) further here.le
          have total := offset_le (a := newline) here.le le_rfl
          rw [offset_length] at total
          have apart : mark lines s % 4097 ≠ ring.i := by
            unfold mark
            omega
          have go : lines.length - (s + 1) + 1 < n ∧ mark lines s % 4097 ≠ ring.i :=
            ⟨by omega, apart⟩
          have steps : lines.length - s = lines.length - (s + 1) + 1 := by omega
          have next := ih further here.le
            (if bkwds then out ++ (lines[s] ++ [newline]) else out)
          have joined : (if bkwds then (if bkwds then out ++ (lines[s] ++ [newline]) else out) ++
              reversed lines q s else (if bkwds then out ++ (lines[s] ++ [newline]) else out)) =
              if bkwds then out ++ reversed lines q (s + 1) else out := by
            rw [text]
            cases bkwds with
            | false => rfl
            | true => simp
          rw [steps, joined] at next
          exact next.congr fun _ => if_pos go

/-- Where a text of lines ends there is a newline. -/
theorem getElem_last (above : 0 < lines.length) :
    (unlines newline lines)[(unlines newline lines).length - 1]? = some newline := by
  have inside : lines.length - 1 < lines.length := by omega
  have here := getElem_separator newline inside
  have all : lines.length - 1 + 1 = lines.length := by omega
  rwa [all, offset_length] at here

theorem mark_length (above : 0 < lines.length) :
    mark lines lines.length + 1 = (unlines newline lines).length := by
  have inside : lines.length - 1 < lines.length := by omega
  have last := mark_succ inside
  have all : lines.length - 1 + 1 = lines.length := by omega
  rwa [all, offset_length] at last

/-- From the end of the text back to the last line that is asked for. -/
theorem backs_lines (bkwds : Bool) {n q : ℕ} (positive : 0 < n)
    (kept : Kept ring (unlines newline lines)) (whole : Whole lines) (asked : Asked lines n q)
    (above : q < lines.length) :
    Settles (fun fuel => backs ring bkwds n fuel ring.i 0 [])
      (if q = 0 then none else some (mark lines q % 4097),
        if bkwds then reversed lines q lines.length else []) := by
  have many : 0 < lines.length := by omega
  have last := mark_length many
  have place := kept.place
  have here : (unlines newline lines)[mark lines lines.length]? = some newline := by
    rw [← getElem_last many, ← last, Nat.add_sub_cancel]
  have back := back_spec kept (a := mark lines lines.length) (b := (unlines newline lines).length)
    (by omega) le_rfl (by omega) here fun c low high => by omega
  rw [← place] at back
  have run := backs_run bkwds kept whole asked above le_rfl []
  have apart : mark lines lines.length % 4097 ≠ ring.i := by
    rw [place, ← last]
    omega
  have go : 0 < n ∧ mark lines lines.length % 4097 ≠ ring.i := ⟨positive, apart⟩
  obtain ⟨m, back⟩ := back
  obtain ⟨m', run⟩ := run
  refine ⟨max m m' + 1, fun fuel enough => ?_⟩
  obtain ⟨fuel, rfl⟩ : ∃ rest, fuel = rest + 1 := ⟨fuel - 1, by omega⟩
  have found : Tail.back ring fuel ring.i = .ok (some (mark lines lines.length % 4097)) :=
    back fuel (by omega)
  have rest := run fuel (by omega)
  dsimp only at rest ⊢
  rw [Nat.sub_self, List.nil_append] at rest
  rw [backs, found, ← rest]
  simp only [bind, Except.bind, gt_iff_lt, lt_irrefl, and_false, if_false, if_pos go]

/-- An empty ring has no lines. -/
theorem backs_none (bkwds : Bool) (n : ℕ) (kept : Kept ring []) :
    Settles (fun fuel => backs ring bkwds n fuel ring.i 0 [])
      (none, if bkwds then slice ring.bin 0 (ring.i + 1) else []) := by
  have place : ring.i = 0 := kept.place
  have part := kept.part.mpr (by decide)
  refine ⟨2, fun fuel enough => ?_⟩
  obtain ⟨fuel, rfl⟩ : ∃ rest, fuel = rest + 1 + 1 := ⟨fuel - 2, by omega⟩
  have found : Tail.back ring (fuel + 1) ring.i = .ok none := if_pos ⟨place, part⟩
  dsimp only
  rw [backs, found]
  rfl

/-- Where the lines begin that are written in order: the ring keeps no newline before them when they
have 4096 bytes of more. -/
def start (lines : List (List UInt8)) (q : ℕ) : ℕ :=
  if 0 < q ∧ (unlines newline lines).length = offset newline lines q + 4096 then q + 1 else q

theorem Asked.lt {n q : ℕ} (asked : Asked lines n q) (positive : 0 < n) (some : lines ≠ []) :
    q < lines.length := by
  have count := asked.count
  have := List.length_pos_iff.mpr some
  omega

/-- The last lines, unless the newline before them is the oldest byte of a full ring: then all but
the first of them. -/
theorem lastLines_forward {n q : ℕ} (positive : 0 < n)
    (kept : Kept ring (unlines newline lines)) (whole : Whole lines) (asked : Asked lines n q) :
    Settles (fun fuel => lastLines ring false n fuel)
      (unlines newline (lines.drop (start lines q))) := by
  have place := kept.place
  have room := asked.room
  obtain rfl | some := eq_or_ne lines []
  · obtain ⟨bound, found⟩ := backs_none false n kept
    refine ⟨bound, fun fuel enough => ?_⟩
    dsimp only
    rw [lastLines]
    simp only [Bool.false_eq_true, if_false, found fuel enough, bind, Except.bind]
    rw [kept.rest_part (by decide), List.drop_nil]
  · have above := asked.lt positive some
    obtain ⟨m, run⟩ := backs_lines false positive kept whole asked above
    obtain rfl | later := Nat.eq_zero_or_pos q
    · refine ⟨m, fun fuel enough => ?_⟩
      rw [offset_zero] at room
      dsimp only
      rw [lastLines]
      simp only [Bool.false_eq_true, if_false, run fuel enough, if_true, bind, Except.bind]
      rw [kept.rest_part (by omega), start, if_neg fun both => Nat.lt_irrefl 0 both.1]
      rfl
    · have inside : q - 1 < lines.length := by omega
      have here := mark_succ inside
      rw [Nat.sub_add_cancel later] at here
      have less := offset_lt (a := newline) above le_rfl
      rw [offset_length] at less
      obtain full | free := em ((unlines newline lines).length = offset newline lines q + 4096)
      · have next := mark_succ above
        have last := mark_lt above
        have step := offset_succ (a := newline) above
        have same : mark lines q % 4097 = ring.i := by
          rw [place, full, ← here]
          omega
        obtain ⟨m', forth⟩ := forth_spec kept (a := mark lines q) (b := mark lines (q + 1))
          (by omega) last (by omega) (getElem_separator newline above)
          fun c low high => whole.free above (by omega) high
        refine ⟨max m m', fun fuel enough => ?_⟩
        have found : Tail.forth ring fuel (mark lines q % 4097) = .ok (mark lines (q + 1) % 4097) :=
          forth fuel (by omega)
        dsimp only
        rw [lastLines]
        simp only [Bool.false_eq_true, if_false, run fuel (by omega), if_neg later.ne', bind,
          Except.bind, if_pos same, found]
        rw [kept.rest last (by omega), next, drop_offset, start, if_pos ⟨later, full⟩]
      · have apart : mark lines q % 4097 ≠ ring.i := by
          rw [place]
          omega
        refine ⟨m, fun fuel enough => ?_⟩
        dsimp only
        rw [lastLines]
        simp only [Bool.false_eq_true, if_false, run fuel enough, if_neg later.ne', bind,
          Except.bind, if_neg apart]
        rw [kept.rest (by omega) (by omega), here, drop_offset, start,
          if_neg fun both => free both.2]

/-- The last lines, the last one first. -/
theorem lastLines_backward {n q : ℕ} (positive : 0 < n)
    (kept : Kept ring (unlines newline lines)) (whole : Whole lines) (asked : Asked lines n q)
    (some : lines ≠ []) :
    Settles (fun fuel => lastLines ring true n fuel) (unlines newline (lines.drop q).reverse) := by
  have size : LBIN = 4097 := rfl
  have place := kept.place
  have above := asked.lt positive some
  have length := mark_length (List.length_pos_iff.mpr some)
  obtain ⟨m, run⟩ := backs_lines true positive kept whole asked above
  have last := kept.getElem (a := (unlines newline lines).length - 1) (by omega) (by omega)
  rw [getElem_last (List.length_pos_iff.mpr some)] at last
  have index : (if ring.i = 0 then LBIN - 1 else ring.i - 1) =
      ((unlines newline lines).length - 1) % 4097 := by
    split <;> omega
  have unforced : forced ring = ring := by
    rw [forced, index]
    exact if_neg fun other => other (Option.some.inj last)
  refine ⟨m, fun fuel enough => ?_⟩
  dsimp only
  rw [lastLines]
  simp only [if_true, unforced, run fuel enough, bind, Except.bind]
  rw [reversed, List.take_length]

/-- A newline is forced into an empty ring and is written. -/
theorem lastLines_empty {n : ℕ} (positive : 0 < n) :
    Settles (fun fuel => lastLines Tail.empty true n fuel) [newline] := by
  have forced : forced Tail.empty = ⟨Function.update Tail.empty.bin 0 newline, 1, true⟩ := rfl
  have kept : Kept ⟨Function.update Tail.empty.bin 0 newline, 1, true⟩ (unlines newline [[]]) := by
    refine ⟨rfl, by decide, fun a inside near => ?_⟩
    obtain rfl : a = 0 := Nat.lt_one_iff.mp inside
    rfl
  have whole : Whole [[]] := fun line mem => by
    rw [List.mem_singleton.mp mem]
    exact List.not_mem_nil
  have asked : Asked [[]] n 0 := ⟨Nat.zero_le _, by decide, .inl ⟨rfl, positive⟩⟩
  obtain ⟨m, run⟩ := backs_lines true positive kept whole asked Nat.one_pos
  refine ⟨m, fun fuel enough => ?_⟩
  dsimp only
  rw [lastLines]
  simp only [if_true, forced, run fuel enough, bind, Except.bind]
  rfl

/-! ## Over lines from the beginning -/

theorem skipLine_eq {buf line : List UInt8} (pieced : Pieces pieces) (free : newline ∉ line)
    (here : buf ++ pieces.flatten = line ++ newline :: text) :
    ∃ next, skipLine buf pieces = some next ∧ Pieces next.2 ∧ next.1 ++ next.2.flatten = text := by
  fun_induction skipLine buf pieces generalizing line with
  | case1 pieces c buf other ih =>
      cases line with
      | nil => exact absurd (List.cons.inj here).1 other
      | cons c' line => exact ih pieced (fun mem => free (.tail _ mem)) (List.cons.inj here).2
  | case2 pieces c buf same =>
      cases line with
      | nil => exact ⟨(buf, pieces), rfl, pieced, (List.cons.inj here).2⟩
      | cons c' line =>
          obtain ⟨rfl, -⟩ := List.cons.inj here
          exact absurd (not_not.mp same ▸ List.mem_cons_self) free
  | case3 pieces more ih =>
      rw [List.nil_append, ← read_flatten 512] at here
      exact ih (read_pieces pieced 512) free here
  | case4 pieces none =>
      rw [read_nil pieced (by decide : 0 < 512) (not_not.mp none)] at here
      exact absurd here.symm (List.append_ne_nil_of_right_ne_nil line (List.cons_ne_nil _ _))

theorem skipLine_nil (pieces : List (List UInt8)) (ended : pieces.flatten = []) :
    skipLine [] pieces = none := by
  have first := (List.append_eq_nil_iff.mp ((read_flatten 512 pieces).trans ended)).1
  rw [skipLine.eq_def]
  exact dif_neg (not_not.mpr first)

/-- What is behind the lines that are skipped. -/
theorem skipLines_eq {buf : List UInt8} (pieced : Pieces pieces) (whole : Whole lines)
    (here : buf ++ pieces.flatten = unlines newline lines) (k : ℕ) :
    (skipLines k buf pieces).elim [] (fun next => next.1 ++ copy next.2) =
      unlines newline (lines.drop k) := by
  induction k generalizing buf pieces lines with
  | zero =>
      rw [List.drop_zero, ← here, ← copy_eq pieced]
      rfl
  | succ k ih =>
      cases lines with
      | nil =>
          obtain ⟨rfl, ended⟩ := List.append_eq_nil_iff.mp here
          rw [skipLines, skipLine_nil pieces ended]
          rfl
      | cons line lines =>
          obtain ⟨free, others⟩ := List.forall_mem_cons.mp whole
          rw [unlines_cons] at here
          obtain ⟨next, skipped, pieced, behind⟩ := skipLine_eq pieced free here
          rw [skipLines, skipped]
          exact ih pieced others behind

/-! ## The number -/

/-- What the digits say. -/
def value (digits : List ℕ) : ℕ := digits.foldl (fun n d => n * 10 + d) 0

theorem number_eq {digits : List ℕ} (decimal : ∀ d ∈ digits, d < 10) :
    number digits = if value digits ≤ 2147483639 then value digits else 2147483647 := by
  induction digits using List.reverseRecOn with
  | nil => rfl
  | append_singleton digits d ih =>
      have small := decimal d (by simp)
      have before := ih fun e mem => decimal e (List.mem_append_left _ mem)
      have next : number (digits ++ [d]) = if number digits ≤ 214748363 then number digits * 10 + d
          else 0x7fffffff := by
        rw [number, List.foldl_append]
        rfl
      have exact : value (digits ++ [d]) = value digits * 10 + d := by
        rw [value, List.foldl_append]
        rfl
      rw [next, exact, before]
      split_ifs <;> omega

theorem number_pos {digits : List ℕ} (decimal : ∀ d ∈ digits, d < 10)
    (positive : 0 < value digits) : 0 < number digits := by
  rw [number_eq decimal]
  split
  · exact positive
  · decide

/-! ## What is printed -/

/-- What is delivered of a text is its bytes, in pieces of any sizes. -/
structure Delivers (deliver : List UInt8 → List (List UInt8)) : Prop where
  pieced : ∀ text, Pieces (deliver text)
  whole : ∀ text, (deliver text).flatten = text

variable {deliver : List UInt8 → List (List UInt8)} {piped : Bool} {digits : List ℕ}

theorem Delivers.kept (delivers : Delivers deliver) (text : List UInt8) :
    Kept (fill Tail.empty (deliver text)) text := by
  have filled := fill_kept Kept.empty (delivers.pieced text)
  rwa [delivers.whole text] at filled

/-- A text that is empty or ends in a newline is one of lines. -/
theorem exists_whole (ends : text = [] ∨ text.getLast? = some newline) :
    ∃ lines, Whole lines ∧ text = unlines newline lines := by
  obtain ⟨lines, rest, rfl, free, whole⟩ := exists_unlines (a := newline) text
  obtain rfl | some := eq_or_ne rest []
  · exact ⟨lines, whole, List.append_nil _⟩
  · obtain none | last := ends
    · exact absurd (List.append_eq_nil_iff.mp none).2 some
    · rw [List.getLast?_append_of_ne_nil _ some] at last
      exact absurd (List.mem_of_getLast? last) free

/-- The last lines. -/
def lasts (n : ℕ) (lines : List (List UInt8)) : List (List UInt8) :=
  lines.drop (lines.length - n)

/-- The number may be less than the digits say when the lines are short. -/
theorem Asked.number (decimal : ∀ d ∈ digits, d < 10)
    (short : (unlines newline (lasts (value digits) lines)).length ≤ 4096) :
    Asked lines (number digits) (lines.length - value digits) := by
  have parts := drop_offset newline lines (lines.length - value digits)
  have length := congrArg List.length parts
  have many := (length_le newline (lasts (value digits) lines)).trans short
  have inside := offset_le (a := newline) (Nat.sub_le lines.length (value digits)) le_rfl
  rw [offset_length] at inside
  rw [lasts, List.length_drop] at many
  rw [lasts] at short
  rw [List.length_drop] at length
  refine ⟨Nat.sub_le _ _, by omega, ?_⟩
  rw [number_eq decimal]
  split <;> omega

/-- What is behind a place in a text of lines is empty or ends in a newline. -/
theorem ends_drop (lines : List (List UInt8)) (a : ℕ) :
    (unlines newline lines).drop a = [] ∨
      ((unlines newline lines).drop a).getLast? = some newline := by
  rw [List.getLast?_drop]
  split
  next short => exact .inl (List.drop_eq_nil_of_le short)
  next long =>
    have many : 0 < lines.length := by
      by_contra none
      rw [List.eq_nil_of_length_eq_zero (Nat.eq_zero_of_not_pos none)] at long
      exact long (Nat.zero_le a)
    exact .inr (List.getLast?_eq_getElem? ▸ getElem_last many)

/-- What is kept of a file that is not read from its beginning. -/
theorem Asked.seek (whole : Whole lines) {n q : ℕ} (asked : Asked lines n q) (positive : 0 < n)
    (long : 4096 < (unlines newline lines).length) :
    ∃ lines' q', Whole lines' ∧ Asked lines' n q' ∧
      unlines newline lines' =
        (unlines newline lines).drop ((unlines newline lines).length - 4096) ∧
      lines'.drop q' = lines.drop q ∧ start lines' q' = q' ∧ lines' ≠ [] := by
  have room := asked.room
  have count := asked.count
  have some : lines ≠ [] := fun none => by
    rw [none] at long
    exact absurd long (by decide)
  have above := asked.lt positive some
  have later : 0 < q := by
    by_contra first
    rw [Nat.eq_zero_of_not_pos first, offset_zero] at room
    omega
  have inside := offset_le (a := newline) asked.inside le_rfl
  rw [offset_length] at inside
  obtain ⟨front, frontWhole, parts⟩ :=
    exists_whole (ends_drop (lines.take q) ((unlines newline lines).length - 4096))
  have text : unlines newline (front ++ lines.drop q) =
      (unlines newline lines).drop ((unlines newline lines).length - 4096) := by
    have joined := between_append (unlines newline lines)
      (a := (unlines newline lines).length - 4096) (b := offset newline lines q)
      (c := (unlines newline lines).length) (by omega) inside inside
    rw [between_length, between_length, drop_offset, between, take_offset] at joined
    rw [unlines_append, ← parts, joined]
  have size : (unlines newline (front ++ lines.drop q)).length = 4096 := by
    rw [text, List.length_drop]
    omega
  refine ⟨front ++ lines.drop q, front.length, ?_, ⟨?_, ?_, ?_⟩, text, List.drop_left, ?_, ?_⟩
  · intro line mem
    obtain first | last := List.mem_append.mp mem
    · exact frontWhole line first
    · exact whole line (List.mem_of_mem_drop last)
  · rw [List.length_append]
    omega
  · omega
  · rw [List.length_append, List.length_drop]
    omega
  · refine if_neg fun both => ?_
    have order : front.length ≤ (front ++ lines.drop q).length := by
      rw [List.length_append]
      omega
    have less := offset_lt (a := newline) both.1 order
    have full := both.2
    rw [offset_zero] at less
    omega
  · refine List.append_ne_nil_of_right_ne_nil front fun none => ?_
    have := List.drop_eq_nil_iff.mp none
    omega

/-- What the last lines are taken from, and where they begin in it. -/
theorem Asked.kept (delivers : Delivers deliver) (piped : Bool) (whole : Whole lines) {n q : ℕ}
    (asked : Asked lines n q) (positive : 0 < n) (some : lines ≠ []) :
    ∃ lines' q', Whole lines' ∧ Asked lines' n q' ∧ lines' ≠ [] ∧
      Kept (fill Tail.empty (deliver ((unlines newline lines).drop
        (if ¬ piped ∧ (unlines newline lines).length > LBIN - 1
          then (unlines newline lines).length - (LBIN - 1) else 0)))) (unlines newline lines') ∧
      lines'.drop q' = lines.drop q ∧
      lines'.drop (start lines' q') = lines.drop (if piped then start lines q else q) := by
  obtain seek | all := em (¬ piped ∧ (unlines newline lines).length > LBIN - 1)
  · obtain ⟨lines', q', whole', asked', text, same, first, some'⟩ :=
      asked.seek whole positive seek.2
    refine ⟨lines', q', whole', asked', some', ?_, same, ?_⟩
    · rw [if_pos seek, text]
      exact delivers.kept _
    · rw [first, same, if_neg seek.1]
  · refine ⟨lines, q, whole, asked, some, ?_, rfl, ?_⟩
    · rw [if_neg all, List.drop_zero]
      exact delivers.kept _
    · cases piped with
      | true => rfl
      | false =>
          have short : (unlines newline lines).length ≤ 4096 :=
            Nat.le_of_not_lt fun long => all ⟨Bool.false_ne_true, long⟩
          have first : start lines q = q := if_neg fun both => by
            have less := offset_lt (a := newline) both.1 asked.inside
            have full := both.2
            rw [offset_zero] at less
            omega
          rw [first]
          rfl

theorem tail_lines {kind : Kind} (bylines : kind = .l ∨ kind = .r) (positive : 0 < number digits) :
    tail ⟨true, digits, kind⟩ piped text deliver = fun fuel =>
      lastLines (fill Tail.empty (deliver (text.drop (if ¬ piped ∧ text.length > LBIN - 1
        then text.length - (LBIN - 1) else 0)))) (kind = .r) (number digits) fuel := by
  funext fuel
  obtain rfl | rfl := bylines
  · simp [tail, positive.ne']
  · simp [tail, positive.ne']

/-- The last lines in order. -/
theorem forward_settles (piped : Bool) (decimal : ∀ d ∈ digits, d < 10)
    (positive : 0 < value digits) (whole : Whole lines) (delivers : Delivers deliver)
    (some : lines ≠ []) (short : (unlines newline (lasts (value digits) lines)).length ≤ 4096) :
    Settles (tail ⟨true, digits, .l⟩ piped (unlines newline lines) deliver)
      (unlines newline (lines.drop (if piped then start lines (lines.length - value digits)
        else lines.length - value digits))) := by
  have count := number_pos decimal positive
  obtain ⟨lines', q', whole', asked', -, kept, -, same⟩ :=
    (Asked.number decimal short).kept delivers piped whole count some
  rw [tail_lines (.inl rfl) count, ← same]
  exact lastLines_forward count kept whole' asked'

/-- The last lines, the last one first. -/
theorem backward_settles (piped : Bool) (decimal : ∀ d ∈ digits, d < 10)
    (positive : 0 < value digits) (whole : Whole lines) (delivers : Delivers deliver)
    (some : lines ≠ []) (short : (unlines newline (lasts (value digits) lines)).length ≤ 4096) :
    Settles (tail ⟨true, digits, .r⟩ piped (unlines newline lines) deliver)
      (unlines newline (lasts (value digits) lines).reverse) := by
  have count := number_pos decimal positive
  obtain ⟨lines', q', whole', asked', some', kept, same, -⟩ :=
    (Asked.number decimal short).kept delivers piped whole count some
  rw [tail_lines (.inr rfl) count, lasts, ← same]
  exact lastLines_backward count kept whole' asked' some'

theorem Delivers.nil (delivers : Delivers deliver) : deliver [] = [] := by
  have pieced := delivers.pieced []
  have whole := delivers.whole []
  cases pieces : deliver [] with
  | nil => rfl
  | cons piece others =>
      rw [pieces] at pieced whole
      exact absurd (List.append_eq_nil_iff.mp whole).1 (pieced piece List.mem_cons_self)

/-- Of an empty input a newline is written. -/
theorem backward_empty (piped : Bool) (decimal : ∀ d ∈ digits, d < 10) (positive : 0 < value digits)
    (delivers : Delivers deliver) :
    Settles (tail ⟨true, digits, .r⟩ piped [] deliver) [newline] := by
  have count := number_pos decimal positive
  have filled : fill Tail.empty [] = Tail.empty := by
    rw [fill]
    rfl
  rw [tail_lines (.inr rfl) count, List.drop_nil, delivers.nil, filled]
  exact lastLines_empty count

/-- The last characters of a pipe. -/
theorem chars_settles (decimal : ∀ d ∈ digits, d < 10) (positive : 0 < value digits)
    (delivers : Delivers deliver) (text : List UInt8) :
    Settles (tail ⟨true, digits, .c⟩ true text deliver)
      (text.drop (text.length - min (value digits) (min text.length 4096))) := by
  have count := number_pos decimal positive
  have kept := delivers.kept text
  have same : text.length - min (value digits) (min text.length 4096) =
      text.length - min (number digits) 4096 := by
    rw [number_eq decimal]
    split <;> omega
  refine (Settles.pure _).congr fun fuel => ?_
  rw [same, ← lastChars_eq kept]
  simp [tail, count.ne']

/-- What is behind the lines that are skipped. -/
theorem further_settles (piped : Bool) (decimal : ∀ d ∈ digits, d < 10)
    (positive : 0 < value digits) (whole : Whole lines) (delivers : Delivers deliver) :
    Settles (tail ⟨false, digits, .l⟩ piped (unlines newline lines) deliver)
      (unlines newline (lines.drop (number digits - 1))) := by
  have count := number_pos decimal positive
  have text : [] ++ (deliver (unlines newline lines)).flatten = unlines newline lines :=
    delivers.whole _
  have skipped := skipLines_eq (delivers.pieced _) whole text (number digits - 1)
  refine (Settles.pure _).congr fun fuel => ?_
  rw [← skipped]
  simp only [tail, Bool.false_eq_true, not_false_eq_true, true_and, gt_iff_lt, count, if_true,
    reduceCtorEq, decide_false, or_self, or_false, if_false]
  cases skipLines (number digits - 1) [] (deliver (unlines newline lines)) with
  | none => rfl
  | some next => rfl

/-- What is asked for is printed of `lines`, by the digits of a number. -/
structure Prints (digits : List ℕ) (piped : Bool) (lines : List (List UInt8))
    (deliver : List UInt8 → List (List UInt8)) : Prop where
  forward : (unlines newline (lasts (value digits) lines)).length ≤ 4096 →
    Settles (tail ⟨true, digits, .l⟩ piped (unlines newline lines) deliver)
      (unlines newline (lasts (value digits) lines))
  backward : (unlines newline (lasts (value digits) lines)).length ≤ 4096 →
    Settles (tail ⟨true, digits, .r⟩ piped (unlines newline lines) deliver)
      (unlines newline (lasts (value digits) lines).reverse)
  chars : piped →
    Settles (tail ⟨true, digits, .c⟩ piped (unlines newline lines) deliver)
      ((unlines newline lines).drop ((unlines newline lines).length -
        min (value digits) (min (unlines newline lines).length 4096)))
  further : Settles (tail ⟨false, digits, .l⟩ piped (unlines newline lines) deliver)
    (unlines newline (lines.drop (value digits - 1)))

/-- When all of it is so: the last lines have not exactly the 4096 bytes that end a longer pipe,
there is a line, and the number is not cut down. -/
def Fits (digits : List ℕ) (piped : Bool) (lines : List (List UInt8)) : Prop :=
  ¬ (piped ∧ 4096 < (unlines newline lines).length ∧
    (unlines newline (lasts (value digits) lines)).length = 4096) ∧
  lines ≠ [] ∧
  (value digits ≤ 2147483639 ∨ value digits = 2147483647 ∨
    lines.length < min (value digits) 2147483647)

/-- A shorter end of the lines is another text. -/
theorem drop_inj {a b : ℕ} (le : a ≤ lines.length) (le' : b ≤ lines.length)
    (same : unlines newline (lines.drop a) = unlines newline (lines.drop b)) : a = b := by
  rw [← drop_offset, ← drop_offset] at same
  have lengths := congrArg List.length same
  rw [List.length_drop, List.length_drop] at lengths
  have first := offset_le (a := newline) le le_rfl
  have second := offset_le (a := newline) le' le_rfl
  rw [offset_length] at first second
  have low := (offset_le_iff (a := newline) le le').mp (by omega)
  have high := (offset_le_iff (a := newline) le' le).mp (by omega)
  omega

/-- The newline before the last lines is the oldest byte of a full ring when they have as many bytes
as fit beside it. -/
theorem start_lasts (n : ℕ) :
    start lines (lines.length - n) =
      if 4096 < (unlines newline lines).length ∧
        (unlines newline (lasts n lines)).length = 4096 then lines.length - n + 1
      else lines.length - n := by
  have parts := congrArg List.length (drop_offset newline lines (lines.length - n))
  have inside := offset_le (a := newline) (Nat.sub_le lines.length n) le_rfl
  rw [List.length_drop] at parts
  rw [offset_length] at inside
  have later : 0 < lines.length - n ↔ 0 < offset newline lines (lines.length - n) := by
    have order := offset_lt_iff (a := newline) (Nat.zero_le _) (Nat.sub_le lines.length n)
    rwa [offset_zero, Iff.comm] at order
  rw [start, lasts, ← parts]
  refine if_congr ?_ rfl rfl
  rw [later]
  omega

/-- Where a number that is cut down makes no difference. -/
theorem drop_number (decimal : ∀ d ∈ digits, d < 10) :
    unlines newline (lines.drop (number digits - 1)) =
        unlines newline (lines.drop (value digits - 1)) ↔
      value digits ≤ 2147483639 ∨ value digits = 2147483647 ∨
        lines.length < min (value digits) 2147483647 := by
  rw [number_eq decimal]
  obtain small | large := Nat.lt_or_ge 2147483639 (value digits)
  · rw [if_neg (Nat.not_le_of_lt small)]
    constructor
    · intro same
      by_contra none
      rw [List.drop_eq_drop_min, List.drop_eq_drop_min (i := value digits - 1)] at same
      have := drop_inj (Nat.min_le_right _ _) (Nat.min_le_right _ _) same
      omega
    · rintro (less | equal | short)
      · omega
      · rw [equal]
      · rw [List.drop_eq_nil_of_le (by omega), List.drop_eq_nil_of_le (by omega)]
  · rw [if_pos large]
    exact iff_of_true rfl (.inl large)

/-- The end of the input is printed if and only if it fits. -/
theorem prints_iff (decimal : ∀ d ∈ digits, d < 10) (positive : 1 ≤ value digits)
    (whole : Whole lines) (delivers : Delivers deliver) (piped : Bool) :
    Prints digits piped lines deliver ↔ Fits digits piped lines := by
  have further := further_settles piped decimal positive whole delivers
  constructor
  · intro prints
    have some : lines ≠ [] := by
      rintro rfl
      have backward := prints.backward (by rw [lasts, List.drop_nil]; exact Nat.zero_le _)
      have forced := backward_empty piped decimal positive delivers
      have same := backward.unique forced
      rw [lasts, List.drop_nil] at same
      exact absurd same (List.cons_ne_nil _ _).symm
    refine ⟨?_, some, (drop_number decimal).mp (further.unique prints.further)⟩
    rintro ⟨pipe, full⟩
    have printed := forward_settles piped decimal positive whole delivers some full.2.le
    have same := printed.unique (prints.forward full.2.le)
    rw [if_pos pipe, start_lasts, if_pos full, lasts] at same
    have count := List.length_pos_iff.mpr some
    have := drop_inj (by omega) (Nat.sub_le _ _) same
    omega
  · rintro ⟨apart, some, exact⟩
    refine ⟨fun short => ?_, backward_settles piped decimal positive whole delivers some,
      fun pipe => ?_, ?_⟩
    · have printed := forward_settles piped decimal positive whole delivers some short
      have first : (if piped then start lines (lines.length - value digits)
          else lines.length - value digits) = lines.length - value digits := by
        split
        next pipe => rw [start_lasts, if_neg fun full => apart ⟨pipe, full⟩]
        next => rfl
      rwa [first] at printed
    · rw [pipe]
      exact chars_settles decimal positive delivers _
    · rwa [(drop_number decimal).mpr exact] at further

/-- One read gives the whole input. -/
def atonce (text : List UInt8) : List (List UInt8) := if text = [] then [] else [text]

theorem atonce_delivers : Delivers atonce := by
  refine ⟨fun text => ?_, fun text => ?_⟩
  · unfold atonce
    split
    next => exact fun piece mem => absurd mem List.not_mem_nil
    next some => exact fun piece mem => List.mem_singleton.mp mem ▸ some
  · unfold atonce
    split
    next none => exact none.symm
    next => exact List.append_nil text

theorem prints_iff_two : Prints [2] true [[0x61], [0x62], [0x63]] atonce :=
  (prints_iff (by decide) (by decide) (by unfold Whole; decide) atonce_delivers true).mpr
    ⟨by decide, by decide, .inl (by decide)⟩

/-- Of a pipe that ends in a line of 4096 bytes nothing is printed. -/
theorem full_dropped : ¬ Prints [1] true [[], List.replicate 4095 0x61] atonce := by
  intro prints
  have whole : Whole [[], List.replicate 4095 0x61] := by
    refine List.forall_mem_cons.mpr ⟨List.not_mem_nil, List.forall_mem_singleton.mpr fun mem => ?_⟩
    exact absurd (List.eq_of_mem_replicate mem) (by decide)
  have last : unlines newline (lasts (value [1]) [[], List.replicate 4095 0x61]) =
      List.replicate 4095 0x61 ++ [newline] := unlines_cons newline _ []
  have full :
      (unlines newline (lasts (value [1]) [[], List.replicate 4095 0x61])).length = 4096 := by
    rw [last, List.length_append, List.length_replicate]
    rfl
  have long : 4096 < (unlines newline [[], List.replicate 4095 0x61]).length := by
    rw [unlines_cons, unlines_cons, List.length_append, List.length_cons, List.length_append,
      List.length_replicate]
    decide
  have printed := forward_settles true (by decide) (by decide) whole atonce_delivers
    (List.cons_ne_nil _ _) full.le
  have same := congrArg List.length (printed.unique (prints.forward full.le))
  rw [if_pos rfl, start_lasts, if_pos ⟨long, full⟩, full] at same
  exact absurd same (by decide)

end UnixV7.Tail
