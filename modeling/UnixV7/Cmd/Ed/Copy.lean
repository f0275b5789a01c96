import Mathlib.Data.List.Basic
import UnixV7.Cmd.Ed.Move

/-!
# Lines that are copied

The lines that `append` puts behind the last one are those of the range as long as they are found
where they were. The table may be put elsewhere on the way, and `addr1` stays what it was.
-/

namespace UnixV7.Ed.Table

open Function

variable {ed ed₀ : Table} {ls us xs cs wanted : List (List UInt8)} {line : List UInt8}
  {adt ad1 ad2 n j k : ℕ} {place : ℕ → ℕ}

/-! ## Copying -/

/-- Where the table begins, and its size, when `j` lines have come behind `n`. -/
def grown (place : ℕ → ℕ) (n : ℕ) (start : ℕ × ℕ) : ℕ → ℕ × ℕ
  | 0 => start
  | j + 1 =>
      if (grown place n start j).2 ≤ n + j + 1 then
        (place ((grown place n start j).2 + 512), (grown place n start j).2 + 512)
      else grown place n start j

/-- The first lines `cs` have been copied behind the `n` lines of `ed₀`. -/
structure Copying (place : ℕ → ℕ) (ed₀ : Table) (n : ℕ) (cs : List (List UInt8)) (ed : Table) :
    Prop extends ed.Sound where
  grown : (ed.zero, ed.nlall) = grown place n (ed₀.zero, ed₀.nlall) cs.length
  dol : ed.dol = ed.zero + n + cs.length
  dot : ed.dot = ed.dol
  addr1 : ed.addr1 = ed₀.addr1 + cs.length
  addr2 : ed.addr2 = ed₀.addr2
  fits : n + cs.length < ed.nlall
  copies : LiesAt ed.view (ed.zero + n + 1) (cs.map some)
  kept : ∀ p, p ≤ ed.zero + n ∨ ed.dol < p →
    ed.view p = if ed.zero ≤ p then ed₀.view (ed₀.zero + (p - ed.zero)) else none

theorem view_of_out (sound : ed.Sound) {p : ℕ} (out : p < ed.zero ∨ ed.zero + ed.nlall ≤ p) :
    ed.view p = none := by
  have none : ed.word p = none := by
    by_contra some'
    have := sound.inside p some'
    omega
  rw [view, none]
  rfl

/-- The table at another place. -/
theorem Sound.reallocated (sound : ed.Sound) (base : ℕ) :
    (ed.reallocated base).Sound ∧ ∀ p, (ed.reallocated base).view p =
      if base ≤ p then ed.view (ed.zero + (p - base)) else none := by
  have word : ∀ p, (ed.reallocated base).word p =
      if base ≤ p then ed.word (ed.zero + (p - base)) else none := by
    intro p
    show (if base ≤ p ∧ p - base < ed.nlall then _ else none) = _
    split
    next both => rw [if_pos both.1]
    next out =>
      split
      next low =>
        by_contra some'
        have := sound.inside _ (Ne.symm some')
        omega
      next => rfl
  refine ⟨⟨fun p some' => ?_, fun p tl here => ?_, sound.even, sound.plain⟩, fun p => ?_⟩
  · show base ≤ p ∧ p < base + (ed.nlall + 512)
    rw [word] at some'
    split at some'
    · have := sound.inside _ some'
      omega
    · exact absurd rfl some'
  · rw [word] at here
    split at here
    · exact sound.old _ tl here
    · cases here
  · rw [view, word]
    split
    · rfl
    · rfl

/-- The table with room for one more line. -/
theorem Copying.room (copying : Copying place ed₀ n cs ed) :
    ∃ ed', ed.enlarge (fun size => some (place size)) = .ok ed' ∧ ed'.Sound ∧
      (ed'.zero, ed'.nlall) = Table.grown place n (ed₀.zero, ed₀.nlall) (cs.length + 1) ∧
      ed'.dol = ed'.zero + n + cs.length ∧ ed'.dot = ed'.dol ∧ n + cs.length + 1 < ed'.nlall ∧
      ed'.addr1 = ed.addr1 ∧ ed'.addr2 = ed.addr2 ∧ ed'.linebuf = ed.linebuf ∧
      ∀ p, ed'.view p = if ed'.zero ≤ p then ed.view (ed.zero + (p - ed'.zero)) else none := by
  have dol := copying.dol
  have dot := copying.dot
  have fits := copying.fits
  have size : ed.dol - ed.zero + 1 = n + cs.length + 1 := by omega
  rw [Table.enlarge, Table.grown, ← copying.grown, size]
  split
  next full =>
    obtain ⟨sound, seen⟩ := copying.toSound.reallocated (place (ed.nlall + 512))
    refine ⟨_, rfl, sound, rfl, ?_, ?_, ?_, rfl, rfl, rfl, seen⟩
    · show ed.dol - ed.zero + place (ed.nlall + 512) = place (ed.nlall + 512) + n + cs.length
      omega
    · show ed.dot - ed.zero + place (ed.nlall + 512) = ed.dol - ed.zero + place (ed.nlall + 512)
      rw [dot]
    · show n + cs.length + 1 < ed.nlall + 512
      omega
  next room =>
    refine ⟨_, rfl, copying.toSound, rfl, dol, dot, by omega, rfl, rfl, rfl, fun p => ?_⟩
    split
    next low => rw [Nat.add_sub_cancel' low]
    next high => exact view_of_out copying.toSound (.inl (Nat.lt_of_not_le high))

/-- The state with the next line in `linebuf`. -/
theorem Copying.taken (copying : Copying place ed₀ n cs ed) (more : ed.addr1 ≤ ed.addr2) :
    (ed.view ed.addr1 = none ∧ ed.getcopy = .error .undefined) ∨
      ∃ line ed', ed.view ed.addr1 = some line ∧ newline ∉ line ∧ ed.getcopy = .ok (some ed') ∧
        ed' = { ed with linebuf := line, addr1 := ed.addr1 + 1 } := by
  rw [getcopy, if_neg (Nat.not_lt.mpr more), view]
  cases ed.word ed.addr1 with
  | none => exact .inl ⟨rfl, rfl⟩
  | some tl => exact .inr ⟨ed.text tl, _, rfl, copying.plain _, rfl, rfl⟩

/-- One line more has been copied. -/
theorem Copying.step (copying : Copying place ed₀ n cs ed) (line : List UInt8)
    (plain : newline ∉ line) :
    ∃ ed', enlarge (fun size => some (place size))
        { ed with linebuf := line, addr1 := ed.addr1 + 1 } = .ok ed' ∧
      Copying place ed₀ n (cs ++ [line]) ed'.insert := by
  have other : Copying place { ed₀ with addr1 := ed₀.addr1 + 1 } n cs
      { ed with linebuf := line, addr1 := ed.addr1 + 1 } := by
    refine { copying with addr1 := ?_ }
    show ed.addr1 + 1 = ed₀.addr1 + 1 + cs.length
    have := copying.addr1
    omega
  obtain ⟨ed', room, sound, size, dol, dot, fits, addr1, addr2, linebuf, seen⟩ := other.room
  have length : (cs ++ [line]).length = cs.length + 1 := by
    rw [List.length_append, List.length_singleton]
  obtain ⟨sound', seen'⟩ := sound.insert dot (by omega) (by omega) (linebuf ▸ plain)
  rw [linebuf] at seen'
  refine ⟨ed', room, ⟨sound', ?_, ?_, ?_, ?_, ?_, ?_, ?_, ?_⟩⟩
  · rw [length]
    exact size
  · rw [length]
    show ed'.dol + 1 = ed'.zero + n + (cs.length + 1)
    omega
  · show ed'.dot + 1 = ed'.dol + 1
    rw [dot]
  · rw [length]
    show ed'.addr1 = ed₀.addr1 + (cs.length + 1)
    have := copying.addr1
    rw [addr1]
    show ed.addr1 + 1 = _
    omega
  · exact addr2.trans copying.addr2
  · rw [length]
    exact fits
  · rw [List.map_append, liesAt_append, List.length_map]
    refine ⟨copying.copies.copied fun i inside => ?_, ?_, trivial⟩
    · rw [List.length_map] at inside
      show ed'.insert.view (ed'.zero + n + 1 + i) = ed.view (ed.zero + n + 1 + i)
      rw [seen', if_neg (by omega), seen, if_pos (by omega)]
      show ed.view (ed.zero + (ed'.zero + n + 1 + i - ed'.zero)) = _
      congr 1
      omega
    · rw [seen']
      exact if_pos (show ed'.zero + n + 1 + cs.length = ed'.dol + 1 by omega)
  · intro p out
    change p ≤ ed'.zero + n ∨ ed'.dol + 1 < p at out
    show ed'.insert.view p = if ed'.zero ≤ p then _ else none
    rw [seen', if_neg (by omega), seen]
    split
    next low =>
      have dol' := copying.dol
      have here := copying.kept (ed.zero + (p - ed'.zero)) (by omega)
      rw [if_pos (Nat.le_add_right _ _), Nat.add_sub_cancel_left] at here
      exact here
    next => rfl

theorem appendFrom_eof {fuel nline : ℕ} (eof : ed.getcopy = .ok none) (enough : 0 < fuel) :
    appendFrom (fun size => some (place size)) getcopy fuel nline ed = .ok (nline, ed) := by
  obtain ⟨fuel, rfl⟩ := Nat.exists_eq_succ_of_ne_zero (Nat.ne_of_gt enough)
  rw [appendFrom, eof]
  rfl

theorem appendFrom_undefined {fuel nline : ℕ} (wild : ed.getcopy = .error .undefined)
    (enough : 0 < fuel) :
    appendFrom (fun size => some (place size)) getcopy fuel nline ed = .error .undefined := by
  obtain ⟨fuel, rfl⟩ := Nat.exists_eq_succ_of_ne_zero (Nat.ne_of_gt enough)
  rw [appendFrom, wild]
  rfl

theorem appendFrom_step {fuel nline : ℕ} {taken ed' : Table} (took : ed.getcopy = .ok (some taken))
    (room : taken.enlarge (fun size => some (place size)) = .ok ed') :
    appendFrom (fun size => some (place size)) getcopy (fuel + 1) nline ed =
      appendFrom (fun size => some (place size)) getcopy fuel (nline + 1) ed'.insert := by
  rw [appendFrom, took]
  show (do
    let ed ← taken.enlarge fun size => some (place size)
    appendFrom (fun size => some (place size)) getcopy fuel (nline + 1) ed.insert) = _
  rw [room]
  rfl

/-- The rest of the range is copied, whatever stands there, unless there is nothing. -/
theorem Copying.run (fuel nline : ℕ) (copying : Copying place ed₀ n cs ed)
    (count : ed₀.addr2 + 1 = ed₀.addr1 + k) (few : cs.length ≤ k)
    (enough : k - cs.length < fuel) :
    appendFrom (fun size => some (place size)) getcopy fuel nline ed = .error .undefined ∨
      ∃ lines more ed', appendFrom (fun size => some (place size)) getcopy fuel nline ed =
        .ok (lines, ed') ∧ Copying place ed₀ n (cs ++ more) ed' ∧ (cs ++ more).length = k := by
  have addr1 := copying.addr1
  have addr2 := copying.addr2
  induction fuel generalizing cs ed nline with
  | zero => exact absurd enough (Nat.not_lt_zero _)
  | succ fuel ih =>
      obtain done | more := Nat.eq_or_lt_of_le few
      · have eof : ed.getcopy = .ok none := if_pos (by omega)
        refine .inr ⟨nline, [], ed, appendFrom_eof eof (Nat.succ_pos _), ?_⟩
        rw [List.append_nil]
        exact ⟨copying, done⟩
      · obtain ⟨-, wild⟩ | ⟨line, _, -, plain, took, rfl⟩ := copying.taken (by omega)
        · exact .inl (appendFrom_undefined wild (Nat.succ_pos _))
        · obtain ⟨ed', room, next⟩ := copying.step line plain
          have length : (cs ++ [line]).length = cs.length + 1 := by
            rw [List.length_append, List.length_singleton]
          rw [appendFrom_step took room]
          obtain wild | ⟨lines, rest, final, done, whole⟩ :=
            ih (nline + 1) next (by omega) (by omega) next.addr1 next.addr2
          · exact .inl wild
          · rw [List.append_assoc] at whole
            exact .inr ⟨lines, _, final, done, whole⟩

/-- The command with its range. -/
def ranged (ed : Table) : Table :=
  if ed.addr2 = 0 then { ed with addr1 := ed.dot, addr2 := ed.dot } else ed

/-- The lines of the range. -/
def range (ed : Table) (ls : List (List UInt8)) : List (List UInt8) :=
  (ls.drop (ed.addr1 - ed.zero - 1)).take (ed.addr2 + 1 - ed.addr1)

/-- The range is taken out and put back behind the destination, and dot is its last line; a
destination inside the range is refused. -/
def Moves (ed : Table) (adt : ℕ) (ls : List (List UInt8)) (result : Except Stop Table) : Prop :=
  let others := ls.take (ed.addr1 - ed.zero - 1) ++ ls.drop (ed.addr2 - ed.zero)
  let d := if adt < ed.addr1 then adt - ed.zero else adt - ed.zero - (ed.range ls).length
  if ed.addr1 ≤ adt ∧ adt ≤ ed.addr2 then
    ∃ ed', result = .error (.error ed') ∧ ed'.Holds ls ∧ ed'.zero = ed.zero ∧ ed'.dot = ed.dot
  else
    ∃ ed', result = .ok ed' ∧ ed'.Holds (others.take d ++ ed.range ls ++ others.drop d) ∧
      ed'.dot = ed'.zero + d + (ed.range ls).length

theorem Holds.unique {ls' : List (List UInt8)} (holds : ed.Holds ls) (holds' : ed.Holds ls') :
    ls = ls' := by
  have length : ls.length = ls'.length := by
    have := holds.dol
    have := holds'.dol
    omega
  exact List.map_injective_iff.mpr (Option.some_injective _)
    (holds.lines.unique holds'.lines (by rw [List.length_map, List.length_map, length]))

/-- At the beginning nothing is copied. -/
theorem Holds.copying (holds : ed.Holds ls) (place : ℕ → ℕ) :
    Copying place ed ls.length [] { ed with dot := ed.dol } where
  inside := holds.inside
  old := holds.old
  even := holds.even
  plain := holds.plain
  grown := rfl
  dol := holds.dol
  dot := rfl
  addr1 := rfl
  addr2 := rfl
  fits := holds.fits
  copies := trivial
  kept p _ := by
    show ed.view p = if ed.zero ≤ p then ed.view (ed.zero + (p - ed.zero)) else none
    split
    next low => rw [Nat.add_sub_cancel' low]
    next high => exact view_of_out holds.toSound (.inl (Nat.lt_of_not_le high))

/-- The copies stand behind the lines. -/
theorem Copying.holds (copying : Copying place ed₀ ls.length cs ed) (holds : ed₀.Holds ls) :
    ed.Holds (ls ++ cs) where
  toSound := copying.toSound
  dol := by rw [copying.dol, List.length_append, Nat.add_assoc]
  lines := by
    have dol := copying.dol
    rw [List.map_append, liesAt_append, List.length_map]
    refine ⟨holds.lines.copied fun i inside => ?_, ?_⟩
    · rw [List.length_map] at inside
      rw [copying.kept _ (by omega), if_pos (by omega)]
      congr 1
      omega
    · rw [Nat.add_right_comm]
      exact copying.copies
  fits := by
    rw [List.length_append]
    exact copying.fits

theorem length_range (holds : ed.Holds ls) (first : ed.zero < ed.addr1)
    (order : ed.addr1 ≤ ed.addr2) (last : ed.addr2 ≤ ed.dol) :
    (ed.range ls).length = ed.addr2 + 1 - ed.addr1 := by
  have := holds.dol
  rw [range, List.length_take, List.length_drop]
  omega

/-- Three reversals behind the copying. -/
theorem Copying.exchange (copying : Copying place ed ls.length cs ed₀) (holds : ed.Holds ls)
    (low : ed.zero ≤ adt) (high : adt ≤ ed.dol) :
    ∃ ed', ed₀.exchange (adt - ed.zero + ed₀.zero) (ed.dol + 1 - ed.zero + ed₀.zero)
        (ed₀.dol + 1) = .ok ed' ∧
      ed'.Holds (ls.take (adt - ed.zero) ++ cs ++ ls.drop (adt - ed.zero)) ∧
      ed'.dot = ed'.zero + (adt - ed.zero) + cs.length := by
  have dol := holds.dol
  have dol₀ := copying.dol
  have all := copying.holds holds
  have length : (ls.take (adt - ed.zero)).length = adt - ed.zero :=
    List.length_take_of_le (by omega)
  have whole : ls ++ cs =
      ls.take (adt - ed.zero) ++ (ls.drop (adt - ed.zero) ++ cs) ++ [] := by
    rw [List.append_nil, ← List.append_assoc, List.take_append_drop]
  rw [whole] at all
  obtain ⟨ed', done, held, dot⟩ := exchange_up all
    (show adt - ed.zero + ed₀.zero = _ by omega)
    (show ed.dol + 1 - ed.zero + ed₀.zero = _ by rw [List.length_drop]; omega)
    (show ed₀.dol + 1 = _ by omega)
  rw [length] at dot
  rw [List.append_nil, ← List.append_assoc] at held
  exact ⟨ed', done, held, dot⟩

/-- The lines before the range, the range, and the lines behind it. -/
theorem parts (first : ed.zero < ed.addr1) (order : ed.addr1 ≤ ed.addr2) :
    ls = ls.take (ed.addr1 - ed.zero - 1) ++ (ed.range ls ++ ls.drop (ed.addr2 - ed.zero)) := by
  have rest : ls.drop (ed.addr2 - ed.zero) =
      (ls.drop (ed.addr1 - ed.zero - 1)).drop (ed.addr2 + 1 - ed.addr1) := by
    rw [List.drop_drop]
    congr 1
    omega
  rw [rest, range, List.take_append_drop, List.take_append_drop]

/-- Lines that are moved. -/
theorem moves (holds : ed.Holds ls) (first : ed.zero < ed.addr1) (order : ed.addr1 ≤ ed.addr2)
    (last : ed.addr2 ≤ ed.dol) (low : ed.zero ≤ adt) (high : adt ≤ ed.dol) :
    Moves ed adt ls (ed.exchange adt ed.addr1 (ed.addr2 + 1)) := by
  have dol := holds.dol
  have size := length_range holds first order last
  have before : (ls.take (ed.addr1 - ed.zero - 1)).length = ed.addr1 - ed.zero - 1 :=
    List.length_take_of_le (by omega)
  have behind : (ls.drop (ed.addr2 - ed.zero)).length = ed.dol - ed.addr2 := by
    rw [List.length_drop]
    omega
  have whole : ls = _ := parts first order
  rw [Moves]
  generalize ls.take (ed.addr1 - ed.zero - 1) = as at before whole ⊢
  generalize ls.drop (ed.addr2 - ed.zero) = bs at behind whole ⊢
  generalize ed.range ls = xs at size whole ⊢
  subst whole
  split
  next inside =>
    refine ⟨ed, ?_, holds, rfl, rfl⟩
    rw [exchange, if_neg (by omega), if_neg (by omega)]
  next out =>
    split
    next up =>
      have short : adt - ed.zero ≤ as.length := by omega
      have length : (as.take (adt - ed.zero)).length = adt - ed.zero := List.length_take_of_le short
      have cut : as ++ (xs ++ bs) =
          as.take (adt - ed.zero) ++ (as.drop (adt - ed.zero) ++ xs) ++ bs := by
        rw [← List.append_assoc (as.take _), List.take_append_drop, List.append_assoc]
      rw [cut] at holds
      obtain ⟨ed', done, held, dot⟩ := exchange_up holds (show adt = _ by omega)
        (show ed.addr1 = _ by rw [List.length_drop]; omega) (show ed.addr2 + 1 = _ by omega)
      refine ⟨ed', done, ?_, ?_⟩
      · rw [List.take_append_of_le_length short, List.drop_append_of_le_length short,
          List.append_assoc, ← List.append_assoc xs, ← List.append_assoc]
        exact held
      · rw [dot, length]
    next down =>
      have some' : bs.take (adt - ed.addr2) ≠ [] := by
        intro none
        have := congrArg List.length none
        rw [List.length_take, List.length_nil] at this
        omega
      have length : (bs.take (adt - ed.addr2)).length = adt - ed.addr2 :=
        List.length_take_of_le (by omega)
      have cut : as ++ (xs ++ bs) =
          as ++ (xs ++ bs.take (adt - ed.addr2)) ++ bs.drop (adt - ed.addr2) := by
        rw [List.append_assoc, List.append_assoc, List.take_append_drop]
      rw [cut] at holds
      obtain ⟨ed', done, held, dot⟩ := exchange_down holds (show ed.addr1 = _ by omega)
        (show ed.addr2 + 1 = _ by omega) some' (show adt + 1 = _ by rw [length]; omega)
      have place : adt - ed.zero - xs.length = as.length + (adt - ed.addr2) := by omega
      refine ⟨ed', done, ?_, ?_⟩
      · rw [place, List.take_length_add_append, List.drop_length_add_append, List.append_assoc as]
        exact held
      · rw [dot, length, place, Nat.add_assoc ed'.zero]

theorem Holds.ranged (holds : ed.Holds ls) :
    ed.ranged.zero = ed.zero ∧ ed.ranged.dol = ed.dol ∧ ed.ranged.Holds ls := by
  rw [Table.ranged]
  split
  · exact ⟨rfl, rfl, ⟨⟨holds.inside, holds.old, holds.even, holds.plain⟩, holds.dol, holds.lines,
      holds.fits⟩⟩
  · exact ⟨rfl, rfl, holds⟩

/-- 127 lines, `B` and `A` by turns, at 1000 in memory; the first two are to be copied. -/
def full : Table where
  word := fun p => if 1000 < p ∧ p ≤ 1127 then some (2 * (p - 1000)) else none
  zero := 1000
  dol := 1127
  dot := 1127
  addr1 := 1001
  addr2 := 1002
  nlall := 128
  file := fun tl => [if tl / 2 % 2 = 0 then 65 else 66]
  tline := 256
  linebuf := []

/-- Line `i` of the full table. -/
def letter (i : ℕ) : List UInt8 := [if i % 2 = 0 then 65 else 66]

end UnixV7.Ed.Table
