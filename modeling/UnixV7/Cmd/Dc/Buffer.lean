import UnixV7.Cmd.Dc.Scale

/-!
# The buffers of numbers

A number lies in a `struct blk`, with one position to read at and one that ends it. The macros of
`dc.h` read and write there; each fails here when it would leave the buffer or read a byte that was
never written. `add`, `mult` and `chsign` over buffers do what they do over strings of digits.
-/

namespace UnixV7

namespace Dc

/-- `struct blk`: the bytes from `beg` to `last`, with `none` for those that were never written, and
the positions `rd` and `wt` among them. -/
structure Blk where
  bytes : List (Option ℤ)
  rd : ℕ
  wt : ℕ

def EOF : ℤ := -1

namespace Blk

def salloc (size : ℕ) : Blk := ⟨List.replicate size none, 0, 0⟩

/-- `more`: the buffer is made twice as large. -/
def more (p : Blk) : Blk :=
  let size := if p.bytes.length * 2 = 0 then 1 else p.bytes.length * 2
  { p with bytes := p.bytes ++ List.replicate (size - p.bytes.length) none }

/-- `copy(p,length(p))` -/
def copy (p : Blk) : Blk := ⟨p.bytes.take p.wt, 0, p.wt⟩

/-- `zero` -/
def zero (p : Blk) : Blk := { p with bytes := p.bytes.map fun _ => some 0 }

def rewind (p : Blk) : Blk := { p with rd := 0 }

def fsfile (p : Blk) : Blk := { p with rd := p.wt }

def truncate (p : Blk) : Blk := { p with wt := p.rd }

def sfeof (p : Blk) : Bool := p.rd = p.wt

def sfbeg (p : Blk) : Bool := p.rd = 0

/-- The byte at a position. -/
def fetch (p : Blk) (i : ℕ) : Option ℤ := p.bytes[i]?.join

/-- A byte is written. -/
def store (p : Blk) (i : ℕ) (c : ℤ) : Option Blk :=
  if i < p.bytes.length then some { p with bytes := p.bytes.set i (some (byte c)) } else none

def sgetc (p : Blk) : Option (ℤ × Blk) :=
  if p.sfeof then some (EOF, p)
  else do
    let c ← p.fetch p.rd
    some (c, { p with rd := p.rd + 1 })

def slookc (p : Blk) : Option ℤ := if p.sfeof then some EOF else p.fetch p.rd

def sbackc (p : Blk) : Option (ℤ × Blk) :=
  if p.sfbeg then some (EOF, p)
  else do
    let c ← p.fetch (p.rd - 1)
    some (c, { p with rd := p.rd - 1 })

def sputc (p : Blk) (c : ℤ) : Option Blk := do
  let p := if p.wt = p.bytes.length then p.more else p
  let p ← p.store p.wt c
  some { p with wt := p.wt + 1 }

def salterc (p : Blk) (c : ℤ) : Option Blk := do
  let p := if p.rd = p.bytes.length then p.more else p
  let p ← p.store p.rd c
  let p := { p with rd := p.rd + 1 }
  some (if p.wt < p.rd then { p with wt := p.rd } else p)

/-- `p->rd += n` -/
def advance (p : Blk) (n : ℕ) : Option Blk :=
  if p.rd + n ≤ p.bytes.length then some { p with rd := p.rd + n } else none

/-- `sfeof(p)?0:sgetc(p)` -/
def getz (p : Blk) : Option (ℤ × Blk) := if p.sfeof then some (0, p) else p.sgetc

/-- `sfeof(p)?0:slookc(p)` -/
def lookz (p : Blk) : Option ℤ := if p.sfeof then some 0 else p.slookc

/-- The loop of `chsign`. -/
def negate : ℕ → ℤ → Blk → Option (ℤ × Blk)
  | 0, carry, p => some (carry, p)
  | n + 1, carry, p =>
      if p.sfeof then some (carry, p)
      else do
        let ct := (100 - (← p.slookc) - carry) % 256
        let (ct, carry) := if 100 ≤ ct then (ct - 100, 0) else (ct, 1)
        let p ← p.salterc ct
        negate n carry p

/-- `chsign` -/
def chsign (p : Blk) : Option Blk := do
  let (carry, p) ← negate p.wt 0 p.rewind
  if carry ≠ 0 then
    let p ← p.sputc (-1)
    let (_, p) ← p.fsfile.sbackc
    let (ct, p) ← p.sbackc
    if ct = 99 then p.truncate.sputc (-1) else some p
  else
    let (ct, p) ← p.fsfile.sbackc
    some (if ct = 0 then p.truncate else p)

/-- The loop of `add`. -/
def sums : ℕ → ℤ → Blk → Blk → Blk → Option (ℤ × Blk)
  | 0, carry, _, _, p => some (carry, p)
  | size + 1, carry, a1, a2, p => do
      let (n1, a1) ← a1.getz
      let (n2, a2) ← a2.getz
      let n := n1 + n2 + carry
      let (n, carry) :=
        if 100 ≤ n then (n - 100, 1) else if n < 0 then (n + 100, -1) else (n, 0)
      let p ← p.sputc n
      sums size carry a1 a2 p

/-- The loop of `add` over the zeros at the top, and the last `c`. -/
def zeros : ℕ → ℤ → Blk → Option (ℤ × Blk)
  | 0, c, p => some (c, p)
  | n + 1, c, p =>
      if p.sfbeg then some (c, p)
      else do
        let (c, p) ← p.sbackc
        if c = 0 then zeros n c p else some (c, p)

/-- The loop of `add` over the digits 99. -/
def nines : ℕ → Blk → Option Blk
  | 0, _ => none
  | n + 1, p => do
      let (c, p) ← p.sbackc
      if c = 99 then nines n p else some p

/-- `add` from where all digits have been added: zeros at the top are left out. -/
def strip (p : Blk) : Option Blk := do
  let p := p.fsfile
  if p.sfbeg then some p
  else do
    let (c, p) ← zeros p.wt 0 p
    if c ≠ 0 then do
      let p ← p.salterc c
      some p.truncate
    else
      some p.truncate

/-- The end of `add`: digits 99 below -1 are left out. -/
def strip99 (p : Blk) : Option Blk := do
  let p := p.fsfile
  if p.sfbeg then some p
  else do
    let (c, p) ← p.sbackc
    if c = -1 then do
      let p ← nines (p.wt + 1) p
      let (_, p) ← p.sgetc
      let p ← p.salterc (-1)
      some p.truncate
    else
      some p

/-- `if(carry != 0)sputc(p,carry);` -/
def putCarry (carry : ℤ) (p : Blk) : Option Blk := if carry ≠ 0 then p.sputc carry else some p

/-- `add` -/
def add (a1 a2 : Blk) : Option Blk := do
  let size := max a1.wt a2.wt
  let (carry, p) ← sums size 0 a1.rewind a2.rewind (salloc size)
  let p ← p.putCarry carry
  let p ← p.strip
  p.strip99

/-- The inner loop of `mult`. -/
def row (cq : ℤ) : ℕ → ℤ → Blk → Blk → Option (ℤ × Blk)
  | 0, carry, _, mr => some (carry, mr)
  | n + 1, carry, mp, mr =>
      if mp.sfeof then some (carry, mr)
      else do
        let (cp, mp) ← mp.sgetc
        let mcr ← mr.lookz
        let mt := cp * cq + carry + mcr
        let mr ← mr.salterc (mt.tmod 100)
        row cq n (mt.tdiv 100) mp mr

/-- The carry of a row of `mult`. -/
def rowCarry (carry : ℤ) (mr : Blk) : Option Blk :=
  if carry ≠ 0 then do
    let mcr ← mr.lookz
    mr.salterc (mcr + carry)
  else
    some mr

/-- The outer loop of `mult`. -/
def rows (mp : Blk) : ℕ → ℕ → Blk → Blk → Option Blk
  | 0, _, _, mr => some mr
  | n + 1, offset, mq, mr =>
      if mq.sfeof then some mr
      else do
        let (cq, mq) ← mq.sgetc
        let mr ← mr.rewind.advance offset
        let (carry, mr) ← row cq mp.wt 0 mp.rewind mr
        let mr ← mr.rowCarry carry
        rows mp n (offset + 1) mq mr

/-- The factor that `mult` multiplies, and whether it was negative. -/
def factor (p : Blk) : Option (Blk × Bool) := do
  let p := p.fsfile
  if p.sfbeg then some (p, false)
  else do
    let (c, p) ← p.sbackc
    if c < 0 then some (← p.copy.chsign, true) else some (p, false)

/-- `mult` -/
def mult (p q : Blk) : Option Blk := do
  let (mp, s) ← p.factor
  let (mq, t) ← q.factor
  let mr ← rows mp mq.wt 0 mq.rewind (salloc (mp.wt + mq.wt)).zero
  if s != t then mr.chsign else some mr

/-- The digits before `rd` and those from there on. -/
structure At (p : Blk) (front back : List ℤ) : Prop where
  bytes : ∃ rest, p.bytes = (front ++ back).map some ++ rest
  rd : p.rd = front.length
  wt : p.wt = (front ++ back).length

/-- A buffer with a number in it. -/
structure Holds (p : Blk) (digits : List ℤ) : Prop where
  bytes : ∃ rest, p.bytes = digits.map some ++ rest
  wt : p.wt = digits.length

end Blk

variable {p p' : Blk} {front back : List ℤ} {c d : ℤ} {n : ℕ}

namespace Blk.At

theorem holds {x : List ℤ} (here : p.At front back) (same : front ++ back = x) : p.Holds x := by
  subst same
  exact ⟨here.bytes, here.wt⟩

theorem rewind (here : p.At front back) : p.rewind.At [] (front ++ back) :=
  ⟨here.bytes, rfl, here.wt⟩

theorem fsfile (here : p.At front back) : p.fsfile.At (front ++ back) [] := by
  obtain ⟨bytes, rd, wt⟩ := here
  exact ⟨by rwa [List.append_nil], wt, by rwa [List.append_nil]⟩

theorem truncate (here : p.At front back) : p.truncate.At front [] := by
  obtain ⟨⟨rest, bytes⟩, rd, wt⟩ := here
  refine ⟨⟨back.map some ++ rest, ?_⟩, rd, by rwa [List.append_nil]⟩
  simp only [Blk.truncate, bytes, List.map_append, List.append_nil, List.append_assoc]

theorem sfeof (here : p.At front back) : p.sfeof = decide (back = []) := by
  rw [Blk.sfeof, here.rd, here.wt, List.length_append]
  cases back <;> simp

theorem sfbeg (here : p.At front back) : p.sfbeg = decide (front = []) := by
  rw [Blk.sfbeg, here.rd]
  cases front <;> simp

theorem fetch (here : p.At front back) {i : ℕ} (inside : (front ++ back)[i]? = some d) :
    p.fetch i = some d := by
  obtain ⟨⟨rest, bytes⟩, -, -⟩ := here
  have bound : i < ((front ++ back).map some).length := by
    rw [List.length_map]
    exact (List.getElem?_eq_some_iff.mp inside).1
  rw [Blk.fetch, bytes, List.getElem?_append_left bound, List.getElem?_map, inside]
  rfl

theorem slookc (here : p.At front (d :: back)) : p.slookc = some d := by
  have look : p.fetch p.rd = some d := here.fetch (by rw [here.rd]; simp)
  rw [Blk.slookc, here.sfeof, if_neg (by simp), look]

theorem sgetc (here : p.At front (d :: back)) :
    ∃ p', p.sgetc = some (d, p') ∧ p'.At (front ++ [d]) back := by
  have look : p.fetch p.rd = some d := here.fetch (by rw [here.rd]; simp)
  refine ⟨{ p with rd := p.rd + 1 }, ?_, ?_⟩
  · rw [Blk.sgetc, here.sfeof, if_neg (by simp), look]
    rfl
  · obtain ⟨bytes, rd, wt⟩ := here
    exact ⟨by simpa using bytes, by simp [rd], by simpa using wt⟩

theorem sbackc (here : p.At (front ++ [d]) back) :
    ∃ p', p.sbackc = some (d, p') ∧ p'.At front (d :: back) := by
  have look : p.fetch (p.rd - 1) = some d := here.fetch (by rw [here.rd]; simp)
  refine ⟨{ p with rd := p.rd - 1 }, ?_, ?_⟩
  · rw [Blk.sbackc, here.sfbeg, if_neg (by simp), look]
    rfl
  · obtain ⟨bytes, rd, wt⟩ := here
    exact ⟨by simpa using bytes, by simp [rd], by simpa using wt⟩

theorem sbackc_nil (here : p.At [] back) : p.sbackc = some (EOF, p) := by
  rw [Blk.sbackc, here.sfbeg, if_pos (by simp)]

/-- A larger buffer with the same digits. -/
theorem more (here : p.At front back) : p.more.At front back := by
  obtain ⟨⟨rest, bytes⟩, rd, wt⟩ := here
  refine ⟨⟨rest ++ List.replicate
    ((if p.bytes.length * 2 = 0 then 1 else p.bytes.length * 2) - p.bytes.length) none, ?_⟩, rd, wt⟩
  simp only [Blk.more, bytes, List.append_assoc]

theorem length_more (p : Blk) : p.bytes.length < p.more.bytes.length := by
  simp only [Blk.more, List.length_append, List.length_replicate]
  split <;> omega

/-- A byte written over one that is there. -/
theorem store (here : p.At front (d :: back)) (c : ℤ) :
    ∃ p', p.store p.rd c = some p' ∧ p'.At front (byte c :: back) := by
  obtain ⟨⟨rest, bytes⟩, rd, wt⟩ := here
  have inside : p.rd < p.bytes.length := by
    rw [bytes, rd]
    simp
  refine ⟨_, if_pos inside, ⟨rest, ?_⟩, rd, by simpa using wt⟩
  simp only [bytes, rd, List.map_append, List.map_cons, List.append_assoc, List.cons_append]
  rw [List.set_append_right _ _ (by simp)]
  simp

/-- A byte written behind the others. -/
theorem store_last (here : p.At front back) (room : p.wt < p.bytes.length) (c : ℤ) :
    ∃ p', p.store p.wt c = some p' ∧
      Blk.At { p' with wt := p'.wt + 1 } front (back ++ [byte c]) := by
  obtain ⟨⟨rest, bytes⟩, rd, wt⟩ := here
  have size := congrArg List.length bytes
  rw [List.length_append, List.length_map, ← wt] at size
  obtain ⟨x, rest, rfl⟩ : ∃ x more, rest = x :: more := by
    cases rest with
    | nil =>
        rw [List.length_nil] at size
        omega
    | cons x rest => exact ⟨x, rest, rfl⟩
  refine ⟨_, if_pos room, ⟨rest, ?_⟩, rd, ?_⟩
  · simp only [bytes, wt]
    rw [List.set_append_right _ _ (by simp)]
    simp
  · simp only [wt, List.length_append, List.length_singleton, Nat.add_assoc]

/-- A full buffer is made larger before a byte is written behind the others. -/
theorem room (here : p.At front back) : ∃ q,
    (if p.wt = p.bytes.length then p.more else p) = q ∧ q.At front back ∧
      q.wt < q.bytes.length := by
  split
  next full =>
    refine ⟨p.more, rfl, here.more, ?_⟩
    have larger := length_more p
    rw [← full] at larger
    exact larger
  next part =>
    refine ⟨p, rfl, here, ?_⟩
    obtain ⟨⟨rest, bytes⟩, -, wt⟩ := here
    have bound := congrArg List.length bytes
    rw [List.length_append, List.length_map, ← wt] at bound
    omega

theorem salterc (here : p.At front (d :: back)) (c : ℤ) :
    ∃ p', p.salterc c = some p' ∧ p'.At (front ++ [byte c]) back := by
  have inside : p.rd ≠ p.bytes.length := by
    obtain ⟨⟨rest, bytes⟩, rd, -⟩ := here
    rw [bytes, rd]
    simp
  obtain ⟨p', stored, ⟨rest, bytes⟩, rd, wt⟩ := here.store c
  have less : ¬p'.wt < p'.rd + 1 := by
    rw [wt, rd]
    simp
  refine ⟨{ p' with rd := p'.rd + 1 }, ?_, ⟨rest, ?_⟩, ?_, ?_⟩
  · simp only [Blk.salterc, if_neg inside, stored, Option.bind_eq_bind, Option.bind_some,
      if_neg less]
  · simpa using bytes
  · simp [rd]
  · simpa using wt

theorem salterc_nil (here : p.At front []) (c : ℤ) :
    ∃ p', p.salterc c = some p' ∧ p'.At (front ++ [byte c]) [] := by
  have same : p.rd = p.wt := by rw [here.rd, here.wt, List.append_nil]
  obtain ⟨q, whole, here', room⟩ := here.room
  rw [← same] at whole
  have rd : q.rd = q.wt := by rw [here'.rd, here'.wt, List.append_nil]
  obtain ⟨p', stored, bytes, rd', wt⟩ := here'.store_last room c
  have place : p'.rd = front.length := rd'
  have count : p'.wt = front.length := by simpa using wt
  refine ⟨{ p' with rd := p'.rd + 1, wt := p'.rd + 1 }, ?_, by simpa using bytes, ?_, ?_⟩
  · have more : p'.wt < p'.rd + 1 := by omega
    simp only [Blk.salterc, whole, rd, stored, Option.bind_eq_bind, Option.bind_some, if_pos more]
  · simp [place]
  · simp [place]

theorem sputc (here : p.At front back) (c : ℤ) :
    ∃ p', p.sputc c = some p' ∧ p'.At front (back ++ [byte c]) := by
  obtain ⟨q, whole, here', room⟩ := here.room
  obtain ⟨p', stored, here''⟩ := here'.store_last room c
  refine ⟨_, ?_, here''⟩
  simp only [Blk.sputc, whole, stored, Option.bind_eq_bind, Option.bind_some]

/-- The loop of `chsign`. -/
theorem negate (here : p.At front back) (carry : ℤ) : ∃ p',
    Blk.negate back.length carry p = some ((Dc.negate carry back).2, p') ∧
      p'.At (front ++ (Dc.negate carry back).1) [] := by
  induction back generalizing p front carry with
  | nil => exact ⟨p, rfl, by simpa [Dc.negate] using here⟩
  | cons d back ih =>
      have more : p.sfeof = false := by simp [here.sfeof]
      by_cases top : 100 ≤ (100 - d - carry) % 256
      · obtain ⟨p₁, altered, here₁⟩ := here.salterc ((100 - d - carry) % 256 - 100)
        obtain ⟨p₂, rest, here₂⟩ := ih here₁ 0
        refine ⟨p₂, ?_, ?_⟩
        · simp only [List.length_cons, Blk.negate, more, here.slookc, Option.bind_eq_bind,
            Option.bind_some, if_pos top, altered, rest, Dc.negate]
          rfl
        · simpa [Dc.negate, if_pos top] using here₂
      · obtain ⟨p₁, altered, here₁⟩ := here.salterc ((100 - d - carry) % 256)
        obtain ⟨p₂, rest, here₂⟩ := ih here₁ 1
        refine ⟨p₂, ?_, ?_⟩
        · simp only [List.length_cons, Blk.negate, more, here.slookc, Option.bind_eq_bind,
            Option.bind_some, if_neg top, altered, rest, Dc.negate]
          rfl
        · simpa [Dc.negate, if_neg top] using here₂

/-- A byte written at `rd`, wherever that is. -/
theorem salterc_tail (here : p.At front back) (c : ℤ) :
    ∃ p', p.salterc c = some p' ∧ p'.At (front ++ [byte c]) back.tail := by
  cases back with
  | nil => exact here.salterc_nil c
  | cons d back => exact here.salterc c

/-- The next digit of a summand, zero behind its end. -/
theorem getz (here : p.At front back) : ∃ p' front',
    p.getz = some (back.headD 0, p') ∧ p'.At front' back.tail := by
  cases back with
  | nil =>
      refine ⟨p, front, ?_, here⟩
      rw [Blk.getz, here.sfeof]
      rfl
  | cons d back =>
      obtain ⟨p', read, here'⟩ := here.sgetc
      refine ⟨p', _, ?_, here'⟩
      rw [Blk.getz, here.sfeof, if_neg (by simp), read]
      rfl

/-- The loop of `add`. -/
theorem sums {a b : Blk} {front₁ front₂ x y : List ℤ} (left : a.At front₁ x)
    (right : b.At front₂ y) (here : p.At front back) (size : ℕ) (carry : ℤ) : ∃ p',
    Blk.sums size carry a b p = some ((Dc.sums size carry x y).2, p') ∧
      p'.At front (back ++ (Dc.sums size carry x y).1) := by
  induction size generalizing a b p front₁ front₂ x y back carry with
  | zero => exact ⟨p, rfl, by simpa [Dc.sums] using here⟩
  | succ size ih =>
      obtain ⟨a', f₁, read, left'⟩ := left.getz
      obtain ⟨b', f₂, read', right'⟩ := right.getz
      have step : ∀ n carry', ∃ p', ((p.sputc n).bind fun p => Blk.sums size carry' a' b' p) =
            some ((Dc.sums size carry' x.tail y.tail).2, p') ∧
          p'.At front (back ++ byte n :: (Dc.sums size carry' x.tail y.tail).1) := by
        intro n carry'
        obtain ⟨p₁, put, here₁⟩ := here.sputc n
        obtain ⟨p₂, rest, here₂⟩ := ih left' right' here₁ carry'
        refine ⟨p₂, ?_, by simpa using here₂⟩
        rw [put, ← rest]
        rfl
      simp only [Blk.sums, read, read', Option.bind_eq_bind, Option.bind_some, Dc.sums]
      by_cases much : 100 ≤ x.headD 0 + y.headD 0 + carry
      · simp only [if_pos much]
        exact step _ _
      · by_cases under : x.headD 0 + y.headD 0 + carry < 0
        · simp only [if_neg much, if_pos under]
          exact step _ _
        · simp only [if_neg much, if_neg under]
          exact step _ _

/-- The loop over the zeros at the top stops behind the first other digit. -/
theorem zeros {q k : List ℤ} (here : p.At q k) (enough : q.length ≤ n) :
    ∃ p', (trim q = [] ∧ Blk.zeros n 0 p = some (0, p') ∧ p'.At [] (q ++ k)) ∨
      ∃ r c more, trim q = r ++ [c] ∧ c ≠ 0 ∧ Blk.zeros n 0 p = some (c, p') ∧
        p'.At r (c :: more) := by
  induction n generalizing p q k with
  | zero =>
      obtain rfl := List.length_eq_zero_iff.mp (Nat.le_zero.mp enough)
      exact ⟨p, .inl ⟨rfl, rfl, here⟩⟩
  | succ n ih =>
      rcases List.eq_nil_or_concat' q with rfl | ⟨r, d, rfl⟩
      · refine ⟨p, .inl ⟨rfl, ?_, here⟩⟩
        rw [Blk.zeros, here.sfbeg, if_pos (by simp)]
      · obtain ⟨p₁, read, here₁⟩ := here.sbackc
        have more : p.sfbeg = false := by simp [here.sfbeg]
        by_cases zero : d = 0
        · subst zero
          have shorter : r.length ≤ n := by
            rw [List.length_append, List.length_singleton] at enough
            exact Nat.le_of_succ_le_succ enough
          obtain ⟨p₂, rest⟩ := ih here₁ shorter
          refine ⟨p₂, ?_⟩
          simpa [Blk.zeros, more, read, trim_concat_zero] using rest
        · refine ⟨p₁, .inr ⟨r, d, k, trim_concat r zero, zero, ?_, here₁⟩⟩
          simp only [Blk.zeros, more, read, Option.bind_eq_bind, Option.bind_some, if_neg zero]
          rfl

/-- Zeros at the top are left out. -/
theorem strip {q : List ℤ} (here : p.At front back) (same : front ++ back = q)
    (bytes : ∀ d ∈ q, byte d = d) : ∃ p', p.strip = some p' ∧ p'.At (trim q) [] := by
  have file := here.fsfile
  rw [same] at file
  by_cases none : q = []
  · subst none
    refine ⟨p.fsfile, ?_, file⟩
    rw [Blk.strip, file.sfbeg, if_pos (by simp)]
  · have some : p.fsfile.sfbeg = false := by simp [file.sfbeg, none]
    have size : q.length ≤ p.fsfile.wt := by rw [file.wt, List.append_nil]
    obtain ⟨p₁, ⟨empty, loop, here₁⟩ | ⟨r, c, more, top, other, loop, here₁⟩⟩ := file.zeros size
    · refine ⟨p₁.truncate, ?_, by rw [empty]; exact here₁.truncate⟩
      simp only [Blk.strip, some, loop, Option.bind_eq_bind, Option.bind_some]
      rfl
    · obtain ⟨p₂, altered, here₂⟩ := here₁.salterc c
      have member : c ∈ q := (trim_isPrefix q).subset (by rw [top]; simp)
      rw [bytes c member] at here₂
      refine ⟨p₂.truncate, ?_, by rw [top]; exact here₂.truncate⟩
      simp only [Blk.strip, some, loop, Option.bind_eq_bind, Option.bind_some, if_pos other,
        altered]
      rfl

/-- The loop over the digits 99 stops behind the first other digit, or at the first one. -/
theorem nines {q k : List ℤ} (here : p.At q k) (enough : q.length < n) :
    ∃ p' f more, Blk.nines n p = some p' ∧ p'.At f more ∧ f ++ more = q ++ k ∧
      (q.rdropWhile (· = 99) = [] ∧ f = [] ∨
        ∃ x rest, more = x :: rest ∧ q.rdropWhile (· = 99) = f ++ [x]) := by
  induction n generalizing p q k with
  | zero => exact absurd enough (Nat.not_lt_zero _)
  | succ n ih =>
      rcases List.eq_nil_or_concat' q with rfl | ⟨r, d, rfl⟩
      · refine ⟨p, [], k, ?_, here, rfl, .inl ⟨rfl, rfl⟩⟩
        rw [Blk.nines, here.sbackc_nil]
        rfl
      · obtain ⟨p₁, read, here₁⟩ := here.sbackc
        by_cases nine : d = 99
        · subst nine
          have shorter : r.length < n := by
            rw [List.length_append, List.length_singleton] at enough
            exact Nat.lt_of_succ_lt_succ enough
          obtain ⟨p₂, f, more, loop, here₂, same, rest⟩ := ih here₁ shorter
          refine ⟨p₂, f, more, ?_, here₂, by simpa using same, ?_⟩
          · rw [Blk.nines, read, ← loop]
            rfl
          · rwa [List.rdropWhile_concat_pos _ _ _ (by decide)]
        · refine ⟨p₁, r, d :: k, ?_, here₁, by simp, .inr ⟨d, k, rfl, ?_⟩⟩
          · simp only [Blk.nines, read, Option.bind_eq_bind, Option.bind_some, if_neg nine]
          · rw [List.rdropWhile_concat_neg _ _ _ (by simpa using nine)]

/-- Digits 99 below -1 are left out. -/
theorem strip99 {q : List ℤ} (here : p.At front back) (same : front ++ back = q) :
    ∃ p', p.strip99 = some p' ∧
      p'.Holds (if q.getLast? = some (-1) then short99 q else q) := by
  have file := here.fsfile
  rw [same] at file
  rcases List.eq_nil_or_concat' q with rfl | ⟨r, d, rfl⟩
  · refine ⟨p.fsfile, ?_, file.holds rfl⟩
    rw [Blk.strip99, file.sfbeg, if_pos (by simp)]
  · obtain ⟨p₁, read, here₁⟩ := file.sbackc
    have some : p.fsfile.sfbeg = false := by simp [file.sfbeg]
    rw [List.getLast?_concat]
    by_cases minus : d = -1
    · subst minus
      have size : r.length < p₁.wt + 1 := by
        rw [here₁.wt, List.length_append]
        omega
      obtain ⟨p₂, f, more, loop, here₂, whole, stop⟩ := here₁.nines size
      obtain ⟨x, rest, rfl⟩ : ∃ x rest, more = x :: rest := by
        rcases stop with ⟨-, rfl⟩ | ⟨x, rest, rfl, -⟩
        · cases more with
          | nil => simp at whole
          | cons x rest => exact ⟨x, rest, rfl⟩
        · exact ⟨x, rest, rfl⟩
      obtain ⟨p₃, read₃, here₃⟩ := here₂.sgetc
      obtain ⟨p₄, altered, here₄⟩ := here₃.salterc_tail (-1)
      refine ⟨p₄.truncate, ?_, here₄.truncate.holds ?_⟩
      · simp only [Blk.strip99, some, read, loop, read₃, altered, Option.bind_eq_bind,
          Option.bind_some, if_pos]
        rfl
      · rw [if_pos rfl, short99, List.dropLast_concat, byte_eq (by decide) (by decide),
          List.append_nil]
        rcases stop with ⟨empty, rfl⟩ | ⟨y, rest', tail, top⟩
        · rw [empty, if_pos rfl, ← whole]
          rfl
        · obtain ⟨rfl, -⟩ := List.cons.inj tail
          rw [top, if_neg (by simp)]
    · refine ⟨p₁, ?_, here₁.holds ?_⟩
      · simp only [Blk.strip99, some, read, Option.bind_eq_bind, Option.bind_some, if_neg minus]
        rfl
      · rw [if_neg (by simpa using minus)]

end Blk.At

theorem byte_of_digits {q : List ℤ} (digits : Digits 100 q) : ∀ d ∈ q, byte d = d :=
  fun d mem => byte_eq (by have := (digits d mem).1; omega) (by have := (digits d mem).2; omega)

namespace Blk

variable {p q : Blk} {x y : List ℤ}

theorem salloc_at (size : ℕ) : (salloc size).At [] [] := ⟨⟨_, rfl⟩, rfl, rfl⟩

theorem Holds.rewind (holds : p.Holds x) : p.rewind.At [] x := ⟨holds.bytes, rfl, holds.wt⟩

theorem Holds.fsfile (holds : p.Holds x) : p.fsfile.At x [] := by
  obtain ⟨bytes, wt⟩ := holds
  refine ⟨?_, wt, ?_⟩
  · rwa [List.append_nil]
  · rwa [List.append_nil]

theorem Holds.copy (holds : p.Holds x) : p.copy.Holds x := by
  obtain ⟨⟨rest, bytes⟩, wt⟩ := holds
  refine ⟨⟨[], ?_⟩, wt⟩
  rw [Blk.copy, bytes, wt, List.append_nil]
  exact List.take_left' (by simp)

/-- `add` over buffers. -/
theorem Holds.add (left : p.Holds x) (right : q.Holds y) (small : Small x) (small' : Small y) :
    ∃ r, p.add q = some r ∧ r.Holds (Dc.add x y) := by
  obtain ⟨-, digits, -, low, high⟩ := sums_spec small small' (c := 0) (by decide)
    (Nat.le_max_left x.length y.length) (Nat.le_max_right x.length y.length)
  obtain ⟨r₁, loop, here₁⟩ := left.rewind.sums right.rewind
    (salloc_at (max x.length y.length)) (max x.length y.length) 0
  rw [Dc.add]
  generalize Dc.sums (max x.length y.length) 0 x y = out at digits low high loop here₁ ⊢
  obtain ⟨s, carry⟩ := out
  dsimp only at digits low high loop here₁ ⊢
  rw [List.nil_append] at here₁
  obtain ⟨r₂, put, here₂⟩ : ∃ r₂, r₁.putCarry carry = some r₂ ∧
      r₂.At [] (if carry ≠ 0 then s ++ [carry] else s) := by
    rw [putCarry]
    split
    · obtain ⟨r₂, put, here₂⟩ := here₁.sputc carry
      rw [byte_eq (by omega) (by omega)] at here₂
      exact ⟨r₂, put, here₂⟩
    · exact ⟨r₁, rfl, here₁⟩
  have bytes : ∀ d ∈ (if carry ≠ 0 then s ++ [carry] else s), byte d = d := by
    split
    · intro d mem
      rcases List.mem_append.mp mem with early | last
      · exact byte_of_digits digits d early
      · rw [List.mem_singleton.mp last]
        exact byte_eq (by omega) (by omega)
    · exact byte_of_digits digits
  obtain ⟨r₃, stripped, here₃⟩ := here₂.strip rfl bytes
  obtain ⟨r₄, stripped', holds⟩ := here₃.strip99 rfl
  refine ⟨r₄, ?_, by simpa using holds⟩
  simp only [Blk.add, left.wt, right.wt, loop, put, stripped, stripped', Option.bind_eq_bind,
    Option.bind_some]

/-- `chsign` over buffers. -/
theorem Holds.chsign (holds : p.Holds x) : ∃ r, p.chsign = some r ∧ r.Holds (Dc.chsign x) := by
  obtain ⟨p₁, loop, here₁⟩ := holds.rewind.negate 0
  rw [← holds.wt] at loop
  rw [Dc.chsign]
  generalize Dc.negate 0 x = out at loop here₁ ⊢
  obtain ⟨s, carry⟩ := out
  dsimp only at loop here₁ ⊢
  rw [List.nil_append] at here₁
  by_cases none : carry = 0
  · subst none
    have file := here₁.fsfile
    rw [List.append_nil] at file
    rw [if_neg (by decide)]
    rcases List.eq_nil_or_concat' s with rfl | ⟨r, d, rfl⟩
    · refine ⟨p₁.fsfile, ?_, file.holds rfl⟩
      simp only [Blk.chsign, loop, file.sbackc_nil, Option.bind_eq_bind, Option.bind_some]
      rfl
    · obtain ⟨p₂, read, here₂⟩ := file.sbackc
      rw [List.getLast?_concat, List.dropLast_concat]
      by_cases zero : d = 0
      · subst zero
        refine ⟨p₂.truncate, ?_, here₂.truncate.holds (by simp)⟩
        simp only [Blk.chsign, loop, read, Option.bind_eq_bind, Option.bind_some]
        rfl
      · refine ⟨p₂, ?_, here₂.holds (by simp [zero])⟩
        simp only [Blk.chsign, loop, read, Option.bind_eq_bind, Option.bind_some, if_neg zero]
        rfl
  · obtain ⟨p₂, put, here₂⟩ := here₁.sputc (-1)
    rw [byte_eq (by decide) (by decide)] at here₂
    obtain ⟨p₃, read, here₃⟩ := here₂.fsfile.sbackc
    rw [if_pos none]
    rcases List.eq_nil_or_concat' s with rfl | ⟨r, d, rfl⟩
    · refine ⟨p₃, ?_, here₃.holds rfl⟩
      simp only [Blk.chsign, loop, if_pos none, put, read, here₃.sbackc_nil, Option.bind_eq_bind,
        Option.bind_some]
      rfl
    · obtain ⟨p₄, read', here₄⟩ := here₃.sbackc
      rw [List.getLast?_concat, List.dropLast_concat]
      by_cases nine : d = 99
      · subst nine
        obtain ⟨p₅, put', here₅⟩ := here₄.truncate.sputc (-1)
        rw [byte_eq (by decide) (by decide)] at here₅
        refine ⟨p₅, ?_, here₅.holds (by simp)⟩
        simp only [Blk.chsign, loop, if_pos none, put, read, read', put', Option.bind_eq_bind,
          Option.bind_some]
        rfl
      · refine ⟨p₄, ?_, here₄.holds (by simp [nine])⟩
        simp only [Blk.chsign, loop, if_pos none, put, read, read', Option.bind_eq_bind,
          Option.bind_some, if_neg nine]

theorem At.advance {front back : List ℤ} (here : p.At [] (front ++ back)) :
    ∃ p', p.advance front.length = some p' ∧ p'.At front back := by
  obtain ⟨⟨rest, bytes⟩, rd, wt⟩ := here
  have inside : p.rd + front.length ≤ p.bytes.length := by
    rw [bytes, rd]
    simp
  exact ⟨_, if_pos inside, ⟨rest, bytes⟩, by simp [rd], wt⟩

theorem At.lookz {front back : List ℤ} (here : p.At front back) :
    p.lookz = some (back.headD 0) := by
  cases back with
  | nil => rw [Blk.lookz, here.sfeof, if_pos (by simp), List.headD_nil]
  | cons d back => rw [Blk.lookz, here.sfeof, if_neg (by simp), here.slookc, List.headD_cons]

/-- A row of `mult` over buffers, with its carry. -/
theorem At.row {f front back : List ℤ} (left : p.At f x) (here : q.At front back)
    (cq carry : ℤ) : ∃ c q₁ q₂, Blk.row cq x.length carry p q = some (c, q₁) ∧
      q₁.rowCarry c = some q₂ ∧ q₂.Holds (front ++ multRow cq carry x back) := by
  induction x generalizing p q f front back carry with
  | nil =>
      by_cases none : carry = 0
      · refine ⟨carry, q, q, rfl, if_neg (not_not.mpr none), here.holds ?_⟩
        rw [multRow, if_neg (not_not.mpr none)]
      · obtain ⟨q₂, altered, here₂⟩ := here.salterc_tail (back.headD 0 + carry)
        refine ⟨carry, q, q₂, rfl, ?_, here₂.holds ?_⟩
        · rw [rowCarry, if_pos none, here.lookz, ← altered]
          rfl
        · rw [multRow, if_pos none, List.append_assoc]
          rfl
  | cons cp x ih =>
      obtain ⟨p₁, read, left₁⟩ := left.sgetc
      have more : p.sfeof = false := by simp [left.sfeof]
      obtain ⟨q₁, altered, here₁⟩ :=
        here.salterc_tail ((cp * cq + carry + back.headD 0).tmod 100)
      obtain ⟨c, q₂, q₃, rest, last, holds⟩ :=
        ih left₁ here₁ ((cp * cq + carry + back.headD 0).tdiv 100)
      refine ⟨c, q₂, q₃, ?_, last, ?_⟩
      · simp only [List.length_cons, Blk.row, more, read, here.lookz, altered, rest,
          Option.bind_eq_bind, Option.bind_some]
        rfl
      · rw [multRow]
        simpa using holds

theorem multRow_ne_nil {mp : List ℤ} (some : mp ≠ []) (cq carry : ℤ) (mr : List ℤ) :
    multRow cq carry mp mr ≠ [] := by
  cases mp with
  | nil => exact absurd rfl some
  | cons cp mp => simp [multRow]

/-- The rows of `mult` over buffers. -/
theorem At.rows {m : Blk} {f front back : List ℤ} (left : p.Holds x) (some : x ≠ [])
    (right : q.At f y) (here : m.Holds (front ++ back)) :
    ∃ m', Blk.rows p y.length front.length q m = Option.some m' ∧
      m'.Holds (front ++ multRows x y back) := by
  induction y generalizing q m f front back with
  | nil => exact ⟨m, rfl, here⟩
  | cons cq y ih =>
      obtain ⟨q₁, read, right₁⟩ := right.sgetc
      have more : q.sfeof = false := by simp [right.sfeof]
      obtain ⟨m₁, advanced, here₁⟩ := here.rewind.advance
      obtain ⟨c, m₂, m₃, row, last, holds⟩ := left.rewind.row here₁ cq 0
      obtain ⟨d, tail, whole⟩ := List.exists_cons_of_ne_nil (multRow_ne_nil some cq 0 back)
      rw [whole, List.append_cons] at holds
      obtain ⟨m₄, rest, holds'⟩ := ih right₁ holds
      rw [List.length_append, List.length_singleton] at rest
      refine ⟨m₄, ?_, ?_⟩
      · simp only [List.length_cons, Blk.rows, more, read, advanced, left.wt, row, last,
          Option.bind_eq_bind, Option.bind_some, ← rest]
        rfl
      · rw [multRows, whole]
        simpa using holds'

/-- With no digits to multiply the rows leave the buffer empty. -/
theorem rows_empty {m : Blk} (none : p.wt = 0) (empty : m.Holds []) (offset : ℕ) {f : List ℤ}
    (right : q.At f y) (room : offset + y.length ≤ m.bytes.length) :
    ∃ m', Blk.rows p y.length offset q m = some m' ∧ m'.Holds [] := by
  induction y generalizing q m f offset with
  | nil => exact ⟨m, rfl, empty⟩
  | cons cq y ih =>
      obtain ⟨q₁, read, right₁⟩ := right.sgetc
      have more : q.sfeof = false := by simp [right.sfeof]
      rw [List.length_cons] at room
      have advanced : m.rewind.advance offset = some { m.rewind with rd := m.rewind.rd + offset } :=
        if_pos (by
          simp only [Blk.rewind]
          omega)
      obtain ⟨m', rest, holds⟩ := ih (m := { m.rewind with rd := m.rewind.rd + offset })
        ⟨empty.bytes, empty.wt⟩ (offset + 1) right₁ (by
          simp only [Blk.rewind]
          omega)
      refine ⟨m', ?_, holds⟩
      simp only [List.length_cons, Blk.rows, more, read, advanced, none, Blk.row, Blk.rowCarry,
        Option.bind_eq_bind, Option.bind_some, ← rest]
      rfl

theorem Holds.factor (holds : p.Holds x) :
    ∃ r, p.factor = some (r, (Dc.factor x).2) ∧ r.Holds (Dc.factor x).1 := by
  have file := holds.fsfile
  rw [Dc.factor]
  rcases List.eq_nil_or_concat' x with rfl | ⟨r, d, rfl⟩
  · refine ⟨p.fsfile, ?_, file.holds rfl⟩
    rw [Blk.factor, file.sfbeg]
    rfl
  · obtain ⟨p₁, read, here₁⟩ := file.sbackc
    have some : p.fsfile.sfbeg = false := by simp [file.sfbeg]
    rw [List.getLastD_concat]
    by_cases minus : d < 0
    · obtain ⟨p₂, changed, holds₂⟩ := (here₁.holds rfl).copy.chsign
      refine ⟨p₂, ?_, by simpa [minus] using holds₂⟩
      simp only [Blk.factor, some, read, changed, Option.bind_eq_bind, Option.bind_some,
        if_pos minus]
      rfl
    · refine ⟨p₁, ?_, by simpa [minus] using here₁.holds rfl⟩
      simp only [Blk.factor, some, read, Option.bind_eq_bind, Option.bind_some, if_neg minus]
      rfl

/-- `mult` over buffers. -/
theorem Holds.mult (left : p.Holds x) (right : q.Holds y) :
    ∃ r, p.mult q = some r ∧ r.Holds (Dc.mult x y) := by
  obtain ⟨mp, made, holds⟩ := left.factor
  obtain ⟨mq, made', holds'⟩ := right.factor
  rw [Dc.mult]
  generalize Dc.factor x = u at made holds ⊢
  generalize Dc.factor y = v at made' holds' ⊢
  obtain ⟨a, s⟩ := u
  obtain ⟨b, t⟩ := v
  dsimp only at made made' holds holds' ⊢
  have empty : (salloc (mp.wt + mq.wt)).zero.Holds [] := ⟨⟨_, rfl⟩, rfl⟩
  obtain ⟨mr, product, holds''⟩ : ∃ mr,
      Blk.rows mp mq.wt 0 mq.rewind (salloc (mp.wt + mq.wt)).zero = some mr ∧
        mr.Holds (multRows a b []) := by
    rw [holds'.wt]
    by_cases none : a = []
    · subst none
      obtain ⟨mr, product, holds''⟩ := rows_empty holds.wt empty 0 holds'.rewind (by
        rw [holds'.wt]
        simp [Blk.zero, salloc])
      refine ⟨mr, by simpa [holds'.wt] using product, ?_⟩
      rwa [multRows_nil]
    · obtain ⟨mr, product, holds''⟩ := At.rows holds none holds'.rewind
        (show Holds _ ([] ++ []) from empty)
      exact ⟨mr, by simpa [holds'.wt] using product, holds''⟩
  cases sign : s != t with
  | true =>
      obtain ⟨r, changed, holds₃⟩ := holds''.chsign
      refine ⟨r, ?_, by simpa using holds₃⟩
      simp only [Blk.mult, made, made', product, changed, sign, Option.bind_eq_bind,
        Option.bind_some, if_true]
  | false =>
      refine ⟨mr, ?_, by simpa using holds''⟩
      simp only [Blk.mult, made, made', product, sign, Option.bind_eq_bind, Option.bind_some]
      rfl

end Blk

end Dc

end UnixV7
