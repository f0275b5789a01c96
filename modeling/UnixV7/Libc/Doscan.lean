import UnixV7.Libc.Doprnt

/-!
# Formatted input

`_innum` of the standard I/O library, for the types it does not leave to `_instr`. A stream is the
list of the characters still to come, and a character in hand is missing at the end of the file.
What the function stores in `numbuf` is kept as a list, and a store outside it is an error.
-/

namespace UnixV7.Stdio

/-- The size of what is stored. -/
inductive Size
  | SHORT
  | REGULAR
  | LONG
  | LLONG
  deriving DecidableEq

/-- What is stored through the pointer; a floating number is what `atof` makes of the text. -/
inductive Stored
  | short (x : BitVec 16)
  | int (x : BitVec 32)
  | long (x : BitVec 32)
  | llong (x : BitVec 64)
  | float (numbuf : List Char)
  | double (numbuf : List Char)
  deriving DecidableEq

/-- The variables of the loop; `np` holds the characters of `numbuf` below the pointer. -/
structure Scan where
  np : List Char
  c : Option Char
  iop : List Char
  lcval : BitVec 64
  ndigit : ℕ
  expseen : Bool

/-- What `_innum` leaves: the value returned, what is stored, the stream and `*eofptr`. -/
structure Result where
  matched : Bool
  stored : Option Stored
  iop : List Char
  eof : Bool
  deriving DecidableEq

/-- `*np++ = c`, in the 64 characters of `numbuf`. -/
def put (np : List Char) (c : Char) : Except Unit (List Char) :=
  if np.length < 64 then .ok (np ++ [c]) else .error ()

/-- `*np++ = c, c = getc(iop)` -/
def Scan.take (s : Scan) (c : Char) : Except Unit Scan := do
  let np ← put s.np c
  .ok { s with np := np, c := s.iop.head?, iop := s.iop.tail }

/-- The base of a type. -/
def base (type : Char) : ℕ := if type = 'o' then 8 else if type = 'x' then 16 else 10

/-- Whether the type is of a floating number. -/
def floating (type : Char) : Bool := type = 'e' || type = 'f'

/-- The digits a base allows; the code takes all ten for octal too. -/
def isDigitOf (base : ℕ) (c : Char) : Bool :=
  isdigit c || base = 16 && ('a' ≤ c && c ≤ 'f' || 'A' ≤ c && c ≤ 'F')

/-- The value of a digit. -/
def digitVal (c : Char) : ℕ :=
  if '0' ≤ c ∧ c ≤ '9' then c.toNat - '0'.toNat
  else if 'a' ≤ c ∧ c ≤ 'f' then c.toNat - 'a'.toNat + 10
  else c.toNat - 'A'.toNat + 10

/-- The value before the next digit, moved up by one place. -/
def shifted (base : ℕ) (lcval : BitVec 64) : BitVec 64 :=
  if base = 8 then lcval <<< 3
  else if base = 10 then ((lcval <<< 2) + lcval) <<< 1
  else lcval <<< 4

/-- The loop over the characters, as many as are left of the width. -/
def innumLoop (base : ℕ) (float : Bool) : ℕ → Scan → Except Unit Scan
  | 0, s => .ok s
  | len + 1, s =>
      match s.c with
      | none => .ok s
      | some c =>
          if isDigitOf base c then do
            let s ← s.take c
            innumLoop base float len
              { s with
                ndigit := s.ndigit + 1
                lcval := shifted base s.lcval + BitVec.ofNat 64 (digitVal c) }
          else if c = '.' then
            if base ≠ 10 ∨ !float then
              .ok s
            else do
              let s ← s.take c
              innumLoop base float len { s with ndigit := s.ndigit + 1 }
          else if (c = 'e' ∨ c = 'E') ∧ !s.expseen then
            if base ≠ 10 ∨ !float ∨ s.ndigit = 0 then
              .ok s
            else do
              let s ← { s with expseen := true }.take c
              match s.c with
              | none => .ok s
              | some c =>
                  if c = '+' ∨ c = '-' ∨ isdigit c then do
                    let s ← s.take c
                    innumLoop base float len s
                  else
                    .ok s
          else
            .ok s

/-- White space before a number. -/
def white (c : Char) : Bool := c = ' ' || c = '\t' || c = '\n'

/-- The switch at the end. -/
def stored (float : Bool) (size : Size) (numbuf : List Char) (lcval : BitVec 64) : Option Stored :=
  match float, size with
  | true, .SHORT => some (.float numbuf)
  | true, .REGULAR => some (.float numbuf)
  | true, .LONG => some (.double numbuf)
  | true, .LLONG => none
  | false, .SHORT => some (.short (lcval.setWidth 16))
  | false, .REGULAR => some (.int (lcval.setWidth 32))
  | false, .LONG => some (.long (lcval.setWidth 32))
  | false, .LLONG => some (.llong lcval)

/-- The part of `_innum` behind the sign; `s` has the character after it in hand. -/
def innumRest (ptr : Bool) (type : Char) (len : ℤ) (size : Size) (negflg : Bool) (s : Scan) :
    Except Unit Result := do
  let s ← innumLoop (base type) (floating type) len.toNat s
  let lcval := if negflg then -s.lcval else s.lcval
  let iop := s.c.toList ++ s.iop
  if !ptr || s.np.isEmpty then
    .ok ⟨false, none, iop, s.c.isNone⟩
  else
    (put s.np '\x00').map fun _ =>
      ⟨true, stored (floating type) size s.np lcval, iop, s.c.isNone⟩

/-- `_innum`; `ptr` tells whether the pointer is not null. -/
def innum (ptr : Bool) (type : Char) (len : ℤ) (size : Size) (iop : List Char) :
    Except Unit Result :=
  let len := if 62 < len then 62 else len
  let iop := iop.dropWhile white
  let s : Scan := ⟨[], iop.head?, iop.tail, 0, 0, false⟩
  if s.c = some '-' then
    s.take '-' >>= innumRest ptr type (len - 1) size true
  else if s.c = some '+' then
    innumRest ptr type (len - 1) size false { s with c := s.iop.head?, iop := s.iop.tail }
  else
    innumRest ptr type len size false s

variable {b : ℕ} {float : Bool} {s : Scan} {c : Char}

theorem put_of_lt {np : List Char} (room : np.length < 64) : put np c = .ok (np ++ [c]) :=
  if_pos room

theorem Scan.take_of_lt (room : s.np.length < 64) :
    s.take c = .ok { s with np := s.np ++ [c], c := s.iop.head?, iop := s.iop.tail } := by
  rw [Scan.take, put_of_lt room]
  rfl

/-- The characters that the loop may still store: one each time, and one more with the exponent. -/
def Scan.more (s : Scan) (len : ℕ) : ℕ := len + if s.expseen then 0 else 1

/-- The loop leaves room for the zero behind the number. -/
theorem innumLoop_fits (b : ℕ) (float : Bool) (len : ℕ) (s : Scan)
    (room : s.np.length + s.more len ≤ 63) :
    ∃ t, innumLoop b float len s = .ok t ∧ t.np.length ≤ 63 := by
  induction len generalizing s with
  | zero => exact ⟨s, rfl, by omega⟩
  | succ len ih =>
      have stop : ∃ t, (.ok s : Except Unit Scan) = .ok t ∧ t.np.length ≤ 63 := ⟨s, rfl, by omega⟩
      have bound : s.np.length < 64 := by
        rw [Scan.more] at room
        omega
      have next : ∀ t : Scan, t.np.length = s.np.length + 1 → t.expseen = s.expseen →
          ∃ u, innumLoop b float len t = .ok u ∧ u.np.length ≤ 63 := by
        intro t length seen
        apply ih
        rw [Scan.more] at room ⊢
        rw [length, seen]
        omega
      rw [innumLoop]
      cases s.c with
      | none => exact stop
      | some c =>
          dsimp only
          split
          · rw [Scan.take_of_lt bound]
            exact next _ (by simp) rfl
          split
          · split
            · exact stop
            · rw [Scan.take_of_lt bound]
              exact next _ (by simp) rfl
          split
          · next exponent =>
              have unseen : s.expseen = false := by simpa using exponent.2
              have fewer : s.np.length + len + 2 ≤ 63 := by
                rw [Scan.more, unseen] at room
                simpa [Nat.add_assoc, Nat.add_comm 1 len] using room
              split
              · exact stop
              · rw [Scan.take_of_lt (by exact bound)]
                have length : (s.np ++ [c]).length = s.np.length + 1 := by simp
                change ∃ t, (match s.iop.head? with | none => _ | some c => _) = Except.ok t ∧ _
                cases s.iop.head? with
                | none => exact ⟨_, rfl, by dsimp only; omega⟩
                | some d =>
                    dsimp only
                    split
                    · rw [Scan.take_of_lt (by dsimp only; omega)]
                      apply ih
                      have length' : (s.np ++ [c] ++ [d]).length = s.np.length + 2 := by simp
                      simp only [Scan.more, if_true]
                      omega
                    · exact ⟨_, rfl, by dsimp only; omega⟩
          · exact stop

theorem innumRest_fits (ptr : Bool) (type : Char) (len : ℤ) (size : Size) (negflg : Bool) (s : Scan)
    (room : s.np.length + s.more len.toNat ≤ 63) :
    ∃ result, innumRest ptr type len size negflg s = .ok result := by
  obtain ⟨t, read, bound⟩ := innumLoop_fits (base type) (floating type) len.toNat s room
  rw [innumRest, read]
  change ∃ result, (if !ptr || t.np.isEmpty then _ else _) = Except.ok result
  split
  · exact ⟨_, rfl⟩
  · rw [put_of_lt (by omega)]
    exact ⟨_, rfl⟩

/-- No store is outside `numbuf`. -/
theorem innum_fits (ptr : Bool) (type : Char) (len : ℤ) (size : Size) (iop : List Char) :
    ∃ result, innum ptr type len size iop = .ok result := by
  rw [innum]
  dsimp only
  generalize iop.dropWhile white = iop
  have width : (if 62 < len then 62 else len) ≤ 62 := by
    split <;> omega
  generalize (if 62 < len then 62 else len) = len at width ⊢
  split
  · rw [Scan.take_of_lt (by simp)]
    apply innumRest_fits
    simp only [Scan.more, List.nil_append, List.length_singleton]
    split <;> omega
  split
  · apply innumRest_fits
    simp only [Scan.more, List.length_nil]
    split <;> omega
  · apply innumRest_fits
    simp only [Scan.more, List.length_nil]
    split <;> omega

end UnixV7.Stdio
