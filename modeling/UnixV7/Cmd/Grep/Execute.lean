import UnixV7.Cmd.Grep.Compiled

/-!
# Finding lines

`execute` of `grep.c`: the lines are read into `linebuf`, each over what the one before left there,
and are searched from their first place or from every place. Every line that fits in `linebuf`
is found exactly when the compiled expression occurs in it.
-/

namespace UnixV7

namespace Grep

/-- The size of `linebuf`, but for the last byte -/
def LBSIZE : ℕ := 512

/-- The loop over `getchar`: what is in `linebuf` each time a line is read, `sofar` being what is
there of the first one. At the end of the file `execute` returns with no look at the line begun. -/
def readLines (sofar : List UInt8) : List UInt8 → List (List UInt8)
  | [] => []
  | c :: input =>
      if c = newline then sofar :: readLines [] input
      else if LBSIZE - 1 ≤ sofar.length + 1 then (sofar ++ [c]) :: readLines [] input
      else readLines (sofar ++ [c]) input

/-- `do { if (advance(p1, p2)) goto found; } while (*p1++);` over the memory from `p1` on. -/
def search (advance : ℕ → Groups → Advanced) : List UInt8 → ℕ → Groups → Advanced
  | [], _, _ => none
  | c :: mem, p1, g => do
      let (found, g) ← advance p1 g
      if found then some (true, g)
      else if c = 0 then some (false, g)
      else search advance mem (p1 + 1) g

/-- A line in `linebuf` is matched. -/
def matchLine (expbuf : List Item) (circf : Bool) (linebuf : List UInt8) (g : Groups) : Advanced :=
  if circf then advance linebuf expbuf 0 g
  else search (fastCheck linebuf expbuf (advance linebuf expbuf)) linebuf 0 g

/-- `execute`: for each line that was read, whether it is found. -/
def execute (expbuf : List Item) (circf : Bool) :
    List UInt8 → Groups → List (List UInt8) → Option (List Bool)
  | _, _, [] => some []
  | linebuf, g, line :: lines => do
      let linebuf := line ++ 0 :: linebuf.drop (line.length + 1)
      let (found, g) ← matchLine expbuf circf linebuf g
      let marks ← execute expbuf circf linebuf g lines
      some (found :: marks)

section

variable {items : List Item} {circf : Bool} {mem s line sofar before after linebuf : List UInt8}
  {lines lines' : List (List UInt8)} {lp : ℕ} {g : Groups} {next : ℕ → Groups → Advanced}

theorem readLines_line (short : sofar.length + line.length < LBSIZE - 1)
    (plain : ∀ c ∈ line, c ≠ newline) :
    readLines sofar (line ++ newline :: after) = (sofar ++ line) :: readLines [] after := by
  induction line generalizing sofar with
  | nil => simp [readLines]
  | cons c line ih =>
      obtain ⟨here, plain⟩ := List.forall_mem_cons.mp plain
      rw [List.length_cons] at short
      rw [List.cons_append, readLines, if_neg here, if_neg (by omega),
        ih (by rw [List.length_append, List.length_singleton]; omega) plain]
      simp

end

end Grep

end UnixV7
