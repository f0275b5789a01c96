import Mathlib.Data.List.GetD
import UnixV7.Cmd.Fgrep.Rounds

/-!
# Reading the lines

`execute` of `fgrep.c`: the characters come through a buffer in the pieces that `read` gives, the
machine is run over them, and a line is decided where the machine comes to a marked place or at
its newline.
-/

namespace UnixV7

open Function Suffixes

namespace Fgrep

/-- The buffer, what `read` has not given yet, and how often it was called. -/
structure Reader where
  buf : ℕ → UInt8
  p : ℕ
  ccount : ℕ
  rest : List UInt8
  turn : ℕ

/-- `if (--ccount <= 0)`, with the calls of `read` that follow. They give what `piece` says, but at
least one byte as long as there is one and no more than there is room for. -/
def refill (piece : ℕ → ℕ) (r : Reader) : Option Reader :=
  if 1 < r.ccount then some { r with ccount := r.ccount - 1 }
  else
    let p := if r.p = 1024 then 0 else r.p
    let room := if 512 < p then 1024 - p else 512
    let n := min (max 1 (piece r.turn)) (min room r.rest.length)
    if n = 0 then none
    else some
      { buf := fun i => if p ≤ i ∧ i < p + n then r.rest.getD (i - p) 0 else r.buf i
        p := p
        ccount := n
        rest := r.rest.drop n
        turn := r.turn + 1 }

/-- `if (*p && c->inp == *p) .. else if (c->link != 0) c = c->link`: whether the character is in
the list, and the element where that is known. -/
def seek (w : ℕ → Words) (ch : UInt8) : ℕ → ℕ → Except Stop (Bool × ℕ)
  | 0, _ => .error .stuck
  | fuel + 1, c =>
      if ch ≠ 0 ∧ (w c).inp = ch then .ok (true, c)
      else
        match (w c).link with
        | none => .ok (false, c)
        | some d => seek w ch fuel d

/-- What follows the label `istate`. -/
def istate (w : ℕ → Words) (ch : UInt8) : Except Stop (ℕ × Bool) := do
  match ← seek w ch MAXSIZ 0 with
  | (true, s) => do
      let c ← follow (w s).nst
      .ok (c, true)
  | (false, s) => .ok (s, true)

/-- What follows the label `nstate`: the new `c` and `failed`. -/
def nstate (w : ℕ → Words) (ch : UInt8) : ℕ → ℕ → Bool → Except Stop (ℕ × Bool)
  | 0, _, _ => .error .stuck
  | fuel + 1, c, failed => do
      match ← seek w ch MAXSIZ c with
      | (true, s) => do
          let c ← follow (w s).nst
          .ok (c, failed)
      | (false, s) =>
          match (w s).fail with
          | some f => nstate w ch fuel f true
          | none => istate w ch

/-- `while (*p++ != '\n')`, with the reading inside. -/
def skipLine (piece : ℕ → ℕ) : ℕ → Reader → Except Stop Reader
  | 0, _ => .error .stuck
  | fuel + 1, r =>
      if r.buf r.p = newline then .ok { r with p := r.p + 1 }
      else
        match refill piece { r with p := r.p + 1 } with
        | none => .ok { r with p := r.p + 1 }
        | some r => skipLine piece fuel r

/-- Whether a line counts where the machine came to a marked place. -/
def counts (xflag vflag failed : Bool) : Bool :=
  !(vflag && (!failed || !xflag) || !vflag && xflag && failed)

/-- The loop of `execute`: for each line, whether it counts. -/
def execute (xflag vflag : Bool) (w : ℕ → Words) (piece : ℕ → ℕ) :
    ℕ → Reader → ℕ → Bool → Except Stop (List Bool)
  | 0, _, _, _ => .error .stuck
  | fuel + 1, r, c, failed =>
      match refill piece r with
      | none => .ok []
      | some r => do
          let (c, failed) ← nstate w (r.buf r.p) MAXSIZ c failed
          if (w c).out then do
            let r ← skipLine piece fuel r
            let marks ← execute xflag vflag w piece fuel r 0 false
            .ok (counts xflag vflag failed :: marks)
          else if r.buf r.p = newline then do
            let marks ← execute xflag vflag w piece fuel { r with p := r.p + 1 } 0 false
            .ok (vflag :: marks)
          else execute xflag vflag w piece fuel { r with p := r.p + 1 } c failed

/-- The machine for a list of words. -/
def machine (xflag : Bool) (args : List UInt8) : Except Stop (ℕ → Words) := do
  let t ← cgotofn xflag args
  cfail t.w

/-- `fgrep` over one file. -/
def fgrep (xflag vflag : Bool) (args : List UInt8) (piece : ℕ → ℕ) (input : List UInt8) :
    Except Stop (List Bool) := do
  let w ← machine xflag args
  execute xflag vflag w piece (input.length + 1) ⟨fun _ => 0, 0, 0, input, 0⟩ 0 false

/-- What is still to be read where `p` was moved on. -/
def Reader.left (r : Reader) : List UInt8 :=
  ((List.range (r.ccount - 1)).map fun i => r.buf (r.p + i)) ++ r.rest

/-- What is still to be read, with the character at `p`. -/
def Reader.here (r : Reader) : List UInt8 :=
  ((List.range r.ccount).map fun i => r.buf (r.p + i)) ++ r.rest

section

variable {r : Reader} {piece : ℕ → ℕ}

/-- What there is to read is in the buffer after a reading, which does not go past its end. -/
theorem refill_spec (inside : r.p + (r.ccount - 1) ≤ 1024) :
    (refill piece r = none ∧ r.left = []) ∨
    ∃ r', refill piece r = some r' ∧ r'.here = r.left ∧ 0 < r'.ccount ∧
      r'.p + r'.ccount ≤ 1024 := by
  unfold refill
  split
  next more => exact Or.inr ⟨_, rfl, rfl, by dsimp only; omega, by dsimp only; omega⟩
  next last =>
    have nothing : r.ccount - 1 = 0 := by omega
    have left : r.left = r.rest := by rw [Reader.left, nothing]; rfl
    dsimp only
    have start : (if r.p = 1024 then 0 else r.p) < 1024 := by
      split
      · omega
      · omega
    generalize (if r.p = 1024 then 0 else r.p) = p at start ⊢
    have room_pos : 0 < (if 512 < p then 1024 - p else 512) ∧
        p + (if 512 < p then 1024 - p else 512) ≤ 1024 := by
      split
      · omega
      · omega
    generalize (if 512 < p then 1024 - p else 512) = room at room_pos ⊢
    split
    next zero =>
      refine Or.inl ⟨rfl, ?_⟩
      rw [left, ← List.length_eq_zero_iff]
      omega
    next some =>
      refine Or.inr ⟨_, rfl, ?_, Nat.pos_of_ne_zero some, by dsimp only; omega⟩
      rw [left]
      have le : min (max 1 (piece r.turn)) (min room r.rest.length) ≤ r.rest.length := by omega
      generalize min (max 1 (piece r.turn)) (min room r.rest.length) = n at le ⊢
      have taken : ((List.range n).map fun i => if p ≤ p + i ∧ p + i < p + n then
          r.rest.getD (p + i - p) 0 else r.buf (p + i)) = r.rest.take n := by
        apply List.ext_getElem
        · simp [le]
        · intro i h h'
          rw [List.length_map, List.length_range] at h
          have less : i < r.rest.length := by omega
          rw [List.getElem_map, List.getElem_range, if_pos ⟨by omega, by omega⟩,
            Nat.add_sub_cancel_left, List.getD_eq_getElem _ _ less, List.getElem_take]
      change ((List.range n).map fun i => if p ≤ p + i ∧ p + i < p + n then
        r.rest.getD (p + i - p) 0 else r.buf (p + i)) ++ r.rest.drop n = r.rest
      rw [taken, List.take_append_drop]

/-- The character at `p` is the first there is to read. -/
theorem Reader.here_eq (some : 0 < r.ccount) :
    r.here = r.buf r.p :: Reader.left { r with p := r.p + 1 } := by
  obtain ⟨n, eq⟩ : ∃ n, r.ccount = n + 1 := ⟨r.ccount - 1, by omega⟩
  unfold Reader.here Reader.left
  rw [eq, List.range_succ_eq_map, List.map_cons, List.map_map, List.cons_append]
  rw [Nat.add_sub_cancel, Nat.add_zero]
  congr 2
  apply List.map_congr_left
  intro i _
  rw [Function.comp_apply, Nat.add_assoc, Nat.add_comm 1, Nat.succ_eq_add_one]

end

end Fgrep

end UnixV7
