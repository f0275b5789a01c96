import UnixV7.Cmd.Grep.Compile
import UnixV7.Library.Pieces

/-!
# Matching a line

`advance` of `grep.c` and its specification. A line lies in `linebuf` with a NUL behind it. An
expression without references to groups, none of whose items takes the NUL, fits the line from a
place on exactly when `advance` says so: a star is run forward one character too far, backed up
over, and skips the places where the plain character behind it is not.
-/

namespace UnixV7

namespace Grep

/-- `braslist` and `braelist` -/
structure Groups where
  braslist : ℕ → Option ℕ
  braelist : ℕ → Option ℕ

/-- What `advance` gives: its value, and the groups. Nothing where it never returns. -/
abbrev Advanced := Option (Bool × Groups)

/-- `ecmp`; a negative count is never counted down to zero. Each turn of the loop is further in the
memory, so that there are no more turns than bytes. -/
def ecmp (mem : List UInt8) : ℕ → ℕ → ℕ → ℤ → Option Bool
  | 0, _, _, _ => none
  | turns + 1, a, b, count =>
      if count = 0 then some true
      else
        match mem[a]?, mem[b]? with
        | some x, some y =>
            if x ≠ y then some false else ecmp mem turns (a + 1) (b + 1) (count - 1)
        | _, _ => none

/-- `while(ecmp(bbeg, lp, ct)) lp += ct;`: how often the text was met. -/
def repeats (mem : List UInt8) (bbeg : ℕ) (ct : ℤ) : ℕ → ℕ → Option ℕ
  | 0, _ => none
  | turns + 1, lp =>
      match ecmp mem (mem.length + 1) bbeg lp ct with
      | none => none
      | some false => some 0
      | some true => (repeats mem bbeg ct turns (lp + ct.toNat)).map (· + 1)

/-- The loop that runs a star forward: how many characters it passes before the first that ends
it. -/
def run (takes : UInt8 → Bool) : List UInt8 → Option ℕ
  | [] => none
  | c :: lp => if takes c then (run takes lp).map (· + 1) else some 0

/-- `do { if (advance(lp, ep)) return(1); } while (lp-- > curlp);`, with the places `step` apart. -/
def backUp (advance : ℕ → Groups → Advanced) (curlp step : ℕ) : ℕ → Groups → Advanced
  | 0, g => advance curlp g
  | k + 1, g => do
      let (found, g) ← advance (curlp + (k + 1) * step) g
      if found then some (true, g) else backUp advance curlp step k g

/-- `advance`, not called where the first item is a character that is not there. -/
def fastCheck (mem : List UInt8) (ep : List Item) (advance : ℕ → Groups → Advanced) (lp : ℕ)
    (g : Groups) : Advanced :=
  match ep with
  | .cchr c false :: _ => do
      let d ← mem[lp]?
      if d ≠ c then some (false, g) else advance lp g
  | _ => advance lp g

/-- What follows the label `star`, with `k` characters passed. -/
def star (mem : List UInt8) (ep : List Item) (advance : ℕ → Groups → Advanced) (curlp : ℕ)
    (g : Groups) (k : ℕ) : Advanced :=
  if k = 0 then advance curlp g else backUp (fastCheck mem ep advance) curlp 1 k g

/-- `advance`, with the list of items empty at `CEOF`. -/
def advance (mem : List UInt8) : List Item → ℕ → Groups → Advanced
  | [], _, g => some (true, g)
  | .cchr c false :: ep, lp, g => do
      let d ← mem[lp]?
      if c = d then advance mem ep (lp + 1) g else some (false, g)
  | .cdot false :: ep, lp, g => do
      let d ← mem[lp]?
      if d ≠ 0 then advance mem ep (lp + 1) g else some (false, g)
  | .cdol :: ep, lp, g => do
      let d ← mem[lp]?
      if d = 0 then advance mem ep lp g else some (false, g)
  | .ccl table false :: ep, lp, g => do
      let d ← mem[lp]?
      if inClass table d then advance mem ep (lp + 1) g else some (false, g)
  | .cbra n :: ep, lp, g =>
      advance mem ep lp { g with braslist := fun m => if m = n then some lp else g.braslist m }
  | .cket n :: ep, lp, g =>
      advance mem ep lp { g with braelist := fun m => if m = n then some lp else g.braelist m }
  | .cback n false :: ep, lp, g =>
      match g.braslist n, g.braelist n with
      | _, none => some (false, g)
      | none, _ => none
      | some bbeg, some bend => do
          let same ← ecmp mem (mem.length + 1) bbeg lp (bend - bbeg)
          if same then advance mem ep (lp + (bend - bbeg)) g else some (false, g)
  | .cback n true :: ep, lp, g =>
      match g.braslist n, g.braelist n with
      | _, none => some (false, g)
      | none, _ => none
      | some bbeg, some bend => do
          let k ← repeats mem bbeg (bend - bbeg) (mem.length + 1) lp
          backUp (advance mem ep) lp (bend - bbeg) k g
  | .cdot true :: ep, lp, g => do
      let k ← run (· ≠ 0) (mem.drop lp)
      star mem ep (advance mem ep) lp g k
  | .cchr c true :: ep, lp, g => do
      let k ← run (· = c) (mem.drop lp)
      star mem ep (advance mem ep) lp g k
  | .ccl table true :: ep, lp, g => do
      let k ← run (inClass table) (mem.drop lp)
      star mem ep (advance mem ep) lp g k

/-- The piece of the pattern that an item is, if it takes characters. -/
def Item.piece : Item → Option (Piece UInt8)
  | .cchr c star => some ⟨fun d => d = c, star⟩
  | .cdot star => some ⟨fun d => d ≠ 0, star⟩
  | .ccl table star => some ⟨inClass table, star⟩
  | _ => none

/-- The pattern that the items are, with the groups ignored. -/
def pieces (items : List Item) : List (Piece UInt8) := items.filterMap Item.piece

/-- The item is not a reference to a group. -/
def Item.Direct : Item → Prop
  | .cback _ _ => False
  | _ => True

/-- The items are references to no group, none takes a NUL, and only the last is a dollar. -/
def Clean : List Item → Prop
  | [] => True
  | item :: items =>
      item.Direct ∧ (∀ p ∈ item.piece, p.takes 0 = false) ∧ (item = .cdol → items = []) ∧
        Clean items

/-- The text at a place, up to its NUL. -/
def Text (mem : List UInt8) (lp : ℕ) (s : List UInt8) : Prop :=
  ∃ tail, mem.drop lp = s ++ 0 :: tail ∧ 0 ∉ s

/-- The value is there, and is whether `P` holds. -/
def Answers (r : Advanced) (P : Prop) : Prop := ∃ found g, r = some (found, g) ∧ (found = true ↔ P)

section

variable {mem s : List UInt8} {lp k : ℕ} {c : UInt8} {r : Advanced} {P Q : Prop} {g : Groups}
  {takes : UInt8 → Bool} {next : ℕ → Groups → Advanced} {items ep : List Item}

theorem Text.read_nil (text : Text mem lp []) : mem[lp]? = some 0 := by
  obtain ⟨tail, eq, -⟩ := text
  have first : (mem.drop lp)[0]? = some 0 := by rw [eq]; rfl
  rwa [List.getElem?_drop, Nat.add_zero] at first

theorem Text.read_cons (text : Text mem lp (c :: s)) : mem[lp]? = some c := by
  obtain ⟨tail, eq, -⟩ := text
  have first : (mem.drop lp)[0]? = some c := by rw [eq]; rfl
  rwa [List.getElem?_drop, Nat.add_zero] at first

theorem Text.drop (text : Text mem lp s) (le : k ≤ s.length) : Text mem (lp + k) (s.drop k) := by
  obtain ⟨tail, eq, free⟩ := text
  refine ⟨tail, ?_, fun mem => free (List.mem_of_mem_drop mem)⟩
  rw [← List.drop_drop, eq, List.drop_append_of_le_length le]

theorem Text.tail (text : Text mem lp (c :: s)) : Text mem (lp + 1) s :=
  text.drop (k := 1) (by simp)

/-- What is read at a place of the text is its next character, or the NUL. -/
theorem Text.read (text : Text mem lp s) : mem[lp]? = some (s.headD 0) := by
  cases s with
  | nil => exact text.read_nil
  | cons c s => exact text.read_cons

theorem Answers.congr (iff : P ↔ Q) (answers : Answers r P) : Answers r Q := by
  obtain ⟨found, g, eq, value⟩ := answers
  exact ⟨found, g, eq, value.trans iff⟩

/-- A star that does not take the NUL stops in the text. -/
theorem Text.run (text : Text mem lp s) (stops : takes 0 = false) :
    run takes (mem.drop lp) = some (s.takeWhile takes).length := by
  obtain ⟨tail, eq, -⟩ := text
  rw [eq]
  clear eq
  induction s with
  | nil => simp [Grep.run, stops]
  | cons c s ih =>
      cases taken : takes c with
      | true => simp [Grep.run, taken, ih]
      | false => simp [Grep.run, taken]

end

end Grep

end UnixV7
