import Mathlib.Data.List.Lex
import Mathlib.Data.List.TakeWhile
import Mathlib.Data.Int.Notation
import Mathlib.Tactic.Common

/-!
# The input of join

`input` of `join.c` with the `fgets` it calls: a line is read into a buffer and split into fields
at one separator, or at runs of blanks. What is returned is the number of fields, 0 at the end of
the file, and also for a line without fields. `cmp` compares two fields as `strcmp` does.
-/

namespace UnixV7.Join

/-- The characters of a field, none of which is 0. -/
abbrev Field := List UInt8

/-- The size of a line's buffer, and the number of fields there is room for. -/
def BUFSIZ : ℕ := 512

def NFLD : ℕ := 20

/-- What the arguments set: the fields to join on, the separators, and what is put out. -/
structure Options where
  j1 : ℕ
  j2 : ℕ
  sep1 : UInt8
  sep2 : UInt8
  /-- The text for a field that is empty or missing. -/
  null : Field
  /-- The fields to be put out, with the file each is from: `olistf` and `olist`. -/
  olist : List (Bool × ℕ)
  /-- The bits 1 and 2 of `aflg`. -/
  a1 : Bool
  a2 : Bool

/-- Why there is no result: `error` has been called, or the loop has not ended yet. -/
inductive Failure
  | tooManyFields
  | fuel

/-- The loop of `fgets`, with room for `n` more characters. -/
def fgets : ℕ → List UInt8 → List UInt8
  | 0, _ => []
  | _, [] => []
  | n + 1, c :: rest => if c = 10 then [c] else c :: fgets n rest

namespace Options

variable (o : Options)

/-- Blanks are skipped before a field, if they separate fields. -/
def skip (bp : List UInt8) : List UInt8 :=
  if o.sep1 = 32 then bp.dropWhile fun c => c = o.sep1 ∨ c = o.sep2 else bp

/-- The line ends here. -/
def ends : List UInt8 → Bool
  | [] => true
  | c :: _ => c = 10 ∨ c = 0

/-- The characters of a field. -/
def word (bp : List UInt8) : Field :=
  bp.takeWhile fun c => c ≠ o.sep1 ∧ c ≠ 10 ∧ c ≠ o.sep2 ∧ c ≠ 0

/-- What comes behind a field and the character that ends it, unless that is a 0. -/
def behind (bp : List UInt8) : List UInt8 :=
  match bp.drop (o.word bp).length with
  | [] => []
  | c :: rest => if c = 0 then c :: rest else rest

/-- The loop of `input` over the fields, with some of `ppi` left. -/
def split : ℕ → List UInt8 → Option (List Field)
  | 0, bp => if ends (o.skip bp) then some [] else none
  | left + 1, bp =>
      if ends (o.skip bp) then
        some []
      else
        (split left (o.behind (o.skip bp))).map (o.word (o.skip bp) :: ·)

/-- `input`: the fields of the line that the rest of a file begins with, and its length. At the
end of the file there are none; `ppi` is left alone then, and nobody looks at it. -/
def input (rest : List UInt8) : Except Failure (List Field × ℕ) :=
  let line := fgets (BUFSIZ - 1) rest
  if line = [] then
    .ok ([], 0)
  else
    match o.split NFLD line with
    | none => .error .tooManyFields
    | some fields => .ok (fields, line.length)

end Options

/-- `cmp`, which is `strcmp`. -/
def cmp : Field → Field → ℤ
  | [], [] => 0
  | [], b :: _ => -(b.toNat : ℤ)
  | a :: _, [] => a.toNat
  | a :: as, b :: bs => if a = b then cmp as bs else (a.toNat : ℤ) - b.toNat

/-- The field `ppi[..][j]`, empty where the line has none. -/
def key (j : ℕ) (fields : List Field) : Field := fields.getD j []

/-- The lines of a file, each with the newline that ends it. -/
def lines : List UInt8 → List (List UInt8)
  | [] => []
  | c :: rest =>
      if c = 10 then
        [c] :: lines rest
      else
        match lines rest with
        | [] => [[c]]
        | line :: more => (c :: line) :: more

/-- The fields of the lines of a file. -/
def records (o : Options) (file : List UInt8) : List (List Field) :=
  (lines file).map fun line => (o.split NFLD line).getD []

/-- Every line fits into the buffer, and its fields into `ppi`. -/
def Fits (o : Options) (file : List UInt8) : Prop :=
  ∀ line ∈ lines file, line.length < BUFSIZ ∧ (o.split NFLD line).isSome

/-- The order of keys is that of the numbers of their characters. -/
def code (f : Field) : List ℕ := f.map UInt8.toNat

variable {o : Options} {rest line : List UInt8} {a b : Field} {n : ℕ}

/-! ## Comparing -/

theorem cmp_spec (clean : 0 ∉ a) (clean' : 0 ∉ b) :
    (cmp a b < 0 ↔ code a < code b) ∧ (cmp a b = 0 ↔ code a = code b) := by
  induction a generalizing b with
  | nil =>
      cases b with
      | nil => simp [cmp, code]
      | cons d b =>
          have some : 0 < d.toNat := Nat.pos_of_ne_zero fun zero => clean' <| by
            rw [show d = 0 from UInt8.toNat_inj.mp zero]
            exact List.mem_cons_self
          simp only [cmp, code, List.map_nil, List.map_cons]
          refine ⟨iff_of_true (by omega) (List.nil_lt_cons _ _), iff_of_false (by omega) (by simp)⟩
  | cons c a ih =>
      have some : 0 < c.toNat := Nat.pos_of_ne_zero fun zero => clean <| by
        rw [show c = 0 from UInt8.toNat_inj.mp zero]
        exact List.mem_cons_self
      cases b with
      | nil =>
          simp only [cmp, code, List.map_nil, List.map_cons]
          exact ⟨iff_of_false (by omega) (List.not_lt_nil _), iff_of_false (by omega) (by simp)⟩
      | cons d b =>
          have rest := ih (fun mem => clean (List.mem_cons_of_mem c mem))
            fun mem => clean' (List.mem_cons_of_mem d mem)
          simp only [cmp, code, List.map_cons, List.cons_lt_cons_iff, List.cons.injEq] at rest ⊢
          by_cases same : c = d
          · subst same
            simpa using rest
          · have other : c.toNat ≠ d.toNat := fun also => same (UInt8.toNat_inj.mp also)
            rw [if_neg same]
            constructor
            · omega
            · omega

/-! ## Lines -/

theorem fgets_nil (n : ℕ) : fgets n [] = [] := by
  cases n <;> rfl

/-- `fgets` returns the first line, if there is room for it. -/
theorem lines_spec (some : rest ≠ []) :
    ∃ line more, lines rest = line :: more ∧ line ≠ [] ∧ lines (rest.drop line.length) = more ∧
      ∀ n, line.length ≤ n → fgets n rest = line := by
  induction rest with
  | nil => exact absurd rfl some
  | cons c rest ih =>
      rw [lines]
      by_cases newline : c = 10
      · rw [if_pos newline]
        refine ⟨[c], lines rest, rfl, List.cons_ne_nil _ _, rfl, fun n room => ?_⟩
        cases n with
        | zero => simp at room
        | succ n => rw [fgets, if_pos newline]
      · rw [if_neg newline]
        by_cases last : rest = []
        · subst last
          refine ⟨[c], [], rfl, List.cons_ne_nil _ _, rfl, fun n room => ?_⟩
          cases n with
          | zero => simp at room
          | succ n => rw [fgets, if_neg newline, fgets_nil]
        · obtain ⟨line, more, all, -, behind, got⟩ := ih last
          refine ⟨c :: line, more, by rw [all], List.cons_ne_nil _ _, behind, fun n room => ?_⟩
          cases n with
          | zero => simp at room
          | succ n => rw [fgets, if_neg newline, got n (Nat.le_of_succ_le_succ room)]

/-- `input` comes to the end of the file, or returns the fields of its next line. -/
theorem input_spec (fits : Fits o rest) :
    (records o rest = [] ∧ o.input rest = .ok ([], 0)) ∨
      ∃ fields n, o.input rest = .ok (fields, n) ∧ Fits o (rest.drop n) ∧
        records o rest = fields :: records o (rest.drop n) := by
  by_cases last : rest = []
  · subst last
    exact .inl ⟨rfl, rfl⟩
  · obtain ⟨line, more, all, some, behind, got⟩ := lines_spec last
    obtain ⟨short, splits⟩ := fits line (by rw [all]; exact List.mem_cons_self)
    obtain ⟨fields, split⟩ := Option.isSome_iff_exists.mp splits
    refine .inr ⟨fields, line.length, ?_, ?_, ?_⟩
    · rw [Options.input, got (BUFSIZ - 1) (Nat.le_sub_one_of_lt short)]
      simp only [if_neg some, split]
    · intro line' mem
      rw [behind] at mem
      exact fits line' (by rw [all]; exact List.mem_cons_of_mem line mem)
    · rw [records, all, List.map_cons, split, records, behind]
      rfl

/-! ## Fields -/

theorem split_clean {left : ℕ} {bp : List UInt8} {fields : List Field}
    (split : o.split left bp = some fields) : ∀ f ∈ fields, 0 ∉ f ∧ 10 ∉ f := by
  induction left generalizing bp fields with
  | zero =>
      rw [Options.split] at split
      split_ifs at split
      cases split
      simp
  | succ left ih =>
      rw [Options.split] at split
      split_ifs at split
      · cases split
        simp
      · obtain ⟨more, rest, rfl⟩ := Option.map_eq_some_iff.mp split
        intro f mem
        rcases List.mem_cons.mp mem with rfl | mem
        · constructor
          · intro zero
            have inside := List.mem_takeWhile_imp zero
            simp at inside
          · intro newline
            have inside := List.mem_takeWhile_imp newline
            simp at inside
        · exact ih rest f mem

theorem records_clean {fields : List Field} (mem : fields ∈ records o rest) (j : ℕ) :
    0 ∉ key j fields ∧ 10 ∉ key j fields := by
  obtain ⟨line, -, rfl⟩ := List.mem_map.mp mem
  cases split : o.split NFLD line with
  | none => simp [key]
  | some fields =>
      rw [Option.getD_some, key, List.getD_eq_getElem?_getD]
      cases here : fields[j]? with
      | none => simp
      | some f => exact split_clean split f (List.mem_of_getElem? here)

end UnixV7.Join
