import Mathlib.Algebra.Group.Nat.Defs
import Mathlib.Data.List.TakeWhile
import Mathlib.Tactic.Common
import UnixV7.Cmd.Cron.Init

/-!
# The lines of the crontab

What `init` makes of a line by itself, without the lines around it: the fields that are read, the
command, and what is stored. What a line has to be is said apart from it.
-/

namespace UnixV7.Cron

/-- A field. -/
inductive Entry
  | any
  | exact (n : ℕ)
  | list (ns : List ℕ)
  | range (low high : ℕ)

/-- The field has the value `v`. -/
def Entry.Matches : Entry → ℕ → Prop
  | any, _ => True
  | exact n, v => n = v
  | list ns, v => v ∈ ns
  | range low high, v => low ≤ v ∧ v ≤ high

def byte (n : ℕ) : UInt8 := UInt8.ofNat n

/-- What is stored for a field. -/
def Entry.codes : Entry → List UInt8
  | any => [ANY]
  | exact n => [EXACT, byte n]
  | list ns => LIST :: (ns.map byte ++ [LIST])
  | range low high => [RANGE, byte low, byte high]

/-! ## What a line has to be -/

/-- The value of digits. -/
def value (ds : List UInt8) : ℕ := ds.foldl (fun n c => n * 10 + (c.toNat - 48)) 0

/-- A number below 100. -/
def Numeral (ds : List UInt8) (n : ℕ) : Prop :=
  ds ≠ [] ∧ (∀ c ∈ ds, isdigit c) ∧ value ds = n ∧ n < 100

/-- Numbers with a comma between any two. -/
inductive Numerals : List UInt8 → List ℕ → Prop
  | one {ds n} : Numeral ds n → Numerals ds [n]
  | more {ds n l ns} : Numeral ds n → Numerals l ns → Numerals (ds ++ comma :: l) (n :: ns)

/-- The text of a field. -/
inductive Form : List UInt8 → Entry → Prop
  | any : Form [star] .any
  | exact {ds n} : Numeral ds n → Form ds (.exact n)
  | list {ds n l ns} : Numeral ds n → Numerals l ns → Form (ds ++ comma :: l) (.list (n :: ns))
  | range {ds low es high} : Numeral ds low → Numeral es high →
      Form (ds ++ dash :: es) (.range low high)

/-- Fields in number `k`, with blanks behind each, and a command. -/
inductive Says : ℕ → List UInt8 → List Entry → List UInt8 → Prop
  | command {bs c cmd} : (∀ b ∈ bs, isblank b) → ¬ isblank c → Says 0 (bs ++ c :: cmd) [] (c :: cmd)
  | field {bs f e b k l es cmd} : (∀ b ∈ bs, isblank b) → Form f e → isblank b →
      Says k l es cmd → Says (k + 1) (bs ++ (f ++ b :: l)) (e :: es) cmd

/-! ## What is read of a line -/

/-- The number that is read, as `int` holds it. -/
def cut (l : List UInt8) : ℕ := value (l.takeWhile isdigit) % 2 ^ 32

/-- What is read of a list behind a comma, and the rest of the line unless it is ignored. -/
def members (l : List UInt8) : List ℕ × Option (List UInt8) :=
  if 100 ≤ cut l then ([], none)
  else
    match _next : l.dropWhile isdigit with
    | [] => ([cut l], none)
    | c :: rest =>
        if c = comma then (cut l :: (members rest).1, (members rest).2)
        else if isblank c then ([cut l], some rest)
        else ([cut l], none)
termination_by l.length
decreasing_by
  all_goals
    have length := (List.dropWhile_suffix isdigit (l := l)).length_le
    rw [_next] at length
    exact length

/-- What is read of one field: the field and the rest of the line, or what is stored of it before
the line is ignored. -/
inductive Piece
  | whole (entry : Entry) (rest : List UInt8)
  | broken (begun : List UInt8)

/-- The part of a range behind the dash. -/
def upper (low : ℕ) (l : List UInt8) : Piece :=
  if 100 ≤ cut l then .broken [RANGE, byte low]
  else
    match l.dropWhile isdigit with
    | [] => .broken [RANGE, byte low]
    | c :: rest =>
        if isblank c then .whole (.range low (cut l)) rest else .broken [RANGE, byte low]

/-- A field. -/
def piece (l : List UInt8) : Piece :=
  match l.dropWhile isblank with
  | [] => .broken []
  | c :: rest =>
      if c = star then .whole .any rest
      else if 100 ≤ cut (c :: rest) then .broken []
      else
        match (c :: rest).dropWhile isdigit with
        | [] => .broken []
        | d :: behind =>
            if d = comma then
              match (members behind).2 with
              | none => .broken (LIST :: (cut (c :: rest) :: (members behind).1).map byte)
              | some rest' => .whole (.list (cut (c :: rest) :: (members behind).1)) rest'
            else if d = dash then upper (cut (c :: rest)) behind
            else if isblank d then .whole (.exact (cut (c :: rest))) behind
            else .broken []

/-- What is stored of a field. -/
def Piece.stored : Piece → List UInt8
  | whole entry _ => entry.codes
  | broken begun => begun

/-- The rest of the line, unless it is ignored. -/
def Piece.rest : Piece → Option (List UInt8)
  | whole _ rest => some rest
  | broken _ => none

/-- What is read of a line. -/
structure Reading where
  entries : List Entry
  begun : List UInt8
  command : Option (List UInt8)

/-- The fields in number `k` and the command. -/
def reading : ℕ → List UInt8 → Reading
  | 0, l =>
      match l.dropWhile isblank with
      | [] => ⟨[], [], none⟩
      | c :: cmd => ⟨[], [], some (c :: cmd)⟩
  | k + 1, l =>
      match piece l with
      | .broken begun => ⟨[], begun, none⟩
      | .whole entry rest => { reading k rest with entries := entry :: (reading k rest).entries }

/-- A command with newlines for `%`. -/
def newlines (cmd : List UInt8) : List UInt8 := cmd.map fun c => if c = percent then newline else c

/-- What is stored of a line, with a newline or at the end of the file. -/
def Reading.codes (reading : Reading) (ended : Bool) : List UInt8 :=
  reading.entries.flatMap Entry.codes ++
    match reading.command with
    | none => reading.begun
    | some cmd => newlines cmd ++ if ended then [newline, 0] else []

/-! ## Lines that are as they have to be -/

variable {l ds : List UInt8} {n k : ℕ} {e : Entry}

theorem takeWhile_append {p : UInt8 → Bool} {a : UInt8} (all : ∀ c ∈ ds, p c) (stop : p a = false)
    (l : List UInt8) : (ds ++ a :: l).takeWhile p = ds := by
  rw [List.takeWhile_append_of_pos all, List.takeWhile_cons_of_neg (by simp [stop]),
    List.append_nil]

theorem dropWhile_append {p : UInt8 → Bool} {a : UInt8} (all : ∀ c ∈ ds, p c) (stop : p a = false)
    (l : List UInt8) : (ds ++ a :: l).dropWhile p = a :: l := by
  rw [List.dropWhile_append_of_pos all, List.dropWhile_cons_of_neg (by simp [stop])]

theorem Numeral.cut (numeral : Numeral ds n) {a : UInt8} (stop : isdigit a = false)
    (l : List UInt8) : cut (ds ++ a :: l) = n := by
  obtain ⟨-, all, rfl, small⟩ := numeral
  rw [Cron.cut, takeWhile_append all stop]
  exact Nat.mod_eq_of_lt (by omega)

theorem Numeral.behind (numeral : Numeral ds n) {a : UInt8} (stop : isdigit a = false)
    (l : List UInt8) : (ds ++ a :: l).dropWhile isdigit = a :: l :=
  dropWhile_append numeral.2.1 stop l

theorem blank_eq {b : UInt8} (blank : isblank b) : b = ' '.toUInt8 ∨ b = '\t'.toUInt8 := by
  simpa [isblank] using blank

theorem blank_apart {b : UInt8} (blank : isblank b) :
    isdigit b = false ∧ b ≠ comma ∧ b ≠ dash := by
  obtain rfl | rfl := blank_eq blank
  · decide
  · decide

theorem Numerals.members {ns : List ℕ} (numerals : Numerals l ns) {b : UInt8} (blank : isblank b)
    (rest : List UInt8) : members (l ++ b :: rest) = (ns, some rest) := by
  obtain ⟨stop, other, -⟩ := blank_apart blank
  induction numerals with
  | @one ds n numeral =>
      have small : ¬ 100 ≤ n := Nat.not_le_of_lt numeral.2.2.2
      rw [Cron.members, numeral.cut stop, if_neg small]
      split
      next none =>
        rw [numeral.behind stop] at none
        cases none
      next c rest' next =>
        rw [numeral.behind stop] at next
        obtain ⟨rfl, rfl⟩ := List.cons.inj next
        rw [if_neg other, if_pos blank]
  | @more ds n l ns numeral _ ih =>
      have small : ¬ 100 ≤ n := Nat.not_le_of_lt numeral.2.2.2
      have stop : isdigit comma = false := by decide
      rw [List.append_assoc, List.cons_append, Cron.members, numeral.cut stop, if_neg small]
      split
      next none =>
        rw [numeral.behind stop] at none
        cases none
      next c rest' next =>
        rw [numeral.behind stop] at next
        obtain ⟨rfl, rfl⟩ := List.cons.inj next
        rw [if_pos rfl, ih]

theorem Numeral.head (numeral : Numeral ds n) :
    ∃ c rest, ds = c :: rest ∧ isblank c = false ∧ c ≠ star := by
  obtain ⟨some, all, -⟩ := numeral
  cases ds with
  | nil => exact absurd rfl some
  | cons c rest =>
      have digit := all c List.mem_cons_self
      refine ⟨c, rest, rfl, ?_, ?_⟩
      · by_contra blank
        rw [(blank_apart (Bool.not_eq_false _ ▸ blank)).1] at digit
        exact Bool.false_ne_true digit
      · rintro rfl
        exact absurd digit (by decide)

/-- What begins with a number is not a star. -/
theorem Numeral.piece (numeral : Numeral ds n) {bs : List UInt8} (blanks : ∀ b ∈ bs, isblank b)
    {a : UInt8} (stop : isdigit a = false) (l : List UInt8) :
    piece (bs ++ (ds ++ a :: l)) =
      if a = comma then
        match (members l).2 with
        | none => .broken (LIST :: (n :: (members l).1).map byte)
        | some rest => .whole (.list (n :: (members l).1)) rest
      else if a = dash then upper n l
      else if isblank a then .whole (.exact n) l
      else .broken [] := by
  have small : ¬ 100 ≤ n := Nat.not_le_of_lt numeral.2.2.2
  have cut := numeral.cut stop l
  have behind := numeral.behind stop l
  obtain ⟨c, rest, rfl, inner, other⟩ := numeral.head
  rw [List.cons_append] at cut behind ⊢
  rw [Cron.piece, dropWhile_append blanks inner]
  simp only [if_neg other, cut, if_neg small, behind]

/-- A field with a blank behind it is read. -/
theorem Form.piece {f bs : List UInt8} (form : Form f e) (blanks : ∀ b ∈ bs, isblank b) {b : UInt8}
    (blank : isblank b) (l : List UInt8) :
    piece (bs ++ (f ++ b :: l)) = .whole e l ∨ piece (bs ++ (f ++ b :: l)) = .whole e (b :: l) := by
  obtain ⟨stop, apart, other⟩ := blank_apart blank
  cases form with
  | any =>
      right
      rw [List.singleton_append, Cron.piece, dropWhile_append blanks (by decide)]
      exact if_pos rfl
  | exact numeral =>
      left
      rw [numeral.piece blanks stop, if_neg apart, if_neg other, if_pos blank]
  | list numeral numerals =>
      left
      rw [List.append_assoc, List.cons_append, numeral.piece blanks (by decide), if_pos rfl,
        numerals.members blank]
  | range numeral numeral' =>
      left
      have small := Nat.not_le_of_lt numeral'.2.2.2
      rw [List.append_assoc, List.cons_append, numeral.piece blanks (by decide),
        if_neg (by decide), if_pos rfl, upper, numeral'.cut stop, if_neg small,
        numeral'.behind stop]
      exact if_pos blank

/-- Blanks before a field make no difference. -/
theorem reading_blank {b : UInt8} (blank : isblank b) (k : ℕ) (l : List UInt8) :
    reading k (b :: l) = reading k l := by
  have same := List.dropWhile_cons_of_pos (l := l) blank
  cases k with
  | zero => rw [reading, reading, same]
  | succ k =>
      have same : Cron.piece (b :: l) = Cron.piece l := by rw [Cron.piece, Cron.piece, same]
      rw [reading, reading, same]

/-- A line that is as it has to be is read so. -/
theorem Says.reading {es : List Entry} {cmd : List UInt8} (told : Says k l es cmd) :
    reading k l = ⟨es, [], some cmd⟩ := by
  induction told with
  | command blanks inner =>
      rw [Cron.reading, dropWhile_append blanks (Bool.eq_false_iff.mpr inner)]
  | @field bs f e b k l es cmd blanks form blank _ ih =>
      rw [Cron.reading]
      obtain read | read := form.piece blanks blank l
      · rw [read]
        simp only [ih]
      · rw [read]
        simp only [reading_blank blank, ih]

theorem Form.head {f : List UInt8} (form : Form f e) :
    ∃ c rest, f = c :: rest ∧ (isdigit c ∨ c = star) := by
  have first : ∀ {ds : List UInt8} {n : ℕ} (more : List UInt8), Numeral ds n →
      ∃ c rest, ds ++ more = c :: rest ∧ (isdigit c ∨ c = star) := by
    intro ds n more numeral
    obtain ⟨c, rest, rfl, -⟩ := numeral.head
    exact ⟨c, rest ++ more, rfl, .inl (numeral.2.1 c List.mem_cons_self)⟩
  cases form with
  | any => exact ⟨star, [], rfl, .inr rfl⟩
  | exact numeral =>
      have whole := first [] numeral
      rwa [List.append_nil] at whole
  | list numeral _ => exact first _ numeral
  | range numeral _ => exact first _ numeral

/-- A field begins with a digit or a star. -/
theorem Says.head {c : UInt8} {es : List Entry} {cmd : List UInt8}
    (told : Says (k + 1) (c :: l) es cmd) : isblank c ∨ isdigit c ∨ c = star := by
  generalize whole : c :: l = line at told
  cases told with
  | @field bs f e b k l es cmd blanks form blank _ =>
      cases bs with
      | nil =>
          obtain ⟨d, rest, rfl, first⟩ := form.head
          obtain ⟨rfl, -⟩ := List.cons.inj whole
          exact .inr first
      | cons d bs =>
          obtain ⟨rfl, -⟩ := List.cons.inj whole
          exact .inl (blanks c List.mem_cons_self)

end UnixV7.Cron
