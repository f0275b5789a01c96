import Mathlib.Data.List.Basic
import Mathlib.Tactic.Common
import UnixV7.Library.Lines
import UnixV7.Library.Writer

/-!
# Copying and converting

The loop and the conversions of `dd.c`, without errors and without `skip=`, `seek=`, `count=`,
`files=` and `sync`. What `read` gives is a list of pieces, and behind it the end of the file.
-/

namespace UnixV7.Dd

open UnixV7.Lines

def etoa : List UInt8 := [
  0o000, 0o001, 0o002, 0o003, 0o234, 0o011, 0o206, 0o177, 0o227, 0o215, 0o216, 0o013,
  0o014, 0o015, 0o016, 0o017, 0o020, 0o021, 0o022, 0o023, 0o235, 0o205, 0o010, 0o207,
  0o030, 0o031, 0o222, 0o217, 0o034, 0o035, 0o036, 0o037, 0o200, 0o201, 0o202, 0o203,
  0o204, 0o012, 0o027, 0o033, 0o210, 0o211, 0o212, 0o213, 0o214, 0o005, 0o006, 0o007,
  0o220, 0o221, 0o026, 0o223, 0o224, 0o225, 0o226, 0o004, 0o230, 0o231, 0o232, 0o233,
  0o024, 0o025, 0o236, 0o032, 0o040, 0o240, 0o241, 0o242, 0o243, 0o244, 0o245, 0o246,
  0o247, 0o250, 0o133, 0o056, 0o074, 0o050, 0o053, 0o041, 0o046, 0o251, 0o252, 0o253,
  0o254, 0o255, 0o256, 0o257, 0o260, 0o261, 0o135, 0o044, 0o052, 0o051, 0o073, 0o136,
  0o055, 0o057, 0o262, 0o263, 0o264, 0o265, 0o266, 0o267, 0o270, 0o271, 0o174, 0o054,
  0o045, 0o137, 0o076, 0o077, 0o272, 0o273, 0o274, 0o275, 0o276, 0o277, 0o300, 0o301,
  0o302, 0o140, 0o072, 0o043, 0o100, 0o047, 0o075, 0o042, 0o303, 0o141, 0o142, 0o143,
  0o144, 0o145, 0o146, 0o147, 0o150, 0o151, 0o304, 0o305, 0o306, 0o307, 0o310, 0o311,
  0o312, 0o152, 0o153, 0o154, 0o155, 0o156, 0o157, 0o160, 0o161, 0o162, 0o313, 0o314,
  0o315, 0o316, 0o317, 0o320, 0o321, 0o176, 0o163, 0o164, 0o165, 0o166, 0o167, 0o170,
  0o171, 0o172, 0o322, 0o323, 0o324, 0o325, 0o326, 0o327, 0o330, 0o331, 0o332, 0o333,
  0o334, 0o335, 0o336, 0o337, 0o340, 0o341, 0o342, 0o343, 0o344, 0o345, 0o346, 0o347,
  0o173, 0o101, 0o102, 0o103, 0o104, 0o105, 0o106, 0o107, 0o110, 0o111, 0o350, 0o351,
  0o352, 0o353, 0o354, 0o355, 0o175, 0o112, 0o113, 0o114, 0o115, 0o116, 0o117, 0o120,
  0o121, 0o122, 0o356, 0o357, 0o360, 0o361, 0o362, 0o363, 0o134, 0o237, 0o123, 0o124,
  0o125, 0o126, 0o127, 0o130, 0o131, 0o132, 0o364, 0o365, 0o366, 0o367, 0o370, 0o371,
  0o060, 0o061, 0o062, 0o063, 0o064, 0o065, 0o066, 0o067, 0o070, 0o071, 0o372, 0o373,
  0o374, 0o375, 0o376, 0o377]

def atoe : List UInt8 := [
  0o000, 0o001, 0o002, 0o003, 0o067, 0o055, 0o056, 0o057, 0o026, 0o005, 0o045, 0o013,
  0o014, 0o015, 0o016, 0o017, 0o020, 0o021, 0o022, 0o023, 0o074, 0o075, 0o062, 0o046,
  0o030, 0o031, 0o077, 0o047, 0o034, 0o035, 0o036, 0o037, 0o100, 0o117, 0o177, 0o173,
  0o133, 0o154, 0o120, 0o175, 0o115, 0o135, 0o134, 0o116, 0o153, 0o140, 0o113, 0o141,
  0o360, 0o361, 0o362, 0o363, 0o364, 0o365, 0o366, 0o367, 0o370, 0o371, 0o172, 0o136,
  0o114, 0o176, 0o156, 0o157, 0o174, 0o301, 0o302, 0o303, 0o304, 0o305, 0o306, 0o307,
  0o310, 0o311, 0o321, 0o322, 0o323, 0o324, 0o325, 0o326, 0o327, 0o330, 0o331, 0o342,
  0o343, 0o344, 0o345, 0o346, 0o347, 0o350, 0o351, 0o112, 0o340, 0o132, 0o137, 0o155,
  0o171, 0o201, 0o202, 0o203, 0o204, 0o205, 0o206, 0o207, 0o210, 0o211, 0o221, 0o222,
  0o223, 0o224, 0o225, 0o226, 0o227, 0o230, 0o231, 0o242, 0o243, 0o244, 0o245, 0o246,
  0o247, 0o250, 0o251, 0o300, 0o152, 0o320, 0o241, 0o007, 0o040, 0o041, 0o042, 0o043,
  0o044, 0o025, 0o006, 0o027, 0o050, 0o051, 0o052, 0o053, 0o054, 0o011, 0o012, 0o033,
  0o060, 0o061, 0o032, 0o063, 0o064, 0o065, 0o066, 0o010, 0o070, 0o071, 0o072, 0o073,
  0o004, 0o024, 0o076, 0o341, 0o101, 0o102, 0o103, 0o104, 0o105, 0o106, 0o107, 0o110,
  0o111, 0o121, 0o122, 0o123, 0o124, 0o125, 0o126, 0o127, 0o130, 0o131, 0o142, 0o143,
  0o144, 0o145, 0o146, 0o147, 0o150, 0o151, 0o160, 0o161, 0o162, 0o163, 0o164, 0o165,
  0o166, 0o167, 0o170, 0o200, 0o212, 0o213, 0o214, 0o215, 0o216, 0o217, 0o220, 0o232,
  0o233, 0o234, 0o235, 0o236, 0o237, 0o240, 0o252, 0o253, 0o254, 0o255, 0o256, 0o257,
  0o260, 0o261, 0o262, 0o263, 0o264, 0o265, 0o266, 0o267, 0o270, 0o271, 0o272, 0o273,
  0o274, 0o275, 0o276, 0o277, 0o312, 0o313, 0o314, 0o315, 0o316, 0o317, 0o332, 0o333,
  0o334, 0o335, 0o336, 0o337, 0o352, 0o353, 0o354, 0o355, 0o356, 0o357, 0o372, 0o373,
  0o374, 0o375, 0o376, 0o377]

def atoibm : List UInt8 := [
  0o000, 0o001, 0o002, 0o003, 0o067, 0o055, 0o056, 0o057, 0o026, 0o005, 0o045, 0o013,
  0o014, 0o015, 0o016, 0o017, 0o020, 0o021, 0o022, 0o023, 0o074, 0o075, 0o062, 0o046,
  0o030, 0o031, 0o077, 0o047, 0o034, 0o035, 0o036, 0o037, 0o100, 0o132, 0o177, 0o173,
  0o133, 0o154, 0o120, 0o175, 0o115, 0o135, 0o134, 0o116, 0o153, 0o140, 0o113, 0o141,
  0o360, 0o361, 0o362, 0o363, 0o364, 0o365, 0o366, 0o367, 0o370, 0o371, 0o172, 0o136,
  0o114, 0o176, 0o156, 0o157, 0o174, 0o301, 0o302, 0o303, 0o304, 0o305, 0o306, 0o307,
  0o310, 0o311, 0o321, 0o322, 0o323, 0o324, 0o325, 0o326, 0o327, 0o330, 0o331, 0o342,
  0o343, 0o344, 0o345, 0o346, 0o347, 0o350, 0o351, 0o255, 0o340, 0o275, 0o137, 0o155,
  0o171, 0o201, 0o202, 0o203, 0o204, 0o205, 0o206, 0o207, 0o210, 0o211, 0o221, 0o222,
  0o223, 0o224, 0o225, 0o226, 0o227, 0o230, 0o231, 0o242, 0o243, 0o244, 0o245, 0o246,
  0o247, 0o250, 0o251, 0o300, 0o117, 0o320, 0o241, 0o007, 0o040, 0o041, 0o042, 0o043,
  0o044, 0o025, 0o006, 0o027, 0o050, 0o051, 0o052, 0o053, 0o054, 0o011, 0o012, 0o033,
  0o060, 0o061, 0o032, 0o063, 0o064, 0o065, 0o066, 0o010, 0o070, 0o071, 0o072, 0o073,
  0o004, 0o024, 0o076, 0o341, 0o101, 0o102, 0o103, 0o104, 0o105, 0o106, 0o107, 0o110,
  0o111, 0o121, 0o122, 0o123, 0o124, 0o125, 0o126, 0o127, 0o130, 0o131, 0o142, 0o143,
  0o144, 0o145, 0o146, 0o147, 0o150, 0o151, 0o160, 0o161, 0o162, 0o163, 0o164, 0o165,
  0o166, 0o167, 0o170, 0o200, 0o212, 0o213, 0o214, 0o215, 0o216, 0o217, 0o220, 0o232,
  0o233, 0o234, 0o235, 0o236, 0o237, 0o240, 0o252, 0o253, 0o254, 0o255, 0o256, 0o257,
  0o260, 0o261, 0o262, 0o263, 0o264, 0o265, 0o266, 0o267, 0o270, 0o271, 0o272, 0o273,
  0o274, 0o275, 0o276, 0o277, 0o312, 0o313, 0o314, 0o315, 0o316, 0o317, 0o332, 0o333,
  0o334, 0o335, 0o336, 0o337, 0o352, 0o353, 0o354, 0o355, 0o356, 0o357, 0o372, 0o373,
  0o374, 0o375, 0o376, 0o377]

inductive Conv
  | null
  | cnull
  | ascii
  | ebcdic
  | ibm
deriving DecidableEq

/-- The arguments; `bs` is zero when it is not given. -/
structure Args where
  ibs : ℕ
  obs : ℕ
  bs : ℕ
  cbs : ℕ
  conv : Conv
  lcase : Bool
  ucase : Bool
  swab : Bool

/-- What `main` makes of the arguments. -/
structure Config where
  ibs : ℕ
  obs : ℕ
  cbs : ℕ
  conv : Conv
  lcase : Bool
  ucase : Bool
  swab : Bool
  fflag : Bool

def Args.config (a : Args) : Config :=
  let conv := if a.conv = .null ∧ (a.lcase ∨ a.ucase) then .cnull else a.conv
  { ibs := if a.bs ≠ 0 then a.bs else a.ibs
    obs := if a.bs ≠ 0 then a.bs else a.obs
    cbs := a.cbs
    conv := conv
    lcase := a.lcase
    ucase := a.ucase
    swab := a.swab
    fflag := decide (a.bs ≠ 0 ∧ conv = .null) }

/-- The output side: the writes and `obuf`, the counters of the records and of the blanks. -/
structure State where
  out : Writer UInt8
  cbc : ℕ
  nspace : ℕ
  ntrunc : ℕ
  nofr : ℕ
  nopr : ℕ

def flsh (k : Config) (s : State) : State :=
  if s.out.buffer.length = 0 then s
  else if s.out.buffer.length = k.obs then { s with out := s.out.flush, nofr := s.nofr + 1 }
  else { s with out := s.out.flush, nopr := s.nopr + 1 }

def null (k : Config) (s : State) (c : UInt8) : State :=
  let s := { s with out := s.out.push c }
  if s.out.buffer.length ≥ k.obs then flsh k s else s

/-- The letter in the case that is asked for. -/
def mapped (k : Config) (c : UInt8) : UInt8 :=
  let c := if k.ucase ∧ c ≥ 'a'.toUInt8 ∧ c ≤ 'z'.toUInt8 then c + 'A'.toUInt8 - 'a'.toUInt8 else c
  if k.lcase ∧ c ≥ 'A'.toUInt8 ∧ c ≤ 'Z'.toUInt8 then c + 'a'.toUInt8 - 'A'.toUInt8 else c

def cnull (k : Config) (s : State) (c : UInt8) : State := null k s (mapped k c)

/-- The same character several times. -/
def nulls (k : Config) (s : State) (n : ℕ) (c : UInt8) : State :=
  (List.replicate n c).foldl (null k) s

/-- A blank is held back until another character comes. -/
def hold (k : Config) (s : State) (c : UInt8) : State :=
  if c = ' '.toUInt8 then { s with nspace := s.nspace + 1 }
  else cnull k { nulls k s s.nspace ' '.toUInt8 with nspace := 0 } c

def ascii (k : Config) (s : State) (cc : UInt8) : State :=
  let c := etoa.getD cc.toNat 0
  if k.cbs = 0 then cnull k s c
  else
    let s := hold k s c
    if s.cbc + 1 ≥ k.cbs then { null k s '\n'.toUInt8 with cbc := 0, nspace := 0 }
    else { s with cbc := s.cbc + 1 }

/-- `ebcdic` and `ibm`, which differ in the table. -/
def record (table : List UInt8) (k : Config) (s : State) (cc : UInt8) : State :=
  let c := table.getD (mapped k cc).toNat 0
  if k.cbs = 0 then null k s c
  else if cc = '\n'.toUInt8 then
    { nulls k s (k.cbs - s.cbc) (table.getD ' '.toNat 0) with cbc := 0 }
  else
    let s := { s with ntrunc := if s.cbc = k.cbs then s.ntrunc + 1 else s.ntrunc, cbc := s.cbc + 1 }
    if s.cbc ≤ k.cbs then null k s c else s

def ebcdic : Config → State → UInt8 → State := record atoe

def ibm : Config → State → UInt8 → State := record atoibm

def convert (k : Config) (s : State) (c : UInt8) : State :=
  match k.conv with
  | .null => null k s c
  | .cnull => cnull k s c
  | .ascii => ascii k s c
  | .ebcdic => ebcdic k s c
  | .ibm => ibm k s c

/-- The loop that exchanges `c` pairs. -/
def exchanges : ℕ → List UInt8 → List UInt8
  | c + 1, a :: b :: rest => b :: a :: exchanges c rest
  | _, rest => rest

/-- A piece as it stands in `ibuf`. The count is `(ibc>>1) & ~1`. -/
def taken (k : Config) (piece : List UInt8) : List UInt8 :=
  if k.swab then exchanges (piece.length / 2 / 2 * 2) piece else piece

/-- The records that were read, full ones and others. -/
structure Records where
  nifr : ℕ
  nipr : ℕ

def Records.count (k : Config) (r : Records) (piece : List UInt8) : Records :=
  if piece.length ≠ k.ibs then { r with nipr := r.nipr + 1 } else { r with nifr := r.nifr + 1 }

/-- The loop: what is left in `ibuf` first, then the pieces to come. -/
def loop (k : Config) (pieces : List (List UInt8)) (ibuf : List UInt8) (r : Records) (s : State) :
    Records × State :=
  match pieces, ibuf with
  | pieces, c :: ibuf => loop k pieces ibuf r (convert k s c)
  | piece :: pieces, [] =>
      if k.fflag then
        let s := { s with out := { s.out with buffer := taken k piece } }
        loop k pieces [] (r.count k piece) (flsh k s)
      else loop k pieces (taken k piece) (r.count k piece) s
  | [], [] => (r, flsh k s)
termination_by (pieces.length, ibuf.length)

def start : State := ⟨.empty, 0, 0, 0, 0, 0⟩

/-- The writes of a whole run. -/
def run (a : Args) (pieces : List (List UInt8)) : List (List UInt8) :=
  (loop a.config pieces [] ⟨0, 0⟩ start).2.out.writes

/-! ## What a conversion puts out -/

variable {k : Config} {s : State} {a : Args} {c : UInt8} {pieces : List (List UInt8)}

theorem flsh_out (k : Config) (s : State) : (flsh k s).out = s.out.flush := by
  rw [flsh]
  split
  next none => exact (if_pos none).symm
  next => split <;> rfl

theorem null_out (k : Config) (s : State) (c : UInt8) : (null k s c).out = s.out.put k.obs c := by
  rw [null, Writer.put]
  dsimp only
  split
  next => exact flsh_out k _
  next => rfl

@[simp] theorem null_text (k : Config) (s : State) (c : UInt8) :
    (null k s c).out.text = s.out.text ++ [c] := by
  rw [null_out, Writer.text_put]

@[simp] theorem flsh_cbc (k : Config) (s : State) : (flsh k s).cbc = s.cbc := by
  rw [flsh]
  split
  · rfl
  · split <;> rfl

@[simp] theorem flsh_nspace (k : Config) (s : State) : (flsh k s).nspace = s.nspace := by
  rw [flsh]
  split
  · rfl
  · split <;> rfl

@[simp] theorem null_cbc (k : Config) (s : State) (c : UInt8) : (null k s c).cbc = s.cbc := by
  rw [null]
  dsimp only
  split
  · exact flsh_cbc k _
  · rfl

@[simp] theorem null_nspace (k : Config) (s : State) (c : UInt8) :
    (null k s c).nspace = s.nspace := by
  rw [null]
  dsimp only
  split
  · exact flsh_nspace k _
  · rfl

theorem nulls_text (k : Config) (s : State) (n : ℕ) (c : UInt8) :
    (nulls k s n c).out.text = s.out.text ++ List.replicate n c ∧ (nulls k s n c).cbc = s.cbc := by
  induction n generalizing s with
  | zero => exact ⟨(List.append_nil _).symm, rfl⟩
  | succ n ih =>
      obtain ⟨text, cbc⟩ := ih (s := null k s c)
      rw [null_text, List.append_assoc] at text
      exact ⟨text, cbc.trans (null_cbc k s c)⟩

/-- The writes so far are blocks of `obs` bytes. -/
def Full (k : Config) (s : State) : Prop := s.out.Full k.obs

theorem null_full (full : Full k s) (c : UInt8) : Full k (null k s c) := by
  rw [Full, null_out]
  exact full.put c

theorem nulls_full (full : Full k s) (n : ℕ) (c : UInt8) : Full k (nulls k s n c) := by
  induction n generalizing s with
  | zero => exact full
  | succ n ih => exact ih (null_full full c)

theorem hold_full (full : Full k s) (c : UInt8) : Full k (hold k s c) := by
  have blanks : Full k { nulls k s s.nspace ' '.toUInt8 with nspace := 0 } := nulls_full full _ _
  rw [hold]
  split
  · exact full
  · exact null_full blanks _

theorem ascii_full (full : Full k s) (cc : UInt8) : Full k (ascii k s cc) := by
  have next := hold_full full (etoa.getD cc.toNat 0)
  rw [ascii]
  dsimp only
  split
  · exact null_full full _
  · split
    · exact null_full next _
    · exact next

theorem record_full (table : List UInt8) (full : Full k s) (cc : UInt8) :
    Full k (record table k s cc) := by
  rw [record]
  dsimp only
  split
  · exact null_full full _
  · split
    · exact nulls_full full _ _
    · have counted : ∀ m n, Full k { s with ntrunc := m, cbc := n } := fun _ _ => full
      split
      · exact null_full (counted _ _) _
      · exact counted _ _

theorem convert_full (full : Full k s) (c : UInt8) : Full k (convert k s c) := by
  rw [convert]
  cases k.conv with
  | null => exact null_full full c
  | cnull => exact null_full full _
  | ascii => exact ascii_full full c
  | ebcdic => exact record_full atoe full c
  | ibm => exact record_full atoibm full c

theorem foldl_full (full : Full k s) (text : List UInt8) : Full k (text.foldl (convert k) s) := by
  induction text generalizing s with
  | nil => exact full
  | cons c text ih => exact ih (convert_full full c)

/-! ## The loop -/

theorem loop_char (k : Config) (pieces : List (List UInt8)) (c : UInt8) (ibuf : List UInt8)
    (r : Records) (s : State) :
    loop k pieces (c :: ibuf) r s = loop k pieces ibuf r (convert k s c) := by
  rw [loop]

theorem loop_ibuf (k : Config) (pieces : List (List UInt8)) (ibuf : List UInt8) (r : Records)
    (s : State) : loop k pieces ibuf r s = loop k pieces [] r (ibuf.foldl (convert k) s) := by
  induction ibuf generalizing s with
  | nil => rfl
  | cons c ibuf ih => rw [loop_char, ih, List.foldl_cons]

/-- With two buffers the pieces only matter as they are put together. -/
theorem loop_eq (apart : k.fflag = false) (pieces : List (List UInt8)) (r : Records) (s : State) :
    (loop k pieces [] r s).2 = flsh k ((pieces.map (taken k)).flatten.foldl (convert k) s) := by
  induction pieces generalizing r s with
  | nil =>
      rw [loop]
      rfl
  | cons piece pieces ih =>
      rw [loop, apart]
      dsimp only
      rw [if_neg Bool.false_ne_true, loop_ibuf, ih, List.map_cons, List.flatten_cons,
        List.foldl_append]

theorem exchanges_length (n : ℕ) (piece : List UInt8) :
    (exchanges n piece).length = piece.length := by
  fun_induction exchanges n piece with
  | case1 n a b rest ih => simp [ih]
  | case2 => rfl

theorem taken_length (k : Config) (piece : List UInt8) : (taken k piece).length = piece.length := by
  rw [taken]
  split
  · exact exchanges_length _ _
  · rfl

/-- With one buffer every piece is a write. -/
theorem loop_shared (shared : k.fflag = true) (some : ∀ piece ∈ pieces, piece ≠ [])
    (r : Records) (s : State) (empty : s.out.buffer = []) :
    (loop k pieces [] r s).2.out.writes = s.out.writes ++ pieces.map (taken k) := by
  induction pieces generalizing r s with
  | nil =>
      rw [loop, flsh_out, Writer.flush, empty]
      exact (List.append_nil _).symm
  | cons piece pieces ih =>
      have more : (taken k piece).length ≠ 0 := by
        rw [taken_length]
        exact fun none => some piece List.mem_cons_self (List.length_eq_zero_iff.mp none)
      rw [loop, shared]
      dsimp only
      rw [if_pos rfl, ih (fun p mem => some p (List.mem_cons_of_mem _ mem)), flsh_out, Writer.flush,
        if_neg more, List.map_cons, List.append_assoc]
      · rfl
      · rw [flsh_out, Writer.buffer_flush]

/-! ## Bytes and blocks -/

/-- The arguments ask for buffers. -/
def Args.Sized (a : Args) : Prop := a.bs ≠ 0 ∨ (a.ibs ≠ 0 ∧ a.obs ≠ 0)

theorem Args.Sized.obs_pos (sized : a.Sized) : 0 < a.config.obs := by
  rw [Args.config]
  dsimp only
  split
  next given => exact Nat.pos_of_ne_zero given
  next none =>
    obtain given | ⟨-, given⟩ := sized
    · exact absurd given none
    · exact Nat.pos_of_ne_zero given

theorem start_full (sized : a.Sized) : Full a.config start := .empty sized.obs_pos

/-- What is written behind the last flush is what was put out. -/
theorem run_flatten (apart : a.config.fflag = false) : (run a pieces).flatten =
    ((pieces.map (taken a.config)).flatten.foldl (convert a.config) start).out.text := by
  generalize final : (pieces.map (taken a.config)).flatten.foldl (convert a.config) start = s
  have flushed := Writer.text_flush s.out
  rw [Writer.text, Writer.buffer_flush, List.append_nil] at flushed
  rw [run, loop_eq apart, final, flsh_out, flushed]

/-- Unless one buffer serves both sides every write but the last is of `obs` bytes. -/
theorem run_blocks (sized : a.Sized) (apart : a.config.fflag = false) :
    ∀ block ∈ (run a pieces).dropLast, block.length = a.config.obs := by
  have full := foldl_full (start_full sized) (pieces.map (taken a.config)).flatten
  rw [run, loop_eq apart, flsh_out]
  exact full.flush.1

/-- The conversion is none or a change of case. -/
theorem config_conv (plain : a.conv = .null) :
    (a.config.conv = .null ∧ ∀ c, mapped a.config c = c) ∨
    (a.config.conv = .cnull ∧ a.config.fflag = false) := by
  rw [Args.config, plain]
  dsimp only
  obtain some | none := em (Conv.null = .null ∧ (a.lcase ∨ a.ucase))
  · rw [if_pos some]
    exact .inr ⟨rfl, decide_eq_false fun both => nomatch both.2⟩
  · rw [if_neg none]
    have lcase : ¬ a.lcase := fun lcase => none ⟨rfl, .inl lcase⟩
    have ucase : ¬ a.ucase := fun ucase => none ⟨rfl, .inr ucase⟩
    exact .inl ⟨rfl, fun c => by simp [mapped, lcase, ucase]⟩

theorem foldl_case (conv : ∀ s c, (convert k s c).out.text = s.out.text ++ [mapped k c])
    (text : List UInt8) (s : State) :
    (text.foldl (convert k) s).out.text = s.out.text ++ text.map (mapped k) := by
  induction text generalizing s with
  | nil => exact (List.append_nil _).symm
  | cons c text ih => rw [List.foldl_cons, ih, conv, List.append_assoc, List.map_cons]; rfl

/-- Without a conversion of records the bytes are those of the pieces in `ibuf`. -/
theorem run_bytes (plain : a.conv = .null) (some : ∀ piece ∈ pieces, piece ≠ []) :
    (run a pieces).flatten = (pieces.map (taken a.config)).flatten.map (mapped a.config) := by
  have apart : a.config.fflag = false →
      (∀ s c, (convert a.config s c).out.text = s.out.text ++ [mapped a.config c]) →
      (run a pieces).flatten = (pieces.map (taken a.config)).flatten.map (mapped a.config) :=
    fun apart conv => by rw [run_flatten apart, foldl_case conv]; rfl
  obtain ⟨null, same⟩ | ⟨cnull, alone⟩ := config_conv plain
  · cases fflag : a.config.fflag with
    | false => exact apart fflag fun s c => by rw [convert, null, null_text, same]
    | true =>
        rw [run, loop_shared fflag some _ _ rfl]
        have id : mapped a.config = id := funext same
        rw [id, List.map_id]
        rfl
  · exact apart alone fun s c => by rw [convert, cnull]; exact null_text _ _ _

/-! ## Exchanged pairs -/

/-- The bytes of every pair are exchanged. -/
def exchange : List UInt8 → List UInt8
  | a :: b :: rest => b :: a :: exchange rest
  | rest => rest

theorem exchange_append {front : List UInt8} (even : front.length % 2 = 0) (rest : List UInt8) :
    exchange (front ++ rest) = exchange front ++ exchange rest := by
  fun_induction exchange front with
  | case1 a b front ih =>
      have : front.length % 2 = 0 := by
        rw [List.length_cons, List.length_cons] at even
        omega
      rw [List.cons_append, List.cons_append, exchange, ih this]
      rfl
  | case2 front short =>
      cases front with
      | nil => rfl
      | cons a front =>
          cases front with
          | nil => exact absurd even Nat.one_ne_zero
          | cons b front => exact (short a b front rfl).elim

theorem exchange_flatten (even : ∀ piece ∈ pieces, piece.length % 2 = 0) :
    exchange pieces.flatten = (pieces.map exchange).flatten := by
  induction pieces with
  | nil => rfl
  | cons piece pieces ih =>
      obtain ⟨first, rest⟩ := List.forall_mem_cons.mp even
      rw [List.flatten_cons, exchange_append first, ih rest, List.map_cons, List.flatten_cons]

/-- The loop exchanges as many pairs as it is told. -/
theorem exchanges_append (n : ℕ) (front : List UInt8) (length : front.length = 2 * n)
    (rest : List UInt8) : exchanges n (front ++ rest) = exchange front ++ rest := by
  induction n generalizing front with
  | zero =>
      rw [List.length_eq_zero_iff.mp length, exchanges]
      · rfl
      · simp
  | succ n ih =>
      obtain ⟨a, b, front, rfl⟩ : ∃ a b front', front = a :: b :: front' := by
        match front, length with
        | a :: b :: front, _ => exact ⟨a, b, front, rfl⟩
      rw [List.length_cons, List.length_cons] at length
      rw [List.cons_append, List.cons_append, exchanges, ih front (by omega), exchange]
      rfl

/-- A piece of an even length: all of it, or all but the last pair. -/
theorem taken_even (swab : k.swab = true) {piece : List UInt8} (even : piece.length % 2 = 0) :
    (piece.length % 4 = 0 ∧ taken k piece = exchange piece) ∨
      ∃ front u v, piece = front ++ [u, v] ∧ front.length % 4 = 0 ∧
        taken k piece = exchange front ++ [u, v] ∧ exchange piece = exchange front ++ [v, u] := by
  rw [taken, if_pos swab]
  obtain four | two : piece.length % 4 = 0 ∨ piece.length % 4 = 2 := by omega
  · refine .inl ⟨four, ?_⟩
    have all := exchanges_append (piece.length / 2 / 2 * 2) piece (by omega) []
    rwa [List.append_nil, List.append_nil] at all
  · right
    obtain ⟨front, last, rfl, length⟩ : ∃ front last, piece = front ++ last ∧ last.length = 2 :=
      ⟨piece.take (piece.length - 2), piece.drop (piece.length - 2), by simp, by simp; omega⟩
    obtain ⟨u, v, rfl⟩ := List.length_eq_two.mp length
    rw [List.length_append, length] at two even
    refine ⟨front, u, v, rfl, by omega, ?_, exchange_append (by omega) _⟩
    rw [List.length_append, length]
    exact exchanges_append _ front (by omega) _

/-- Images of lists that are put together from pieces of the same lengths. -/
theorem map_flatten_eq {f g : List UInt8 → List UInt8} (m : UInt8 → UInt8)
    (lengths : ∀ piece ∈ pieces, (f piece).length = (g piece).length) :
    (pieces.map f).flatten.map m = (pieces.map g).flatten.map m ↔
      ∀ piece ∈ pieces, (f piece).map m = (g piece).map m := by
  induction pieces with
  | nil => simp
  | cons piece pieces ih =>
      obtain ⟨first, rest⟩ := List.forall_mem_cons.mp lengths
      have same : ((f piece).map m).length = ((g piece).map m).length := by simpa using first
      rw [List.map_cons, List.map_cons, List.flatten_cons, List.flatten_cons, List.map_append,
        List.map_append, List.forall_mem_cons, ← ih rest]
      constructor
      · exact fun equal => List.append_inj equal same
      · rintro ⟨head, tail⟩
        rw [head, tail]

/-! ## Records and back -/

/-- A line that fits a record and does not end in a blank. -/
structure Fits (cbs : ℕ) (line : List UInt8) : Prop where
  newline : '\n'.toUInt8 ∉ line
  length : line.length ≤ cbs
  last : line.getLast? ≠ some ' '.toUInt8

/-- A line as a record of `cbs` characters. -/
def padded (table : List UInt8) (cbs : ℕ) (line : List UInt8) : List UInt8 :=
  (line ++ List.replicate (cbs - line.length) ' '.toUInt8).map fun c => table.getD c.toNat 0

/-- The tables for one direction and the other. -/
theorem etoa_atoe (c : UInt8) : etoa.getD (atoe.getD c.toNat 0).toNat 0 = c := by
  have all : atoe.map (fun c => (etoa.getD c.toNat 0).toNat) = List.range 256 := by
    decide +kernel
  have here := congrArg (fun table => table[c.toNat]?) all
  simp only [List.getElem?_map, List.getElem?_range c.toNat_lt] at here
  obtain ⟨b, there, value⟩ := Option.map_eq_some_iff.mp here
  rw [List.getD_eq_getElem?_getD, List.getD_eq_getElem?_getD, there, Option.getD_some]
  rw [List.getD_eq_getElem?_getD] at value
  exact UInt8.toNat_inj.mp value

theorem record_chars (table : List UInt8) {line : List UInt8} (same : ∀ c, mapped k c = c)
    (some : k.cbs ≠ 0) (newline : '\n'.toUInt8 ∉ line) (room : s.cbc + line.length ≤ k.cbs) :
    (line.foldl (record table k) s).out.text =
        s.out.text ++ line.map (fun c => table.getD c.toNat 0) ∧
      (line.foldl (record table k) s).cbc = s.cbc + line.length := by
  induction line generalizing s with
  | nil => exact ⟨(List.append_nil _).symm, rfl⟩
  | cons c line ih =>
      rw [List.length_cons] at room
      obtain ⟨other, newline⟩ := not_or.mp (mt List.mem_cons.mpr newline)
      have step : (record table k s c).out.text = s.out.text ++ [table.getD c.toNat 0] ∧
          (record table k s c).cbc = s.cbc + 1 := by
        rw [record]
        dsimp only
        rw [if_neg some, if_neg (Ne.symm other), if_pos (by omega), same]
        exact ⟨null_text _ _ _, null_cbc _ _ _⟩
      obtain ⟨text, cbc⟩ := ih newline (s := record table k s c) (by omega)
      rw [step.1, List.append_assoc] at text
      exact ⟨text, by rw [List.foldl_cons, cbc, step.2, List.length_cons]; omega⟩

/-- A line becomes a record. -/
theorem record_line (table : List UInt8) {line : List UInt8} (same : ∀ c, mapped k c = c)
    (some : k.cbs ≠ 0) (fits : Fits k.cbs line) (fresh : s.cbc = 0) :
    ((line ++ ['\n'.toUInt8]).foldl (record table k) s).out.text =
        s.out.text ++ padded table k.cbs line ∧
      ((line ++ ['\n'.toUInt8]).foldl (record table k) s).cbc = 0 := by
  have length := fits.length
  obtain ⟨text, cbc⟩ := record_chars table same some fits.newline (s := s) (by omega)
  rw [List.foldl_append, List.foldl_cons, List.foldl_nil]
  generalize line.foldl (record table k) s = s' at text cbc
  rw [record]
  dsimp only
  rw [if_neg some, if_pos rfl]
  refine ⟨?_, rfl⟩
  rw [(nulls_text k s' _ _).1, text, cbc, fresh, Nat.zero_add, padded, List.map_append,
    List.map_replicate, List.append_assoc]
  rfl

theorem record_lines {table : List UInt8} {lines : List (List UInt8)}
    (same : ∀ c, mapped k c = c) (some : k.cbs ≠ 0) (fits : ∀ line ∈ lines, Fits k.cbs line)
    (fresh : s.cbc = 0) : ((unlines '\n'.toUInt8 lines).foldl (record table k) s).out.text =
      s.out.text ++ lines.flatMap (padded table k.cbs) := by
  induction lines generalizing s with
  | nil => exact (List.append_nil _).symm
  | cons line lines ih =>
      obtain ⟨first, rest⟩ := List.forall_mem_cons.mp fits
      obtain ⟨text, cbc⟩ := record_line table same some first fresh
      rw [unlines, List.flatMap_cons, List.foldl_append, ← unlines, ih rest cbc, text,
        List.append_assoc, List.flatMap_cons]

/-- What was put out of a record is a part `line` that does not end in a blank, and the blanks
behind it are held back. -/
structure Held (before line seen : List UInt8) (s : State) : Prop where
  text : s.out.text = before ++ line
  seen : line ++ List.replicate s.nspace ' '.toUInt8 = seen
  last : line.getLast? ≠ some ' '.toUInt8

theorem Held.hold {before line seen : List UInt8} (same : ∀ c, mapped k c = c)
    (held : Held before line seen s) (c : UInt8) :
    ∃ line', Held before line' (seen ++ [c]) (hold k s c) := by
  rw [Dd.hold]
  split
  next blank =>
    refine ⟨line, held.text, ?_, held.last⟩
    rw [← held.seen, blank, List.append_assoc, ← List.replicate_succ']
  next other =>
    refine ⟨seen ++ [c], ?_, ?_, ?_⟩
    · rw [cnull, null_text, same]
      dsimp only
      rw [(nulls_text k s _ _).1, held.text, ← held.seen]
      simp only [List.append_assoc]
    · rw [cnull, null_nspace]
      exact List.append_nil _
    · rw [List.getLast?_concat]
      exact fun blank => other (Option.some.inj blank)

theorem hold_cbc (k : Config) (s : State) (c : UInt8) : (hold k s c).cbc = s.cbc := by
  rw [hold]
  split
  · rfl
  · exact (null_cbc _ _ _).trans (nulls_text _ _ _ _).2

/-- Inside a record. -/
theorem ascii_chars {before line seen : List UInt8} (text : List UInt8)
    (same : ∀ c, mapped k c = c) (held : Held before line seen s)
    (room : s.cbc + text.length < k.cbs) : ∃ line',
      Held before line' (seen ++ text.map fun c => etoa.getD c.toNat 0)
        (text.foldl (ascii k) s) ∧
      (text.foldl (ascii k) s).cbc = s.cbc + text.length := by
  induction text generalizing s line seen with
  | nil => exact ⟨line, by simpa using held, rfl⟩
  | cons cc text ih =>
      rw [List.length_cons] at room
      obtain ⟨line', next⟩ := held.hold same (etoa.getD cc.toNat 0)
      have step : ascii k s cc =
          { hold k s (etoa.getD cc.toNat 0) with cbc := s.cbc + 1 } := by
        rw [ascii]
        dsimp only
        rw [if_neg (by omega), hold_cbc, if_neg (by omega)]
      rw [List.foldl_cons, step]
      obtain ⟨last, held', cbc⟩ := ih
        (s := { hold k s (etoa.getD cc.toNat 0) with cbc := s.cbc + 1 })
        ⟨next.text, next.seen, next.last⟩ (by dsimp only; omega)
      refine ⟨last, by simpa using held', cbc.trans ?_⟩
      rw [List.length_cons]
      dsimp only
      omega

/-- A part without a blank at its end is the same whatever blanks follow. -/
theorem trim_unique {left right : List UInt8} {m n : ℕ} {b : UInt8}
    (same : left ++ List.replicate m b = right ++ List.replicate n b)
    (left_last : left.getLast? ≠ some b) (right_last : right.getLast? ≠ some b) :
    left = right := by
  induction m generalizing n with
  | zero =>
      cases n with
      | zero => simpa using same
      | succ n =>
          rw [List.replicate_zero, List.append_nil,
            List.replicate_succ', ← List.append_assoc] at same
          rw [same, List.getLast?_concat] at left_last
          exact absurd rfl left_last
  | succ m ih =>
      rw [List.replicate_succ', ← List.append_assoc] at same
      cases n with
      | zero =>
          rw [List.replicate_zero, List.append_nil] at same
          rw [← same, List.getLast?_concat] at right_last
          exact absurd rfl right_last
      | succ n =>
          rw [List.replicate_succ', ← List.append_assoc] at same
          exact ih (List.append_inj' same rfl).1

/-- A record becomes the line again. -/
theorem ascii_line {line : List UInt8} (same : ∀ c, mapped k c = c) (some : k.cbs ≠ 0)
    (fits : Fits k.cbs line) (fresh : s.cbc = 0) (blanks : s.nspace = 0) :
    ((padded atoe k.cbs line).foldl (ascii k) s).out.text =
        s.out.text ++ (line ++ ['\n'.toUInt8]) ∧
      ((padded atoe k.cbs line).foldl (ascii k) s).cbc = 0 ∧
      ((padded atoe k.cbs line).foldl (ascii k) s).nspace = 0 := by
  have length : (padded atoe k.cbs line).length = k.cbs := by
    have := fits.length
    simp only [padded, List.length_map, List.length_append, List.length_replicate]
    omega
  have back : (padded atoe k.cbs line).map (fun c => etoa.getD c.toNat 0) =
      line ++ List.replicate (k.cbs - line.length) ' '.toUInt8 := by
    rw [padded, List.map_map]
    exact (List.map_congr_left fun c _ => etoa_atoe c).trans (List.map_id _)
  obtain none | ⟨front, cc, whole⟩ := List.eq_nil_or_concat' (padded atoe k.cbs line)
  · rw [none] at length
    exact absurd length.symm some
  rw [whole, List.length_append, List.length_singleton] at length
  rw [whole, List.map_append, List.map_singleton] at back
  rw [whole, List.foldl_append, List.foldl_cons, List.foldl_nil]
  have held : Held s.out.text [] [] s := ⟨by simp, by rw [blanks]; rfl, by simp⟩
  obtain ⟨part, inner, cbc⟩ := ascii_chars front same held (by omega)
  generalize front.foldl (ascii k) s = s' at inner cbc
  obtain ⟨last, outer⟩ := inner.hold same (etoa.getD cc.toNat 0)
  rw [List.nil_append, back] at outer
  have found : last = line := trim_unique outer.seen outer.last fits.last
  rw [ascii]
  dsimp only
  rw [if_neg some, hold_cbc, if_pos (by omega), null_text, outer.text, found, List.append_assoc]
  exact ⟨rfl, rfl, rfl⟩

theorem ascii_lines {lines : List (List UInt8)} (same : ∀ c, mapped k c = c) (some : k.cbs ≠ 0)
    (fits : ∀ line ∈ lines, Fits k.cbs line) (fresh : s.cbc = 0) (blanks : s.nspace = 0) :
    ((lines.flatMap (padded atoe k.cbs)).foldl (ascii k) s).out.text =
      s.out.text ++ unlines '\n'.toUInt8 lines := by
  induction lines generalizing s with
  | nil => exact (List.append_nil _).symm
  | cons line lines ih =>
      obtain ⟨first, rest⟩ := List.forall_mem_cons.mp fits
      obtain ⟨text, cbc, nspace⟩ := ascii_line same some first fresh blanks
      rw [List.flatMap_cons, List.foldl_append, ih rest cbc nspace, text, List.append_assoc]
      rfl

/-! ## Whole runs -/

theorem config_record (conv : a.conv ≠ .null) :
    a.config.conv = a.conv ∧ a.config.fflag = false := by
  have kept : a.config.conv = a.conv := if_neg fun both => conv both.1
  refine ⟨kept, decide_eq_false fun both => conv ?_⟩
  exact kept.symm.trans both.2

theorem mapped_self (lcase : a.lcase = false) (ucase : a.ucase = false) (c : UInt8) :
    mapped a.config c = c := by
  simp [mapped, Args.config, lcase, ucase]

theorem taken_self (swab : a.swab = false) (piece : List UInt8) : taken a.config piece = piece :=
  if_neg (by simp [Args.config, swab])

/-- No case is changed and no pair exchanged. -/
structure Args.Plain (a : Args) : Prop where
  lcase : a.lcase = false
  ucase : a.ucase = false
  swab : a.swab = false

/-- A conversion of records sees the bytes one after the other. -/
theorem run_record (conv : a.conv ≠ .null) (plain : a.Plain) :
    (run a pieces).flatten = (pieces.flatten.foldl (convert a.config) start).out.text := by
  have same : taken a.config = id := funext (taken_self plain.swab)
  rw [run_flatten (config_record conv).2, same, List.map_id]

/-- `read` gives something, and no more than fits `ibuf`. -/
def Split (k : Config) (pieces : List (List UInt8)) : Prop :=
  ∀ piece ∈ pieces, piece ≠ [] ∧ piece.length ≤ k.ibs

/-- What a run does that does not depend on the blocking: the bytes without a conversion of
records, the sizes of the writes, and the way to records and back. -/
structure Unblocked (a : Args) (pieces : List (List UInt8)) : Prop where
  bytes : a.conv = .null → (a.swab → ∀ piece ∈ pieces, piece.length % 2 = 0) →
    (run a pieces).flatten =
      (if a.swab then exchange pieces.flatten else pieces.flatten).map (mapped a.config)
  blocks : a.config.fflag = false → ∀ block ∈ (run a pieces).dropLast,
    block.length = a.config.obs
  back : a.conv = .ebcdic → a.Plain → a.cbs ≠ 0 → ∀ lines, (∀ line ∈ lines, Fits a.cbs line) →
    pieces.flatten = unlines '\n'.toUInt8 lines → ∀ (b : Args) (pieces' : List (List UInt8)),
      b.conv = .ascii → b.Plain → b.cbs = a.cbs → b.Sized → Split b.config pieces' →
      pieces'.flatten = (run a pieces).flatten →
        (run b pieces').flatten = unlines '\n'.toUInt8 lines

/-- The run to records and the run back. -/
theorem run_back (ebcdic : a.conv = .ebcdic) (plain : a.Plain) (some : a.cbs ≠ 0)
    {lines : List (List UInt8)} (fits : ∀ line ∈ lines, Fits a.cbs line)
    (text : pieces.flatten = unlines '\n'.toUInt8 lines) {b : Args} {pieces' : List (List UInt8)}
    (ascii : b.conv = .ascii) (plain' : b.Plain) (cbs : b.cbs = a.cbs)
    (input : pieces'.flatten = (run a pieces).flatten) :
    (run b pieces').flatten = unlines '\n'.toUInt8 lines := by
  have there : convert a.config = record atoe a.config := by
    funext s c
    rw [convert, (config_record (by rw [ebcdic]; decide)).1, ebcdic]
    rfl
  have here : convert b.config = Dd.ascii b.config := by
    funext s c
    rw [convert, (config_record (by rw [ascii]; decide)).1, ascii]
  have records : (run a pieces).flatten = lines.flatMap (padded atoe a.cbs) := by
    rw [run_record (by rw [ebcdic]; decide) plain, text, there]
    exact record_lines (mapped_self plain.lcase plain.ucase) some fits rfl
  have fits' : ∀ line ∈ lines, Fits b.config.cbs line := fun line mem => by
    rw [show b.config.cbs = a.cbs from cbs]
    exact fits line mem
  rw [run_record (by rw [ascii]; decide) plain', input, records, here, ← cbs]
  exact ascii_lines (mapped_self plain'.lcase plain'.ucase) (by rwa [← cbs] at some) fits' rfl rfl

/-- The exchange is complete when the last pair of a piece that has an odd count of pairs need not
be exchanged. -/
theorem exchange_iff (swab : k.swab = true) (m : UInt8 → UInt8)
    (even : ∀ piece ∈ pieces, piece.length % 2 = 0) :
    (pieces.map (taken k)).flatten.map m = (exchange pieces.flatten).map m ↔
      ∀ (front : List UInt8) (u v : UInt8), front ++ [u, v] ∈ pieces → front.length % 4 = 0 →
        m u = m v := by
  have lengths : ∀ piece ∈ pieces, (taken k piece).length = (exchange piece).length := by
    intro piece mem
    obtain ⟨-, same⟩ | ⟨front, u, v, -, -, same, whole⟩ := taken_even swab (even piece mem)
    · rw [same]
    · rw [same, whole, List.length_append, List.length_append]
      rfl
  rw [exchange_flatten even, map_flatten_eq m lengths]
  constructor
  · intro equal front u v mem length
    obtain ⟨four, -⟩ | ⟨front', u', v', same, -, left, right⟩ := taken_even swab (even _ mem)
    · rw [List.length_append] at four
      exact absurd four (by simp only [List.length_cons, List.length_nil]; omega)
    · have pair := (List.append_inj' same rfl).2
      have images := equal _ mem
      rw [left, right, List.map_append, List.map_append, List.append_cancel_left_eq] at images
      injection pair with first rest
      injection rest with second
      injection images with image
      rwa [first, second]
  · intro alike piece mem
    obtain ⟨-, same⟩ | ⟨front, u, v, rfl, length, left, right⟩ := taken_even swab (even piece mem)
    · rw [same]
    · have image := alike front u v mem length
      rw [left, right, List.map_append, List.map_append]
      simp [image]

/-- The blocking does not matter unless pairs are exchanged and a piece has an odd count of pairs,
of which the last one is left as it is. -/
theorem unblocked_iff (sized : a.Sized) (split : Split a.config pieces) :
    Unblocked a pieces ↔
      (a.conv = .null → a.swab → (∀ piece ∈ pieces, piece.length % 2 = 0) →
        ∀ (front : List UInt8) (u v : UInt8), front ++ [u, v] ∈ pieces → front.length % 4 = 0 →
          mapped a.config u = mapped a.config v) := by
  have some : ∀ piece ∈ pieces, piece ≠ [] := fun piece mem => (split piece mem).1
  constructor
  · intro unblocked null swab even
    have bytes := unblocked.bytes null fun _ => even
    rw [run_bytes null some, if_pos swab] at bytes
    exact (exchange_iff (k := a.config) swab _ even).mp bytes
  · intro alike
    refine ⟨fun null even => ?_, run_blocks sized, ?_⟩
    · rw [run_bytes null some]
      cases swab : a.swab with
      | false =>
          have same : taken a.config = id := funext (taken_self swab)
          rw [same, List.map_id]
          rfl
      | true =>
          exact (exchange_iff (k := a.config) swab _ (even swab)).mpr
            (alike null swab (even swab))
    · intro ebcdic plain cbs lines fits text b pieces' ascii plain' same _ _ input
      exact run_back ebcdic plain cbs fits text ascii plain' same input

/-- `conv=swab` with pieces of some size. -/
def swapping (bs : ℕ) : Args := ⟨512, 512, bs, 0, .null, false, false, true⟩

/-- Two pieces of two pairs each. -/
theorem unblocked_iff_pairs : (swapping 4).Sized ∧
    Split (swapping 4).config [[97, 98, 99, 100], [101, 102, 103, 104]] ∧
    Unblocked (swapping 4) [[97, 98, 99, 100], [101, 102, 103, 104]] := by
  have sized : (swapping 4).Sized := .inl (by decide)
  have split : Split (swapping 4).config [[97, 98, 99, 100], [101, 102, 103, 104]] := by
    intro piece mem
    simp only [List.mem_cons, List.not_mem_nil, or_false] at mem
    rcases mem with rfl | rfl <;> decide
  refine ⟨sized, split, (unblocked_iff sized split).mpr fun _ _ _ front u v mem four => ?_⟩
  have length : (front ++ [u, v]).length = 4 := by
    simp only [List.mem_cons, List.not_mem_nil, or_false] at mem
    rcases mem with same | same <;> rw [same] <;> rfl
  rw [List.length_append] at length
  exact absurd length (by simp only [List.length_cons, List.length_nil]; omega)

/-- A piece of one pair is written as it was read. -/
theorem pair_kept : ¬ Unblocked (swapping 2) [[97, 98]] := by
  intro unblocked
  have bytes := unblocked.bytes rfl fun _ => by decide
  rw [run_bytes rfl (by decide)] at bytes
  exact absurd bytes (by decide)

end UnixV7.Dd
