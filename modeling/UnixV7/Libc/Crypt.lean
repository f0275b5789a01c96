import UnixV7.Library.Feistel
import Mathlib.Algebra.Order.Ring.Int
import Mathlib.Data.List.GetD
import Mathlib.Data.List.Induction
import Mathlib.Tactic.Common

/-!
# Encryption

`crypt.c`. The bytes 0 and 1 of keys and blocks are truth values. `R` is the second half of the
array `L`; since `E` is read with its entries less one, an entry 0 of it selects the last of `L`.
-/

namespace UnixV7.Libc.Crypt

/-- The initial permutation. -/
def IP : List ℕ :=
  [58, 50, 42, 34, 26, 18, 10, 2,
    60, 52, 44, 36, 28, 20, 12, 4,
    62, 54, 46, 38, 30, 22, 14, 6,
    64, 56, 48, 40, 32, 24, 16, 8,
    57, 49, 41, 33, 25, 17, 9, 1,
    59, 51, 43, 35, 27, 19, 11, 3,
    61, 53, 45, 37, 29, 21, 13, 5,
    63, 55, 47, 39, 31, 23, 15, 7]

/-- The final permutation. -/
def FP : List ℕ :=
  [40, 8, 48, 16, 56, 24, 64, 32,
    39, 7, 47, 15, 55, 23, 63, 31,
    38, 6, 46, 14, 54, 22, 62, 30,
    37, 5, 45, 13, 53, 21, 61, 29,
    36, 4, 44, 12, 52, 20, 60, 28,
    35, 3, 43, 11, 51, 19, 59, 27,
    34, 2, 42, 10, 50, 18, 58, 26,
    33, 1, 41, 9, 49, 17, 57, 25]

def PC1_C : List ℕ :=
  [57, 49, 41, 33, 25, 17, 9,
    1, 58, 50, 42, 34, 26, 18,
    10, 2, 59, 51, 43, 35, 27,
    19, 11, 3, 60, 52, 44, 36]

def PC1_D : List ℕ :=
  [63, 55, 47, 39, 31, 23, 15,
    7, 62, 54, 46, 38, 30, 22,
    14, 6, 61, 53, 45, 37, 29,
    21, 13, 5, 28, 20, 12, 4]

def shifts : List ℕ :=
  [1, 1, 2, 2, 2, 2, 2, 2, 1, 2, 2, 2, 2, 2, 2, 1]

def PC2_C : List ℕ :=
  [14, 17, 11, 24, 1, 5,
    3, 28, 15, 6, 21, 10,
    23, 19, 12, 4, 26, 8,
    16, 7, 27, 20, 13, 2]

def PC2_D : List ℕ :=
  [41, 52, 31, 37, 47, 55,
    30, 40, 51, 45, 33, 48,
    44, 49, 39, 56, 34, 53,
    46, 42, 50, 36, 29, 32]

/-- The E bit-selection table that `crypt` starts from. -/
def e : List ℕ :=
  [32, 1, 2, 3, 4, 5,
    4, 5, 6, 7, 8, 9,
    8, 9, 10, 11, 12, 13,
    12, 13, 14, 15, 16, 17,
    16, 17, 18, 19, 20, 21,
    20, 21, 22, 23, 24, 25,
    24, 25, 26, 27, 28, 29,
    28, 29, 30, 31, 32, 1]

/-- The 8 selection functions. -/
def S : List ℕ :=
  [14, 4, 13, 1, 2, 15, 11, 8, 3, 10, 6, 12, 5, 9, 0, 7,
    0, 15, 7, 4, 14, 2, 13, 1, 10, 6, 12, 11, 9, 5, 3, 8,
    4, 1, 14, 8, 13, 6, 2, 11, 15, 12, 9, 7, 3, 10, 5, 0,
    15, 12, 8, 2, 4, 9, 1, 7, 5, 11, 3, 14, 10, 0, 6, 13,
    15, 1, 8, 14, 6, 11, 3, 4, 9, 7, 2, 13, 12, 0, 5, 10,
    3, 13, 4, 7, 15, 2, 8, 14, 12, 0, 1, 10, 6, 9, 11, 5,
    0, 14, 7, 11, 10, 4, 13, 1, 5, 8, 12, 6, 9, 3, 2, 15,
    13, 8, 10, 1, 3, 15, 4, 2, 11, 6, 7, 12, 0, 5, 14, 9,
    10, 0, 9, 14, 6, 3, 15, 5, 1, 13, 12, 7, 11, 4, 2, 8,
    13, 7, 0, 9, 3, 4, 6, 10, 2, 8, 5, 14, 12, 11, 15, 1,
    13, 6, 4, 9, 8, 15, 3, 0, 11, 1, 2, 12, 5, 10, 14, 7,
    1, 10, 13, 0, 6, 9, 8, 7, 4, 15, 14, 3, 11, 5, 2, 12,
    7, 13, 14, 3, 0, 6, 9, 10, 1, 2, 8, 5, 11, 12, 4, 15,
    13, 8, 11, 5, 6, 15, 0, 3, 4, 7, 2, 12, 1, 10, 14, 9,
    10, 6, 9, 0, 12, 11, 7, 13, 15, 1, 3, 14, 5, 2, 8, 4,
    3, 15, 0, 6, 10, 1, 13, 8, 9, 4, 5, 11, 12, 7, 2, 14,
    2, 12, 4, 1, 7, 10, 11, 6, 8, 5, 3, 15, 13, 0, 14, 9,
    14, 11, 2, 12, 4, 7, 13, 1, 5, 0, 15, 10, 3, 9, 8, 6,
    4, 2, 1, 11, 10, 13, 7, 8, 15, 9, 12, 5, 6, 3, 0, 14,
    11, 8, 12, 7, 1, 14, 2, 13, 6, 15, 0, 9, 10, 4, 5, 3,
    12, 1, 10, 15, 9, 2, 6, 8, 0, 13, 3, 4, 14, 7, 5, 11,
    10, 15, 4, 2, 7, 12, 9, 5, 6, 1, 13, 14, 0, 11, 3, 8,
    9, 14, 15, 5, 2, 8, 12, 3, 7, 0, 4, 10, 1, 13, 11, 6,
    4, 3, 2, 12, 9, 5, 15, 10, 11, 14, 1, 7, 6, 0, 8, 13,
    4, 11, 2, 14, 15, 0, 8, 13, 3, 12, 9, 7, 5, 10, 6, 1,
    13, 0, 11, 7, 4, 9, 1, 10, 14, 3, 5, 12, 2, 15, 8, 6,
    1, 4, 11, 13, 12, 3, 7, 14, 10, 15, 6, 8, 0, 5, 9, 2,
    6, 11, 13, 8, 1, 4, 10, 7, 9, 5, 0, 15, 14, 2, 3, 12,
    13, 2, 8, 4, 6, 15, 11, 1, 10, 9, 3, 14, 5, 0, 12, 7,
    1, 15, 13, 8, 10, 3, 7, 4, 12, 5, 6, 11, 0, 14, 9, 2,
    7, 11, 4, 1, 9, 12, 14, 2, 0, 6, 10, 13, 15, 3, 5, 8,
    2, 1, 14, 7, 4, 10, 8, 13, 15, 12, 9, 0, 3, 5, 6, 11]

/-- The permutation on the selected combination of `L` and the key. -/
def P : List ℕ :=
  [16, 7, 20, 21,
    29, 12, 28, 17,
    1, 15, 23, 26,
    5, 18, 31, 10,
    2, 8, 24, 14,
    32, 27, 3, 9,
    19, 13, 30, 6,
    22, 11, 4, 25]

/-- The static variables. -/
structure Statics where
  C : List Bool
  D : List Bool
  KS : List (List Bool)
  E : List ℕ
  L : List Bool
  tempL : List Bool
  f : List Bool
  preS : List Bool
  deriving DecidableEq

/-- The variables of a program that has called nothing yet. -/
def Statics.init : Statics where
  C := List.replicate 28 false
  D := List.replicate 28 false
  KS := List.replicate 16 (List.replicate 48 false)
  E := List.replicate 48 0
  L := List.replicate 64 false
  tempL := List.replicate 32 false
  f := List.replicate 32 false
  preS := List.replicate 48 false

/-- The entries of an array at the places in a table, counted from 1. -/
def permute (table : List ℕ) (a : List Bool) : List Bool := table.map fun i => a.getD (i - 1) false

/-- One rotation of `C` or `D`. -/
def rotate (a : List Bool) : List Bool := a.tail ++ [a.getD 0 false]

/-- One pass of the loop of `setkey` over the schedule. -/
def schedule (s : Statics) (i : ℕ) : Statics :=
  let C := rotate^[shifts.getD i 0] s.C
  let D := rotate^[shifts.getD i 0] s.D
  { s with
    C, D
    KS := s.KS.set i (permute PC2_C C ++ PC2_D.map fun j => D.getD (j - 28 - 1) false) }

/-- `setkey` -/
def setkey (s : Statics) (key : List Bool) : Statics :=
  (List.range 16).foldl schedule { s with C := permute PC1_C key, D := permute PC1_D key }

/-- The four bits that a selection function gives. -/
def select (preS : List Bool) (j : ℕ) : List Bool :=
  let bit i := (preS.getD (6 * j + i) false).toNat
  let k := S.getD (j * 64 + (bit 0 <<< 5) + (bit 1 <<< 3) + (bit 2 <<< 2) + (bit 3 <<< 1) +
    (bit 4 <<< 0) + (bit 5 <<< 4)) 0
  [k.testBit 3, k.testBit 2, k.testBit 1, k.testBit 0]

/-- One encryption operation. -/
def operate (s : Statics) (i : ℕ) : Statics :=
  let tempL := s.L.drop 32
  let preS := List.zipWith (fun e k => s.L.getD (32 + e - 1) false ^^ k) s.E (s.KS.getD i [])
  let f := (List.range 8).flatMap (select preS)
  let R := List.zipWith xor (s.L.take 32) (permute P f)
  { s with tempL, preS, f, L := tempL ++ R }

/-- The operations in the direction that `edflag` tells. -/
def order (edflag : ℤ) : List ℕ :=
  (List.range 16).map fun ii => if edflag ≠ 0 then 15 - ii else ii

/-- The output `L` and `R` are reversed. -/
def reverseHalves (s : Statics) : Statics := { s with L := s.L.drop 32 ++ s.L.take 32 }

/-- `encrypt`: the variables afterwards and the block. -/
def encrypt (s : Statics) (block : List Bool) (edflag : ℤ) : Statics × List Bool :=
  let s := { s with L := permute IP block }
  let s := reverseHalves ((order edflag).foldl operate s)
  (s, permute FP s.L ++ block.drop 64)

/-- The bits of the characters of a password, with a zero after those of each. -/
def passwordBits (pw : List (BitVec 8)) : List Bool :=
  ((pw.takeWhile (· ≠ 0)).take 8).flatMap fun c =>
    ((List.range 7).map fun j => c.getLsbD (6 - j)) ++ [false]

/-- The number that a character of the salt stands for. -/
def saltNumber (c : ℤ) : ℤ :=
  let c := if c > 'Z'.toNat then c - 6 else c
  let c := if c > '9'.toNat then c - 7 else c
  c - '.'.toNat

/-- Exchange two entries of `E`. -/
def exchange (E : List ℕ) (i j : ℕ) : List ℕ := (E.set i (E.getD j 0)).set j (E.getD i 0)

/-- The exchanges for one character of the salt. -/
def perturb (E : List ℕ) (i : ℕ) (c : ℤ) : List ℕ :=
  (List.range 6).foldl
    (fun E j => if c / 2 ^ j % 2 = 1 then exchange E (6 * i + j) (6 * i + j + 24) else E) E

/-- The character for six bits of the block. -/
def letter (block : List Bool) (i : ℕ) : ℤ :=
  let c := (List.range 6).foldl (fun c j => 2 * c + (block.getD (6 * i + j) false).toNat) 0
  let c := c + '.'.toNat
  let c := if c > '9'.toNat then c + 7 else c
  if c > 'Z'.toNat then c + 6 else c

/-- `crypt`: the variables afterwards and the characters of `iobuf` before the null. -/
def crypt (s : Statics) (pw : List (BitVec 8)) (salt0 salt1 : BitVec 8) :
    Statics × List ℤ :=
  let bits := passwordBits pw
  let s := setkey s (bits ++ List.replicate (66 - bits.length) false)
  let E := perturb e 0 (saltNumber salt0.toNat)
  let E := perturb E 1 (saltNumber salt1.toNat)
  let p := (fun p : Statics × List Bool => encrypt p.1 p.2 0)^[25]
    ({ s with E }, List.replicate 66 false)
  (p.1, [(salt0.toNat : ℤ), if salt1 = 0 then salt0.toNat else salt1.toNat] ++
    (List.range 11).map (letter p.2))

/-- A key or a block. -/
abbrev Block := { bits : List Bool // bits.length = 64 }

/-- The calls a program makes. -/
inductive Call
  | setkey (key : Block)
  | encrypt (block : Block) (edflag : ℤ)
  | crypt (pw : List (BitVec 8)) (salt0 salt1 : BitVec 8)

/-- The variables after a call. -/
def Call.run (s : Statics) : Call → Statics
  | .setkey key => Crypt.setkey s key
  | .encrypt block edflag => (Crypt.encrypt s block edflag).1
  | .crypt pw salt0 salt1 => (Crypt.crypt s pw salt0 salt1).1

/-- The variables after a number of calls. -/
def after (calls : List Call) : Statics := calls.foldl Call.run .init

/-- A block encrypted and then decrypted with a key. -/
def undone (s : Statics) (key block : List Bool) : List Bool :=
  let s := setkey s key
  let (s, block) := encrypt s block 0
  (encrypt s block 1).2

variable {s t : Statics} {block : List Bool}

@[simp] theorem operate_E (s : Statics) (i : ℕ) : (operate s i).E = s.E := rfl

@[simp] theorem operate_KS (s : Statics) (i : ℕ) : (operate s i).KS = s.KS := rfl

@[simp] theorem schedule_E (s : Statics) (i : ℕ) : (schedule s i).E = s.E := rfl

@[simp] theorem schedule_KS_length (s : Statics) (i : ℕ) :
    (schedule s i).KS.length = s.KS.length := List.length_set

theorem operations_keep (is : List ℕ) (s : Statics) :
    (is.foldl operate s).E = s.E ∧ (is.foldl operate s).KS = s.KS := by
  induction is generalizing s with
  | nil => exact ⟨rfl, rfl⟩
  | cons i is ih => exact ih (operate s i)

theorem schedules_keep (is : List ℕ) (s : Statics) :
    (is.foldl schedule s).E = s.E ∧ (is.foldl schedule s).KS.length = s.KS.length := by
  induction is generalizing s with
  | nil => exact ⟨rfl, rfl⟩
  | cons i is ih =>
      rw [List.foldl_cons, (ih (schedule s i)).1, (ih (schedule s i)).2, schedule_KS_length]
      exact ⟨rfl, rfl⟩

theorem encrypt_eq (s : Statics) (block : List Bool) (edflag : ℤ) :
    encrypt s block edflag =
      (reverseHalves ((order edflag).foldl operate { s with L := permute IP block }),
        permute FP
          (reverseHalves ((order edflag).foldl operate { s with L := permute IP block })).L ++
            block.drop 64) := rfl

@[simp] theorem reverseHalves_E (s : Statics) : (reverseHalves s).E = s.E := rfl

@[simp] theorem reverseHalves_KS (s : Statics) : (reverseHalves s).KS = s.KS := rfl

theorem encrypt_keep (s : Statics) (block : List Bool) (edflag : ℤ) :
    (encrypt s block edflag).1.E = s.E ∧ (encrypt s block edflag).1.KS = s.KS := by
  rw [encrypt_eq, reverseHalves_E, reverseHalves_KS]
  exact operations_keep (order edflag) { s with L := permute IP block }

theorem setkey_keep (s : Statics) (key : List Bool) :
    (setkey s key).E = s.E ∧ (setkey s key).KS.length = s.KS.length :=
  schedules_keep _ _

/-- What a round adds to a half: a function of the other half and of the round's key. -/
def added (E : List ℕ) (key R : List Bool) : List Bool :=
  permute P ((List.range 8).flatMap
    (select (List.zipWith (fun e k => R.getD (e - 1) false ^^ k) E key)))

/-- Every entry of the table selects from `R`. -/
def Selects (E : List ℕ) : Prop := ∀ e ∈ E, 1 ≤ e ∧ e ≤ 32

instance (E : List ℕ) : Decidable (Selects E) := inferInstanceAs (Decidable (∀ e ∈ E, _))

/-- The halves of the array `L`. -/
def halves (L : List Bool) : List Bool × List Bool := (L.take 32, L.drop 32)

theorem permute_length (table : List ℕ) (a : List Bool) :
    (permute table a).length = table.length := List.length_map _

theorem added_length (E : List ℕ) (key R : List Bool) : (added E key R).length = 32 :=
  permute_length _ _

theorem preS_right (selects : Selects s.E) (i : ℕ) :
    List.zipWith (fun e k => s.L.getD (32 + e - 1) false ^^ k) s.E (s.KS.getD i []) =
      List.zipWith (fun e k => (s.L.drop 32).getD (e - 1) false ^^ k) s.E (s.KS.getD i []) := by
  generalize s.KS.getD i [] = key
  generalize s.E = E at selects
  induction E generalizing key with
  | nil => rfl
  | cons e E ih =>
      obtain ⟨some, rest⟩ := List.forall_mem_cons.mp selects
      cases key with
      | nil => rfl
      | cons k key =>
          have place : 32 + e - 1 = 32 + (e - 1) := by omega
          rw [List.zipWith_cons_cons, List.zipWith_cons_cons, ih key rest, place,
            List.getD_eq_getElem?_getD, List.getD_eq_getElem?_getD, List.getElem?_drop]

/-- With entries of `E` from 1 on an encryption operation is a round of a Feistel network. -/
theorem operate_round (selects : Selects s.E) (full : s.L.length = 64) (i : ℕ) :
    halves (operate s i).L =
        Feistel.round (List.zipWith xor) (added s.E) (halves s.L) (s.KS.getD i []) ∧
      (operate s i).L.length = 64 := by
  have left : (s.L.drop 32).length = 32 := by
    rw [List.length_drop, full]
  constructor
  · rw [operate, preS_right selects]
    dsimp only [halves]
    rw [List.take_left' left, List.drop_left' left]
    rfl
  · rw [operate]
    dsimp only
    rw [List.length_append, left, List.length_zipWith, permute_length, List.length_take, full]
    rfl

theorem operations_rounds (selects : Selects s.E) (full : s.L.length = 64) (is : List ℕ) :
    halves (is.foldl operate s).L =
        Feistel.rounds (List.zipWith xor) (added s.E) (is.map fun i => s.KS.getD i [])
          (halves s.L) ∧
      (is.foldl operate s).L.length = 64 := by
  induction is generalizing s with
  | nil => exact ⟨rfl, full⟩
  | cons i is ih =>
      obtain ⟨round, full'⟩ := operate_round selects full i
      obtain ⟨rest, full''⟩ := ih (s := operate s i) selects full'
      rw [round] at rest
      exact ⟨rest, full''⟩

theorem zipWith_xor_cancel (l m : List Bool) (longer : l.length ≤ m.length) :
    List.zipWith xor (List.zipWith xor l m) m = l := by
  induction l generalizing m with
  | nil => rfl
  | cons a l ih =>
      cases m with
      | nil => exact absurd longer (by simp)
      | cons b m =>
          rw [List.zipWith_cons_cons, List.zipWith_cons_cons, Bool.xor_assoc, Bool.xor_self,
            Bool.xor_false, ih m (Nat.le_of_succ_le_succ longer)]

theorem cancels (E : List ℕ) :
    Feistel.Cancels (List.zipWith xor) (added E) {half | half.length = 32} where
  closed key x full y _ := by
    change (List.zipWith xor x (added E key y)).length = 32
    rw [List.length_zipWith, full, added_length]
    rfl
  cancel key x full y _ := zipWith_xor_cancel x _ (full.trans (added_length E key y).symm).le

theorem getD_permute {table : List ℕ} {j : ℕ} (inside : j < table.length) (a : List Bool) :
    (permute table a).getD j false = a.getD (table.getD j 0 - 1) false := by
  rw [permute, List.getD_eq_getElem _ _ (by rw [List.length_map]; exact inside), List.getElem_map,
    List.getD_eq_getElem _ _ inside]

theorem permute_permute {table table' : List ℕ} {a : List Bool}
    (inverse : ∀ j < table.length,
      table.getD j 0 - 1 < table'.length ∧ table'.getD (table.getD j 0 - 1) 0 - 1 = j)
    (same : a.length = table.length) : permute table (permute table' a) = a := by
  apply List.ext_getElem
  · rw [permute_length, same]
  · intro j inside inside'
    rw [same] at inside'
    obtain ⟨below, back⟩ := inverse j inside'
    rw [← List.getD_eq_getElem _ false, getD_permute inside', getD_permute below, back,
      List.getD_eq_getElem]

theorem permute_FP_IP (full : block.length = 64) : permute FP (permute IP block) = block :=
  permute_permute (by decide) full

theorem permute_IP_FP (full : block.length = 64) : permute IP (permute FP block) = block :=
  permute_permute (by decide) full

theorem order_one : order 1 = (order 0).reverse := by decide

theorem halves_swap {L : List Bool} (full : L.length = 64) :
    halves (L.drop 32 ++ L.take 32) = (halves L).swap := by
  have right : (L.drop 32).length = 32 := by
    rw [List.length_drop, full]
  rw [halves, List.take_left' right, List.drop_left' right]
  rfl

theorem halves_inj {L M : List Bool} (same : halves L = halves M) : L = M := by
  obtain ⟨left, right⟩ := Prod.mk.inj same
  rw [← List.take_append_drop 32 L, left, right, List.take_append_drop]

/-- With entries of `E` from 1 on `encrypt` is a Feistel network between the permutations. -/
theorem encrypt_rounds (selects : Selects s.E) (full : block.length = 64) (edflag : ℤ) :
    ∃ M, (encrypt s block edflag).2 = permute FP M ∧ M.length = 64 ∧
      halves M = (Feistel.rounds (List.zipWith xor) (added s.E)
        ((order edflag).map fun i => s.KS.getD i []) (halves (permute IP block))).swap := by
  rw [encrypt_eq]
  generalize order edflag = is
  obtain ⟨rounds, full'⟩ :=
    operations_rounds (s := { s with L := permute IP block }) selects (permute_length _ _) is
  generalize is.foldl operate { s with L := permute IP block } = m at rounds full'
  refine ⟨m.L.drop 32 ++ m.L.take 32, ?_, ?_, ?_⟩
  · rw [List.drop_of_length_le full.le, List.append_nil]
    rfl
  · rw [List.length_append, List.length_drop, List.length_take, full']
    rfl
  · rw [halves_swap full', rounds]

/-- With entries of `E` from 1 on decryption undoes encryption. -/
theorem undone_of_selects (selects : Selects s.E) (key : List Bool) (full : block.length = 64) :
    undone s key block = block := by
  have selects' : Selects (setkey s key).E := by
    rw [(setkey_keep s key).1]
    exact selects
  rw [undone]
  generalize setkey s key = k at selects'
  dsimp only
  obtain ⟨M, forth, length, halves'⟩ := encrypt_rounds selects' full 0
  obtain ⟨sameE, sameKS⟩ := encrypt_keep k block 0
  rw [forth]
  generalize (encrypt k block 0).1 = k' at sameE sameKS
  rw [← sameE] at selects'
  obtain ⟨N, back, -, halves''⟩ :=
    encrypt_rounds selects' (permute_length FP M) 1
  rw [back]
  have start : halves (permute IP block) ∈ {half : List Bool | half.length = 32} ×ˢ
      {half : List Bool | half.length = 32} := by
    constructor
    · exact List.length_take_of_le (by rw [permute_length]; decide)
    · exact List.length_drop.trans (by rw [permute_length]; rfl)
  have reversed := Feistel.rounds_reverse (cancels k.E)
    ((order 0).map fun i => k.KS.getD i []) start
  rw [permute_IP_FP length, halves', order_one, sameE, sameKS, List.map_reverse, reversed,
    Prod.swap_swap] at halves''
  rw [halves_inj halves'', permute_FP_IP full]

theorem mem_exchange {E : List ℕ} {i j a : ℕ} (left : i < E.length) (right : j < E.length)
    (mem : a ∈ exchange E i j) : a ∈ E := by
  rw [exchange, List.getD_eq_getElem _ _ left, List.getD_eq_getElem _ _ right] at mem
  obtain mem | rfl := List.mem_or_eq_of_mem_set mem
  · obtain mem | rfl := List.mem_or_eq_of_mem_set mem
    · exact mem
    · exact List.getElem_mem right
  · exact List.getElem_mem left

theorem exchange_length (E : List ℕ) (i j : ℕ) : (exchange E i j).length = E.length := by
  rw [exchange, List.length_set, List.length_set]

/-- A character of the salt only moves entries of the table. -/
theorem perturb_spec {E : List ℕ} (full : E.length = 48) (selects : Selects E) {i : ℕ}
    (first : i < 2) (c : ℤ) : (perturb E i c).length = 48 ∧ Selects (perturb E i c) := by
  have inside : ∀ j ∈ List.range 6, j < 6 := fun j => List.mem_range.mp
  rw [perturb]
  generalize List.range 6 = js at inside
  induction js generalizing E with
  | nil => exact ⟨full, selects⟩
  | cons j js ih =>
      obtain ⟨less, inside⟩ := List.forall_mem_cons.mp inside
      rw [List.foldl_cons]
      split
      · apply ih
        · rw [exchange_length, full]
        · exact fun a mem => selects a (mem_exchange (by omega) (by omega) mem)
        · exact inside
      · exact ih full selects inside

theorem encrypts_keep (n : ℕ) (p : Statics × List Bool) :
    ((fun p : Statics × List Bool => encrypt p.1 p.2 0)^[n] p).1.E = p.1.E ∧
      ((fun p : Statics × List Bool => encrypt p.1 p.2 0)^[n] p).1.KS = p.1.KS := by
  induction n with
  | zero => exact ⟨rfl, rfl⟩
  | succ n ih =>
      rw [Function.iterate_succ_apply', (encrypt_keep _ _ 0).1, (encrypt_keep _ _ 0).2]
      exact ih

/-- `crypt` sets up the table before it encrypts. -/
theorem crypt_keep (s : Statics) (pw : List (BitVec 8)) (salt0 salt1 : BitVec 8) :
    Selects (crypt s pw salt0 salt1).1.E ∧
      (crypt s pw salt0 salt1).1.KS.length = s.KS.length := by
  rw [crypt]
  dsimp only
  rw [(encrypts_keep _ _).1, (encrypts_keep _ _).2]
  dsimp only
  obtain ⟨full, selects⟩ :=
    perturb_spec (E := e) rfl (by decide) (show 0 < 2 by decide) (saltNumber salt0.toNat)
  obtain ⟨-, selects'⟩ :=
    perturb_spec full selects (show 1 < 2 by decide) (saltNumber salt1.toNat)
  exact ⟨selects', (setkey_keep _ _).2⟩

/-- A call leaves room for the schedule and keeps the table, unless it is one of `crypt`, which
makes it select from `R`. -/
theorem run_spec (s : Statics) (call : Call) :
    (call.run s).KS.length = s.KS.length ∧
      ((call.run s).E = s.E ∧ (∀ pw salt0 salt1, call ≠ .crypt pw salt0 salt1) ∨
        Selects (call.run s).E ∧ ∃ pw salt0 salt1, call = .crypt pw salt0 salt1) := by
  cases call with
  | setkey key =>
      obtain ⟨table, length⟩ := setkey_keep s key.1
      exact ⟨length, .inl ⟨table, fun _ _ _ same => Call.noConfusion same⟩⟩
  | encrypt block edflag =>
      obtain ⟨table, keys⟩ := encrypt_keep s block.1 edflag
      exact ⟨congrArg List.length keys, .inl ⟨table, fun _ _ _ same => Call.noConfusion same⟩⟩
  | crypt pw salt0 salt1 =>
      obtain ⟨table, length⟩ := crypt_keep s pw salt0 salt1
      exact ⟨length, .inr ⟨table, pw, salt0, salt1, rfl⟩⟩

/-- After some calls the table selects from `R` if one of them was of `crypt`, and is all zero
otherwise. -/
theorem after_spec (calls : List Call) :
    (after calls).KS.length = 16 ∧
      ((∃ pw salt0 salt1, .crypt pw salt0 salt1 ∈ calls) → Selects (after calls).E) ∧
      ((¬ ∃ pw salt0 salt1, .crypt pw salt0 salt1 ∈ calls) →
        (after calls).E = List.replicate 48 0) := by
  induction calls using List.reverseRecOn with
  | nil => exact ⟨rfl, fun ⟨_, _, _, mem⟩ => absurd mem List.not_mem_nil, fun _ => rfl⟩
  | append_singleton calls call ih =>
      obtain ⟨length, selects, zero⟩ := ih
      have last : after (calls ++ [call]) = call.run (after calls) := by
        rw [after, List.foldl_append]
        rfl
      obtain ⟨length', step⟩ := run_spec (after calls) call
      rw [last]
      refine ⟨length'.trans length, ?_, ?_⟩
      · intro called
        obtain ⟨same, other⟩ | ⟨selects', -⟩ := step
        · obtain ⟨pw, salt0, salt1, mem⟩ := called
          rw [same]
          apply selects
          obtain mem | mem := List.mem_append.mp mem
          · exact ⟨pw, salt0, salt1, mem⟩
          · exact absurd (List.mem_singleton.mp mem).symm (other pw salt0 salt1)
        · exact selects'
      · intro never
        obtain ⟨same, -⟩ | ⟨-, pw, salt0, salt1, rfl⟩ := step
        · rw [same]
          apply zero
          rintro ⟨pw, salt0, salt1, mem⟩
          exact never ⟨pw, salt0, salt1, List.mem_append_left _ mem⟩
        · exact absurd ⟨pw, salt0, salt1, List.mem_append_right _ List.mem_cons_self⟩ never

/-- What `operate` makes of the array `L`. -/
def stirred (E : List ℕ) (key L : List Bool) : List Bool :=
  L.drop 32 ++ List.zipWith xor (L.take 32)
    (permute P ((List.range 8).flatMap
      (select (List.zipWith (fun e k => L.getD (32 + e - 1) false ^^ k) E key))))

theorem operate_L (s : Statics) (i : ℕ) :
    (operate s i).L = stirred s.E (s.KS.getD i []) s.L := rfl

theorem operations_congr (is : List ℕ) (sameE : s.E = t.E) (sameKS : s.KS = t.KS)
    (sameL : s.L = t.L) : (is.foldl operate s).L = (is.foldl operate t).L := by
  induction is generalizing s t with
  | nil => exact sameL
  | cons i is ih =>
      apply ih
      · rw [operate_E, operate_E, sameE]
      · rw [operate_KS, operate_KS, sameKS]
      · rw [operate_L, operate_L, sameE, sameKS, sameL]

/-- What `encrypt` makes of a block depends on the table and the key schedule only. -/
theorem encrypt_congr (sameE : s.E = t.E) (sameKS : s.KS = t.KS) (block : List Bool)
    (edflag : ℤ) : (encrypt s block edflag).2 = (encrypt t block edflag).2 := by
  have same := operations_congr (s := { s with L := permute IP block })
    (t := { t with L := permute IP block }) (order edflag) sameE sameKS rfl
  rw [encrypt_eq, encrypt_eq, reverseHalves, reverseHalves, same]

theorem schedules_congr (n : ℕ) (sameC : s.C = t.C) (sameD : s.D = t.D)
    (room : s.KS.length = t.KS.length) :
    ((List.range n).foldl schedule s).C = ((List.range n).foldl schedule t).C ∧
      ((List.range n).foldl schedule s).D = ((List.range n).foldl schedule t).D ∧
      ((List.range n).foldl schedule s).KS.take n =
        ((List.range n).foldl schedule t).KS.take n := by
  induction n with
  | zero => exact ⟨sameC, sameD, rfl⟩
  | succ n ih =>
      have lengthS := (schedules_keep (List.range n) s).2
      have lengthT := (schedules_keep (List.range n) t).2
      rw [List.range_succ, List.foldl_append, List.foldl_append]
      generalize (List.range n).foldl schedule s = s' at ih lengthS
      generalize (List.range n).foldl schedule t = t' at ih lengthT
      obtain ⟨sameC', sameD', sameKS⟩ := ih
      have length : s'.KS.length = t'.KS.length := lengthS.trans (room.trans lengthT.symm)
      rw [List.foldl_cons, List.foldl_nil, List.foldl_cons, List.foldl_nil, schedule, schedule,
        sameC', sameD']
      refine ⟨rfl, rfl, ?_⟩
      dsimp only
      rw [List.take_add_one, List.take_add_one, List.take_set_of_le le_rfl,
        List.take_set_of_le le_rfl, sameKS, List.getElem?_set, List.getElem?_set, length,
        if_pos rfl, if_pos rfl]

theorem schedules_KS (n : ℕ) (sameC : s.C = t.C) (sameD : s.D = t.D) (roomS : s.KS.length = n)
    (roomT : t.KS.length = n) :
    ((List.range n).foldl schedule s).KS = ((List.range n).foldl schedule t).KS := by
  have same := (schedules_congr n sameC sameD (roomS.trans roomT.symm)).2.2
  rwa [List.take_of_length_le ((schedules_keep _ s).2.trans roomS).le,
    List.take_of_length_le ((schedules_keep _ t).2.trans roomT).le] at same

/-- The schedule depends on the key only. -/
theorem setkey_congr (roomS : s.KS.length = 16) (roomT : t.KS.length = 16) (key : List Bool) :
    (setkey s key).KS = (setkey t key).KS := by
  rw [setkey, setkey]
  exact schedules_KS 16 rfl rfl roomS roomT

/-- A block encrypted and decrypted depends, beside the key, on the table only. -/
theorem undone_congr (sameE : s.E = t.E) (roomS : s.KS.length = 16) (roomT : t.KS.length = 16)
    (key block : List Bool) : undone s key block = undone t key block := by
  have sameKS := setkey_congr roomS roomT key
  have table : (setkey s key).E = (setkey t key).E := by
    rw [(setkey_keep s key).1, (setkey_keep t key).1, sameE]
  rw [undone, undone]
  generalize setkey s key = s' at sameKS table
  generalize setkey t key = t' at sameKS table
  dsimp only
  rw [encrypt_congr table sameKS block 0]
  apply encrypt_congr
  · rw [(encrypt_keep _ _ _).1, (encrypt_keep _ _ _).1, table]
  · rw [(encrypt_keep _ _ _).2, (encrypt_keep _ _ _).2, sameKS]

/-- With the table all zero decryption does not undo encryption. -/
theorem undone_init_ne :
    undone .init (List.replicate 64 false)
        (List.replicate 6 false ++ true :: List.replicate 57 false) ≠
      List.replicate 6 false ++ true :: List.replicate 57 false := by
  decide +kernel

/-- Decryption undoes encryption for every key and block exactly when `crypt`, which alone sets up
the table, has been called before. -/
theorem undone_iff (calls : List Call) :
    (∀ key block : Block, undone (after calls) key.1 block.1 = block.1) ↔
      ∃ pw salt0 salt1, Call.crypt pw salt0 salt1 ∈ calls := by
  obtain ⟨room, selects, zero⟩ := after_spec calls
  constructor
  · intro all
    by_contra never
    have same := all ⟨List.replicate 64 false, rfl⟩
      ⟨List.replicate 6 false ++ true :: List.replicate 57 false, rfl⟩
    rw [undone_congr (t := .init) (zero never) room rfl] at same
    exact undone_init_ne same
  · intro called key block
    exact undone_of_selects (selects called) key.1 block.2

theorem not_undone : ¬ ∀ (calls : List Call) (key block : Block),
    undone (after calls) key.1 block.1 = block.1 := by
  intro all
  exact undone_init_ne (all [] ⟨List.replicate 64 false, rfl⟩
    ⟨List.replicate 6 false ++ true :: List.replicate 57 false, rfl⟩)

end UnixV7.Libc.Crypt
