import UnixV7.Cmd.Ed.Getblock
import Mathlib.Tactic.Common
import Mathlib.Tactic.Ring

/-!
# What the two buffers and the file hold together

The temporary file is seen as one row of bytes. A byte is taken from `ibuff` or `obuff` when one
of them holds its block and from the file otherwise, and `getblock` keeps every byte that matters,
as long as a block that it takes for output without reading it has none.
-/

namespace UnixV7.Ed

open Function

variable {permp : Perm} {buf buf' : Buffer} {ed : Temp} {K K' : ℕ → UInt8 → Prop} {place : Place}
  {b n i off pos q tl atl : ℕ} {c d : UInt8}

/-! ## Encryption -/

/-- The tables undo what they have done. -/
structure Perm.Undoes (permp : Perm) : Prop where
  t1_t2 : ∀ c, permp.t1 (permp.t2 c) = c
  t2_t1 : ∀ c, permp.t2 (permp.t1 c) = c
  t3_t3 : ∀ c, permp.t3 (permp.t3 c) = c

theorem Perm.Undoes.code_code (undoes : permp.Undoes) (n1 n2 : ℕ) (c : UInt8) :
    permp.code n1 n2 (permp.code n1 n2 c) = c := by
  unfold Perm.code
  rw [UInt8.sub_add_cancel, undoes.t1_t2, UInt8.sub_add_cancel, undoes.t3_t3, UInt8.add_sub_cancel,
    undoes.t2_t1, UInt8.add_sub_cancel]

/-- Every character is coded by itself, the counters with its place. -/
theorem crloop_apply (permp : Perm) (nchar p1 k : ℕ) (buf : Buffer) (i : ℕ) :
    crloop permp nchar p1 (k % 256) (k / 256 % 256) buf i =
      if p1 ≤ i ∧ i < p1 + nchar then
        permp.code ((k + (i - p1)) % 256) ((k + (i - p1)) / 256 % 256) (buf i)
      else buf i := by
  induction nchar generalizing p1 k buf with
  | zero => rw [crloop, if_neg (by omega)]
  | succ nchar ih =>
      have step : crloop permp (nchar + 1) p1 (k % 256) (k / 256 % 256) buf =
          crloop permp nchar (p1 + 1) ((k + 1) % 256) ((k + 1) / 256 % 256)
            (update buf p1 (permp.code (k % 256) (k / 256 % 256) (buf p1))) := by
        rw [crloop]
        split
        next last =>
          rw [show (k + 1) % 256 = 0 by omega]
          congr 1
          split
          · omega
          · omega
        next inner =>
          rw [show (k + 1) % 256 = k % 256 + 1 by omega, show (k + 1) / 256 = k / 256 by omega]
      rw [step, ih]
      rcases Nat.lt_trichotomy i p1 with before | rfl | after
      · rw [if_neg (by omega), if_neg (by omega), update_of_ne (Nat.ne_of_lt before)]
      · rw [if_neg (by omega), if_pos (by omega), update_self, Nat.sub_self, Nat.add_zero]
      · rw [update_of_ne (Nat.ne_of_gt after), show k + 1 + (i - (p1 + 1)) = k + (i - p1) by omega]
        refine if_congr ?_ rfl rfl
        omega

namespace Temp

/-- A block is coded character by character. -/
theorem crypt_congr (same : buf off = buf' off) : ed.crypt buf off = ed.crypt buf' off := by
  unfold crypt
  cases ed.tperm with
  | none => exact same
  | some tperm =>
      have whole := fun buf => crloop_apply tperm 512 0 0 buf off
      simp only [crblock] at whole ⊢
      rw [whole, whole, same]

theorem crypt_crypt (undoes : ∀ tperm, ed.tperm = some tperm → tperm.Undoes) (buf : Buffer) :
    ed.crypt (ed.crypt buf) = buf := by
  unfold crypt
  cases table : ed.tperm with
  | none => rfl
  | some tperm =>
      funext off
      have whole := fun buf => crloop_apply tperm 512 0 0 buf off
      simp only [crblock] at whole ⊢
      rw [whole, whole]
      split
      · exact (undoes tperm table).code_code _ _ _
      · rfl

/-- The block `b` of the file as it is read. -/
def block (ed : Temp) (b : ℕ) : Buffer := ed.crypt fun off => ed.tfile (512 * b + off)

/-- The byte at `pos`. -/
def view (ed : Temp) (pos : ℕ) : Option UInt8 :=
  if ed.iblock = some (pos / 512) then some (ed.ibuff (pos % 512))
  else if ed.oblock = some (pos / 512) then some (ed.obuff (pos % 512))
  else if 512 * (pos / 512 + 1) ≤ ed.size then some (ed.block (pos / 512) (pos % 512))
  else none

end Temp

/-- The buffers and the file hold the bytes `K`, and `tline` is at `tl`. -/
structure Sound (K : ℕ → UInt8 → Prop) (tl : ℕ) (ed : Temp) : Prop where
  undoes : ∀ tperm, ed.tperm = some tperm → tperm.Undoes
  tline : ed.tline = tl
  apart : ∀ b, ed.iblock = some b → ed.oblock ≠ some b
  clean : ed.ichanged = false → ∀ b, ed.iblock = some b →
    512 * (b + 1) ≤ ed.size ∧ ∀ off < 512, ed.block b off = ed.ibuff off
  changed : ed.ichanged = true → ∃ b, ed.iblock = some b
  kept : ∀ pos c, K pos c → ed.view pos = some c

theorem Sound.mono (sound : Sound K tl ed) (fewer : ∀ pos c, K' pos c → K pos c) :
    Sound K' tl ed where
  undoes := sound.undoes
  tline := sound.tline
  apart := sound.apart
  clean := sound.clean
  changed := sound.changed
  kept pos c mem := sound.kept pos c (fewer pos c mem)

/-! ## Reading and writing the file -/

/-- A write changes its own block only. -/
theorem block_wrote (other : i ≠ b) (few : n ≤ 512) (inside : off < 512) :
    (ed.wrote b buf n).block i off = ed.block i off := by
  apply Temp.crypt_congr
  dsimp only [Temp.wrote]
  rw [if_neg]
  omega

theorem size_wrote : ed.size ≤ (ed.wrote b buf n).size := by
  dsimp only [Temp.wrote]
  split
  · exact Nat.le_refl _
  · exact Nat.le_max_left _ _

/-- What was written as a whole block is read back. -/
theorem block_wrote_self (undoes : ∀ tperm, ed.tperm = some tperm → tperm.Undoes)
    (inside : off < 512) : (ed.wrote b (ed.crypt buf) 512).block b off = buf off := by
  have same : (ed.wrote b (ed.crypt buf) 512).block b off = ed.crypt (ed.crypt buf) off := by
    apply Temp.crypt_congr
    dsimp only [Temp.wrote]
    rw [if_pos (by omega), Nat.add_sub_cancel_left]
  rw [same, Temp.crypt_crypt undoes]

theorem size_wrote_self : 512 * (b + 1) ≤ (ed.wrote b buf 512).size :=
  Nat.le_max_right _ _

/-- A write of the block in `obuff`, complete or not, loses nothing. -/
theorem Sound.wrote (sound : Sound K tl ed) (here : ed.oblock = some b) (few : n ≤ 512)
    (buf : Buffer) : Sound K tl (ed.wrote b buf n) where
  undoes := sound.undoes
  tline := sound.tline
  apart := sound.apart
  changed := sound.changed
  clean idle i held := by
    have other : i ≠ b := by
      rintro rfl
      exact sound.apart i held here
    obtain ⟨size, same⟩ := sound.clean idle i held
    refine ⟨Nat.le_trans size size_wrote, fun off inside => ?_⟩
    rw [block_wrote other few inside]
    exact same off inside
  kept pos c mem := by
    have before := sound.kept pos c mem
    have inside : pos % 512 < 512 := Nat.mod_lt _ (by decide)
    unfold Temp.view at before ⊢
    rw [show (ed.wrote b buf n).iblock = ed.iblock from rfl,
      show (ed.wrote b buf n).oblock = ed.oblock from rfl]
    split
    next held => rwa [if_pos held] at before
    next free =>
      rw [if_neg free] at before
      split
      next out => rwa [if_pos out] at before
      next other =>
        rw [if_neg other] at before
        have ne : pos / 512 ≠ b := by
          rintro rfl
          exact other here
        split at before
        next whole =>
          rw [if_pos (Nat.le_trans whole size_wrote), block_wrote ne few inside]
          exact before
        next => cases before

/-- `obuff` is written, so that the file has what it has. -/
theorem flushObuff_spec (K : ℕ → UInt8 → Prop) (P : Temp → Prop)
    (stable : ∀ ed b buf n, P ed → P (ed.wrote b buf n)) :
    Task.Spec (fun ed => Sound K tl ed ∧ P ed) flushObuff
      (fun _ ed => Sound K tl ed ∧ P ed ∧ ∀ b, ed.oblock = some b →
        512 * (b + 1) ≤ ed.size ∧ ∀ off < 512, ed.block b off = ed.obuff off) (Sound K tl) := by
  apply Task.Spec.look
  intro ed
  cases out : ed.oblock with
  | none =>
      apply Task.Spec.pure
      rintro _ ⟨rfl, sound, holds⟩
      refine ⟨sound, holds, fun b held => ?_⟩
      rw [out] at held
      cases held
  | some b =>
      apply Task.Spec.steps
      · rintro _ ⟨rfl, sound, holds⟩
        refine ⟨sound.wrote out (Nat.le_refl _) _, stable _ _ _ _ holds, fun i held => ?_⟩
        obtain rfl : b = i := Option.some.inj (out.symm.trans held)
        exact ⟨size_wrote_self, fun off inside => block_wrote_self sound.undoes inside⟩
      · rintro _ n few ⟨rfl, sound, -⟩
        exact sound.wrote out (Nat.le_of_lt few) _

/-! ## Blocks for writing -/

/-- The pointer `place` is that to the byte at `pos`. -/
def Points (place : Place) (pos : ℕ) (ed : Temp) : Prop :=
  match place with
  | .ibuff off => ed.iblock = some (pos / 512) ∧ off = pos % 512
  | .obuff off => ed.oblock = some (pos / 512) ∧ off = pos % 512

/-- What is stored through `place` will be written to the file. -/
def Writable (place : Place) (ed : Temp) : Prop :=
  match place with
  | .ibuff _ => ed.ichanged = true
  | .obuff _ => True

/-- `obuff` has the bytes that matter in block `b`. -/
def Fits (K : ℕ → UInt8 → Prop) (b : ℕ) (ed : Temp) : Prop :=
  ∀ pos c, K pos c → pos / 512 = b → ed.obuff (pos % 512) = c

/-- Another block is taken for output, with `obuff` as it is. -/
theorem Sound.take (sound : Sound K tl ed) (free : ed.iblock ≠ some b)
    (saved : ∀ i, ed.oblock = some i →
      512 * (i + 1) ≤ ed.size ∧ ∀ off < 512, ed.block i off = ed.obuff off)
    (fits : Fits K b ed) : Sound K tl { ed with oblock := some b } where
  undoes := sound.undoes
  tline := sound.tline
  clean := sound.clean
  changed := sound.changed
  apart i held out := by
    obtain rfl : b = i := Option.some.inj out
    exact free held
  kept pos c mem := by
    have before := sound.kept pos c mem
    unfold Temp.view at before ⊢
    dsimp only
    split
    next held => rwa [if_pos held] at before
    next other =>
      rw [if_neg other] at before
      split
      next here => exact congrArg some (fits pos c mem (Option.some.inj here).symm)
      next there =>
        split at before
        next out =>
          obtain ⟨size, same⟩ := saved _ out
          rw [if_pos size]
          exact (congrArg some (same _ (Nat.mod_lt _ (by decide)))).trans before
        next => exact before

/-- The byte at a pointer changes, and no other one. -/
theorem view_store (apart : ∀ b, ed.iblock = some b → ed.oblock ≠ some b)
    (points : Points place pos ed) :
    (ed.store c place).view q = if q = pos then some c else ed.view q := by
  cases place with
  | ibuff off =>
      obtain ⟨held, rfl⟩ := points
      unfold Temp.view Temp.store
      dsimp only
      split
      next here =>
        rw [held, Option.some_inj] at here
        split
        next same => rw [same, update_self]
        next ne => rw [update_of_ne (by omega)]
      next there =>
        have ne : q ≠ pos := by
          rintro rfl
          exact there held
        rw [if_neg ne]
        rfl
  | obuff off =>
      obtain ⟨held, rfl⟩ := points
      unfold Temp.view Temp.store
      dsimp only
      split
      next here =>
        rw [if_neg]
        rintro rfl
        exact apart _ here held
      next there =>
        split
        next here =>
          rw [held, Option.some_inj] at here
          split
          next same => rw [same, update_self]
          next ne => rw [update_of_ne (by omega)]
        next other =>
          have ne : q ≠ pos := by
            rintro rfl
            exact other held
          rw [if_neg ne]
          rfl

/-- The bytes `K` and `c` at `pos`. -/
def Put (K : ℕ → UInt8 → Prop) (pos : ℕ) (c : UInt8) (q : ℕ) (d : UInt8) : Prop :=
  K q d ∨ q = pos ∧ d = c

/-- A byte is stored where none that matters was. -/
theorem Sound.store (sound : Sound K tl ed) (points : Points place pos ed)
    (writable : Writable place ed) (fresh : ∀ d, ¬K pos d) :
    Sound (Put K pos c) tl (ed.store c place) where
  undoes := by
    cases place with
    | ibuff off => exact sound.undoes
    | obuff off => exact sound.undoes
  tline := by
    cases place with
    | ibuff off => exact sound.tline
    | obuff off => exact sound.tline
  apart := by
    cases place with
    | ibuff off => exact sound.apart
    | obuff off => exact sound.apart
  changed := by
    cases place with
    | ibuff off => exact sound.changed
    | obuff off => exact sound.changed
  clean := by
    cases place with
    | ibuff off =>
        intro idle
        rw [show (ed.store c (.ibuff off)).ichanged = ed.ichanged from rfl] at idle
        rw [show ed.ichanged = true from writable] at idle
        cases idle
    | obuff off => exact sound.clean
  kept q d mem := by
    rw [view_store sound.apart points]
    rcases mem with old | ⟨rfl, rfl⟩
    · rw [if_neg]
      · exact sound.kept q d old
      · rintro rfl
        exact fresh d old
    · rw [if_pos rfl]

theorem Points.store (points : Points place pos ed) : Points place pos (ed.store c place) := by
  cases place with
  | ibuff off => exact points
  | obuff off => exact points

theorem Writable.store (writable : Writable place ed) : Writable place (ed.store c place) := by
  cases place with
  | ibuff off => exact writable
  | obuff off => exact writable

theorem Points.next (points : Points place pos ed) (inner : (pos + 1) % 512 ≠ 0) :
    Points place.next (pos + 1) ed := by
  have same : (pos + 1) / 512 = pos / 512 := by omega
  cases place with
  | ibuff off =>
      refine ⟨same ▸ points.1, ?_⟩
      rw [points.2]
      omega
  | obuff off =>
      refine ⟨same ▸ points.1, ?_⟩
      rw [points.2]
      omega

theorem Writable.next (writable : Writable place ed) : Writable place.next ed := by
  cases place with
  | ibuff off => exact writable
  | obuff off => trivial

/-- The position of an address. -/
def position (atl : ℕ) : ℕ := 512 * blockOf atl + offsetOf atl

theorem position_div (atl : ℕ) : position atl / 512 = blockOf atl := by
  unfold position offsetOf
  omega

theorem position_mod (atl : ℕ) : position atl % 512 = offsetOf atl := by
  unfold position offsetOf
  omega

/-- Addresses are even. -/
theorem position_even (even : atl % 2 = 0) : position atl = 2 * atl := by
  unfold position blockOf offsetOf
  omega

theorem Sound.nleft (sound : Sound K tl ed) (nleft : ℕ) : Sound K tl { ed with nleft := nleft } :=
  { sound with }

/-- A block may be taken for writing when a buffer has it, or `obuff` what matters in it. -/
theorem getblock_write (atl : ℕ) :
    Task.Spec
      (fun ed => Sound K tl ed ∧ (ed.iblock = some (blockOf atl) ∨ ed.oblock = some (blockOf atl) ∨
        Fits K (blockOf atl) ed))
      (getblock atl WRITE)
      (fun place ed => Sound K tl ed ∧ Points place (position atl) ed ∧ Writable place ed ∧
        ed.nleft = 512 - offsetOf atl) (Sound K tl) := by
  unfold getblock
  apply Task.Spec.bind (Q := fun _ ed => Sound K tl ed ∧ ed.nleft = 512 - offsetOf atl ∧
    (ed.iblock = some (blockOf atl) ∨ ed.oblock = some (blockOf atl) ∨ Fits K (blockOf atl) ed))
  · exact Task.Spec.step _ (fun ed ⟨sound, ready⟩ => ⟨sound.nleft _, rfl, ready⟩)
      fun ed ⟨sound, _⟩ => sound
  intro _
  apply Task.Spec.look
  intro ed
  apply Task.Spec.ite
  · intro held
    apply Task.Spec.bind (Q := fun _ ed => Sound K tl ed ∧ ed.iblock = some (blockOf atl) ∧
      ed.ichanged = true ∧ ed.nleft = 512 - offsetOf atl)
    · apply Task.Spec.step
      · rintro _ ⟨rfl, sound, left, -⟩
        refine ⟨{ sound with clean := ?_, changed := fun _ => ⟨_, held⟩ }, held, ?_, left⟩
        · intro idle
          simp [WRITE] at idle
        · simp [WRITE]
      · exact fun _ ⟨_, sound, _⟩ => sound
    · intro _
      apply Task.Spec.pure
      rintro ed ⟨sound, held, changed, left⟩
      exact ⟨sound, ⟨position_div atl ▸ held, (position_mod atl).symm⟩, changed, left⟩
  intro other
  apply Task.Spec.ite
  · intro held
    apply Task.Spec.pure
    rintro _ ⟨rfl, sound, left, -⟩
    exact ⟨sound, ⟨position_div atl ▸ held, (position_mod atl).symm⟩, trivial, left⟩
  intro new
  rw [if_neg (by decide)]
  apply Task.Spec.bind
  · apply (flushObuff_spec K (fun ed => ed.iblock ≠ some (blockOf atl) ∧
      ed.nleft = 512 - offsetOf atl ∧ Fits K (blockOf atl) ed) ?_).strengthen
    · rintro _ ⟨rfl, sound, left, ready⟩
      exact ⟨sound, other, left, (ready.resolve_left other).resolve_left new⟩
    · exact fun ed b buf n holds => holds
  intro _
  apply Task.Spec.bind (Q := fun _ ed => Sound K tl ed ∧ ed.oblock = some (blockOf atl) ∧
    ed.nleft = 512 - offsetOf atl)
  · apply Task.Spec.step
    · rintro ed ⟨sound, ⟨free, left, fits⟩, saved⟩
      exact ⟨sound.take free saved fits, rfl, left⟩
    · exact fun _ ⟨sound, _⟩ => sound
  intro _
  apply Task.Spec.pure
  rintro ed ⟨sound, held, left⟩
  exact ⟨sound, ⟨position_div atl ▸ held, (position_mod atl).symm⟩, trivial, left⟩

/-! ## Blocks for reading -/

/-- The file and `obuff` hold the bytes `K`, so that `ibuff` is free. -/
structure Filed (K : ℕ → UInt8 → Prop) (tl : ℕ) (ed : Temp) : Prop where
  undoes : ∀ tperm, ed.tperm = some tperm → tperm.Undoes
  tline : ed.tline = tl
  kept : ∀ pos c, K pos c →
    (ed.oblock = some (pos / 512) ∧ ed.obuff (pos % 512) = c) ∨
      ed.oblock ≠ some (pos / 512) ∧ 512 * (pos / 512 + 1) ≤ ed.size ∧
        ed.block (pos / 512) (pos % 512) = c

/-- Either `ibuff` has the byte or another place, where it stays. -/
theorem Sound.cases (sound : Sound K tl ed) (mem : K pos c) :
    (ed.iblock = some (pos / 512) ∧ ed.ibuff (pos % 512) = c) ∨
      ed.iblock ≠ some (pos / 512) ∧
        ((ed.oblock = some (pos / 512) ∧ ed.obuff (pos % 512) = c) ∨
          ed.oblock ≠ some (pos / 512) ∧ 512 * (pos / 512 + 1) ≤ ed.size ∧
            ed.block (pos / 512) (pos % 512) = c) := by
  have before := sound.kept pos c mem
  unfold Temp.view at before
  split at before
  next held => exact .inl ⟨held, Option.some.inj before⟩
  next free =>
    refine .inr ⟨free, ?_⟩
    split at before
    next out => exact .inl ⟨out, Option.some.inj before⟩
    next other =>
      split at before
      next whole => exact .inr ⟨other, whole, Option.some.inj before⟩
      next => cases before

/-- An unchanged `ibuff` is not needed. -/
theorem Sound.filed (sound : Sound K tl ed) (idle : ed.ichanged = false) : Filed K tl ed where
  undoes := sound.undoes
  tline := sound.tline
  kept pos c mem := by
    rcases sound.cases mem with ⟨held, here⟩ | ⟨-, there⟩
    · obtain ⟨size, same⟩ := sound.clean idle _ held
      refine .inr ⟨sound.apart _ held, size, ?_⟩
      rw [same _ (Nat.mod_lt _ (by decide)), here]
    · exact there

/-- A changed `ibuff` is not needed either once it is written. -/
theorem Sound.filed_wrote (sound : Sound K tl ed) (held : ed.iblock = some b) (other : Buffer) :
    Filed K tl (({ ed with ibuff := other } : Temp).wrote b (ed.crypt ed.ibuff) 512) where
  undoes := sound.undoes
  tline := sound.tline
  kept pos c mem := by
    have inside : pos % 512 < 512 := Nat.mod_lt _ (by decide)
    rcases sound.cases mem with ⟨held', here⟩ | ⟨free, there⟩
    · obtain rfl : b = pos / 512 := Option.some.inj (held.symm.trans held')
      refine .inr ⟨sound.apart _ held, size_wrote_self, ?_⟩
      rw [← here]
      exact @block_wrote_self _ { ed with ibuff := other } _ _ sound.undoes inside
    · have ne : pos / 512 ≠ b := by
        rintro rfl
        exact free held
      rcases there with out | ⟨out, size, here⟩
      · exact .inl out
      · refine .inr ⟨out, Nat.le_trans size (@size_wrote _ { ed with ibuff := other } _ _), ?_⟩
        rw [block_wrote ne (Nat.le_refl _) inside]
        exact here

/-- What `readIbuff` needs to know of the block that it reads. -/
def Wanted (b v : ℕ) (ed : Temp) : Prop :=
  ed.oblock ≠ some b ∧ 512 * (b + 1) ≤ ed.size ∧ ed.nleft = v

theorem flushIbuff_spec (b v : ℕ) :
    Task.Spec (fun ed => Sound K tl ed ∧ Wanted b v ed) flushIbuff
      (fun _ ed => Filed K tl ed ∧ Wanted b v ed) fun _ => True := by
  unfold flushIbuff
  apply Task.Spec.look
  intro ed
  apply Task.Spec.ite
  · intro changed
    cases held : ed.iblock with
    | none =>
        apply Task.Spec.abandon
        rintro _ ⟨rfl, sound, -⟩
        obtain ⟨i, some⟩ := sound.changed changed
        rw [held] at some
        cases some
    | some i =>
        apply Task.Spec.bind (Q := fun _ ed' => ed' = { ed with ibuff := ed.crypt ed.ibuff } ∧
          Sound K tl ed ∧ Wanted b v ed)
        · apply Task.Spec.step
          · rintro _ ⟨rfl, holds⟩
            exact ⟨rfl, holds⟩
          · exact fun _ _ => trivial
        intro _
        apply Task.Spec.look
        intro ed'
        apply Task.Spec.steps
        · rintro _ ⟨rfl, rfl, sound, other, size, left⟩
          refine ⟨sound.filed_wrote held _, other, Nat.le_trans size ?_, left⟩
          exact @size_wrote _ { ed with ibuff := ed.crypt ed.ibuff } _ _
        · exact fun _ _ _ _ => trivial
  · intro idle
    apply Task.Spec.pure
    rintro _ ⟨rfl, sound, wanted⟩
    exact ⟨sound.filed (eq_false_of_ne_true idle), wanted⟩

/-- A block of the file is read into `ibuff`. -/
theorem Filed.read (filed : Filed K tl ed) (other : ed.oblock ≠ some b)
    (size : 512 * (b + 1) ≤ ed.size) (idle : ed.ichanged = false) (held : ed.iblock = some b)
    (buf : Buffer) (same : ∀ off < 512, ed.block b off = buf off) :
    Sound K tl { ed with ibuff := buf } where
  undoes := filed.undoes
  tline := filed.tline
  apart i here := by
    obtain rfl : b = i := Option.some.inj (held.symm.trans here)
    exact other
  clean _ i here := by
    obtain rfl : b = i := Option.some.inj (held.symm.trans here)
    exact ⟨size, same⟩
  changed some := by
    rw [show ed.ichanged = true from some] at idle
    cases idle
  kept pos c mem := by
    have inside : pos % 512 < 512 := Nat.mod_lt _ (by decide)
    unfold Temp.view
    dsimp only
    split
    next here =>
      obtain rfl : b = pos / 512 := Option.some.inj (held.symm.trans here)
      rcases filed.kept pos c mem with ⟨out, -⟩ | ⟨-, -, eq⟩
      · exact absurd out other
      · rw [← same _ inside, eq]
    next =>
      rcases filed.kept pos c mem with ⟨out, eq⟩ | ⟨out, whole, eq⟩
      · rw [if_pos out, eq]
      · rw [if_neg out, if_pos whole]
        exact congrArg some eq

theorem readIbuff_spec (b v : ℕ) :
    Task.Spec (fun ed => Sound K tl ed ∧ Wanted b v ed) (readIbuff b)
      (fun _ ed => Sound K tl ed ∧ ed.iblock = some b ∧ ed.nleft = v) fun _ => True := by
  unfold readIbuff
  apply Task.Spec.bind (flushIbuff_spec b v)
  intro _
  apply Task.Spec.bind (Q := fun _ ed => Filed K tl ed ∧ Wanted b v ed ∧ ed.ichanged = false)
  · apply Task.Spec.step
    · exact fun ed ⟨filed, wanted⟩ => ⟨⟨filed.undoes, filed.tline, filed.kept⟩, wanted, rfl⟩
    · exact fun _ _ => trivial
  intro _
  apply Task.Spec.bind (Q := fun _ ed => Filed K tl ed ∧ Wanted b v ed ∧ ed.ichanged = false ∧
    ed.iblock = some b)
  · apply Task.Spec.step
    · exact fun ed ⟨filed, wanted, idle⟩ =>
        ⟨⟨filed.undoes, filed.tline, filed.kept⟩, wanted, idle, rfl⟩
    · exact fun _ _ => trivial
  intro _
  apply Task.Spec.bind (Q := fun _ ed => Filed K tl ed ∧ Wanted b v ed ∧ ed.ichanged = false ∧
    ed.iblock = some b ∧ ∀ off < 512, ed.ibuff off = ed.tfile (512 * b + off))
  · unfold blkioRead
    apply Task.Spec.look
    intro ed
    apply Task.Spec.bind (Q := fun _ ed' => ed' = ed.fetched b ∧ Filed K tl ed ∧ Wanted b v ed ∧
      ed.ichanged = false ∧ ed.iblock = some b)
    · apply Task.Spec.step
      · rintro _ ⟨rfl, holds⟩
        exact ⟨rfl, holds⟩
      · exact fun _ _ => trivial
    intro _
    apply Task.Spec.ite
    · intro whole
      apply Task.Spec.pure
      rintro _ ⟨rfl, filed, wanted, idle, held⟩
      refine ⟨⟨filed.undoes, filed.tline, filed.kept⟩, wanted, idle, held, ?_⟩
      intro off inside
      exact if_pos (by omega)
    · intro short
      apply Task.Spec.abandon
      exact fun _ ⟨_, _, ⟨_, size, _⟩, _⟩ => short size
  intro _
  apply Task.Spec.step
  · rintro ed ⟨filed, ⟨other, size, left⟩, idle, held, same⟩
    refine ⟨filed.read other size idle held _ ?_, held, left⟩
    intro off inside
    exact Temp.crypt_congr (same off inside).symm
  · exact fun _ _ => trivial

/-- A block with a byte that matters can be read. -/
theorem getblock_read (atl : ℕ) (mem : K pos c) (here : pos / 512 = blockOf atl) :
    Task.Spec (Sound K tl) (getblock atl READ)
      (fun place ed => Sound K tl ed ∧ Points place (position atl) ed ∧
        ed.nleft = 512 - offsetOf atl) fun _ => True := by
  unfold getblock
  apply Task.Spec.bind (Q := fun _ ed => Sound K tl ed ∧ ed.nleft = 512 - offsetOf atl)
  · exact Task.Spec.step _ (fun ed sound => ⟨sound.nleft _, rfl⟩) fun _ _ => trivial
  intro _
  apply Task.Spec.look
  intro ed
  apply Task.Spec.ite
  · intro held
    apply Task.Spec.bind (Q := fun _ ed => Sound K tl ed ∧ ed.iblock = some (blockOf atl) ∧
      ed.nleft = 512 - offsetOf atl)
    · apply Task.Spec.step
      · rintro _ ⟨rfl, sound, left⟩
        refine ⟨?_, held, left⟩
        simpa [READ] using sound
      · exact fun _ _ => trivial
    · intro _
      apply Task.Spec.pure
      rintro ed ⟨sound, held, left⟩
      exact ⟨sound, ⟨position_div atl ▸ held, (position_mod atl).symm⟩, left⟩
  intro free
  apply Task.Spec.ite
  · intro held
    apply Task.Spec.pure
    rintro _ ⟨rfl, sound, left⟩
    exact ⟨sound, ⟨position_div atl ▸ held, (position_mod atl).symm⟩, left⟩
  intro other
  rw [if_pos rfl]
  apply Task.Spec.bind
  · apply (readIbuff_spec (blockOf atl) (512 - offsetOf atl)).strengthen
    rintro _ ⟨rfl, sound, left⟩
    refine ⟨sound, other, ?_, left⟩
    rcases sound.cases mem with ⟨held, -⟩ | ⟨-, ⟨held, -⟩ | ⟨-, size, -⟩⟩
    · exact absurd (here ▸ held) free
    · exact absurd (here ▸ held) other
    · exact here ▸ size
  intro _
  apply Task.Spec.pure
  rintro ed ⟨sound, held, left⟩
  exact ⟨sound, ⟨position_div atl ▸ held, (position_mod atl).symm⟩, left⟩

end UnixV7.Ed
