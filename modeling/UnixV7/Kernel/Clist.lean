import UnixV7.Kernel.Prim
import UnixV7.Library.Apart
import Mathlib.Data.List.TakeWhile

/-!
# What a character list holds

The blocks of a list are linked from its first character to its last, and the characters lie in
them without a gap: from the head pointer to the end of the first block, through the blocks
between, and from the beginning of the last block up to the tail pointer.
-/

namespace UnixV7

open Function

theorem and_cround (cp : ℕ) : cp &&& CROUND = 0 ↔ cp % 16 = 0 := by
  rw [show CROUND = 2 ^ 4 - 1 from rfl, Nat.and_two_pow_sub_one_eq_mod]

@[simp] theorem cblock_eq (bp : ℕ) : cblock bp = 16 * bp := rfl

@[simp] theorem blockOf_eq (cp : ℕ) : blockOf cp = cp / 16 := rfl

@[simp] theorem info_some (bp : ℕ) : info (some bp) = 16 * bp + 4 := rfl

private theorem cast_one : ((1 : ℕ) : ℤ) = 1 := rfl

namespace Prim

variable {κ : Type*} [DecidableEq κ] {m m' m'' : Prim κ} {p : κ} {cf cl bp k n : ℕ}
  {bs bs' free free' : List ℕ} {bytes bytes' : List UInt8} {h h' : Clist}

/-! ## Characters in their blocks -/

/-- `n` characters from an address on. -/
def read (m : Prim κ) (cf n : ℕ) : List UInt8 := (List.range' cf n).map m.c_info

omit [DecidableEq κ] in
@[simp] theorem length_read (m : Prim κ) (cf n : ℕ) : (m.read cf n).length = n := by simp [read]

omit [DecidableEq κ] in
theorem read_add (m : Prim κ) (cf k n : ℕ) :
    m.read cf (k + n) = m.read cf k ++ m.read (cf + k) n := by
  rw [read, ← List.range'_append_1, List.map_append]
  rfl

omit [DecidableEq κ] in
theorem drop_read (small : k ≤ n) : (m.read cf n).drop k = m.read (cf + k) (n - k) := by
  obtain ⟨rest, rfl⟩ := Nat.exists_eq_add_of_le small
  simp [read_add]

omit [DecidableEq κ] in
theorem take_read (small : k ≤ n) : (m.read cf n).take k = m.read cf k := by
  obtain ⟨rest, rfl⟩ := Nat.exists_eq_add_of_le small
  simp [read_add]

omit [DecidableEq κ] in
theorem read_congr (same : ∀ a, cf ≤ a → a < cf + n → m'.c_info a = m.c_info a) :
    m'.read cf n = m.read cf n := by
  refine List.map_congr_left fun a mem => ?_
  obtain ⟨low, high⟩ := List.mem_range'_1.mp mem
  exact same a low high

/-- The characters from `cf` up to `cl`, in the blocks linked from that of `cf`. -/
inductive Stretch (m : Prim κ) (cl : ℕ) : ℕ → List ℕ → List UInt8 → Prop
  | last {bp cf : ℕ} : m.c_next bp = none → cblock bp + 4 ≤ cf → cf < cl → cl ≤ cblock (bp + 1) →
      Stretch m cl cf [bp] (m.read cf (cl - cf))
  | cons {bp next cf : ℕ} {bs : List ℕ} {bytes : List UInt8} : m.c_next bp = some next →
      cblock bp + 4 ≤ cf → cf < cblock (bp + 1) → Stretch m cl (info (some next))
        (next :: bs) bytes →
      Stretch m cl cf (bp :: next :: bs) (m.read cf (cblock (bp + 1) - cf) ++ bytes)

/-- A list that is empty has no block; else its characters are a stretch of blocks. -/
inductive Holds (m : Prim κ) : Clist → List ℕ → List UInt8 → Prop
  | empty : Holds m ⟨0, 0, 0⟩ [] []
  | stretch {cf cl : ℕ} {bs : List ℕ} {bytes : List UInt8} : m.Stretch cl cf bs bytes →
      Holds m ⟨bytes.length, cf, cl⟩ bs bytes

namespace Stretch

omit [DecidableEq κ] in
/-- A stretch depends on its own blocks only. -/
theorem congr (stretch : m.Stretch cl cf bs bytes) (links : ∀ b ∈ bs, m'.c_next b = m.c_next b)
    (chars : ∀ a, blockOf a ∈ bs → m'.c_info a = m.c_info a) : m'.Stretch cl cf bs bytes := by
  induction stretch with
  | @last bp cf next low some high =>
      have same : m'.read cf (cl - cf) = m.read cf (cl - cf) := by
        refine read_congr fun a above below => chars a ?_
        simp only [cblock_eq, blockOf_eq, List.mem_singleton] at *
        omega
      rw [← same]
      exact .last (by rw [links bp (by simp), next]) low some high
  | @cons bp next cf bs bytes link low high rest ih =>
      have same : m'.read cf (cblock (bp + 1) - cf) = m.read cf (cblock (bp + 1) - cf) := by
        refine read_congr fun a above below => chars a (List.mem_cons.mpr (.inl ?_))
        simp only [cblock_eq, blockOf_eq] at *
        omega
      rw [← same]
      refine .cons (by rw [links bp (by simp), link]) low high (ih ?_ ?_)
      · exact fun b mem => links b (List.mem_cons_of_mem bp mem)
      · exact fun a mem => chars a (List.mem_cons_of_mem bp mem)

omit [DecidableEq κ] in
theorem bytes_ne_nil (stretch : m.Stretch cl cf bs bytes) : 0 < bytes.length := by
  cases stretch with
  | last next low some high =>
      rw [length_read]
      omega
  | cons link low high rest =>
      simp only [List.length_append, length_read]
      omega

omit [DecidableEq κ] in
/-- The last block is that of the last character, and nothing is linked behind it. -/
theorem last_block (stretch : m.Stretch cl cf bs bytes) :
    ∃ front, bs = front ++ [blockOf (cl - 1)] ∧ m.c_next (blockOf (cl - 1)) = none ∧
      cblock (blockOf (cl - 1)) + 4 < cl := by
  induction stretch with
  | @last bp cf next low some high =>
      obtain rfl : blockOf (cl - 1) = bp := by
        simp only [cblock_eq, blockOf_eq] at *
        omega
      exact ⟨[], rfl, next, by omega⟩
  | @cons bp next cf bs bytes link low high rest ih =>
      obtain ⟨front, split, last, room⟩ := ih
      exact ⟨bp :: front, by rw [split, List.cons_append], last, room⟩

omit [DecidableEq κ] in
theorem pos (stretch : m.Stretch cl cf bs bytes) : cl ≠ 0 := by
  obtain ⟨-, -, -, room⟩ := stretch.last_block
  omega

end Stretch

namespace Holds

omit [DecidableEq κ] in
theorem congr (holds : m.Holds h bs bytes) (links : ∀ b ∈ bs, m'.c_next b = m.c_next b)
    (chars : ∀ a, blockOf a ∈ bs → m'.c_info a = m.c_info a) : m'.Holds h bs bytes := by
  cases holds with
  | empty => exact .empty
  | stretch stretch => exact .stretch (stretch.congr links chars)

omit [DecidableEq κ] in
/-- The count of a list is the number of its characters. -/
theorem c_cc (holds : m.Holds h bs bytes) : h.c_cc = bytes.length := by
  cases holds <;> rfl

omit [DecidableEq κ] in
/-- A list without characters has no block and null pointers. -/
theorem of_nil (holds : m.Holds h bs []) : bs = [] ∧ h = ⟨0, 0, 0⟩ := by
  cases holds with
  | empty => exact ⟨rfl, rfl⟩
  | stretch stretch => exact absurd stretch.bytes_ne_nil (by simp)

omit [DecidableEq κ] in
theorem stretch_of_pos (holds : m.Holds h bs bytes) (some : 0 < bytes.length) :
    m.Stretch h.c_cl h.c_cf bs bytes := by
  cases holds with
  | empty => simp at some
  | stretch stretch => exact stretch

end Holds

/-! ## One list and the free blocks -/

/-- The list of `p` with its blocks, beside the free blocks. -/
structure Own (m : Prim κ) (p : κ) (bs free : List ℕ) (bytes : List UInt8) : Prop where
  chain : Chain m.c_next m.cfreelist free
  holds : m.Holds (m.clist p) bs bytes
  distinct : (bs ++ free).Nodup

/-- A change that concerns the list of `p` and some blocks. -/
structure Within (m m' : Prim κ) (p : κ) (blocks : List ℕ) : Prop where
  lists : ∀ y, y ≠ p → m'.clist y = m.clist y
  links : ∀ b, b ∉ blocks → m'.c_next b = m.c_next b
  chars : ∀ a, blockOf a ∉ blocks → m'.c_info a = m.c_info a

/-- A change of the list of `p` to `bytes` that moves blocks between the list and the free ones. -/
def Step (m : Prim κ) (p : κ) (bs free : List ℕ) (m' : Prim κ) (bytes : List UInt8) : Prop :=
  ∃ bs' free', m'.Own p bs' free' bytes ∧ (bs' ++ free').Perm (bs ++ free) ∧
    Within m m' p (bs ++ free)

omit [DecidableEq κ] in
theorem Own.refl (own : m.Own p bs free bytes) : Step m p bs free m bytes :=
  ⟨bs, free, own, .refl _, ⟨fun _ _ => rfl, fun _ _ => rfl, fun _ _ => rfl⟩⟩

omit [DecidableEq κ] in
theorem Step.trans (first : Step m p bs free m' bytes)
    (second : ∀ bs' free', m'.Own p bs' free' bytes → Step m' p bs' free' m'' bytes') :
    Step m p bs free m'' bytes' := by
  obtain ⟨bs', free', own, perm, within⟩ := first
  obtain ⟨bs'', free'', own', perm', within'⟩ := second bs' free' own
  have outside : ∀ b, b ∉ bs ++ free → b ∉ bs' ++ free' :=
    fun b out mem => out (perm.mem_iff.mp mem)
  refine ⟨bs'', free'', own', perm'.trans perm, fun y other => ?_, fun b out => ?_, fun a out => ?_⟩
  · rw [within'.lists y other, within.lists y other]
  · rw [within'.links b (outside b out), within.links b out]
  · rw [within'.chars a (outside _ out), within.chars a out]

@[simp] theorem set_set (m : Prim κ) (p : κ) (h h' : Clist) :
    (m.set p h).set p h' = m.set p h' := by
  simp [set]

@[simp] theorem set_clist (m : Prim κ) (p : κ) : m.set p (m.clist p) = m := by simp [set]

@[simp] theorem clist_set (m : Prim κ) (p : κ) (h : Clist) :
    (m.set p h).clist p = h := by simp [set]

/-- A change of the header that keeps the blocks. -/
theorem Own.set (own : m.Own p bs free bytes) (holds : m.Holds h bs bytes') :
    Step m p bs free (m.set p h) bytes' := by
  refine ⟨bs, free, ⟨own.chain, ?_, own.distinct⟩, .refl _, ?_, fun _ _ => rfl, fun _ _ => rfl⟩
  · rw [clist_set]
    exact holds.congr (fun _ _ => rfl) fun _ _ => rfl
  · exact fun y other => update_of_ne other _ _

/-! ## Taking characters off -/

/-- The list of `p` without its first `k` characters. -/
def advance (m : Prim κ) (p : κ) (k : ℕ) : Prim κ :=
  let q := m.clist p
  let cf := q.c_cf + k
  let cc := q.c_cc - k
  if cc ≤ 0 then (m.set p ⟨cc, 0, 0⟩).release (blockOf (cf - 1))
  else if cf &&& CROUND = 0 then
    (m.set p ⟨cc, info (m.c_next (blockOf cf - 1)), q.c_cl⟩).release (blockOf cf - 1)
  else m.set p ⟨cc, cf, q.c_cl⟩

theorem getc_eq (some : 0 < (m.clist p).c_cc) :
    m.getc p = (((m.c_info (m.clist p).c_cf).toNat : ℤ), m.advance p 1) := by
  have more : ¬(m.clist p).c_cc ≤ 0 := by omega
  simp only [getc, more, if_false, advance, cast_one]
  split_ifs <;> rfl

/-- The first block of a list goes back to the free ones. -/
theorem Own.release (own : m.Own p (bp :: bs) free bytes) (holds : m.Holds h bs bytes') :
    Step m p (bp :: bs) free ((m.set p h).release bp) bytes' := by
  have distinct := own.distinct
  rw [List.cons_append, List.nodup_cons, List.mem_append, not_or] at distinct
  obtain ⟨⟨fresh, unfree⟩, distinct⟩ := distinct
  have away : ∀ b ∈ bs, ((m.set p h).release bp).c_next b = m.c_next b := by
    intro b mem
    refine update_of_ne ?_ _ _
    rintro rfl
    exact fresh mem
  refine ⟨bs, bp :: free, ⟨own.chain.push unfree, ?_, ?_⟩, List.perm_middle, ?_, ?_, fun _ _ => rfl⟩
  · rw [show ((m.set p h).release bp).clist p = h from clist_set m p h]
    exact holds.congr away fun _ _ => rfl
  · exact List.perm_middle.nodup_iff.mpr own.distinct
  · exact fun y other => update_of_ne other _ _
  · intro b out
    refine update_of_ne ?_ _ _
    rintro rfl
    exact out (by simp)

/-- The characters of one block may be taken off. -/
theorem Own.advance (own : m.Own p bs free bytes) (some : 0 < k) (small : k ≤ bytes.length)
    (inside : (m.clist p).c_cf + k ≤ cblock (blockOf (m.clist p).c_cf + 1)) :
    Step m p bs free (m.advance p k) (bytes.drop k) ∧
      bytes.take k = m.read (m.clist p).c_cf k := by
  have count := own.holds.c_cc
  have stretch := own.holds.stretch_of_pos (by omega)
  generalize held : m.clist p = h at *
  obtain ⟨cc, cf, cl⟩ := h
  simp only [cblock_eq, blockOf_eq] at inside count stretch
  subst count
  cases stretch with
  | @last bp _ next low some high =>
      simp only [cblock_eq] at low high
      rw [length_read] at small
      refine ⟨?_, take_read small⟩
      simp only [Prim.advance, held, length_read, and_cround, blockOf_eq]
      by_cases done : k = cl - cf
      · have block : (cf + k - 1) / 16 = bp := by omega
        rw [if_pos (by omega), block, done, List.drop_of_length_le (by simp)]
        have zero : (((cl - cf : ℕ) : ℤ) - ((cl - cf : ℕ) : ℤ)) = 0 := by omega
        rw [zero]
        exact own.release .empty
      · rw [if_neg (by omega), if_neg (by omega), drop_read small]
        have rest : m.Stretch cl (cf + k) [bp] (m.read (cf + k) (cl - cf - k)) := by
          rw [Nat.sub_sub]
          exact .last next (by simp; omega) (by omega) (by simp; omega)
        have holds := Holds.stretch rest
        rw [length_read, Int.ofNat_sub (by omega)] at holds
        exact own.set holds
  | @cons bp next _ bs bytes link low high rest =>
      simp only [cblock_eq] at low high
      have more := rest.bytes_ne_nil
      have block : cf / 16 = bp := by omega
      rw [block] at inside
      have room : k ≤ 16 * (bp + 1) - cf := by omega
      simp only [cblock_eq] at small ⊢
      rw [List.take_append_of_le_length (by simpa using room),
        List.drop_append_of_le_length (by simpa using room), take_read room, drop_read room]
      refine ⟨?_, rfl⟩
      simp only [Prim.advance, held, List.length_append, length_read, and_cround, blockOf_eq,
        cblock_eq]
      by_cases done : k = 16 * (bp + 1) - cf
      · have behind : (cf + k) / 16 - 1 = bp := by omega
        rw [if_neg (by omega), if_pos (by omega), behind, link, done, Nat.sub_self,
          show m.read (cf + (16 * (bp + 1) - cf)) 0 = [] from rfl, List.nil_append]
        have holds := Holds.stretch rest
        refine own.release ?_
        convert holds using 2
        omega
      · rw [if_neg (by omega), if_neg (by omega)]
        have begins : m.Stretch cl (cf + k) (bp :: next :: bs)
            (m.read (cf + k) (16 * (bp + 1) - cf - k) ++ bytes) := by
          rw [Nat.sub_sub]
          exact .cons link (by simp; omega) (by simp; omega) rest
        have holds := Holds.stretch begins
        refine own.set ?_
        convert holds using 2
        simp
        omega

/-- `getc` gives the first character. -/
theorem Own.getc {c : UInt8} (own : m.Own p bs free (c :: bytes)) :
    (m.getc p).1 = c.toNat ∧ Step m p bs free (m.getc p).2 bytes := by
  have count := own.holds.c_cc
  rw [List.length_cons] at count
  rw [getc_eq (by omega)]
  obtain ⟨step, first⟩ := own.advance Nat.one_pos (by simp) (by simp; omega)
  have char : [c] = [m.c_info (m.clist p).c_cf] := first
  rw [List.cons.inj char |>.1]
  exact ⟨rfl, step⟩

/-- An empty list stays as it is. -/
theorem Own.getc_nil (own : m.Own p bs free []) : m.getc p = (-1, m) := by
  obtain ⟨-, null⟩ := own.holds.of_nil
  have same := set_clist m p
  rw [null] at same
  simp [Prim.getc, null, same]

theorem moveOut_succ (cc : ℕ) (m : Prim κ) (p : κ) :
    m.moveOut p (cc + 1) =
      if (m.clist p).c_cc - 1 ≤ 0 then ([m.c_info (m.clist p).c_cf], m.advance p 1)
      else (m.c_info (m.clist p).c_cf :: ((m.advance p 1).moveOut p cc).1,
        ((m.advance p 1).moveOut p cc).2) := by
  simp only [moveOut, advance, cast_one]
  split_ifs <;> rfl

/-- The loop of `q_to_b` takes the first characters. -/
theorem Own.moveOut (cc : ℕ) (own : m.Own p bs free bytes) (some : 0 < bytes.length) :
    (m.moveOut p cc).1 = bytes.take cc ∧ Step m p bs free (m.moveOut p cc).2 (bytes.drop cc) := by
  induction cc generalizing m bs free bytes with
  | zero => exact ⟨rfl, own.refl⟩
  | succ cc ih =>
      have count := own.holds.c_cc
      obtain ⟨step, first⟩ := own.advance Nat.one_pos some (by simp; omega)
      cases bytes with
      | nil => simp at some
      | cons c bytes =>
          have char : c = m.c_info (m.clist p).c_cf := (List.cons.inj first).1
          rw [List.length_cons] at count
          rw [moveOut_succ, ← char]
          by_cases last : bytes = []
          · subst last
            rw [if_pos (by simp [count])]
            simpa using step
          · have more := List.length_pos_iff.mpr last
            rw [if_neg (by omega)]
            obtain ⟨bs', free', own', -, -⟩ := id step
            refine ⟨congrArg (c :: ·) (ih own' more).1, step.trans fun bs' free' own' => ?_⟩
            exact (ih own' more).2

theorem Own.q_to_b (cc : ℤ) (own : m.Own p bs free bytes) :
    (m.q_to_b p cc).1 = bytes.take cc.toNat ∧
      Step m p bs free (m.q_to_b p cc).2 (bytes.drop cc.toNat) := by
  have count := own.holds.c_cc
  by_cases none : cc ≤ 0
  · rw [Int.toNat_of_nonpos none]
    simpa [Prim.q_to_b, none] using own.refl
  · cases bytes with
    | nil =>
        obtain ⟨-, null⟩ := own.holds.of_nil
        have same := set_clist m p
        rw [null] at same
        simpa [Prim.q_to_b, none, null, same] using own.refl
    | cons c bytes =>
        rw [List.length_cons] at count
        have some : ¬(m.clist p).c_cc ≤ 0 := by omega
        simp only [Prim.q_to_b, none, some, if_false]
        exact own.moveOut _ (by simp)

theorem Own.getw {c d : UInt8} (own : m.Own p bs free (c :: d :: bytes)) :
    (m.getw p).1 = c.toNat + 256 * d.toNat ∧ Step m p bs free (m.getw p).2 bytes := by
  have count := own.holds.c_cc
  simp only [List.length_cons] at count
  obtain ⟨first, step⟩ := own.getc
  obtain ⟨bs', free', own', -, -⟩ := id step
  obtain ⟨second, -⟩ := own'.getc
  have more : ¬(m.clist p).c_cc ≤ 1 := by omega
  simp only [Prim.getw, more, if_false]
  refine ⟨?_, step.trans fun _ _ own' => own'.getc.2⟩
  rw [first, second, Int.toNat_natCast, Int.toNat_natCast, Nat.lor_comm,
    ← Nat.shiftLeft_add_eq_or_of_lt (i := 8) c.toNat_lt, Nat.shiftLeft_eq]
  omega

theorem Own.getw_short (own : m.Own p bs free bytes) (short : bytes.length ≤ 1) :
    m.getw p = (-1, m) := by
  have count := own.holds.c_cc
  rw [Prim.getw, if_pos (by omega)]

/-! ## Appending characters -/

omit [DecidableEq κ] in
/-- A character is stored behind the last one. -/
theorem Stretch.store {c : UInt8} (stretch : m.Stretch cl cf bs bytes) (distinct : bs.Nodup)
    (room : cl % 16 ≠ 0) : (m.store cl c).Stretch (cl + 1) cf bs (bytes ++ [c]) := by
  induction stretch with
  | @last bp cf next low some high =>
      have before : (m.store cl c).read cf (cl - cf) = m.read cf (cl - cf) := by
        refine read_congr fun a above below => update_of_ne ?_ _ _
        omega
      have char : (m.store cl c).read cl 1 = [c] := congrArg ([·]) (update_self _ _ _)
      simp only [cblock_eq] at low high
      have all : m.read cf (cl - cf) ++ [c] = (m.store cl c).read cf (cl + 1 - cf) := by
        rw [show cl + 1 - cf = cl - cf + 1 by omega, read_add, before,
          show cf + (cl - cf) = cl by omega, char]
      rw [all]
      exact .last next low (by omega) (by simp; omega)
  | @cons bp next cf bs bytes link low high rest ih =>
      obtain ⟨front, split, -, -⟩ := rest.last_block
      have behind : blockOf cl ∈ next :: bs := by
        have same : blockOf cl = blockOf (cl - 1) := by
          have := rest.pos
          simp only [blockOf_eq]
          omega
        rw [split, same]
        simp
      have other : blockOf cl ≠ bp := by
        rintro rfl
        exact (List.nodup_cons.mp distinct).1 behind
      have before : (m.store cl c).read cf (cblock (bp + 1) - cf) =
          m.read cf (cblock (bp + 1) - cf) := by
        refine read_congr fun a above below => update_of_ne ?_ _ _
        simp only [cblock_eq, blockOf_eq] at *
        omega
      rw [List.append_assoc, ← before]
      exact .cons link low high (ih (List.nodup_cons.mp distinct).2)

omit [DecidableEq κ] in
/-- A character is stored in a new block linked behind a full last one. -/
theorem Stretch.extend {b : ℕ} {c : UInt8} (stretch : m.Stretch cl cf bs bytes)
    (full : cl % 16 = 0) (distinct : bs.Nodup) (fresh : b ∉ bs)
    (links : m'.c_next = update (update m.c_next (blockOf (cl - 1)) (some b)) b none)
    (chars : m'.c_info = update m.c_info (info (some b)) c) :
    m'.Stretch (info (some b) + 1) cf (bs ++ [b]) (bytes ++ [c]) := by
  have elsewhere : ∀ a, blockOf a ≠ b → m'.c_info a = m.c_info a := by
    intro a other
    rw [chars]
    refine update_of_ne ?_ _ _
    simp only [blockOf_eq, info_some] at *
    omega
  induction stretch with
  | @last bp cf next low some high =>
      simp only [cblock_eq] at low high
      have last : blockOf (cl - 1) = bp := by
        simp only [blockOf_eq]
        omega
      obtain rfl : cl = cblock (bp + 1) := by
        simp only [cblock_eq]
        omega
      rw [List.mem_singleton] at fresh
      have before : m'.read cf (cblock (bp + 1) - cf) = m.read cf (cblock (bp + 1) - cf) := by
        refine read_congr fun a above below => elsewhere a ?_
        simp only [cblock_eq, blockOf_eq] at *
        omega
      have char : [c] = m'.read (info (Option.some b))
          (info (Option.some b) + 1 - info (Option.some b)) := by
        rw [Nat.add_sub_cancel_left, show m'.read (info (Option.some b)) 1 =
          [m'.c_info (info (Option.some b))] from rfl, chars, update_self]
      rw [← before, char]
      refine .cons ?_ low some (.last ?_ (by simp) (by simp) (by simp; omega))
      · rw [links, last, update_of_ne (Ne.symm fresh), update_self]
      · rw [links, update_self]
  | @cons bp next cf bs bytes link low high rest ih =>
      obtain ⟨front, split, -, -⟩ := rest.last_block
      obtain ⟨different, distinct⟩ := List.nodup_cons.mp distinct
      obtain ⟨unlike, fresh⟩ := not_or.mp (fun mem => fresh (List.mem_cons.mpr mem))
      have before : m'.read cf (cblock (bp + 1) - cf) = m.read cf (cblock (bp + 1) - cf) := by
        refine read_congr fun a above below => elsewhere a ?_
        simp only [cblock_eq, blockOf_eq] at *
        omega
      have inner : bp ≠ blockOf (cl - 1) := by
        rintro rfl
        exact different (by rw [split]; simp)
      rw [List.append_assoc, ← before]
      refine .cons ?_ low high (ih distinct fresh)
      rw [links, update_of_ne (Ne.symm unlike), update_of_ne inner, link]

/-- There is no room behind the last character of a list, as its blocks are full or it has none. -/
def Full (m : Prim κ) (p : κ) : Prop :=
  (m.clist p).c_cl = 0 ∨ (m.clist p).c_cl &&& CROUND = 0

/-- The first free block becomes the only block of a list. -/
theorem Own.first {b : ℕ} {c : UInt8} (own : m.Own p [] (b :: free) []) :
    Step m p [] (b :: free) (((m.take b).store (info (some b)) c).set p
      ⟨1, info (some b), info (some b) + 1⟩) [c] := by
  have distinct := own.distinct
  rw [List.nil_append, List.nodup_cons] at distinct
  refine ⟨[b], free, ⟨?_, ?_, own.distinct⟩, .refl _, ?_, ?_, ?_⟩
  · exact Chain.update (own.chain.2) distinct.1
  · rw [clist_set]
    have char : ((m.take b).store (info (some b)) c).read (info (some b))
        (info (some b) + 1 - info (some b)) = [c] := by
      rw [Nat.add_sub_cancel_left]
      exact congrArg ([·]) (update_self _ _ _)
    have stretch : ((m.take b).store (info (some b)) c).Stretch (info (some b) + 1)
        (info (some b)) [b] [c] := by
      rw [← char]
      exact .last (update_self _ _ _) (by simp) (by simp) (by simp; omega)
    exact (Holds.stretch stretch).congr (fun _ _ => rfl) fun _ _ => rfl
  · exact fun y other => update_of_ne other _ _
  · intro a out
    refine update_of_ne ?_ _ _
    rintro rfl
    exact out (by simp)
  · intro a out
    refine update_of_ne ?_ _ _
    rintro rfl
    exact out (by simp; omega)

/-- A character is stored in the last block of a list. -/
theorem Own.store {c : UInt8} (own : m.Own p bs free bytes) (some : 0 < bytes.length)
    (room : (m.clist p).c_cl % 16 ≠ 0) :
    Step m p bs free ((m.store (m.clist p).c_cl c).set p
      ⟨(m.clist p).c_cc + 1, (m.clist p).c_cf, (m.clist p).c_cl + 1⟩) (bytes ++ [c]) := by
  have stretch := own.holds.stretch_of_pos some
  have longer := Holds.stretch
    (stretch.store (c := c) (List.nodup_append.mp own.distinct).1 room)
  obtain ⟨front, split, -, -⟩ := stretch.last_block
  refine ⟨bs, free, ⟨own.chain, ?_, own.distinct⟩, .refl _, ?_, fun _ _ => rfl, ?_⟩
  · rw [clist_set, own.holds.c_cc]
    rw [List.length_append] at longer
    exact longer.congr (fun _ _ => rfl) fun _ _ => rfl
  · exact fun y other => update_of_ne other _ _
  · intro a out
    refine update_of_ne ?_ _ _
    rintro rfl
    have same : blockOf (m.clist p).c_cl = blockOf ((m.clist p).c_cl - 1) := by
      have := stretch.pos
      simp only [blockOf_eq]
      omega
    exact out (by rw [split, same]; simp)

/-- A character is stored in a block linked behind the last one of a list. -/
theorem Own.extend {b : ℕ} {c : UInt8} (own : m.Own p bs (b :: free) bytes)
    (nonempty : 0 < bytes.length) (full : (m.clist p).c_cl % 16 = 0) :
    Step m p bs (b :: free)
      ((((m.link (blockOf (m.clist p).c_cl - 1) (some b)).take b).store (info (some b)) c).set p
        ⟨(m.clist p).c_cc + 1, (m.clist p).c_cf, info (some b) + 1⟩) (bytes ++ [c]) := by
  have stretch := own.holds.stretch_of_pos nonempty
  obtain ⟨front, split, -, -⟩ := stretch.last_block
  have last : blockOf (m.clist p).c_cl - 1 = blockOf ((m.clist p).c_cl - 1) := by
    have := stretch.pos
    simp only [blockOf_eq]
    omega
  obtain ⟨distinct, distinct', apart⟩ := List.nodup_append.mp own.distinct
  have fresh : b ∉ bs := fun mem => apart b mem b (by simp) rfl
  have inside : blockOf ((m.clist p).c_cl - 1) ∈ bs := by
    rw [split]
    simp
  have other : b ≠ blockOf ((m.clist p).c_cl - 1) := by
    rintro rfl
    exact fresh inside
  have unlinked : blockOf ((m.clist p).c_cl - 1) ∉ free :=
    fun mem => apart _ inside _ (List.mem_cons_of_mem b mem) rfl
  have perm : (bs ++ [b] ++ free).Perm (bs ++ b :: free) := by
    rw [List.append_assoc]
    exact .refl _
  rw [last]
  refine ⟨bs ++ [b], free, ⟨?_, ?_, perm.nodup_iff.mpr own.distinct⟩, perm, ?_, ?_, ?_⟩
  · have rest : Chain (update m.c_next (blockOf ((m.clist p).c_cl - 1)) (some b))
        (m.c_next b) free := Chain.update own.chain.2 unlinked
    have start : update m.c_next (blockOf ((m.clist p).c_cl - 1)) (some b) b = m.c_next b :=
      update_of_ne other _ _
    rw [← start] at rest
    exact Chain.update rest (List.nodup_cons.mp distinct').1
  · rw [clist_set, own.holds.c_cc]
    have extended : (((m.link (blockOf ((m.clist p).c_cl - 1)) (some b)).take b).store
        (info (some b)) c).Stretch (info (some b) + 1) (m.clist p).c_cf (bs ++ [b])
          (bytes ++ [c]) :=
      stretch.extend full distinct fresh rfl rfl
    have longer := Holds.stretch extended
    rw [List.length_append] at longer
    exact longer.congr (fun _ _ => rfl) fun _ _ => rfl
  · exact fun y other => update_of_ne other _ _
  · intro a out
    rw [List.mem_append, List.mem_cons, not_or, not_or] at out
    refine (update_of_ne out.2.1 _ _).trans (update_of_ne ?_ _ _)
    rintro rfl
    exact out.1 inside
  · intro a out
    refine update_of_ne ?_ _ _
    rintro rfl
    exact out (by simp; omega)

/-- `putc` appends a character, unless it needs a new block and none is free. -/
theorem Own.putc (c : BitVec 32) (own : m.Own p bs free bytes) :
    ((m.putc c p).1 = 0 ∧ ¬(m.Full p ∧ m.cfreelist = none) ∧
      Step m p bs free (m.putc c p).2 (bytes ++ [char c])) ∨
    (m.putc c p = (-1, m) ∧ m.Full p ∧ m.cfreelist = none) := by
  have head := own.chain.start_eq
  by_cases empty : bytes = []
  · subst empty
    obtain ⟨rfl, null⟩ := own.holds.of_nil
    cases free with
    | nil => simp [Prim.putc, null, head, Full]
    | cons b free =>
        rw [List.head?_cons] at head
        have step := own.first (c := char c)
        simpa [Prim.putc, null, head, Full] using step
  · have some := List.length_pos_iff.mpr empty
    have stretch := own.holds.stretch_of_pos some
    have count := own.holds.c_cc
    have null := stretch.pos
    have begun : ¬((m.clist p).c_cl = 0 ∨ (m.clist p).c_cc < 0) := by omega
    by_cases full : (m.clist p).c_cl % 16 = 0
    · cases free with
      | nil =>
          obtain ⟨-, -, last, -⟩ := stretch.last_block
          have same : m.link (blockOf (m.clist p).c_cl - 1) none = m := by
            rw [show blockOf (m.clist p).c_cl - 1 = blockOf ((m.clist p).c_cl - 1) by
              simp only [blockOf_eq]; omega, ← last]
            simp [link]
          rw [blockOf_eq] at same
          rw [List.head?_nil] at head
          refine .inr ⟨?_, .inr ((and_cround _).mpr full), head⟩
          simp [Prim.putc, begun, and_cround, full, head, same]
      | cons b free =>
          rw [List.head?_cons] at head
          refine .inl ⟨?_, by simp [head], ?_⟩
          · simp [Prim.putc, begun, and_cround, full, head, link]
          · simpa [Prim.putc, begun, and_cround, full, head, link] using
              own.extend (c := char c) some full
    · refine .inl ⟨?_, ?_, ?_⟩
      · simp [Prim.putc, begun, and_cround, full]
      · simp [Full, and_cround, full, null]
      · simpa [Prim.putc, begun, and_cround, full] using own.store (c := char c) some full

omit [DecidableEq κ] in
/-- The loop of `b_to_q` stops early only if no block is free. -/
theorem moveIn_left (n : ℕ) (m : Prim κ) (cp : ℕ → UInt8) (cq : ℕ) :
    (m.moveIn cp cq n).1 ≤ n ∧
      ((m.moveIn cp cq n).1 ≠ 0 → (m.moveIn cp cq n).2.2.cfreelist = none) := by
  induction n generalizing m cp cq with
  | zero => simp [moveIn]
  | succ n ih =>
      rw [moveIn]
      split_ifs with full
      · cases free : m.cfreelist with
        | none => simp [link, free]
        | some bp =>
            simp only [link, free]
            exact ⟨Nat.le_succ_of_le (ih _ _ _).1, (ih _ _ _).2⟩
      · exact ⟨Nat.le_succ_of_le (ih _ _ _).1, (ih _ _ _).2⟩

/-- What `b_to_q` does with one character is what `putc` does. -/
theorem moveIn_succ {c : BitVec 32} {cq : ℕ} {cc : ℤ} (p : κ) (cf n : ℕ) (m : Prim κ)
    (cp : ℕ → UInt8)
    (begun : cq ≠ 0) (counted : 0 ≤ cc) (first : char c = cp 0) :
    (((m.set p ⟨cc, cf, cq⟩).putc c p).1 = -1 ∧ (m.moveIn cp cq (n + 1)).1 = n + 1 ∧
      (m.moveIn cp cq (n + 1)).2.1 = cq ∧ (m.moveIn cp cq (n + 1)).2.2.cfreelist = none ∧
      ((m.set p ⟨cc, cf, cq⟩).putc c p).2 = (m.moveIn cp cq (n + 1)).2.2.set p ⟨cc, cf, cq⟩) ∨
    ∃ (m' : Prim κ) (cq' : ℕ), m.moveIn cp cq (n + 1) = m'.moveIn (fun i => cp (i + 1)) cq' n ∧
      cq' ≠ 0 ∧
      (m.set p ⟨cc, cf, cq⟩).putc c p = (0, m'.set p ⟨cc + 1, cf, cq'⟩) := by
  have put : ¬(cq = 0 ∨ cc < 0) := by omega
  by_cases full : cq &&& CROUND = 0
  · cases free : m.cfreelist with
    | none =>
        left
        simp only [moveIn, Prim.putc, clist_set, put, full, if_true, if_false, free]
        simp [set, link, free]
    | some bp =>
        right
        refine ⟨((m.link (blockOf cq - 1) m.cfreelist).take bp).store (info (some bp)) (cp 0),
          info (some bp) + 1, ?_, by simp, ?_⟩
        · simp [moveIn, full, free, link]
        · simp only [Prim.putc, clist_set, put, full, if_true, if_false, free, first]
          simp [set, link, take, store, free]
  · right
    refine ⟨m.store cq (cp 0), cq + 1, ?_, by omega, ?_⟩
    · rw [moveIn, if_neg full]
    · simp only [Prim.putc, clist_set, put, full, if_false, first]
      simp [set, store]

/-- The first `n` characters of a buffer. -/
def buffer (cp : ℕ → UInt8) (n : ℕ) : List UInt8 := (List.range n).map cp

theorem buffer_succ (cp : ℕ → UInt8) (n : ℕ) :
    buffer cp (n + 1) = cp 0 :: buffer (fun i => cp (i + 1)) n := by
  rw [buffer, List.range_succ_eq_map, List.map_cons, List.map_map]
  rfl

theorem exists_char (c : UInt8) : ∃ d, char d = c :=
  ⟨c.toBitVec.setWidth 32, by simp [char]⟩

/-- The loop of `b_to_q` appends the characters it moves. -/
theorem Own.moveIn {cq : ℕ} (n : ℕ) (cp : ℕ → UInt8) (begun : cq ≠ 0)
    (own : (m.set p ⟨bytes.length, cf, cq⟩).Own p bs free bytes) :
    Step (m.set p ⟨bytes.length, cf, cq⟩) p bs free ((m.moveIn cp cq n).2.2.set p
      ⟨bytes.length + (n - (m.moveIn cp cq n).1), cf, (m.moveIn cp cq n).2.1⟩)
      (bytes ++ buffer cp (n - (m.moveIn cp cq n).1)) := by
  induction n generalizing m cp cq bs free bytes with
  | zero => simpa [Prim.moveIn, buffer] using own.refl
  | succ n ih =>
      obtain ⟨c, first⟩ := exists_char (cp 0)
      rcases moveIn_succ p cf n m cp begun (Int.natCast_nonneg bytes.length) first
        with ⟨failed, left, same, none, state⟩ | ⟨m', cq', moves, begun', put⟩
      · rcases own.putc c with ⟨fine, -, -⟩ | ⟨result, -, -⟩
        · omega
        · rw [result] at state
          have zero : (bytes.length : ℤ) + ((n + 1 : ℕ) - (n + 1 : ℕ)) = bytes.length := by omega
          rw [same, left, zero, ← state, Nat.sub_self, buffer]
          simpa using own.refl
      · rcases own.putc c with ⟨-, -, step⟩ | ⟨result, -, -⟩
        · rw [put, first] at step
          have bound := (moveIn_left n m' (fun i => cp (i + 1)) cq').1
          have more : ∀ left, left ≤ n → bytes ++ buffer cp (n + 1 - left) =
              bytes ++ [cp 0] ++ buffer (fun i => cp (i + 1)) (n - left) := by
            intro left small
            rw [Nat.sub_add_comm small, buffer_succ, List.append_assoc, List.singleton_append]
          rw [moves, more _ bound]
          refine step.trans fun bs' free' own' => ?_
          have counted : (bytes.length : ℤ) + 1 = (bytes ++ [cp 0]).length := by simp
          rw [counted] at own' ⊢
          have rest := ih (fun i => cp (i + 1)) begun' own'
          convert rest using 3
          simp
          omega
        · rw [result] at put
          simp at put

/-- `b_to_q` appends the characters it transfers. -/
theorem Own.b_to_q (cc : ℤ) (cp : ℕ → UInt8) (own : m.Own p bs free bytes) :
    ∃ moved, (m.b_to_q cp cc p).1 + moved = cc.toNat ∧
      ((m.b_to_q cp cc p).1 ≠ 0 → (m.b_to_q cp cc p).2.cfreelist = none) ∧
      Step m p bs free (m.b_to_q cp cc p).2 (bytes ++ buffer cp moved) := by
  have head := own.chain.start_eq
  have count := own.holds.c_cc
  by_cases nothing : cc ≤ 0
  · refine ⟨0, ?_⟩
    simpa [Prim.b_to_q, nothing, Int.toNat_of_nonpos nothing, buffer] using own.refl
  obtain ⟨n, rfl⟩ : ∃ n : ℕ, cc = ((n + 1 : ℕ) : ℤ) := ⟨cc.toNat - 1, by omega⟩
  by_cases empty : bytes = []
  · subst empty
    obtain ⟨rfl, null⟩ := own.holds.of_nil
    cases free with
    | nil =>
        refine ⟨0, ?_⟩
        have same := set_clist m p
        rw [null] at same
        rw [List.head?_nil] at head
        simp only [Prim.b_to_q, nothing, null, head, if_false, Int.toNat_natCast, true_or, if_true,
          Int.sub_self, Int.zero_add, same, implies_true, true_and]
        simpa [buffer] using own.refl
    | cons b free =>
        rw [List.head?_cons] at head
        have unfilled : ¬info (some b) &&& CROUND = 0 := by
          rw [and_cround, info_some]
          omega
        have moves : (m.take b).moveIn cp (info (some b)) (n + 1) =
            ((m.take b).store (info (some b)) (cp 0)).moveIn (fun i => cp (i + 1))
              (info (some b) + 1) n := by rw [Prim.moveIn, if_neg unfilled]
        obtain ⟨bound, short⟩ := moveIn_left n ((m.take b).store (info (some b)) (cp 0))
          (fun i => cp (i + 1)) (info (some b) + 1)
        have step := own.first.trans fun bs' free' own' =>
          Own.moveIn n (fun i => cp (i + 1)) (Nat.succ_ne_zero _)
            (show ((m.take b |>.store (info (some b)) (cp 0)).set p
              ⟨[cp 0].length, info (some b), _⟩).Own p bs' free' [cp 0] from own')
        rw [List.singleton_append, ← buffer_succ, ← Nat.sub_add_comm bound] at step
        refine ⟨n + 1 - ((m.take b).moveIn cp (info (some b)) (n + 1)).1, ?_⟩
        simp only [Prim.b_to_q, nothing, null, head, if_false, Int.toNat_natCast, true_or, if_true,
          moves]
        refine ⟨by omega, fun left => short left, ?_⟩
        rw [List.nil_append]
        convert step using 3
        simp
        omega
  · have nonempty := List.length_pos_iff.mpr empty
    have stretch := own.holds.stretch_of_pos nonempty
    have begun : ¬((m.clist p).c_cl = 0 ∨ (m.clist p).c_cc < 0) := by
      have := stretch.pos
      omega
    have same : m.set p ⟨bytes.length, (m.clist p).c_cf, (m.clist p).c_cl⟩ = m := by
      rw [← count]
      exact set_clist m p
    rw [← same] at own
    have step := own.moveIn (n + 1) cp stretch.pos
    rw [same] at step
    obtain ⟨bound, short⟩ := moveIn_left (n + 1) m cp (m.clist p).c_cl
    refine ⟨n + 1 - (m.moveIn cp (m.clist p).c_cl (n + 1)).1, ?_⟩
    rw [count] at begun
    simp only [Prim.b_to_q, nothing, begun, if_false, Int.toNat_natCast, count]
    exact ⟨by omega, fun left => short left, step⟩

/-- After a character has been appended there is room for another one, or as many blocks are free
as before. -/
theorem putc_room (c : BitVec 32) (fine : (m.putc c p).1 = 0) :
    ¬(m.putc c p).2.Full p ∨ (m.putc c p).2.cfreelist = m.cfreelist := by
  have unfilled : ∀ b : ℕ, ¬(info (some b) + 1 = 0 ∨ info (some b) + 1 &&& CROUND = 0) := by
    intro b
    rw [and_cround, info_some]
    omega
  revert fine
  simp only [Prim.putc]
  split_ifs with begin full
  · cases free : m.cfreelist with
    | none => simp
    | some b =>
        intro _
        left
        rw [Full, clist_set]
        exact unfilled b
  · cases free : m.cfreelist with
    | none => simp [link, free]
    | some b =>
        intro _
        left
        simp only [link, free, Full, clist_set]
        exact unfilled b
  · exact fun _ => .inr rfl

/-- `putw` appends both characters of a number or none. -/
theorem Own.putw (c : BitVec 32) (own : m.Own p bs free bytes) :
    ((m.putw c p).1 = 0 ∧
      Step m p bs free (m.putw c p).2 (bytes ++ [char c, char (c.sshiftRight 8)])) ∨
    (m.putw c p = (-1, m) ∧ m.cfreelist = none) := by
  cases head : m.cfreelist with
  | none => exact .inr ⟨by simp [Prim.putw, head], rfl⟩
  | some b =>
      left
      simp only [Prim.putw, head]
      rcases own.putc c with ⟨fine, -, step⟩ | ⟨-, -, empty⟩
      · refine ⟨trivial, step.trans fun bs' free' own' => ?_⟩
        rcases own'.putc (c.sshiftRight 8) with ⟨-, -, step'⟩ | ⟨-, full, empty⟩
        · rw [List.append_assoc] at step'
          exact step'
        · rcases putc_room c fine with room | same
          · exact absurd full room
          · rw [empty, head] at same
            simp at same
      · rw [head] at empty
        simp at empty

theorem putw_none (c : BitVec 32) : (m.putw c p).1 = -1 ↔ m.cfreelist = none := by
  cases head : m.cfreelist with
  | none => simp [Prim.putw, head]
  | some b => simp [Prim.putw, head]

/-! ## Characters in one piece -/

/-- The first characters of a queue, up to one that has a bit of `flag`. -/
def unflagged (flag : BitVec 32) (q : List UInt8) : List UInt8 :=
  q.takeWhile fun c => BitVec.ofNat 32 c.toNat &&& flag = 0

/-- The number of characters from an address on to the end of its block. -/
def ahead (cf : ℕ) : ℕ := 16 - cf % 16

theorem unflagged_zero (q : List UInt8) : unflagged 0 q = q :=
  List.takeWhile_eq_self_iff.mpr fun _ _ => decide_eq_true BitVec.and_zero

omit [DecidableEq κ] in
/-- The place found is behind the characters without a bit of the flag. -/
theorem scan_eq (flag : BitVec 32) (cf n : ℕ) :
    m.scan flag cf n = (unflagged flag (m.read cf n)).length := by
  induction n generalizing cf with
  | zero => rfl
  | succ n ih =>
      rw [scan, unflagged, read, List.range'_succ, List.map_cons, List.takeWhile_cons]
      split_ifs with flagged plain plain
      · exact absurd (of_decide_eq_true plain) flagged
      · rfl
      · rw [ih (cf + 1)]
        rfl
      · exact absurd (decide_eq_true (not_not.mp flagged)) plain

omit [DecidableEq κ] in
theorem Stretch.head (stretch : m.Stretch cl cf bs bytes) : 4 ≤ cf % 16 := by
  cases stretch with
  | last next low some high =>
      simp only [cblock_eq] at low high
      omega
  | cons link low high rest =>
      simp only [cblock_eq] at low high
      omega

/-- The characters of the first block are where the header says. -/
theorem Own.take_ahead (own : m.Own p bs free bytes) (some : 0 < bytes.length) :
    bytes.take (ahead (m.clist p).c_cf) =
      m.read (m.clist p).c_cf (min bytes.length (ahead (m.clist p).c_cf)) := by
  have head := (own.holds.stretch_of_pos some).head
  rw [List.take_eq_take_min, Nat.min_comm, ahead]
  refine (own.advance ?_ ?_ ?_).2
  · omega
  · exact Nat.min_le_left _ _
  · simp only [cblock_eq, blockOf_eq]
    omega

/-- `ndqb` counts the characters of the first block up to one that has a bit of the flag. -/
theorem Own.ndqb_eq (flag : BitVec 32) (own : m.Own p bs free bytes) :
    m.ndqb p flag = (unflagged flag (bytes.take (ahead (m.clist p).c_cf))).length := by
  have count := own.holds.c_cc
  by_cases empty : bytes = []
  · subst empty
    have null : (m.clist p).c_cc = 0 := count
    simp [Prim.ndqb, null, unflagged]
  · have nonempty := List.length_pos_iff.mpr empty
    have head := (own.holds.stretch_of_pos nonempty).head
    have room : cblock (blockOf ((m.clist p).c_cf + CBSIZE)) - (m.clist p).c_cf =
        ahead (m.clist p).c_cf := by
      simp only [cblock_eq, blockOf_eq, CBSIZE, ahead]
      omega
    have least : (if (m.clist p).c_cc < (ahead (m.clist p).c_cf : ℕ) then (m.clist p).c_cc.toNat
        else ahead (m.clist p).c_cf) = min bytes.length (ahead (m.clist p).c_cf) := by
      rw [count]
      split_ifs <;> omega
    have some : ¬(m.clist p).c_cc ≤ 0 := by omega
    rw [own.take_ahead nonempty]
    simp only [Prim.ndqb, some, if_false, room, least]
    by_cases flagged : flag = 0
    · rw [if_neg (not_not.mpr flagged), flagged, unflagged_zero, length_read]
    · rw [if_pos flagged, scan_eq]

/-- `ndqb` counts in a first piece of the list that is at most a block long and not empty. -/
theorem Own.ndqb_room (flag : BitVec 32) (own : m.Own p bs free bytes) :
    ∃ room : ℕ, 0 < room ∧ room ≤ CBSIZE ∧
      m.ndqb p flag = (unflagged flag (bytes.take room)).length := by
  have value := own.ndqb_eq flag
  by_cases empty : bytes = []
  · subst empty
    exact ⟨1, Nat.one_pos, by decide, by simpa using value⟩
  · have head := (own.holds.stretch_of_pos (List.length_pos_iff.mpr empty)).head
    refine ⟨_, ?_, ?_, value⟩
    · rw [ahead]
      omega
    · rw [ahead, CBSIZE]
      omega

/-- What `ndqb` counts is in the first block. -/
theorem Own.ndqb_le (flag : BitVec 32) (own : m.Own p bs free bytes) :
    m.ndqb p flag ≤ bytes.length ∧ m.ndqb p flag ≤ ahead (m.clist p).c_cf := by
  rw [own.ndqb_eq flag]
  have part := (List.takeWhile_sublist (l := bytes.take (ahead (m.clist p).c_cf))
    fun c => BitVec.ofNat 32 c.toNat &&& flag = 0).length_le
  rw [List.length_take] at part
  rw [unflagged]
  omega

/-- Where `ndflush` takes characters of the first block off, it does what `getc` would do with as
many. -/
theorem Own.ndflush_eq (own : m.Own p bs free bytes) (some : 0 < k) (small : k ≤ bytes.length)
    (inside : (m.clist p).c_cf + k ≤ cblock (blockOf (m.clist p).c_cf + 1)) :
    m.ndflush p k = m.advance p k := by
  have count := own.holds.c_cc
  have stretch := own.holds.stretch_of_pos (by omega)
  have head := stretch.head
  simp only [cblock_eq, blockOf_eq] at inside
  have sum : ((m.clist p).c_cf + (k : ℤ)).toNat = (m.clist p).c_cf + k := by omega
  have begun : ¬(m.clist p).c_cc < 0 ∧ (m.clist p).c_cc ≠ 0 ∧
      ¬((k : ℤ) > CBSIZE ∨ (k : ℤ) ≤ 0) := by
    rw [CBSIZE]
    omega
  simp only [Prim.ndflush, Prim.advance, begun, if_false, sum, and_cround]
  by_cases aligned : ((m.clist p).c_cf + k) % 16 = 0
  · rw [if_pos aligned, if_pos aligned]
    have block : blockOf ((m.clist p).c_cf + k - 1) = blockOf ((m.clist p).c_cf + k) - 1 := by
      simp only [blockOf_eq]
      omega
    have behind : blockOf ((m.clist p).c_cf + k) - 1 = (m.clist p).c_cf / 16 := by
      simp only [blockOf_eq]
      omega
    rw [block, behind]
    generalize (m.clist p) = h at *
    cases stretch with
    | @last bp _ next low some high =>
        simp only [cblock_eq] at low high
        rw [length_read] at small count
        obtain rfl : h.c_cf / 16 = bp := by omega
        have zero : h.c_cc - k = 0 := by omega
        simp [next, zero]
    | @cons bp next _ bs bytes link low high rest =>
        have more := rest.bytes_ne_nil
        simp only [cblock_eq] at low high
        rw [List.length_append, length_read, cblock_eq] at count
        obtain rfl : h.c_cf / 16 = bp := by omega
        have left : ¬h.c_cc - k ≤ 0 := by omega
        simp [link, left]
  · rw [if_neg aligned, if_neg aligned]
    have block : blockOf ((m.clist p).c_cf + k - 1) = blockOf ((m.clist p).c_cf + k) := by
      simp only [blockOf_eq]
      omega
    rw [block]
    by_cases last : (m.clist p).c_cc - k = 0
    · rw [if_pos last, if_pos (by omega)]
    · rw [if_neg last, if_neg (by omega)]

/-- `ndflush` takes off what `ndqb` has counted. -/
theorem Own.ndflush (flag : BitVec 32) (cc : ℤ) (counted : cc ≤ m.ndqb p flag)
    (own : m.Own p bs free bytes) :
    Step m p bs free (m.ndflush p cc) (bytes.drop cc.toNat) := by
  obtain ⟨small, inside⟩ := own.ndqb_le flag
  have count := own.holds.c_cc
  by_cases empty : bytes = []
  · subst empty
    have null : (m.clist p).c_cc = 0 := count
    simpa [Prim.ndflush, null] using own.refl
  · have nonempty := List.length_pos_iff.mpr empty
    by_cases positive : 0 < cc
    · obtain ⟨j, rfl⟩ := Int.eq_ofNat_of_zero_le (Int.le_of_lt positive)
      have short : (m.clist p).c_cf + j ≤ cblock (blockOf (m.clist p).c_cf + 1) := by
        rw [ahead] at inside
        simp only [cblock_eq, blockOf_eq]
        omega
      rw [own.ndflush_eq (by omega) (by omega) short]
      exact (own.advance (by omega) (by omega) short).1
    · have some : ¬(m.clist p).c_cc < 0 ∧ (m.clist p).c_cc ≠ 0 := by omega
      have wrong : cc > CBSIZE ∨ cc ≤ 0 := .inr (by omega)
      rw [Int.toNat_of_nonpos (by omega)]
      simp only [Prim.ndflush, some, wrong, if_false, if_true]
      exact ⟨bs, free, ⟨own.chain, own.holds.congr (fun _ _ => rfl) fun _ _ => rfl, own.distinct⟩,
        .refl _, ⟨fun _ _ => rfl, fun _ _ => rfl, fun _ _ => rfl⟩⟩

end Prim

end UnixV7
