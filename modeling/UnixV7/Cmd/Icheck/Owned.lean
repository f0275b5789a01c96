import UnixV7.Cmd.Icheck.Makefree
import UnixV7.Cmd.Mkfs.Owned
import Mathlib.Data.Nat.Bitwise

/-!
# The free list of a new file system, and the one made anew

Every block that is not an inode and not in a file is on the list once, except that the last block
of the device is left out when the size of the groups divides its number. `s_tfree` counts the 0
mark as well.
-/

namespace UnixV7.Icheck

open Function

open Mkfs (Device MAXFN)

variable {c : Check} {f g : Daddr}

/-- Does `duped` say that the block was seen? -/
def Check.claimed (c : Check) (f : Daddr) : Bool :=
  !c.dflg && (c.bmap ((f - c.dv.fp.s_isize) / 8)).testBit ((f - c.dv.fp.s_isize) % 8)

theorem and_shift_ne_zero (x i : ℕ) : x &&& 1 <<< i ≠ 0 ↔ x.testBit i = true := by
  rw [Nat.one_shiftLeft, Nat.and_two_pow]
  cases x.testBit i with
  | true => simp
  | false => simp

/-- Two blocks with their bits in one byte have different bits. -/
theorem mod_ne_of_div_eq {s_isize f g : ℕ} (low : s_isize ≤ g) (low' : s_isize ≤ f) (ne : g ≠ f)
    (same : (g - s_isize) / 8 = (f - s_isize) / 8) : (f - s_isize) % 8 ≠ (g - s_isize) % 8 := by
  omega

/-- `duped` marks the block that it is asked about and no other one. -/
theorem duped_spec (c : Check) (f : Daddr) :
    ∃ bmap, c.duped f = (c.claimed f, { c with bmap := bmap }) ∧
      ∀ g, c.dv.fp.s_isize ≤ g → c.dv.fp.s_isize ≤ f → g ≠ f →
        ({ c with bmap := bmap } : Check).claimed g = c.claimed g := by
  obtain ⟨dv, bmap, dflg⟩ := c
  unfold Check.duped Check.claimed
  cases dflg with
  | true => exact ⟨bmap, rfl, fun _ _ _ _ => rfl⟩
  | false =>
      dsimp only
      rw [if_neg Bool.false_ne_true]
      simp only [and_shift_ne_zero]
      split
      next seen => exact ⟨bmap, by simp [seen], fun _ _ _ _ => rfl⟩
      next new =>
        refine ⟨update bmap ((f - dv.fp.s_isize) / 8)
          (bmap ((f - dv.fp.s_isize) / 8) ||| 1 <<< ((f - dv.fp.s_isize) % 8)), by simp [new], ?_⟩
        intro g low low' ne
        by_cases same : (g - dv.fp.s_isize) / 8 = (f - dv.fp.s_isize) / 8
        · have bit := mod_ne_of_div_eq low low' ne same
          rw [same, update_self, Nat.testBit_or, Nat.one_shiftLeft, Nat.testBit_two_pow,
            decide_eq_false bit, Bool.or_false]
        · rw [update_of_ne same]

/-- `makefree` frees the blocks that are within and that `duped` does not claim. -/
theorem foldl_visit (l : List Daddr) (distinct : l.Nodup) (c : Check) :
    (l.foldl Check.visit c).dv =
      (l.filter fun f => c.dv.within f && !c.claimed f).foldl Device.bfree c.dv := by
  induction l generalizing c with
  | nil => rfl
  | cons f l ih =>
      obtain ⟨other, distinct⟩ := List.nodup_cons.mp distinct
      obtain ⟨bmap, asked, marked⟩ := duped_spec c f
      rw [List.foldl_cons, ih distinct]
      cases inside : c.dv.within f with
      | false =>
          have passed : c.visit f = c := 
            if_neg (mt (Device.within_iff _ f).mpr (by simp [inside]))
          rw [passed, List.filter_cons_of_neg (by simp [inside])]
      | true =>
          have range := (Device.within_iff _ f).mp inside
          have kept : ∀ (dv : Device), Device.Same c.dv dv → ∀ g ∈ l,
              (dv.within g && !({ c with bmap := bmap, dv := dv } : Check).claimed g) =
                (c.dv.within g && !c.claimed g) := by
            intro dv same g mem
            rw [same.within]
            cases low : c.dv.within g with
            | false => rfl
            | true =>
                have low' := ((Device.within_iff _ g).mp low).2
                have ne : g ≠ f := by
                  rintro rfl
                  exact other mem
                rw [← marked g low' range.2 ne]
                unfold Check.claimed
                rw [same.isize]
          cases seen : c.claimed f with
          | true =>
              have passed : c.visit f = { c with bmap := bmap } := by
                rw [Check.visit, if_pos range, asked, seen]
              rw [passed, List.filter_cons_of_neg (by simp [seen])]
              congr 1
              exact List.filter_congr (kept c.dv (Device.Same.refl c.dv))
          | false =>
              have freed : c.visit f = { c with bmap := bmap, dv := c.dv.bfree f } := by
                rw [Check.visit, if_pos range, asked, seen]
              rw [freed, List.filter_cons_of_pos (by simp [inside, seen]), List.foldl_cons]
              congr 1
              exact List.filter_congr (kept _ (Device.bfree_same c.dv f))

theorem groupSize_pos (s_n : ℤ) : 0 < groupSize s_n := by
  unfold groupSize
  split
  · exact Nat.zero_lt_succ _
  · omega

/-! ## Both tools -/

/-- What is left when a list was made of the wanted blocks but the last one of the device, if the
groups end before it: all are there unless that one is wanted, or 0, and they are not counted. -/
theorem made_spec (dv : Device) {l : List Daddr} {n : ℕ} (wanted : Daddr → Prop)
    (empty : dv.fp.s_nfree = 0) (unlocked : dv.fp.s_flock = 0) (ninode : dv.fp.s_ninode ≤ NICINOD)
    (tfree : dv.s_tfree = 0) (within : ∀ f, wanted f → dv.fp.s_isize ≤ f ∧ f < dv.fp.s_fsize)
    (distinct : l.Nodup)
    (mem_l : ∀ f, f ∈ l ↔ wanted f ∧ ¬(n ∣ dv.fp.s_fsize - 1 ∧ f = dv.fp.s_fsize - 1)) :
    let made := l.foldl Device.bfree (dv.bfree 0)
    (made.Owns wanted ↔ ¬wanted 0 ∧ ¬(n ∣ dv.fp.s_fsize - 1 ∧ wanted (dv.fp.s_fsize - 1))) ∧
    (¬wanted 0 → ∃ list, made.Lists list ∧ list.Nodup ∧
      (∀ f, f ∈ list ↔ wanted f ∧ ¬(n ∣ dv.fp.s_fsize - 1 ∧ f = dv.fp.s_fsize - 1)) ∧
      made.s_tfree = list.length + 1) ∧
    ¬made.Counts wanted := by
  intro made
  have count : made.s_tfree = l.length + 1 := by
    have counted := (Device.foldl_bfree l (dv.bfree 0)).2
    rw [Device.bfree_tfree, tfree] at counted
    exact counted.trans (by omega)
  have lists : ¬wanted 0 → made.Lists l.reverse := by
    intro proper
    refine Device.lists_foldl empty unlocked ninode distinct fun b mem => ?_
    obtain ⟨here, -⟩ := (mem_l b).mp mem
    obtain ⟨low, below⟩ := within b here
    refine ⟨?_, below, low⟩
    rintro rfl
    exact proper here
  -- No list has the block 0, so that it is not wanted when there is a list of the wanted blocks.
  have proper : ∀ list, made.Lists list → (∀ f, f ∈ list ↔ wanted f) → ¬wanted 0 :=
    fun list made_lists all zero => Mkfs.ne_zero_of_listed made_lists.listed 0 ((all 0).mpr zero)
      rfl
  have reversed : ∀ f, f ∈ l.reverse ↔
      wanted f ∧ ¬(n ∣ dv.fp.s_fsize - 1 ∧ f = dv.fp.s_fsize - 1) := by
    intro f
    rw [List.mem_reverse, mem_l]
  refine ⟨⟨?_, ?_⟩, ?_, ?_⟩
  · rintro ⟨list, made_lists, -, all⟩
    have none := proper list made_lists all
    refine ⟨none, ?_⟩
    rintro ⟨whole, last⟩
    rw [made_lists.listed.unique (lists none).listed] at all
    exact ((reversed _).mp ((all _).mpr last)).2 ⟨whole, rfl⟩
  · rintro ⟨none, last⟩
    refine ⟨l.reverse, lists none, List.nodup_reverse.mpr distinct, fun f => ?_⟩
    rw [reversed]
    refine and_iff_left_of_imp ?_
    rintro here ⟨whole, rfl⟩
    exact last ⟨whole, here⟩
  · intro none
    exact ⟨l.reverse, lists none, List.nodup_reverse.mpr distinct, reversed,
      by rw [List.length_reverse, count]⟩
  · rintro ⟨list, made_lists, -, all, counted⟩
    have none := proper list made_lists all
    rw [made_lists.listed.unique (lists none).listed, List.length_reverse, count] at counted
    omega

theorem bflist_spec {s_isize s_fsize f_n : ℕ} (small : s_isize < s_fsize) (n_pos : 1 ≤ f_n)
    (f_m : ℕ) (block : Daddr → Fblk) :
    ∃ dv, Mkfs.bflist f_n f_m (Mkfs.blank s_isize s_fsize block) = some dv ∧
      (¬dv.Counts fun f => s_isize ≤ f ∧ f < s_fsize) ∧
      (dv.Owns (fun f => s_isize ≤ f ∧ f < s_fsize) ↔ 0 < s_isize ∧ ¬f_n ∣ s_fsize - 1) ∧
      (0 < s_isize → ∃ list, dv.Lists list ∧ list.Nodup ∧
        (∀ f, f ∈ list ↔ (s_isize ≤ f ∧ f < s_fsize) ∧ ¬(f_n ∣ s_fsize - 1 ∧ f = s_fsize - 1)) ∧
        dv.s_tfree = list.length + 1) := by
  obtain ⟨fs, distinct, met, laid⟩ := Mkfs.visited_spec (m := f_m) n_pos (s_fsize - 1) Device.visit
    ((Mkfs.blank s_isize s_fsize block).bfree 0)
  have same := Device.bfree_same (Mkfs.blank s_isize s_fsize block) 0
  have zero : ¬(s_isize ≤ 0 ∧ 0 < s_fsize) ↔ 0 < s_isize := by omega
  have last : s_isize ≤ s_fsize - 1 ∧ s_fsize - 1 < s_fsize := by omega
  obtain ⟨owns, lists, counts⟩ := made_spec (Mkfs.blank s_isize s_fsize block)
    (l := fs.filter ((Mkfs.blank s_isize s_fsize block).bfree 0).within) (n := f_n)
    (fun f => s_isize ≤ f ∧ f < s_fsize) rfl rfl (Nat.zero_le _) rfl (fun _ => id)
    (distinct.filter _) (by
      intro f
      rw [List.mem_filter, same.within, Device.within_iff]
      constructor
      · rintro ⟨mem, below, low⟩
        exact ⟨⟨low, below⟩, (met f (Nat.le_sub_one_of_lt below)).mp mem⟩
      · rintro ⟨⟨low, below⟩, other⟩
        exact ⟨(met f (Nat.le_sub_one_of_lt below)).mpr other, below, low⟩)
  refine ⟨_, laid, ?_⟩
  rw [Device.foldl_visit]
  exact ⟨counts, owns.trans (and_congr zero (not_congr (and_iff_left last))),
    fun pos => lists (zero.mpr pos)⟩

theorem makefree_spec {c : Check} (small : c.dv.fp.s_isize < c.dv.fp.s_fsize) (s_n s_m : ℤ) :
    ∃ c', makefree s_n s_m c = some c' ∧
      (¬c'.dv.Counts fun f =>
        c.dv.fp.s_isize ≤ f ∧ f < c.dv.fp.s_fsize ∧ c.claimed f = false) ∧
      (c'.dv.Owns (fun f => c.dv.fp.s_isize ≤ f ∧ f < c.dv.fp.s_fsize ∧ c.claimed f = false) ↔
        (0 < c.dv.fp.s_isize ∨ c.claimed 0 = true) ∧
          (¬groupSize s_n ∣ c.dv.fp.s_fsize - 1 ∨ c.claimed (c.dv.fp.s_fsize - 1) = true)) ∧
      (0 < c.dv.fp.s_isize ∨ c.claimed 0 = true → ∃ list, c'.dv.Lists list ∧ list.Nodup ∧
        (∀ f, f ∈ list ↔
          (c.dv.fp.s_isize ≤ f ∧ f < c.dv.fp.s_fsize ∧ c.claimed f = false) ∧
            ¬(groupSize s_n ∣ c.dv.fp.s_fsize - 1 ∧ f = c.dv.fp.s_fsize - 1)) ∧
        c'.dv.s_tfree = list.length + 1) := by
  let first : Check := { c with dv := (reset c.dv).bfree 0 }
  obtain ⟨fs, distinct, met, laid⟩ := Mkfs.visited_spec (m := groupStep (groupSize s_n) s_m)
    (groupSize_pos s_n) (c.dv.fp.s_fsize - 1) Check.visit first
  have same := Device.bfree_same (reset c.dv) 0
  have zero : ¬(c.dv.fp.s_isize ≤ 0 ∧ 0 < c.dv.fp.s_fsize ∧ c.claimed 0 = false) ↔
      0 < c.dv.fp.s_isize ∨ c.claimed 0 = true := by
    cases c.claimed 0 with
    | true => simp
    | false => simp; omega
  have last : (c.dv.fp.s_isize ≤ c.dv.fp.s_fsize - 1 ∧ c.dv.fp.s_fsize - 1 < c.dv.fp.s_fsize ∧
      c.claimed (c.dv.fp.s_fsize - 1) = false) ↔ c.claimed (c.dv.fp.s_fsize - 1) = false := by
    rw [← and_assoc, and_iff_right]
    omega
  obtain ⟨owns, lists, counts⟩ := made_spec (reset c.dv)
    (l := fs.filter fun f => first.dv.within f && !first.claimed f) (n := groupSize s_n)
    (fun f => c.dv.fp.s_isize ≤ f ∧ f < c.dv.fp.s_fsize ∧ c.claimed f = false)
    rfl rfl (Nat.zero_le _) rfl (fun f ⟨low, below, _⟩ => ⟨low, below⟩) (distinct.filter _) (by
      intro f
      have claimed : first.claimed f = c.claimed f := by
        unfold Check.claimed
        rw [show first.dv.fp.s_isize = c.dv.fp.s_isize from same.isize]
      rw [List.mem_filter, claimed, same.within, Bool.and_eq_true, Device.within_iff,
        Bool.not_eq_true']
      constructor
      · rintro ⟨mem, ⟨below, low⟩, new⟩
        exact ⟨⟨low, below, new⟩, (met f (Nat.le_sub_one_of_lt below)).mp mem⟩
      · rintro ⟨⟨low, below, new⟩, other⟩
        exact ⟨(met f (Nat.le_sub_one_of_lt below)).mpr other, ⟨below, low⟩, new⟩)
  refine ⟨_, laid, ?_⟩
  rw [foldl_visit fs distinct first]
  refine ⟨counts, owns.trans (and_congr zero ?_), fun some => lists (zero.mpr some)⟩
  exact not_and_or.trans (or_congr Iff.rfl ((not_congr last).trans (by simp)))

/-- The free lists of `mkfs` and of `icheck -s`. The list has exactly the blocks between the inodes
and the end of the device, in the case of `icheck` those that `duped` does not claim, if and only if
the size of the groups does not divide the number of the last block, or that block is claimed, and
there are inodes, or the block 0 is claimed. The last block is the only one that is left out. The
count `s_tfree` is that of the blocks on the list and one more. -/
theorem free_list_owns {s_isize s_fsize f_n : ℕ} (small : s_isize < s_fsize) (n_pos : 1 ≤ f_n)
    (f_m : ℕ) (block : Daddr → Fblk) {c : Check} (isize : c.dv.fp.s_isize = s_isize)
    (fsize : c.dv.fp.s_fsize = s_fsize) (s_n s_m : ℤ) :
    (∃ dv, Mkfs.bflist f_n f_m (Mkfs.blank s_isize s_fsize block) = some dv ∧
      (¬dv.Counts fun f => s_isize ≤ f ∧ f < s_fsize) ∧
      (dv.Owns (fun f => s_isize ≤ f ∧ f < s_fsize) ↔ 0 < s_isize ∧ ¬f_n ∣ s_fsize - 1) ∧
      (0 < s_isize → ∃ list, dv.Lists list ∧ list.Nodup ∧
        (∀ f, f ∈ list ↔ (s_isize ≤ f ∧ f < s_fsize) ∧ ¬(f_n ∣ s_fsize - 1 ∧ f = s_fsize - 1)) ∧
        dv.s_tfree = list.length + 1)) ∧
    ∃ c', makefree s_n s_m c = some c' ∧
      (¬c'.dv.Counts fun f => s_isize ≤ f ∧ f < s_fsize ∧ c.claimed f = false) ∧
      (c'.dv.Owns (fun f => s_isize ≤ f ∧ f < s_fsize ∧ c.claimed f = false) ↔
        (0 < s_isize ∨ c.claimed 0 = true) ∧
          (¬groupSize s_n ∣ s_fsize - 1 ∨ c.claimed (s_fsize - 1) = true)) ∧
      (0 < s_isize ∨ c.claimed 0 = true → ∃ list, c'.dv.Lists list ∧ list.Nodup ∧
        (∀ f, f ∈ list ↔ (s_isize ≤ f ∧ f < s_fsize ∧ c.claimed f = false) ∧
          ¬(groupSize s_n ∣ s_fsize - 1 ∧ f = s_fsize - 1)) ∧
        c'.dv.s_tfree = list.length + 1) := by
  subst isize fsize
  exact ⟨bflist_spec small n_pos f_m block, makefree_spec small s_n s_m⟩

/-- Ten blocks of which three are not on the list, in groups of four. -/
theorem free_list_owns_ten :
    ∃ dv, Mkfs.bflist 4 3 (Mkfs.blank 3 10 fun _ => ⟨0, fun _ => 0⟩) = some dv ∧
      dv.Owns fun f => 3 ≤ f ∧ f < 10 := by
  obtain ⟨⟨dv, made, -, owns, -⟩, -⟩ := free_list_owns (by decide : 3 < 10) (by decide : 1 ≤ 4) 3
    (fun _ => ⟨0, fun _ => 0⟩)
    (c := ⟨Mkfs.blank 3 10 fun _ => ⟨0, fun _ => 0⟩, fun _ => 0, false⟩) rfl rfl 4 3
  exact ⟨dv, made, owns.mpr (by decide)⟩

/-- Nine blocks in groups of four: the list has the blocks from 3 to 7, the block 8 is left out, and
`s_tfree` is 6. -/
theorem last_block_left_out :
    (Mkfs.bflist 4 3 (Mkfs.blank 3 9 fun _ => ⟨0, fun _ => 0⟩)).map
        (fun dv => (dv.s_tfree, (List.range dv.fp.s_nfree).map dv.fp.s_free)) =
      some (6, [0, 7, 4, 5, 6, 3]) ∧
    ∃ dv, Mkfs.bflist 4 3 (Mkfs.blank 3 9 fun _ => ⟨0, fun _ => 0⟩) = some dv ∧
      (¬dv.Counts fun f => 3 ≤ f ∧ f < 9) ∧ ¬dv.Owns fun f => 3 ≤ f ∧ f < 9 := by
  constructor
  · decide
  · obtain ⟨dv, made, counts, owns, -⟩ := bflist_spec (by decide : 3 < 9) (by decide : 1 ≤ 4) 3
      fun _ => ⟨0, fun _ => 0⟩
    exact ⟨dv, made, counts, owns.not.mpr (by decide)⟩

end UnixV7.Icheck
