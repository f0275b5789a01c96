import Mathlib.Algebra.GroupWithZero.Nat
import UnixV7.Kernel.FileContents
import UnixV7.Kernel.FileTooBig

/-!
# The block map

Calls of `bmap` that write, one after the other. The blocks that leave the free list are those of
the nodes the calls add, one each; a block of the file, once it has its place, keeps it.
-/

namespace UnixV7

open Rw

namespace Sys

variable {s s' : Sys} {free free' : List Daddr} {needed : Finset Node} {bn : ℕ} {bns : List ℕ}

/-- `bmap` to write, for one block of the file after the other. -/
def mapAll : List ℕ → Sys → Option (List ℤ × Sys)
  | [], s => some ([], s)
  | bn :: bns, s => do
      let (nb, s) ← s.bmap bn B_WRITE
      let (nbs, s) ← mapAll bns s
      some (nb :: nbs, s)

/-- The nodes on the way to blocks of the file. -/
def waysTo (bns : List ℕ) : Finset Node :=
  (bns.flatMap fun bn => (fileNode bn).2.tails.map fun q => ((fileNode bn).1, q)).toFinset

theorem mem_waysTo {m : Node} :
    m ∈ waysTo bns ↔ ∃ bn ∈ bns, ∃ q, q <:+ (fileNode bn).2 ∧ ((fileNode bn).1, q) = m := by
  simp only [waysTo, List.mem_toFinset, List.mem_flatMap, List.mem_map, List.mem_tails]

theorem waysTo_valid (few : ∀ bn ∈ bns, bn < maxBlocks) : ∀ m ∈ waysTo bns, fileShape.Valid m := by
  intro m mem
  obtain ⟨bn, inside, q, onWay, rfl⟩ := mem_waysTo.mp mem
  exact valid_suffix (fileNode_valid (few bn inside)) onWay

/-- The node of a block is on the way to that block only. -/
theorem mem_of_fileNode (few : ∀ bn ∈ bns, bn < maxBlocks) (small : bn < maxBlocks)
    (mem : fileNode bn ∈ waysTo bns) : bn ∈ bns := by
  obtain ⟨other, inside, q, onWay, same⟩ := mem_waysTo.mp mem
  have leaf := fileNode_leaf small
  have leaf' := fileNode_leaf (few other inside)
  rw [Leaf, ← same] at leaf
  rw [Leaf] at leaf'
  have whole : q = (fileNode other).2 := onWay.eq_of_length (leaf.trans leaf'.symm)
  rw [whole] at same
  exact fileNode_inj (few other inside) small same ▸ inside

/-- The calls find or make the blocks on their ways. -/
theorem mapAll_spec (sound : Sound [] s free) (few : ∀ bn ∈ bns, bn < maxBlocks)
    (all : ∀ m ∈ needed, fileShape.Valid m)
    (ways : ∀ bn ∈ bns, ∀ q, q <:+ (fileNode bn).2 → ((fileNode bn).1, q) ∈ needed)
    (room : s.missing needed ≤ free.length) :
    ∃ nbs s' free', mapAll bns s = some (nbs, s') ∧ Sound [] s' free' ∧
      Extended needed s free s' free' ∧
      (nbs = bns.map fun bn => (s'.tree.addr (fileNode bn) : ℤ)) ∧
      ∀ bn ∈ bns, s'.tree.addr (fileNode bn) ≠ 0 := by
  induction bns generalizing s free with
  | nil => exact ⟨[], s, free, rfl, sound, (Alike.refl s).extended, rfl, by simp⟩
  | cons bn bns ih =>
      have small := few bn List.mem_cons_self
      obtain ⟨nb, s₁, free₁, mapped, sound₁, extended₁, here, real⟩ :=
        bmap_write_spec sound small all (ways bn List.mem_cons_self) room
      obtain ⟨nbs, s', free', ran, sound', extended, results, reals⟩ := ih sound₁
        (fun b mem => few b (List.mem_cons_of_mem _ mem))
        (fun b mem => ways b (List.mem_cons_of_mem _ mem)) (extended₁.room room)
      have kept : s'.tree.addr (fileNode bn) = nb := by
        rw [extended.addr _ (fileNode_valid small) (here ▸ real), here]
      refine ⟨nb :: nbs, s', free', ?_, sound', extended₁.trans extended, ?_, ?_⟩
      · simp only [mapAll, mapped, ran, Option.bind_eq_bind, Option.bind_some]
      · rw [List.map_cons, kept, ← results]
      · intro b mem
        cases List.mem_cons.mp mem with
        | inl first => rw [first, kept]; exact real
        | inr later => exact reals b later

/-- The nodes that have got a block. -/
def news (needed : Finset Node) (s s' : Sys) : Finset Node :=
  needed.filter fun n => s.tree.addr n = 0 ∧ s'.tree.addr n ≠ 0

theorem Grown.card_news (grown : Grown needed s free s' free')
    (all : ∀ m ∈ needed, fileShape.Valid m) :
    (news needed s s').card + s'.missing needed = s.missing needed := by
  rw [missing, missing, ← Finset.card_union_of_disjoint]
  · refine congrArg Finset.card (Finset.ext fun n => ?_)
    simp only [news, Finset.mem_union, Finset.mem_filter]
    constructor
    · rintro (⟨mem, gone, -⟩ | ⟨mem, gone⟩)
      · exact ⟨mem, gone⟩
      · refine ⟨mem, by_contra fun real => ?_⟩
        rw [grown.addr n (all n mem) real] at gone
        exact real gone
    · rintro ⟨mem, gone⟩
      by_cases still : s'.tree.addr n = 0
      · exact .inr ⟨mem, still⟩
      · exact .inl ⟨mem, gone, still⟩
  · refine Finset.disjoint_left.mpr fun n new gone => ?_
    exact (Finset.mem_filter.mp new).2.2 (Finset.mem_filter.mp gone).2

/-- The blocks that have left the free list are those of the nodes that have got one, and all such
nodes were needed. -/
theorem Grown.taken (grown : Grown needed s free s' free') (sound : Sound [] s free)
    (sound' : Sound [] s' free') (all : ∀ m ∈ needed, fileShape.Valid m) :
    ∃ taken, free = taken ++ free' ∧ taken.Nodup ∧
      (∀ b, b ∈ taken ↔ ∃ n ∈ news needed s s', s'.tree.addr n = b) ∧
      ∀ n, fileShape.Valid n → s.tree.addr n = 0 → s'.tree.addr n ≠ 0 → n ∈ needed := by
  obtain ⟨taken, split⟩ := grown.suffix
  have nodup : taken.Nodup := (List.nodup_append.mp (split ▸ sound.stocked.nodup)).1
  have fresh : ∀ n, fileShape.Valid n → s.tree.addr n = 0 → s'.tree.addr n ≠ 0 →
      s'.tree.addr n ∈ taken := by
    intro n valid gone real
    rcases grown.blocks n valid real with listed | same
    · rw [← split] at listed
      cases List.mem_append.mp listed with
      | inl here => exact here
      | inr there => exact absurd there (sound'.nodes n valid real).2
    · exact absurd (same.trans gone) real
  have mapped : (news needed s s').image s'.tree.addr = taken.toFinset := by
    refine Finset.eq_of_subset_of_card_le (fun b mem => ?_) ?_
    · obtain ⟨n, new, rfl⟩ := Finset.mem_image.mp mem
      obtain ⟨mem, gone, real⟩ := Finset.mem_filter.mp new
      exact List.mem_toFinset.mpr (fresh n (all n mem) gone real)
    · have injective : Set.InjOn s'.tree.addr (news needed s s') := by
        intro n left m right same
        obtain ⟨mem, -, real⟩ := Finset.mem_filter.mp left
        exact sound'.distinct n m (all n mem) (all m (Finset.mem_filter.mp right).1) same real
      have count := grown.count
      have news := grown.card_news all
      rw [Finset.card_image_of_injOn injective, List.toFinset_card_of_nodup nodup]
      rw [← split, List.length_append] at count
      omega
  have known : ∀ b, b ∈ taken ↔ ∃ n ∈ news needed s s', s'.tree.addr n = b := by
    intro b
    rw [← List.mem_toFinset, ← mapped, Finset.mem_image]
  refine ⟨taken, split.symm, nodup, known, fun n valid gone real => ?_⟩
  obtain ⟨m, new, same⟩ := (known _).mp (fresh n valid gone real)
  have mem := (Finset.mem_filter.mp new).1
  exact sound'.distinct n m valid (all m mem) same.symm real ▸ mem

/-- What a block map promises after the calls for `bns`, which have returned `nbs`. -/
structure Mapped (s : Sys) (free : List Daddr) (bns : List ℕ) (nbs : List ℤ) (s' : Sys)
    (free' : List Daddr) : Prop where
  /-- A call for a block of the file returns the block of its node, then and later. -/
  results : nbs = bns.map fun bn => (s'.tree.addr (fileNode bn) : ℤ)
  real : ∀ bn ∈ bns, s'.tree.addr (fileNode bn) ≠ 0
  /-- Different blocks of the file are different blocks of the device. -/
  distinct : ∀ bn bn', bn < maxBlocks → bn' < maxBlocks → s'.tree.addr (fileNode bn) ≠ 0 →
    s'.tree.addr (fileNode bn) = s'.tree.addr (fileNode bn') → bn = bn'
  /-- None of them is an indirect block of the file. -/
  apart : ∀ bn n, bn < maxBlocks → fileShape.Valid n → ¬Leaf n →
    s'.tree.addr (fileNode bn) ≠ 0 → s'.tree.addr n ≠ s'.tree.addr (fileNode bn)
  /-- What was mapped is mapped to the same block. -/
  kept : ∀ n, fileShape.Valid n → s.tree.addr n ≠ 0 → s'.tree.addr n = s.tree.addr n
  /-- The blocks taken from the free list are those of the new nodes, each taken once. -/
  taken : ∃ taken, free = taken ++ free' ∧ taken.Nodup ∧
    ∀ b, b ∈ taken ↔ ∃ n, fileShape.Valid n ∧ s.tree.addr n = 0 ∧ b ≠ 0 ∧ s'.tree.addr n = b
  /-- To read, `bmap` returns the block of the last call for it, and otherwise what it would have
  returned before, which is -1 if there was no block. -/
  reads : ∀ bn < maxBlocks, ∃ s'', s'.bmap bn B_READ = some (s'.found (fileNode bn), s'') ∧
    Alike s' s'' ∧
    (bn ∈ bns → s'.found (fileNode bn) = s'.tree.addr (fileNode bn)) ∧
    (bn ∉ bns → s'.found (fileNode bn) = s.found (fileNode bn))

end Sys

open Sys

/-- After any calls of `bmap` to write that find free blocks, the file has a block map; and a call
for a block beyond the largest file fails without a change of the file or of the free list. -/
theorem mapped_of_bmap {s : Sys} {free : List Daddr} {bns : List ℕ} (sound : Sound [] s free)
    (few : ∀ bn ∈ bns, bn < maxBlocks) (room : s.missing (waysTo bns) ≤ free.length) :
    (∃ nbs s' free', mapAll bns s = some (nbs, s') ∧ Sound [] s' free' ∧
      Mapped s free bns nbs s' free') ∧
    ∀ (bn : ℤ) (rwflg : Rw), (maxBlocks : ℤ) ≤ bn →
      s.bmap bn rwflg = some (0, { s with rablock := 0 }.error .EFBIG) := by
  refine ⟨?_, fun bn rwflg big => bmap_tooBig big rwflg⟩
  have all := waysTo_valid few
  obtain ⟨nbs, s', free', ran, sound', extended, results, real⟩ := mapAll_spec sound few all
    (fun bn mem q onWay => mem_waysTo.mpr ⟨bn, mem, q, onWay, rfl⟩) room
  obtain ⟨taken, split, nodup, known, needed⟩ := extended.toGrown.taken sound sound' all
  refine ⟨nbs, s', free', ran, sound', results, real, fun bn bn' small small' here same => ?_,
    fun bn n small valid inner here same => ?_, extended.addr,
    ⟨taken, split, nodup, fun b => ?_⟩, fun bn small => ?_⟩
  · have node := sound'.distinct _ _ (fileNode_valid small) (fileNode_valid small') same here
    exact fileNode_inj small small' node
  · have node := sound'.distinct _ _ valid (fileNode_valid small) same (same ▸ here)
    exact inner (node ▸ fileNode_leaf small)
  · rw [known]
    constructor
    · rintro ⟨n, new, rfl⟩
      obtain ⟨mem, gone, here⟩ := Finset.mem_filter.mp new
      exact ⟨n, all n mem, gone, here, rfl⟩
    · rintro ⟨n, valid, gone, some, rfl⟩
      exact ⟨n, Finset.mem_filter.mpr ⟨needed n valid gone some, gone, some⟩, rfl⟩
  · obtain ⟨s'', read, -, alike⟩ := bmap_read_spec sound' small
    refine ⟨s'', read, alike, fun mem => ?_, fun away => ?_⟩
    · rw [found, if_neg (real bn mem)]
    · have same : s'.tree.addr (fileNode bn) = s.tree.addr (fileNode bn) := by
        by_contra different
        have gone : s.tree.addr (fileNode bn) = 0 := by
          by_contra here
          exact different (extended.addr _ (fileNode_valid small) here)
        have here : s'.tree.addr (fileNode bn) ≠ 0 := fun none => different (none.trans gone.symm)
        exact away (mem_of_fileNode few small (needed _ (fileNode_valid small) gone here))
      rw [found, found, same]

/-- An empty file, on a device with the blocks 7, 8 and 9 free. -/
def emptyFile : Sys :=
  { smallFile 0 0 0 0 0 with
    fp := { oneFree with s_nfree := 4, s_free := fun i => if i = 0 then 0 else 6 + i } }

theorem emptyFile_sound : Sound [] emptyFile [9, 8, 7] :=
  have sound : Sound [] (smallFile 0 0 0 0 0) [9] := smallFile_sound (.inl rfl)
  have empty : ∀ n, fileShape.Valid n → emptyFile.tree.addr n = 0 := by
    intro n valid
    show (smallFile 0 0 0 0 0).tree.addr n = 0
    rw [smallFile_addr valid, ite_self]
  { good := sound.good
    stocked :=
      { listed := .next (by decide) (.next (by decide) (.next (by decide) (.last rfl)))
        nodup := by decide
        range := by
          intro b mem
          simp only [List.mem_cons, List.not_mem_nil, or_false] at mem
          rcases mem with rfl | rfl | rfl <;> exact ⟨by decide, rfl⟩
        nfree := by decide
        ninode := by decide
        unlocked := rfl }
    long := sound.long
    nodes := fun n valid there => absurd (empty n valid) there
    distinct := sound.distinct }

theorem emptyFile_room : emptyFile.missing (waysTo [10, 11]) ≤ [9, 8, 7].length :=
  (Finset.card_filter_le _ _).trans (by decide)

/-- Two blocks of an empty file behind the direct ones take the three blocks that are free. -/
theorem mapped_two_blocks :
    (∃ nbs s' free', mapAll [10, 11] emptyFile = some (nbs, s') ∧ Sound [] s' free' ∧
      Mapped emptyFile [9, 8, 7] [10, 11] nbs s' free') ∧
    ∀ (bn : ℤ) (rwflg : Rw), (maxBlocks : ℤ) ≤ bn →
      emptyFile.bmap bn rwflg = some (0, { emptyFile with rablock := 0 }.error .EFBIG) :=
  mapped_of_bmap emptyFile_sound (by decide) emptyFile_room

end UnixV7
