import UnixV7.Cmd.Mkfs.Order
import UnixV7.Kernel.FreeList

/-!
# What is on the list

The list that `bfree` builds has the blocks that were put on it, the last one first, and both
`alloc` of `mkfs` and that of the kernel take them off in this order until they meet the 0 that was
put on it first.
-/

namespace UnixV7.Mkfs

open Function

variable {dv : Device} {list l : List Daddr} {bno : Daddr}

/-- Blocks are taken one after the other until there is none. -/
inductive Drains {σ : Type} (take : σ → Option (Daddr × σ)) : σ → List Daddr → Prop
  | done {s : σ} : take s = none → Drains take s []
  | step {s s' : σ} {b : Daddr} {rest : List Daddr} : take s = some (b, s') →
      Drains take s' rest → Drains take s (b :: rest)

/-- The end of a call of the kernel's `alloc`, when it has a block. -/
def finish (s : Alloc.State) : Alloc.Place → Option (Daddr × Alloc.State)
  | .allocGetblk bno =>
    ((Alloc.system Unit).next () .buffer s (.allocGetblk bno)).map fun r => (bno, r.1)
  | _ => none

/-- A call of the kernel's `alloc`, alone on the system. -/
def kernelAlloc (s : Alloc.State) : Option (Daddr × Alloc.State) := do
  let r ← (Alloc.system Unit).next () .alloc s .idle
  match r.2 with
  | .allocBread bno => do
    let r ← (Alloc.system Unit).next () .buffer r.1 (.allocBread bno)
    finish r.1 r.2
  | l => finish r.1 l

namespace Device

/-- The superblock as the kernel reads it. -/
def kernel (dv : Device) : Alloc.State := ⟨dv.fp, dv.block, []⟩

/-- The free list is `list`, and that is what is taken off it. -/
structure Lists (dv : Device) (list : List Daddr) : Prop where
  listed : Alloc.Listed dv.block dv.fp.s_nfree dv.fp.s_free list
  alloc : Drains Device.alloc dv list
  kernel : Drains kernelAlloc dv.kernel list

/-- The blocks of `S` are on the free list, each once, and no other ones. -/
def Owns (dv : Device) (S : Daddr → Prop) : Prop :=
  ∃ list, dv.Lists list ∧ list.Nodup ∧ ∀ b, b ∈ list ↔ S b

/-- They are, and `s_tfree` counts them. -/
def Counts (dv : Device) (S : Daddr → Prop) : Prop :=
  ∃ list, dv.Lists list ∧ list.Nodup ∧ (∀ b, b ∈ list ↔ S b) ∧ dv.s_tfree = list.length

/-! ## Putting blocks on the list -/

/-- The superblock has at least the 0 mark or a number. -/
structure Free (dv : Device) (list : List Daddr) : Prop where
  some : 0 < dv.fp.s_nfree
  few : dv.fp.s_nfree ≤ NICFREE
  listed : Alloc.Listed dv.block dv.fp.s_nfree dv.fp.s_free list

/-- Fields that the free list does not concern. -/
structure Same (dv dv' : Device) : Prop where
  isize : dv'.fp.s_isize = dv.fp.s_isize
  fsize : dv'.fp.s_fsize = dv.fp.s_fsize
  flock : dv'.fp.s_flock = dv.fp.s_flock
  ninode : dv'.fp.s_ninode = dv.fp.s_ninode

theorem Same.refl (dv : Device) : Same dv dv := ⟨rfl, rfl, rfl, rfl⟩

theorem Same.trans {dv' dv'' : Device} (first : Same dv dv') (second : Same dv' dv'') :
    Same dv dv'' where
  isize := second.isize.trans first.isize
  fsize := second.fsize.trans first.fsize
  flock := second.flock.trans first.flock
  ninode := second.ninode.trans first.ninode

/-- While there is room in the superblock, the number goes there. -/
theorem bfree_room (room : ¬NICFREE ≤ dv.fp.s_nfree) (bno : Daddr) :
    dv.bfree bno =
      { dv with
        s_tfree := dv.s_tfree + 1
        fp := { dv.fp with
          s_free := update dv.fp.s_free dv.fp.s_nfree bno, s_nfree := dv.fp.s_nfree + 1 } } := by
  have kept : ({ dv with s_tfree := dv.s_tfree + 1 } : Device).spill bno =
      { dv with s_tfree := dv.s_tfree + 1 } := if_neg room
  rw [bfree, kept]

/-- Otherwise the numbers go to the block and it is the only one in the superblock. -/
theorem bfree_full (full : NICFREE ≤ dv.fp.s_nfree) (bno : Daddr) :
    dv.bfree bno =
      { s_tfree := dv.s_tfree + 1
        block := update dv.block bno ⟨dv.fp.s_nfree, dv.fp.s_free⟩
        fp := { dv.fp with s_free := update dv.fp.s_free 0 bno, s_nfree := 1 } } := by
  have moved : ({ dv with s_tfree := dv.s_tfree + 1 } : Device).spill bno =
      { s_tfree := dv.s_tfree + 1
        block := update dv.block bno ⟨dv.fp.s_nfree, dv.fp.s_free⟩
        fp := { dv.fp with s_nfree := 0 } } := if_pos full
  rw [bfree, moved]

theorem bfree_same (dv : Device) (bno : Daddr) : Same dv (dv.bfree bno) := by
  cases Nat.decLe NICFREE dv.fp.s_nfree with
  | isTrue full =>
      rw [bfree_full full]
      exact ⟨rfl, rfl, rfl, rfl⟩
  | isFalse room =>
      rw [bfree_room room]
      exact ⟨rfl, rfl, rfl, rfl⟩

theorem bfree_tfree (dv : Device) (bno : Daddr) : (dv.bfree bno).s_tfree = dv.s_tfree + 1 := by
  cases Nat.decLe NICFREE dv.fp.s_nfree with
  | isTrue full => rw [bfree_full full]
  | isFalse room => rw [bfree_room room]

/-- The mark at the end. -/
theorem free_mark (empty : dv.fp.s_nfree = 0) : Free (dv.bfree 0) [] := by
  rw [bfree_room (by rw [empty]; decide), empty]
  exact ⟨Nat.zero_lt_one, by simp [NICFREE], .last (by simp)⟩

/-- A block is put in front of the list, in the superblock or in place of what is moved to it. -/
theorem Free.bfree (free : Free dv list) (real : bno ≠ 0) (new : bno ∉ list) :
    Free (dv.bfree bno) (bno :: list) := by
  cases Nat.decLe NICFREE dv.fp.s_nfree with
  | isTrue full =>
      rw [bfree_full full]
      refine ⟨Nat.zero_lt_one, by simp [NICFREE], ?_⟩
      have first : update dv.fp.s_free 0 bno 0 = bno := update_self _ _ _
      have moved := @Alloc.Listed.link (update dv.block bno ⟨dv.fp.s_nfree, dv.fp.s_free⟩)
        (update dv.fp.s_free 0 bno) list (by rwa [first])
      rw [first, update_self] at moved
      refine moved free.some free.few (free.listed.congr (fun _ _ => rfl) fun b mem => ?_)
      apply update_of_ne
      rintro rfl
      exact new mem
  | isFalse room =>
      rw [bfree_room room]
      exact ⟨Nat.succ_pos _, Nat.lt_of_not_le room, free.listed.push free.some real⟩

/-- All of `l` is put on the list. -/
theorem Free.foldl (free : Free dv list) (real : ∀ b ∈ l, b ≠ 0) (distinct : l.Nodup)
    (new : ∀ b ∈ l, b ∉ list) :
    Free (l.foldl Device.bfree dv) (l.reverse ++ list) := by
  induction l generalizing dv list with
  | nil => exact free
  | cons b l ih =>
      obtain ⟨other, distinct⟩ := List.nodup_cons.mp distinct
      obtain ⟨here, new⟩ := List.forall_mem_cons.mp new
      obtain ⟨some, real⟩ := List.forall_mem_cons.mp real
      rw [List.foldl_cons, List.reverse_cons, List.append_assoc, List.singleton_append]
      apply ih (free.bfree some here) real distinct
      intro c mem again
      rcases List.mem_cons.mp again with rfl | old
      · exact other mem
      · exact new c mem old

theorem foldl_bfree (l : List Daddr) (dv : Device) :
    Same dv (l.foldl Device.bfree dv) ∧
      (l.foldl Device.bfree dv).s_tfree = dv.s_tfree + l.length := by
  induction l generalizing dv with
  | nil => exact ⟨Same.refl dv, by simp⟩
  | cons b l ih =>
      obtain ⟨same, count⟩ := ih (dv.bfree b)
      refine ⟨(bfree_same dv b).trans same, ?_⟩
      rw [List.foldl_cons, count, bfree_tfree, List.length_cons]
      omega

/-! ## Taking them off -/

theorem Free.drains (free : Free dv list) : Drains Device.alloc dv list := by
  induction list generalizing dv with
  | nil =>
      apply Drains.done
      obtain ⟨some, few, listed⟩ := free
      unfold Device.alloc
      generalize dv.fp.s_nfree = n at some few listed
      cases listed with
      | empty => omega
      | last stop => simp [stop]
  | cons b list ih =>
      obtain ⟨some, few, listed⟩ := free
      generalize size : dv.fp.s_nfree = n at some few listed
      cases listed with
      | link more pos bound onward =>
          refine @Drains.step _ _ _ { dv with
            s_tfree := dv.s_tfree - 1
            fp := { dv.fp with
              s_nfree := (dv.block (dv.fp.s_free 0)).df_nfree
              s_free := (dv.block (dv.fp.s_free 0)).df_free } } _ _ ?_ (ih ⟨pos, bound, onward⟩)
          unfold Device.alloc
          simp [size, more]
      | @next _ n _ more onward =>
          refine @Drains.step _ _ _ { dv with
            s_tfree := dv.s_tfree - 1
            fp := { dv.fp with s_nfree := n + 1 } } _ _ ?_
            (ih ⟨Nat.succ_pos n, Nat.le_of_succ_le few, onward⟩)
          unfold Device.alloc
          simp [size, more]

end Device

/-- What the kernel has to find in the superblock. -/
structure Sane (s : Alloc.State) (list : List Daddr) : Prop where
  listed : Alloc.Listed s.block s.fp.s_nfree s.fp.s_free list
  distinct : list.Nodup
  range : ∀ b ∈ list, Alloc.InRange s.fp b
  unlocked : s.fp.s_flock = 0
  nfree : s.fp.s_nfree ≤ NICFREE
  ninode : s.fp.s_ninode ≤ NICINOD

theorem Sane.retain {s : Alloc.State} (sane : Sane s (bno :: list)) {n : ℕ} {free : ℕ → Daddr}
    (listed : Alloc.Listed s.block n free list) (few : n ≤ NICFREE)
    (log : List (Entry Daddr)) :
    Sane ⟨{ s.fp with s_nfree := n, s_free := free, s_flock := 0, s_fmod := 1 },
      update s.block bno ⟨0, fun _ => 0⟩, log⟩ list where
  listed := by
    apply listed.congr (fun _ _ => rfl)
    intro b mem
    apply update_of_ne
    rintro rfl
    exact (List.nodup_cons.mp sane.distinct).1 mem
  distinct := (List.nodup_cons.mp sane.distinct).2
  range b mem := sane.range b (List.mem_cons_of_mem bno mem)
  unlocked := rfl
  nfree := few
  ninode := sane.ninode

/-- One call of the kernel's `alloc` takes the first block. -/
theorem Sane.step {s : Alloc.State} (sane : Sane s (bno :: list)) :
    ∃ s', kernelAlloc s = some (bno, s') ∧ Sane s' list := by
  have sound : s.fp.getfs = s.fp := if_neg (by
    have := sane.nfree
    have := sane.ninode
    omega)
  have called : (Alloc.system Unit).next () .alloc s .idle = some s.alloc := by
    simp [Alloc.system, sound, sane.unlocked]
  rcases Alloc.pop_spec sane.listed sane.nfree sane.range with ⟨empty, -⟩ |
    ⟨b, rest, n, split, few, popped, inner, outer⟩
  · cases empty
  obtain ⟨rfl, rfl⟩ := List.cons_eq_cons.mp split
  rw [kernelAlloc, called]
  cases n with
  | zero =>
      obtain ⟨some, bound, onward⟩ := outer rfl
      have taken : s.alloc = ({ s with fp := { s.fp with s_nfree := 0, s_flock := 1 } },
          .allocBread bno) := by
        simp [Alloc.State.alloc, popped, sane.unlocked]
      refine ⟨_, ?_, sane.retain onward bound (.taken bno :: s.log)⟩
      simp [taken, Alloc.system, Alloc.State.refill, Nat.ne_of_gt some, finish]
  | succ n =>
      have taken : s.alloc =
          ({ s with fp := { s.fp with s_nfree := n + 1 } }, .allocGetblk bno) := by
        simp [Alloc.State.alloc, popped]
      refine ⟨_, ?_, sane.retain (inner (Nat.succ_ne_zero n)) few (.taken bno :: s.log)⟩
      simp [taken, Alloc.system, finish, ← sane.unlocked]

theorem Sane.drains {s : Alloc.State} (sane : Sane s list) : Drains kernelAlloc s list := by
  induction list generalizing s with
  | nil =>
      apply Drains.done
      have sound : s.fp.getfs = s.fp := if_neg (by
        have := sane.nfree
        have := sane.ninode
        omega)
      rcases Alloc.pop_spec sane.listed sane.nfree sane.range with ⟨-, none⟩ |
        ⟨b, rest, n, split, -⟩
      · simp [kernelAlloc, Alloc.system, sound, sane.unlocked, Alloc.State.alloc, none, finish]
      · cases split
  | cons b list ih =>
      obtain ⟨s', taken, sane'⟩ := sane.step
      exact .step taken (ih sane')

/-! ## The whole list -/

/-- No block on the list is the mark. -/
theorem ne_zero_of_listed {block : Daddr → Fblk} {n : ℕ} {free : ℕ → Daddr}
    (listed : Alloc.Listed block n free list) : ∀ b ∈ list, b ≠ 0 := by
  induction listed with
  | empty => simp
  | last => simp
  | link more _ _ _ ih => exact List.forall_mem_cons.mpr ⟨more, ih⟩
  | next more _ ih => exact List.forall_mem_cons.mpr ⟨more, ih⟩

namespace Device

/-- What the blocks on the list are is decided by the list. -/
theorem Lists.owns_iff (lists : dv.Lists list) (distinct : list.Nodup) {S : Daddr → Prop} :
    dv.Owns S ↔ ∀ b, b ∈ list ↔ S b := by
  constructor
  · rintro ⟨other, lists', -, all⟩
    rw [lists.listed.unique lists'.listed]
    exact all
  · exact fun all => ⟨list, lists, distinct, all⟩

/-- The 0 mark and then the blocks of `l` are put on the empty list. -/
theorem lists_foldl (empty : dv.fp.s_nfree = 0) (unlocked : dv.fp.s_flock = 0)
    (ninode : dv.fp.s_ninode ≤ NICINOD) (distinct : l.Nodup)
    (range : ∀ b ∈ l, b ≠ 0 ∧ b < dv.fp.s_fsize ∧ dv.fp.s_isize ≤ b) :
    (l.foldl Device.bfree (dv.bfree 0)).Lists l.reverse := by
  have free := (free_mark empty).foldl (fun b mem => (range b mem).1) distinct
    fun _ _ => List.not_mem_nil
  rw [List.append_nil] at free
  have same := (bfree_same dv 0).trans (foldl_bfree l (dv.bfree 0)).1
  refine ⟨free.listed, free.drains, Sane.drains ⟨free.listed, List.nodup_reverse.mpr distinct,
    fun b mem => ?_, same.flock.trans unlocked, free.few, same.ninode.symm ▸ ninode⟩⟩
  obtain ⟨real, below, low⟩ := range b (List.mem_reverse.mp mem)
  refine ⟨real, ?_⟩
  change Filsys.badblock (l.foldl Device.bfree (dv.bfree 0)).fp b = false
  rw [Filsys.badblock, same.isize, same.fsize]
  simp [below, low]

/-- Is the block one of the device's that are not inodes? -/
def within (dv : Device) (f : Daddr) : Bool := f < dv.fp.s_fsize && dv.fp.s_isize ≤ f

theorem within_iff (dv : Device) (f : Daddr) :
    dv.within f = true ↔ f < dv.fp.s_fsize ∧ dv.fp.s_isize ≤ f := by
  simp [within]

theorem Same.within {dv' : Device} (same : Same dv dv') (f : Daddr) :
    dv'.within f = dv.within f := by
  rw [Device.within, Device.within, same.isize, same.fsize]

/-- `bflist` frees the blocks that are within. -/
theorem foldl_visit (l : List Daddr) (dv : Device) :
    l.foldl Device.visit dv = (l.filter dv.within).foldl Device.bfree dv := by
  induction l generalizing dv with
  | nil => rfl
  | cons f l ih =>
      rw [List.foldl_cons]
      cases inside : dv.within f with
      | true =>
          have visited : dv.visit f = dv.bfree f := if_pos ((within_iff dv f).mp inside)
          rw [visited, ih, List.filter_cons_of_pos inside, List.foldl_cons]
          congr 1
          exact List.filter_congr fun g _ => (bfree_same dv f).within g
      | false =>
          have passed : dv.visit f = dv := 
            if_neg (mt (within_iff dv f).mpr (by simp [inside]))
          rw [passed, ih, List.filter_cons_of_neg (by simp [inside])]

end Device

/-- The blocks that are visited before the size is checked: the last block of the device is not,
when the groups end before it. -/
theorem visited_spec {n m : ℕ} (pos : 0 < n) (d : ℕ) {σ : Type} (visit : σ → Daddr → σ) (s : σ) :
    ∃ fs : List Daddr, fs.Nodup ∧ (∀ f ≤ d, f ∈ fs ↔ ¬(n ∣ d ∧ f = d)) ∧
      (do
        let adr ← adrs n m n 0 fun _ => false
        let d ← roundUp n n d
        lay visit n adr (d + 1) d s) = some (fs.foldl visit s) := by
  obtain ⟨adr, found, order⟩ := adrs_perm pos m
  have gap : (d + (n - d % n) % n) % n = 0 := by
    rw [Nat.add_mod_mod, ← Nat.mod_add_mod, Nat.add_sub_cancel' (Nat.le_of_lt (Nat.mod_lt d pos)),
      Nat.mod_self]
  obtain ⟨q, rounded, low, high⟩ := roundUp_spec gap (Nat.mod_lt _ pos)
  have perm := blocks_perm order q
  refine ⟨blocks n adr q, perm.nodup_iff.mpr List.nodup_range, fun f le => ?_, ?_⟩
  · rw [perm.mem_iff, List.mem_range]
    constructor
    · rintro below ⟨whole, rfl⟩
      have none : (n - f % n) % n = 0 := by
        rw [Nat.mod_eq_zero_of_dvd whole, Nat.sub_zero, Nat.mod_self]
      omega
    · intro other
      rcases Nat.lt_or_eq_of_le low with less | same
      · omega
      · have whole : n ∣ d := ⟨q, same⟩
        have ne : f ≠ d := fun eq => other ⟨whole, eq⟩
        omega
  · simp only [found, rounded, Option.bind_eq_bind, Option.bind_some]
    exact lay_spec pos q (Nat.lt_succ_self _)

end UnixV7.Mkfs
