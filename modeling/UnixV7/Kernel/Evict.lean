import UnixV7.Kernel.Cache

/-!
# What is left when the buffers are gone

When every buffer has been given up, and those whose writing was put off have been written first,
a block is what such a buffer held, and otherwise what was on the device: changes of a buffer
that was not marked for writing are lost.
-/

namespace UnixV7

namespace Cache

/-- The buffer is written if that was put off, and given up. -/
def evict (c : Cache) (bp : BufId) : Cache :=
  let c := if (c.buf bp).b_delwri then ((c.notavail bp).write bp).brelse bp else c
  ((c.notavail bp).assign bp none).brelse bp

/-- All buffers are. -/
def evictAll (c : Cache) : Cache := (List.range NBUF).foldl evict c

/-- What the device has of a block when the buffers are gone. -/
def later (c : Cache) (dev : Dev) (blkno : Daddr) : Bytes :=
  match c.incore dev blkno with
  | some bp => if (c.buf bp).b_delwri then (c.buf bp).b_addr else c.disk dev blkno
  | none => c.disk dev blkno

/-- No block is in two buffers, and those to be written are of a block. -/
structure Tidy (c : Cache) : Prop where
  reliable : ∀ dev blkno, c.bad dev blkno = false
  distinct : ∀ i j dev, i < NBUF → j < NBUF → (c.buf i).b_dev = some dev →
    (c.buf j).b_dev = some dev → (c.buf i).b_blkno = (c.buf j).b_blkno → i = j
  dirty : ∀ i, i < NBUF → (c.buf i).b_delwri = true → (c.buf i).b_dev ≠ none

variable {c : Cache} {bp i : BufId} {dev d : Dev} {blkno : Daddr} {held : List BufId}

theorem Good.tidy (good : c.Good held) : c.Tidy where
  reliable := good.reliable
  distinct := good.distinct
  dirty i inside late := (good.dirty i inside late).2

theorem evict_of_ne (other : i ≠ bp) : (c.evict bp).buf i = c.buf i := by
  simp only [evict, brelse, assign, notavail, modify_of_ne other]
  split
  · rw [modify_of_ne other, write_of_ne other, modify_of_ne other]
  · rfl

theorem evict_dev (c : Cache) (bp : BufId) : ((c.evict bp).buf bp).b_dev = none := by
  simp [evict, brelse, assign, Buf.assign]

theorem evict_delwri (c : Cache) (bp : BufId) : ((c.evict bp).buf bp).b_delwri = false := by
  simp [evict, brelse, assign, Buf.assign]

theorem write_bad (c : Cache) (bp : BufId) : (c.write bp).bad = c.bad := by
  simp only [write]
  split
  · rfl
  · split <;> rfl

theorem evict_bad (c : Cache) (bp : BufId) : (c.evict bp).bad = c.bad := by
  simp only [evict, brelse, assign, modify_bad, notavail]
  split
  · exact write_bad _ bp
  · rfl

/-- The block of a buffer to be written gets the buffer's data. -/
theorem Tidy.evict_disk (tidy : c.Tidy) (inside : bp < NBUF) (dev : Dev) (blkno : Daddr) :
    (c.evict bp).disk dev blkno =
      if (c.buf bp).b_delwri = true ∧ (c.buf bp).b_dev = some dev ∧ (c.buf bp).b_blkno = blkno then
        (c.buf bp).b_addr
      else
        c.disk dev blkno := by
  simp only [evict, brelse, assign, modify_disk]
  by_cases late : (c.buf bp).b_delwri = true
  · obtain ⟨d, named⟩ := Option.ne_none_iff_exists'.mp (tidy.dirty bp inside late)
    simp only [late, if_true, notavail, write, modify_self, named, modify_bad, tidy.reliable,
      Bool.false_eq_true, if_false, modify_disk, true_and, Option.some.injEq]
    exact if_congr ⟨fun same => ⟨same.1.symm, same.2.symm⟩, fun same => ⟨same.1.symm, same.2.symm⟩⟩
      rfl rfl
  · simp only [late, false_and, if_false, notavail, modify_disk, Bool.false_eq_true]

theorem Tidy.evict (tidy : c.Tidy) (bp : BufId) : (c.evict bp).Tidy where
  reliable dev blkno := by
    rw [evict_bad]
    exact tidy.reliable dev blkno
  distinct i j dev left right mine theirs same := by
    by_cases one : i = bp
    · subst one
      simp [evict_dev] at mine
    · by_cases two : j = bp
      · subst two
        simp [evict_dev] at theirs
      · rw [evict_of_ne one] at mine same
        rw [evict_of_ne two] at theirs same
        exact tidy.distinct i j dev left right mine theirs same
  dirty i inside late := by
    by_cases one : i = bp
    · subst one
      simp [evict_delwri] at late
    · rw [evict_of_ne one] at late ⊢
      exact tidy.dirty i inside late

/-- The search finds the only buffer of a block. -/
theorem Tidy.incore (tidy : c.Tidy) (inside : i < NBUF) (here : (c.buf i).b_dev = some dev) :
    c.incore dev (c.buf i).b_blkno = some i := by
  cases found : c.incore dev (c.buf i).b_blkno with
  | none => exact absurd ⟨here, rfl⟩ (incore_eq_none.mp found i inside)
  | some j =>
      obtain ⟨also, there, same⟩ := incore_eq_some found
      rw [tidy.distinct j i dev also inside there here same]

/-- Evicting one buffer changes nothing of what is left in the end. -/
theorem Tidy.evict_later (tidy : c.Tidy) (inside : bp < NBUF) : (c.evict bp).later = c.later := by
  funext d k
  have disk := tidy.evict_disk inside d k
  cases found : c.incore d k with
  | none =>
      have absent := incore_eq_none.mp found
      have gone : (c.evict bp).incore d k = none := by
        refine incore_eq_none.mpr fun j below named => ?_
        by_cases same : j = bp
        · subst same
          simp [evict_dev] at named
        · rw [evict_of_ne same] at named
          exact absent j below named
      simp only [later, found, gone]
      rw [disk, if_neg fun named => absent bp inside named.2]
  | some i =>
      obtain ⟨below, here, rfl⟩ := incore_eq_some found
      by_cases same : i = bp
      · subst same
        have gone : (c.evict i).incore d (c.buf i).b_blkno = none := by
          refine incore_eq_none.mpr fun j below' named => ?_
          by_cases again : j = i
          · subst again
            simp [evict_dev] at named
          · rw [evict_of_ne again] at named
            exact again (tidy.distinct j i d below' below named.1 here named.2)
        simp only [later, found, gone]
        rw [disk]
        exact if_congr (and_iff_left ⟨here, rfl⟩) rfl rfl
      · have still : (c.evict bp).incore d (c.buf i).b_blkno = some i := by
          have there := (tidy.evict bp).incore below
            (show ((c.evict bp).buf i).b_dev = some d by rwa [evict_of_ne same])
          rwa [evict_of_ne same] at there
        have other : ¬((c.buf bp).b_delwri = true ∧ (c.buf bp).b_dev = some d ∧
            (c.buf bp).b_blkno = (c.buf i).b_blkno) := fun named =>
          same (tidy.distinct i bp d below inside here named.2.1 named.2.2.symm)
        rw [if_neg other] at disk
        simp only [later, found, still, evict_of_ne same, disk]

/-- Buffers that are all gone show what is on the device. -/
theorem Tidy.evicts (tidy : c.Tidy) (l : List BufId) (inside : ∀ i ∈ l, i < NBUF) :
    (l.foldl Cache.evict c).later = c.later ∧
      (∀ i, (c.buf i).b_dev = none ∨ i ∈ l → ((l.foldl Cache.evict c).buf i).b_dev = none) := by
  induction l generalizing c with
  | nil => exact ⟨rfl, fun i => Or.rec id fun mem => absurd mem List.not_mem_nil⟩
  | cons bp l ih =>
      obtain ⟨same, gone⟩ := ih (tidy.evict bp) fun i mem => inside i (List.mem_cons_of_mem bp mem)
      refine ⟨same.trans (tidy.evict_later (inside bp List.mem_cons_self)),
        fun i which => gone i ?_⟩
      by_cases first : i = bp
      · subst first
        exact .inl (evict_dev c i)
      · rw [evict_of_ne first]
        exact which.imp_right fun mem => (List.mem_cons.mp mem).resolve_left first

/-- What a process finds when all buffers have been evicted. -/
theorem Tidy.view_evictAll (tidy : c.Tidy) : c.evictAll.view = c.later := by
  obtain ⟨same, gone⟩ := tidy.evicts (List.range NBUF) fun i => List.mem_range.mp
  funext d k
  have none : c.evictAll.incore d k = none := by
    refine incore_eq_none.mpr fun i below named => ?_
    have free := gone i (.inr (List.mem_range.mpr below))
    exact Option.some_ne_none d (named.1.symm.trans free)
  have here : c.evictAll.later d k = c.evictAll.disk d k := by simp only [later, none]
  rw [Good.view_of_none none, ← here]
  exact congrFun (congrFun same d) k

/-- Evicted or not, the buffers of a process that has done nothing wrong show the same. -/
theorem Good.later (good : c.Good held) : c.later = c.view := by
  funext d k
  simp only [Cache.later, Cache.view]
  cases found : c.incore d k with
  | none => rfl
  | some i =>
      obtain ⟨below, here, rfl⟩ := incore_eq_some found
      dsimp only
      cases late : (c.buf i).b_delwri with
      | true => simp [(good.dirty i below late).1]
      | false =>
          cases done : (c.buf i).b_done with
          | false => simp
          | true => simp [good.clean i d below here done late]

/-! ## A buffer changed and not marked -/

/-- The data of a buffer in hand are changed, and it is released without being marked for
writing: what a process finds now and what is left when the buffers are gone. -/
theorem Good.spoil (good : c.Good (bp :: held)) (inside : bp < NBUF)
    (here : (c.buf bp).b_dev = some dev) (f : Bytes → Bytes) :
    ((c.modify bp fun b => { b with b_addr := f b.b_addr }).brelse bp).Tidy ∧
    ((c.modify bp fun b => { b with b_addr := f b.b_addr }).brelse bp).view = (fun d k =>
      if d = dev ∧ k = (c.buf bp).b_blkno then
        if (c.buf bp).b_done then f (c.view dev k) else c.view dev k
      else c.view d k) ∧
    ((c.modify bp fun b => { b with b_addr := f b.b_addr }).brelse bp).later = fun d k =>
      if d = dev ∧ k = (c.buf bp).b_blkno then
        if (c.buf bp).b_delwri then f (c.view dev k) else c.view dev k
      else c.view d k := by
  have errorless := good.errorless bp inside
  have shown := good.view inside here
  have tidy : (c.modify bp fun b => { b with b_addr := f b.b_addr, b_busy := false }).Tidy :=
    { reliable := good.reliable
      distinct := fun i j dev left right mine theirs same => by
        have field : ∀ i, ((c.modify bp fun b =>
            { b with b_addr := f b.b_addr, b_busy := false }).buf i).b_dev = (c.buf i).b_dev ∧
            ((c.modify bp fun b =>
              { b with b_addr := f b.b_addr, b_busy := false }).buf i).b_blkno =
              (c.buf i).b_blkno :=
          forall_modify (fun i b => b.b_dev = (c.buf i).b_dev ∧ b.b_blkno = (c.buf i).b_blkno)
            ⟨rfl, rfl⟩ fun _ _ => ⟨rfl, rfl⟩
        rw [(field i).1] at mine
        rw [(field j).1] at theirs
        rw [(field i).2, (field j).2] at same
        exact good.distinct i j dev left right mine theirs same
      dirty := forall_modify (fun i b => i < NBUF → b.b_delwri = true → b.b_dev ≠ none)
        (fun inside late => (good.dirty bp inside late).2)
        fun i _ inside late => (good.dirty i inside late).2 }
  have whole : (c.modify bp fun b => { b with b_addr := f b.b_addr }).brelse bp =
      c.modify bp fun b => { b with b_addr := f b.b_addr, b_busy := false } := by
    apply Cache.ext
    · funext i
      by_cases same : i = bp
      · subst same
        simp [Cache.brelse, errorless]
      · simp [Cache.brelse, modify_of_ne same]
    all_goals rfl
  have search : ∀ d k, (c.modify bp fun b =>
      { b with b_addr := f b.b_addr, b_busy := false }).incore d k = c.incore d k := fun d k =>
    incore_congr (forall_modify (fun i b => b.b_dev = (c.buf i).b_dev) rfl fun _ _ => rfl)
      (forall_modify (fun i b => b.b_blkno = (c.buf i).b_blkno) rfl fun _ _ => rfl)
  rw [whole]
  refine ⟨tidy, ?_, ?_⟩
  · funext d k
    rw [good.view_modify inside rfl rfl]
    by_cases mine : d = dev ∧ k = (c.buf bp).b_blkno
    · obtain ⟨rfl, rfl⟩ := mine
      simp only [here, and_self, if_true, shown]
      cases (c.buf bp).b_done <;> rfl
    · rw [if_neg mine, if_neg]
      exact fun same => mine ⟨Option.some.inj (same.1.symm.trans here), same.2.symm⟩
  · funext d k
    by_cases mine : d = dev ∧ k = (c.buf bp).b_blkno
    · obtain ⟨rfl, rfl⟩ := mine
      have later := congrFun (congrFun good.later d) (c.buf bp).b_blkno
      rw [if_pos ⟨rfl, rfl⟩, ← later]
      simp only [Cache.later, search, good.incore inside here, modify_self, modify_disk]
      cases (c.buf bp).b_delwri <;> rfl
    · rw [if_neg mine, ← good.later]
      simp only [Cache.later, search]
      cases found : c.incore d k with
      | none => rfl
      | some i =>
          have other : i ≠ bp := by
            rintro rfl
            obtain ⟨-, there, also⟩ := incore_eq_some found
            exact mine ⟨Option.some.inj (there.symm.trans here), also.symm⟩
          simp only [modify_of_ne other, modify_disk]

end Cache

end UnixV7
