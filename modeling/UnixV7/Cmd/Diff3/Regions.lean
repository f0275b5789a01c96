import Mathlib.Algebra.GroupWithZero.Nat
import UnixV7.Cmd.Diff3.Read
import UnixV7.Library.Touching

/-!
# Regions

A change list tells which lines of an older file became which lines of file 3. Changes of the two
lists are joined when their lines of file 3 overlap or touch, and a region is what joined changes
cover. The lines of a region in an older file are found by the numbers of lines that the changes
before it and in it have on both sides.
-/

namespace UnixV7.Diff3

open Touching

variable {f g : List (List Char)} {D done group rest pre post : List Diff} {a c : ℕ}
  {x y z h : Diff}

/-- A list of changes from `f` to `g`, from the lines with the numbers `a` and `c` on. What is
between the changes is the same in both files, and there is something between any two. -/
inductive Correct (f g : List (List Char)) : ℕ → ℕ → List Diff → Prop
  | none {a c : ℕ} (same : f.drop (a - 1) = g.drop (c - 1)) : Correct f g a c []
  | cons {a c : ℕ} {x : Diff} {d : List Diff} (old : a ≤ x.old.start) (new : c ≤ x.new.start)
      (same : slice f ⟨a, x.old.start⟩ = slice g ⟨c, x.new.start⟩)
      (old_order : x.old.start ≤ x.old.stop) (new_order : x.new.start ≤ x.new.stop)
      (old_inside : x.old.stop ≤ f.length + 1) (new_inside : x.new.stop ≤ g.length + 1)
      (apart : ∀ y ∈ d.head?, x.new.stop < y.new.start)
      (others : Correct f g x.old.stop x.new.stop d) : Correct f g a c (x :: d)

def oldLines (d : List Diff) : ℕ := (d.map fun x => x.old.stop - x.old.start).sum

def newLines (d : List Diff) : ℕ := (d.map fun x => x.new.stop - x.new.start).sum

/-- The line of the older file for one of file 3 that has the changes `d` before it. -/
def carry (d : List Diff) (line : ℕ) : ℕ := line + oldLines d - newLines d

/-- The lines of the older file for lines of file 3 at the ends of which there is no change. -/
def carried (d : List Diff) (r : Range) : Range :=
  ⟨carry (d.filter fun x => x.new.stop < r.start) r.start,
    carry (d.filter fun x => x.new.start ≤ r.stop) r.stop⟩

/-- The lines of a region in the three files. -/
structure Region where
  one : Range
  two : Range
  three : Range

/-- A chain of changes of which each overlaps or touches the next. -/
abbrev Together (d13 d23 : List Diff) : Diff → Diff → Prop :=
  Joined (fun x => x.new.start) (fun x => x.new.stop) (· ∈ d13 ++ d23)

/-- The region of the change `x` of file 1, when it has changes of file 2 too. -/
structure IsRegion (d13 d23 : List Diff) (x : Diff) (r : Region) : Prop where
  both : ∃ y ∈ d23, Together d13 d23 x y
  three : Hull (fun x => x.new.start) (fun x => x.new.stop) (· ∈ d13 ++ d23) x r.three.start
    r.three.stop
  one : r.one = carried d13 r.three
  two : r.two = carried d23 r.three

@[simp] theorem oldLines_append (d e : List Diff) :
    oldLines (d ++ e) = oldLines d + oldLines e := by
  rw [oldLines, List.map_append, List.sum_append]
  rfl

@[simp] theorem newLines_append (d e : List Diff) :
    newLines (d ++ e) = newLines d + newLines e := by
  rw [newLines, List.map_append, List.sum_append]
  rfl

@[simp] theorem oldLines_cons (x : Diff) (d : List Diff) :
    oldLines (x :: d) = x.old.stop - x.old.start + oldLines d := by
  rw [oldLines, List.map_cons, List.sum_cons]
  rfl

@[simp] theorem newLines_cons (x : Diff) (d : List Diff) :
    newLines (x :: d) = x.new.stop - x.new.start + newLines d := by
  rw [newLines, List.map_cons, List.sum_cons]
  rfl

@[simp] theorem oldLines_nil : oldLines [] = 0 := rfl

@[simp] theorem newLines_nil : newLines [] = 0 := rfl

theorem length_slice {r : Range} (low : 0 < r.start) (order : r.start ≤ r.stop)
    (inside : r.stop ≤ f.length + 1) : (slice f r).length = r.stop - r.start := by
  rw [slice, List.length_take, List.length_drop]
  omega

/-! ## The lines of the changes -/

/-- The ranges of a change are lines of the files. -/
structure Diff.Inside (f g : List (List Char)) (x : Diff) : Prop where
  old_low : 0 < x.old.start
  old_order : x.old.start ≤ x.old.stop
  old_high : x.old.stop ≤ f.length + 1
  new_low : 0 < x.new.start
  new_order : x.new.start ≤ x.new.stop
  new_high : x.new.stop ≤ g.length + 1

/-- What the numbers in a correct list come to. -/
structure Listed (f g : List (List Char)) (D : List Diff) : Prop where
  start : ∀ pre x post, D = pre ++ x :: post →
    x.old.start + newLines pre = x.new.start + oldLines pre
  inside : ∀ x ∈ D, x.Inside f g
  apart : D.Pairwise fun x y => x.new.stop < y.new.start
  whole : f.length + newLines D = g.length + oldLines D

theorem Correct.ahead (correct : Correct f g a c D) : ∀ x ∈ D, c ≤ x.new.start := by
  induction correct with
  | none => exact List.forall_mem_nil _
  | cons _ new _ _ new_order _ _ _ _ ih =>
      exact List.forall_mem_cons.mpr ⟨new, fun y mem => new.trans (new_order.trans (ih y mem))⟩

theorem Correct.inside (correct : Correct f g a c D) (old_low : 0 < a) (new_low : 0 < c) :
    ∀ x ∈ D, x.Inside f g := by
  induction correct with
  | none => exact List.forall_mem_nil _
  | cons old new _ old_order new_order old_high new_high _ _ ih =>
      refine List.forall_mem_cons.mpr ⟨⟨?_, old_order, old_high, ?_, new_order, new_high⟩,
        ih ?_ ?_⟩ <;> omega

theorem Correct.pairwise (correct : Correct f g a c D) :
    D.Pairwise fun x y => x.new.stop < y.new.start := by
  induction correct with
  | none => exact .nil
  | @cons a c x d _ _ _ _ _ _ _ apart others ih =>
      refine .cons ?_ ih
      cases others with
      | none => exact List.forall_mem_nil _
      | @cons _ _ y d _ _ _ _ order _ _ _ others =>
          have first := apart y rfl
          exact List.forall_mem_cons.mpr ⟨first, fun z mem =>
            first.trans_le (order.trans (others.ahead z mem))⟩

/-- The gap before a change is as long in one file as in the other. -/
theorem gap_eq (same : slice f ⟨a, x.old.start⟩ = slice g ⟨c, x.new.start⟩) (old_low : 0 < a)
    (new_low : 0 < c) (old : a ≤ x.old.start) (new : c ≤ x.new.start)
    (old_high : x.old.start ≤ f.length + 1) (new_high : x.new.start ≤ g.length + 1) :
    x.old.start + c = x.new.start + a := by
  have lengths := congrArg List.length same
  rw [length_slice (by exact old_low) (by exact old) (by exact old_high),
    length_slice (by exact new_low) (by exact new) (by exact new_high)] at lengths
  dsimp only at lengths
  omega

theorem Correct.start_eq (correct : Correct f g a c D) (old_low : 0 < a) (new_low : 0 < c)
    (parts : D = pre ++ x :: post) :
    x.old.start + newLines pre + c = x.new.start + oldLines pre + a := by
  induction correct generalizing pre with
  | none => cases pre <;> cases parts
  | @cons a c y d old new same old_order new_order old_high new_high _ _ ih =>
      have gap := gap_eq same old_low new_low old new (by omega) (by omega)
      cases pre with
      | nil =>
          obtain ⟨rfl, rfl⟩ := List.cons.inj parts
          simpa using gap
      | cons z pre =>
          obtain ⟨rfl, parts'⟩ := List.cons.inj parts
          have later := ih (by omega) (by omega) parts'
          rw [oldLines_cons, newLines_cons]
          omega

theorem Correct.whole (correct : Correct f g a c D) (old_low : 0 < a) (new_low : 0 < c)
    (old_high : a ≤ f.length + 1) (new_high : c ≤ g.length + 1) :
    f.length + newLines D + c = g.length + oldLines D + a := by
  induction correct with
  | none same =>
      have lengths := congrArg List.length same
      rw [List.length_drop, List.length_drop] at lengths
      rw [oldLines_nil, newLines_nil]
      omega
  | @cons a c y d old new same old_order new_order old_inside new_inside _ _ ih =>
      have gap := gap_eq same old_low new_low old new (by omega) (by omega)
      have later := ih (by omega) (by omega) old_inside new_inside
      rw [oldLines_cons, newLines_cons]
      omega

theorem Correct.listed (correct : Correct f g 1 1 D) : Listed f g D where
  start pre x post parts := by
    have gap := correct.start_eq Nat.one_pos Nat.one_pos parts
    omega
  inside := correct.inside Nat.one_pos Nat.one_pos
  apart := correct.pairwise
  whole := by
    have gap := correct.whole Nat.one_pos Nat.one_pos (by omega) (by omega)
    omega

/-! ## Pointers -/

/-- A change made of those of `group`, with the changes `done` before it. It may reach into what is
between the changes, and its end further. -/
structure Head (D done group rest : List Diff) (h : Diff) : Prop where
  parts : D = done ++ (group ++ rest)
  start : h.old.start + newLines done = h.new.start + oldLines done
  stop : h.old.stop + newLines (done ++ group) = h.new.stop + oldLines (done ++ group)
  covers : ∀ z ∈ group, h.new.start ≤ z.new.start ∧ z.new.stop ≤ h.new.stop
  room : h.new.start + newLines group ≤ h.new.stop
  ahead : ∀ z ∈ rest, h.new.start + newLines group ≤ z.new.start

theorem Listed.ordered (listed : Listed f g D) (parts : D = pre ++ post) :
    (∀ x ∈ pre, ∀ y ∈ post, x.new.stop < y.new.start) ∧
      post.Pairwise fun x y => x.new.stop < y.new.start := by
  have apart := listed.apart
  rw [parts, List.pairwise_append] at apart
  exact ⟨apart.2.2, apart.2.1⟩

/-- A change of the list that nothing was done to. -/
theorem Head.fresh (listed : Listed f g D) (parts : D = done ++ x :: rest) :
    Head D done [x] rest x := by
  have start := listed.start _ _ _ parts
  have inside := listed.inside x (by rw [parts]; simp)
  obtain ⟨-, sorted⟩ := listed.ordered parts
  have order := inside.new_order
  have order' := inside.old_order
  refine ⟨parts, start, ?_, ?_, ?_, ?_⟩
  · simp only [oldLines_append, newLines_append, oldLines_cons, newLines_cons, oldLines_nil,
      newLines_nil]
    omega
  · exact List.forall_mem_singleton.mpr ⟨le_rfl, le_rfl⟩
  · rw [newLines_cons, newLines_nil]
    omega
  · intro z mem
    have later := List.rel_of_pairwise_cons sorted mem
    rw [newLines_cons, newLines_nil]
    omega

/-- The head becomes part of the next change. -/
theorem Head.into (listed : Listed f g D) (head : Head D done group (z :: rest) h) :
    Head D done (group ++ [z]) rest ⟨⟨h.old.start, z.old.stop⟩, ⟨h.new.start, z.new.stop⟩⟩ := by
  have parts : D = (done ++ group) ++ z :: rest := by rw [head.parts, List.append_assoc]
  have start := listed.start _ _ _ parts
  have inside := listed.inside z (by rw [parts]; simp)
  obtain ⟨before, sorted⟩ := listed.ordered parts
  have order := inside.new_order
  have order' := inside.old_order
  have ahead := head.ahead z List.mem_cons_self
  refine ⟨by rw [head.parts, List.append_assoc]; rfl, head.start, ?_, ?_, ?_, ?_⟩
  · simp only [oldLines_append, newLines_append, oldLines_cons, newLines_cons, oldLines_nil,
      newLines_nil] at start ⊢
    omega
  · intro y mem
    obtain mem | mem := List.mem_append.mp mem
    · have last := before y (List.mem_append_right _ mem) z List.mem_cons_self
      exact ⟨(head.covers y mem).1, by dsimp only; omega⟩
    · obtain rfl := List.mem_singleton.mp mem
      exact ⟨by dsimp only; omega, le_rfl⟩
  · simp only [newLines_append, newLines_cons, newLines_nil]
    omega
  · intro y mem
    have later := List.rel_of_pairwise_cons sorted mem
    simp only [newLines_append, newLines_cons, newLines_nil]
    omega

/-- The head begins earlier, but behind what is done. -/
theorem Head.begin (head : Head D done group rest h) (e : Diff)
    (low : newLines done ≤ e.new.start + oldLines done) :
    Head D done group rest (h.begin e) := by
  rw [Diff.begin]
  split
  next less =>
    refine ⟨head.parts, ?_, head.stop, ?_, ?_, ?_⟩
    · have start := head.start
      dsimp only
      omega
    · intro z mem
      have covers := head.covers z mem
      exact ⟨by dsimp only; omega, covers.2⟩
    · have room := head.room
      dsimp only
      omega
    · intro z mem
      have ahead := head.ahead z mem
      dsimp only
      omega
  next => exact head

/-- The head ends later. -/
theorem Head.finish (head : Head D done group rest h) (e : Diff) :
    Head D done group rest (h.finish e) := by
  rw [Diff.finish]
  split
  next less =>
    refine ⟨head.parts, head.start, ?_, ?_, ?_, head.ahead⟩
    · have stop := head.stop
      dsimp only
      omega
    · intro z mem
      have covers := head.covers z mem
      exact ⟨covers.1, by dsimp only; omega⟩
    · have room := head.room
      dsimp only
      omega
  next => exact head

theorem Head.order (head : Head D done group rest h) : h.old.start ≤ h.old.stop := by
  have start := head.start
  have stop := head.stop
  have room := head.room
  rw [oldLines_append, newLines_append] at stop
  omega

/-- A head that ends before the next change ends in the older file. -/
theorem Head.high (listed : Listed f g D) (head : Head D done group rest h)
    (ends : ∀ z ∈ rest, h.new.stop < z.new.start) (high : h.new.stop ≤ g.length + 1) :
    h.old.stop ≤ f.length + 1 := by
  have stop := head.stop
  cases rest with
  | nil =>
      have whole := listed.whole
      rw [head.parts, List.append_nil] at whole
      omega
  | cons z rest =>
      have parts : D = (done ++ group) ++ z :: rest := by rw [head.parts, List.append_assoc]
      have start := listed.start _ _ _ parts
      have inside := listed.inside z (by rw [parts]; simp)
      have first := ends z List.mem_cons_self
      have order := inside.old_order
      have last := inside.old_high
      omega

/-- The lines of the older file for those of the head. -/
theorem Head.carried_eq (head : Head D done group rest h)
    (behind : ∀ z ∈ done, z.new.stop < h.new.start) (proper : ∀ z ∈ D, z.new.start ≤ z.new.stop)
    (ends : ∀ z ∈ rest, h.new.stop < z.new.start) : carried D h.new = h.old := by
  have below : D.filter (fun x => x.new.stop < h.new.start) = done := by
    have others : ∀ z ∈ group ++ rest, ¬ z.new.stop < h.new.start := by
      intro z mem
      have order := proper z (by rw [head.parts]; exact List.mem_append_right _ mem)
      obtain mem | mem := List.mem_append.mp mem
      · have covers := head.covers z mem
        omega
      · have ahead := head.ahead z mem
        omega
    rw [head.parts, List.filter_append, List.filter_eq_self.mpr fun z mem =>
      decide_eq_true (behind z mem), List.filter_eq_nil_iff.mpr fun z mem => by
        simpa using others z mem, List.append_nil]
  have above : D.filter (fun x => x.new.start ≤ h.new.stop) = done ++ group := by
    have first : ∀ z ∈ done ++ group, z.new.start ≤ h.new.stop := by
      intro z mem
      have member : z ∈ D := by
        rw [head.parts, ← List.append_assoc]
        exact List.mem_append_left _ mem
      have order := proper z member
      have room := head.room
      obtain mem | mem := List.mem_append.mp mem
      · have before := behind z mem
        omega
      · have covers := head.covers z mem
        omega
    rw [head.parts, ← List.append_assoc, List.filter_append, List.filter_eq_self.mpr fun z mem =>
      decide_eq_true (first z mem), List.filter_eq_nil_iff.mpr fun z mem => by
        simpa using ends z mem, List.append_nil]
  have start := head.start
  have stop := head.stop
  rw [carried, below, above, carry, carry, ← start, ← stop, Nat.add_sub_cancel, Nat.add_sub_cancel]

end UnixV7.Diff3
