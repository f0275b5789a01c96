import UnixV7.Cmd.Diff.Report

/-!
# The changes are those of the files

What is between the changes that `output` finds is the same in both files, line for line, and there
is something between any two of them. So the ranges of the changes tell which lines of the one file
are which of the other.
-/

namespace UnixV7

open Function

namespace Diff

variable {α : Type*} {us vs : List α} {J : ℕ → ℕ} {i i' j j' k fuel : ℕ} {x : Change}
  {xs : List Change}

/-- A list of changes, from line `i` of the one file and line `j` of the other on. -/
inductive Faithful (us vs : List α) : ℕ → ℕ → List Change → Prop
  | none {i j : ℕ} (same : us.drop (i - 1) = vs.drop (j - 1)) : Faithful us vs i j []
  | cons {i j : ℕ} {x : Change} {xs : List Change} (old : i ≤ x.a) (new : j ≤ x.c)
      (same : part us i (x.a - 1) = part vs j (x.c - 1)) (inside : x.Inside us.length vs.length)
      (apart : ∀ y ∈ xs.head?, x.d + 1 < y.c) (others : Faithful us vs (x.b + 1) (x.d + 1) xs) :
      Faithful us vs i j (x :: xs)

/-- The calls of `change` that do not return at once. -/
def busy (xs : List Change) : List Change := xs.filter fun x => ¬x.Idle

theorem busy_cons_idle (idle : x.Idle) (xs : List Change) : busy (x :: xs) = busy xs := by
  rw [busy, List.filter_cons_of_neg (by simpa using idle)]
  rfl

theorem busy_cons (some : ¬x.Idle) (xs : List Change) : busy (x :: xs) = x :: busy xs := by
  rw [busy, List.filter_cons_of_pos (by simpa using some)]
  rfl

theorem part_add {n a : ℕ} (l : List α) (low : 1 ≤ n) (inside : n + k ≤ a) :
    part l n (a - 1) = (l.drop (n - 1)).take k ++ part l (n + k) (a - 1) := by
  have size : a - 1 + 1 - n = k + (a - 1 + 1 - (n + k)) := by omega
  rw [part, part, size, List.take_add, List.drop_drop, show n - 1 + k = n + k - 1 by omega]

theorem drop_add {n : ℕ} (l : List α) (low : 1 ≤ n) :
    l.drop (n - 1) = (l.drop (n - 1)).take k ++ l.drop (n + k - 1) := by
  rw [show n + k - 1 = n - 1 + k by omega, ← List.drop_drop, List.take_append_drop]

/-- What is the same before the changes may be taken to them. -/
theorem Faithful.before (faithful : Faithful us vs (i + k) (j + k) xs) (low : 1 ≤ i) (low' : 1 ≤ j)
    (same : (us.drop (i - 1)).take k = (vs.drop (j - 1)).take k) : Faithful us vs i j xs := by
  cases faithful with
  | none rest =>
      refine .none ?_
      rw [drop_add us low, drop_add vs low', same, rest]
  | cons old new between inside apart others =>
      refine .cons (by omega) (by omega) ?_ inside apart others
      rw [part_add us low old, part_add vs low' new, same, between]

/-- Lines that are paired in step are the same. -/
theorem take_run (low : 1 ≤ i) (mates : Mates us vs i (i + k - 1) J)
    (run : ∀ x, i ≤ x → x < i + k → J x = J (x - 1) + 1) :
    J (i + k - 1) = J (i - 1) + k ∧
      (us.drop (i - 1)).take k = (vs.drop (J (i - 1))).take k := by
  induction k with
  | zero => exact ⟨rfl, rfl⟩
  | succ k ih =>
      obtain ⟨place, same⟩ := ih (fun x low high => mates x low (by omega))
        fun x low high => run x low (by omega)
      have here := run (i + k) (by omega) (by omega)
      have mate := (mates (i + k) (by omega) (by omega) (by omega)).2
      rw [here, Nat.add_sub_cancel, place] at mate
      refine ⟨?_, ?_⟩
      · rw [← Nat.add_assoc, Nat.add_sub_cancel, here, place]
        rfl
      · rw [List.take_add_one, List.take_add_one, same, List.getElem?_drop, List.getElem?_drop,
          show i - 1 + k = i + k - 1 by omega, mate]

/-- The changes of the loop, forward. If the first line is kept, the first change is behind it. -/
theorem forward_faithful (forth : Forth us vs i J) (scan : forward us.length fuel i J = some xs) :
    Faithful us vs i (J (i - 1) + 1) (busy xs) ∧
      (i ≤ us.length → J i = J (i - 1) + 1 → ∀ y ∈ (busy xs).head?, J (i - 1) + 1 < y.c) := by
  induction fuel generalizing i J xs with
  | zero => cases scan
  | succ fuel ih =>
      rw [forward] at scan
      split at scan
      next behind =>
        obtain rfl := Option.some.inj scan
        obtain rfl : i = us.length + 1 := Nat.le_antisymm forth.high (by omega)
        refine ⟨.none ?_, fun less => absurd less (by omega)⟩
        rw [Nat.add_sub_cancel, Nat.add_sub_cancel, forth.done rfl, List.drop_length,
          List.drop_length]
      next more =>
        dsimp only at scan
        have low := forth.low
        obtain ⟨from_i, most, run, halt⟩ := passKept_spec (J := J) forth.high (Nat.le_refl _)
        generalize passKept us.length J (us.length + 1 - i) i = i₀ at from_i most run halt scan
        obtain ⟨from_kept, inside, gone, halt'⟩ :=
          passGone_spec (n := us.length + 1 - i₀) (J := J) (by omega : i₀ - 1 ≤ us.length)
            (by omega)
        generalize passGone us.length J (us.length + 1 - i₀) (i₀ - 1) = i₁
          at from_kept inside gone halt' scan
        obtain ⟨rest, scanned, rfl⟩ := Option.map_eq_some_iff.mp scan
        have here : J (i₁ + 1) ≠ 0 := by
          rcases Nat.lt_or_eq_of_le inside with less | rfl
          · exact halt' less
          · rw [forth.stop]
            exact Nat.succ_ne_zero _
        have before : J (i₀ - 1) < J (i₁ + 1) :=
          forth.behind_kept from_i most run (by omega) (by omega) here
        have top : J (i₁ + 1) ≤ vs.length + 1 := by
          rw [← forth.stop]
          rcases Nat.lt_or_eq_of_le inside with less | same
          · exact (forth.rising (i₁ + 1) (us.length + 1) (by omega) (by omega) le_rfl here
              (by rw [forth.stop]; exact Nat.succ_ne_zero _)).le
          · rw [same]
        have other : update J i₁ (J (i₁ + 1) - 1) (i₁ + 1) = J (i₁ + 1) :=
          update_of_ne (Nat.succ_ne_self i₁) _ _
        have self : update J i₁ (J (i₁ + 1) - 1) i₁ = J (i₁ + 1) - 1 := update_self _ _ _
        obtain ⟨others, ahead⟩ := ih (forth.next (by omega) inside here) scanned
        rw [Nat.add_sub_cancel, self] at others ahead
        rw [other] at ahead
        have ends : us.length < i₁ + 1 → rest = [] := by
          intro last
          cases fuel with
          | zero => cases scanned
          | succ fuel =>
              rw [forward, if_pos last] at scanned
              exact (Option.some.inj scanned).symm
        obtain ⟨place, same⟩ := take_run (k := i₀ - i) low
          (fun x more most => forth.mates x more (by omega)) fun x more less =>
            run x more (by omega)
        rw [show i + (i₀ - i) - 1 = i₀ - 1 by omega] at place
        by_cases idle : Change.Idle ⟨i₀, i₁, J (i₀ - 1) + 1, J (i₁ + 1) - 1⟩
        · -- nothing is changed at the end
          obtain ⟨less, less'⟩ := idle
          dsimp only at less less'
          rw [busy_cons_idle ⟨less, less'⟩]
          have step : i₁ + 1 = i₀ := by omega
          have last : us.length < i₁ + 1 := by
            refine Nat.lt_of_not_le fun low => halt (by omega) ?_
            rw [← step]
            rw [← step] at before less'
            omega
          rw [ends last] at others ⊢
          refine ⟨Faithful.before (k := i₀ - i) ?_ low (Nat.le_add_left 1 _) same,
            fun _ _ y mem => ?_⟩
          · rwa [show i + (i₀ - i) = i₁ + 1 by omega,
              show J (i - 1) + 1 + (i₀ - i) = J (i₁ + 1) - 1 + 1 by omega]
          · cases mem
        · rw [busy_cons idle]
          refine ⟨.cons from_i (by dsimp only; omega) ?_
            ⟨by dsimp only; omega, by dsimp only; omega,
            inside, Nat.le_add_left 1 _, by dsimp only; omega, by dsimp only; omega⟩ ?_ others, ?_⟩
          · show part us i (i₀ - 1) = part vs (J (i - 1) + 1) (J (i₀ - 1) + 1 - 1)
            rw [part, part, Nat.add_sub_cancel, show i₀ - 1 + 1 - i = i₀ - i by omega, same, place,
              show J (i - 1) + (i₀ - i) + 1 - (J (i - 1) + 1) = i₀ - i by omega, Nat.add_sub_cancel]
          · intro y mem
            by_cases last : us.length < i₁ + 1
            · rw [ends last] at mem
              cases mem
            · exact ahead (by omega) (by omega) y mem
          · intro less step y mem
            obtain rfl := Option.some.inj mem
            have past : i₀ ≠ i := fun same => halt (by omega) (by rwa [same])
            show J (i - 1) + 1 < J (i₀ - 1) + 1
            omega

/-! ## Backward -/

/-- Lines that are paired in step with those behind them are the same. -/
theorem take_run_back (some : J (i + 1) ≠ 0) (mates : Mates us vs (i + 1) (i + k) J)
    (run : ∀ x, i < x → x ≤ i + k → J x = J (x + 1) - 1 ∧ J x ≠ 0) :
    J (i + k + 1) = J (i + 1) + k ∧
      (us.drop i).take k = (vs.drop (J (i + 1) - 1)).take k := by
  induction k with
  | zero => exact ⟨rfl, rfl⟩
  | succ k ih =>
      obtain ⟨place, same⟩ := ih (fun x low high => mates x low (by omega))
        fun x low high => run x low (by omega)
      obtain ⟨step, here⟩ := run (i + k + 1) (by omega) (by omega)
      have mate := (mates (i + k + 1) (by omega) (by omega) here).2
      rw [Nat.add_sub_cancel, place] at mate
      refine ⟨?_, ?_⟩
      · show J (i + k + 1 + 1) = _
        omega
      · rw [List.take_add_one, List.take_add_one, same, List.getElem?_drop, List.getElem?_drop,
          mate, show J (i + 1) - 1 + k = J (i + 1) + k - 1 by omega]

/-- The changes of the loop, backward, before those that are done. The line before these is kept. -/
theorem backward_faithful (back : Back us vs i J) (high : J (i + 1) ≤ vs.length + 1)
    (scan : backward fuel i J = some xs) {done : List Change}
    (faithful : Faithful us vs (i + 1) (J (i + 1)) done)
    (apart : ∀ y ∈ done.head?, i ≠ 0 → J (i + 1) ≤ y.c ∧ J i = J (i + 1) - 1 ∧ J i ≠ 0) :
    Faithful us vs 1 1 ((busy xs).reverse ++ done) := by
  induction fuel generalizing i J xs done with
  | zero => cases scan
  | succ fuel ih =>
      rw [backward] at scan
      split at scan
      next first =>
        obtain rfl := Option.some.inj scan
        obtain rfl : i = 0 := by omega
        rw [back.done rfl] at faithful
        exact faithful
      next more =>
        dsimp only at scan
        obtain ⟨most, run, halt⟩ := backKept_spec J i
        generalize backKept J i = i₀ at most run halt scan
        obtain ⟨one, inside, halt'⟩ := backGone_spec J i₀
        obtain ⟨k, before⟩ : ∃ k, backGone J (i₀ + 1) = k + 1 := ⟨_, (Nat.sub_add_cancel one).symm⟩
        rw [before] at inside halt' scan
        rw [Nat.add_sub_cancel] at halt' scan
        obtain ⟨rest, scanned, rfl⟩ := Option.map_eq_some_iff.mp scan
        have here : k ≠ 0 → J k ≠ 0 := fun some => halt' (by omega)
        have some : J (i₀ + 1) ≠ 0 := by
          rcases Nat.lt_or_eq_of_le most with less | rfl
          · exact (run (i₀ + 1) (by omega) less).2
          · exact back.some
        have order : J k < J (i₀ + 1) := by
          by_cases zero : k = 0
          · rw [zero, back.zero]
            omega
          · exact back.rising k (i₀ + 1) (by omega) (by omega) (by omega) (here zero) some
        have other : update J (k + 1) (J k + 1) k = J k := update_of_ne (by omega) _ _
        have self : update J (k + 1) (J k + 1) (k + 1) = J k + 1 := update_self _ _ _
        obtain ⟨place, same⟩ := take_run_back (k := i - i₀) some
          (fun x low high => back.mates x (by omega) (by omega)) fun x low high =>
            run x low (by omega)
        rw [show i₀ + (i - i₀) + 1 = i + 1 by omega] at place
        have reached : Faithful us vs (i₀ + 1) (J (i₀ + 1)) done := by
          refine Faithful.before (k := i - i₀) ?_ (Nat.le_add_left 1 _) (by omega) same
          rwa [show i₀ + 1 + (i - i₀) = i + 1 by omega, ← place]
        have back' := back.next (by omega : k ≤ i) here
        by_cases idle : Change.Idle ⟨k + 1, i₀, J k + 1, J (i₀ + 1) - 1⟩
        · -- nothing is changed at the beginning
          obtain ⟨less, less'⟩ := idle
          dsimp only at less less'
          obtain rfl : k = i₀ := by omega
          have first : k = 0 := by
            by_contra later
            exact halt (by omega) ⟨by omega, here later⟩
          rw [busy_cons_idle ⟨less, less'⟩]
          refine ih back' (by omega) scanned ?_ fun y mem later => absurd first later
          rwa [self, show J k + 1 = J (k + 1) by omega]
        · rw [busy_cons idle, List.reverse_cons, List.append_assoc]
          refine ih back' (by omega) scanned ?_ fun y mem later => ?_
          · rw [self]
            refine .cons le_rfl le_rfl ?_ ⟨Nat.le_add_left 1 _, inside, most.trans back.high,
              Nat.le_add_left 1 _, by dsimp only; omega, by dsimp only; omega⟩ (fun y mem => ?_) ?_
            · show part us (k + 1) (k + 1 - 1) = part vs (J k + 1) (J k + 1 - 1)
              rw [part, part, Nat.add_sub_cancel, Nat.sub_self, Nat.add_sub_cancel, Nat.sub_self]
              rfl
            · obtain ⟨reach, step, nonzero⟩ := apart y mem (by omega)
              have past : i₀ ≠ i :=
                fun same => halt (by omega) (by rw [same]; exact ⟨step, nonzero⟩)
              show J (i₀ + 1) - 1 + 1 < y.c
              omega
            · show Faithful us vs (i₀ + 1) (J (i₀ + 1) - 1 + 1) done
              rwa [Nat.sub_add_cancel (by omega)]
          · obtain rfl := Option.some.inj mem
            rw [self, other]
            exact ⟨le_rfl, rfl, here later⟩

/-! ## Whole files -/

/-- `J` with its border. -/
def border (m n : ℕ) (J : ℕ → ℕ) : ℕ → ℕ := update (update J 0 0) (m + 1) (n + 1)

theorem border_zero (m n : ℕ) (J : ℕ → ℕ) : border m n J 0 = 0 := by
  rw [border, update_of_ne (Nat.succ_ne_zero _).symm, update_self]

theorem border_stop (m n : ℕ) (J : ℕ → ℕ) : border m n J (m + 1) = n + 1 := by
  rw [border, update_self]

theorem border_same {m n : ℕ} (low : 1 ≤ i) (high : i ≤ m) : border m n J i = J i := by
  rw [border, update_of_ne (by omega), update_of_ne (by omega)]

theorem border_mates (mates : Mates us vs 1 us.length J) :
    Mates us vs 1 us.length (border us.length vs.length J) := by
  intro x low high nonzero
  rw [border_same low high] at nonzero ⊢
  exact mates x low high nonzero

theorem border_rising {m n x y : ℕ} (pairs : Pairs m n J) (low : 1 ≤ x) (less : x < y)
    (high : y ≤ m + 1) (some : border m n J x ≠ 0) (some' : border m n J y ≠ 0) :
    border m n J x < border m n J y := by
  rw [border_same low (by omega)] at some ⊢
  rcases Nat.lt_or_eq_of_le high with inside | rfl
  · rw [border_same (by omega) (by omega)] at some' ⊢
    exact pairs.rising x y low less (by omega) some some'
  · have bound := pairs.inside x low (by omega)
    rw [border_stop]
    omega

/-- The calls of `change` that print something, in the order of the lines. -/
def inOrder (opt : ℤ) (xs : List Change) : List Change :=
  if opt ≠ -1 then busy xs else (busy xs).reverse

/-- The changes of every pairing of equal lines in order are those from the one file to the
other. -/
theorem output_faithful (opt : ℤ) (pairs : Pairs us.length vs.length J)
    (mates : Mates us vs 1 us.length J) (scan : output opt us.length vs.length J = some xs) :
    Faithful us vs 1 1 (inOrder opt xs) := by
  rw [output] at scan
  dsimp only at scan
  rcases Nat.eq_zero_or_pos us.length with none | some
  · obtain rfl := List.length_eq_zero_iff.mp none
    obtain rfl : [⟨1, 0, 1, vs.length⟩] = xs := by
      split at scan <;> exact Option.some.inj scan
    rcases Nat.eq_zero_or_pos vs.length with none' | more
    · obtain rfl := List.length_eq_zero_iff.mp none'
      rw [inOrder]
      split <;> exact .none rfl
    · have some : ¬Change.Idle ⟨1, 0, 1, vs.length⟩ := fun idle => by
        have empty : vs.length < 1 := idle.2
        omega
      have one : inOrder opt [⟨1, 0, 1, vs.length⟩] = [⟨1, 0, 1, vs.length⟩] := by
        rw [inOrder, busy_cons some]
        split <;> rfl
      rw [one]
      refine .cons le_rfl le_rfl rfl ⟨le_rfl, le_rfl, le_rfl, le_rfl, by dsimp only; omega, le_rfl⟩
        (fun y mem => by cases mem) (.none ?_)
      rw [List.drop_nil, List.drop_of_length_le (by dsimp only; omega)]
  · have zero := border_zero us.length vs.length J
    have stop := border_stop us.length vs.length J
    have order := fun x y low less high => border_rising (x := x) (y := y) pairs low less high
    rw [inOrder]
    by_cases normal : opt ≠ -1
    · rw [if_pos normal] at scan ⊢
      obtain ⟨ys, scanned, last⟩ := Option.bind_eq_some_iff.mp scan
      rw [if_neg (Nat.ne_of_gt some)] at last
      obtain rfl := Option.some.inj last
      have forth : Forth us vs 1 (border us.length vs.length J) :=
        ⟨le_rfl, Nat.le_add_left 1 _, stop, border_mates mates, fun y low high nonzero => by
          rw [Nat.sub_self, zero]; omega, order, fun none => by omega⟩
      have faithful := (forward_faithful forth scanned).1
      rwa [Nat.sub_self, zero] at faithful
    · rw [if_neg normal] at scan ⊢
      obtain ⟨ys, scanned, last⟩ := Option.bind_eq_some_iff.mp scan
      rw [if_neg (Nat.ne_of_gt some)] at last
      obtain rfl := Option.some.inj last
      have back : Back us vs us.length (border us.length vs.length J) :=
        ⟨le_rfl, zero, by rw [stop]; exact Nat.succ_ne_zero _, border_mates mates, order,
          fun none => by omega⟩
      have done : Faithful us vs (us.length + 1)
          (border us.length vs.length J (us.length + 1)) [] := by
        refine .none ?_
        rw [stop, Nat.add_sub_cancel, Nat.add_sub_cancel, List.drop_length, List.drop_length]
      have faithful := backward_faithful back stop.le scanned done fun y mem => by cases mem
      rwa [List.append_nil] at faithful

theorem Faithful.inside (faithful : Faithful us vs i j xs) :
    ∀ x ∈ xs, x.Inside us.length vs.length := by
  induction faithful with
  | none => exact List.forall_mem_nil _
  | cons _ _ _ inside _ _ ih => exact List.forall_mem_cons.mpr ⟨inside, ih⟩

/-! ## The report -/

variable {old new : List (List ℕ)} {s : Reading}

theorem not_idle_of_mem (mem : x ∈ busy xs) : ¬x.Idle := by
  have some := (List.mem_filter.mp mem).2
  simpa using some

theorem mem_inOrder {opt : ℤ} : x ∈ inOrder opt xs ↔ x ∈ busy xs := by
  rw [inOrder]
  split
  · rfl
  · exact List.mem_reverse

theorem text_flatMap {β : Type*} (f : β → List (List ℕ)) (l : List β) :
    text (l.flatMap f) = l.flatMap fun b => text (f b) := by
  rw [text, List.flatMap_assoc]
  rfl

/-- Calls that return at once print nothing. -/
theorem flatMap_busy {β : Type*} (f : Change → List β) (none : ∀ x, x.Idle → f x = [])
    (xs : List Change) : xs.flatMap f = (busy xs).flatMap f := by
  induction xs with
  | nil => rfl
  | cons x xs ih =>
      by_cases idle : x.Idle
      · rw [List.flatMap_cons, none x idle, busy_cons_idle idle, ih]
        rfl
      · rw [List.flatMap_cons, busy_cons idle, List.flatMap_cons, ih]

/-- The lines that are left paired are equal, and still in order. -/
theorem left_mates (pairs : Pairs old.length new.length J)
    (done : ∀ i, 1 ≤ i → i ≤ old.length →
      s.J i = if Equal false old new i (J i) then J i else 0) :
    Pairs old.length new.length s.J ∧ Mates old new 1 old.length s.J := by
  have left : ∀ i, 1 ≤ i → i ≤ old.length → s.J i ≠ 0 →
      s.J i = J i ∧ Equal false old new i (s.J i) := by
    intro i low high nonzero
    have here := done i low high
    split at here
    next equal => exact ⟨here, here ▸ equal⟩
    next => exact absurd here nonzero
  have inside : ∀ i, 1 ≤ i → i ≤ old.length → s.J i ≤ new.length := by
    intro i low high
    rw [done i low high]
    split
    · exact pairs.inside i low high
    · exact Nat.zero_le _
  refine ⟨⟨inside, fun i j low less high some some' => ?_⟩, fun i low high some => ⟨high, ?_⟩⟩
  · have here := (left i low (by omega) some).1
    have there := (left j (by omega) high some').1
    rw [here] at some ⊢
    rw [there] at some' ⊢
    exact pairs.rising i j low less high some some'
  · have equal := (left i low high some).2
    have bound := inside i low high
    rw [Equal, List.getD_eq_getElem _ _ (by omega), List.getD_eq_getElem _ _ (by omega)] at equal
    rw [List.getElem?_eq_getElem (by omega), List.getElem?_eq_getElem (by omega)]
    exact congrArg Option.some equal

/-- What `diff` prints is the lines of its changes, and these are the changes from the one file to
the other. -/
theorem report_spec (opt : ℤ) (plain : ∀ line ∈ old, newline ∉ line)
    (plain' : ∀ line ∈ new, newline ∉ line) :
    ∃ xs, report false opt (text old) (text new) =
        some (text (xs.flatMap (Change.lines opt old new))) ∧
      (∀ x ∈ xs, ¬x.Idle) ∧ Faithful old new 1 1 (if opt ≠ -1 then xs else xs.reverse) := by
  obtain ⟨us, length, -, prepared⟩ := prepare_lines false plain
  obtain ⟨vs, length', nonzero, prepared'⟩ := prepare_lines false plain'
  obtain ⟨J, ps, found, common, unraveled, -⟩ := matching_spec us nonzero
  have pairs : Pairs old.length new.length J := by
    rw [← length, ← length']
    exact ⟨fun i low high => unraveled.le_length common low high,
      fun i j low less high some some' => unraveled.rising common low less high some some'⟩
  obtain ⟨s, xs, checked, scan, done, ixold, ixnew, -, -, -⟩ :=
    script_spec false opt plain plain' pairs
  obtain ⟨pairs', mates⟩ := left_mates pairs done
  have faithful := output_faithful opt pairs' mates scan
  have enough : ∀ lines : List (List ℕ), lines.length < (text lines).length + 1 :=
    fun lines => Nat.lt_succ_of_le (length_le_text lines)
  have whole := prepared [] _ List.not_mem_nil (enough old)
  have whole' := prepared' [] _ List.not_mem_nil (enough new)
  rw [List.append_nil] at whole whole'
  refine ⟨busy xs, ?_, fun x mem => not_idle_of_mem mem, faithful⟩
  rw [report, whole, whole']
  simp only [Option.bind_eq_bind, Option.bind_some, found]
  rw [length, length', checked]
  simp only [Option.bind_some, scan]
  rw [text_flatMap, flatMap_busy (Change.print opt s (text old) (text new))
    fun x idle => if_pos idle]
  refine congrArg Option.some (List.flatMap_congr fun x mem => ?_)
  exact print_eq opt ixold ixnew (faithful.inside x (mem_inOrder.mpr mem))

end Diff

end UnixV7
