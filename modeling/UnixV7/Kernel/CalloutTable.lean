import UnixV7.Kernel.Clock
import Mathlib.Data.List.GetD

/-!
# The end of the callout table

`timeout` looks at the place where it inserts, not at the end of the table, which it moves up. Here
the table lies in memory, and `timeout` is followed slot by slot, so that it may write behind the
table.
-/

namespace UnixV7

namespace Callout

open Function

variable {φ α : Type*} {mem : ℕ → Callo φ α} {r : Request φ α} {fuel n k i p1 : ℕ} {t : ℤ}

/-- What a call of `timeout` does: it panics, it writes slots, or the walk along the table does not
end. -/
inductive Outcome (φ α : Type*)
  | panic
  | wrote (mem : ℕ → Callo φ α) (slots : List ℕ)
  | lost

/-- The walk of `p1` to the place of the new function, and what is left of its time. -/
def seek (mem : ℕ → Callo φ α) : ℕ → ℤ → ℕ → Option (ℕ × ℤ)
  | 0, _, _ => none
  | fuel + 1, t, p1 =>
      if (mem p1).c_func.isSome ∧ (mem p1).c_time ≤ t then
        seek mem fuel (t - (mem p1).c_time) (p1 + 1)
      else
        some (p1, t)

/-- The walk of `p2` to the end of the table. -/
def findEnd (mem : ℕ → Callo φ α) : ℕ → ℕ → Option ℕ
  | 0, _ => none
  | fuel + 1, p2 => if (mem p2).c_func.isSome then findEnd mem fuel (p2 + 1) else some p2

/-- `k` slots from `p1` on are copied to the next one each, from the last one down. -/
def moveUp (p1 : ℕ) : ℕ → (ℕ → Callo φ α) → ℕ → Callo φ α
  | 0, mem => mem
  | k + 1, mem => moveUp p1 k (update mem (p1 + k + 1) (mem (p1 + k)))

/-- `timeout` on the memory from `callout` on; the slots written are listed in their order. -/
def timeoutAt (r : Request φ α) (fuel : ℕ) (mem : ℕ → Callo φ α) : Outcome φ α :=
  match seek mem fuel r.tim 0 with
  | none => .lost
  | some (p1, t) =>
      if NCALL - 1 ≤ p1 then
        .panic
      else
        let mem := update mem p1 { mem p1 with c_time := (mem p1).c_time - t }
        match findEnd mem fuel p1 with
        | none => .lost
        | some p2 =>
            .wrote (update (moveUp p1 (p2 + 1 - p1) mem) p1 ⟨t, r.arg, some r.func⟩)
              (p1 :: (List.range' (p1 + 1) (p2 + 1 - p1)).reverse ++ [p1])

/-- The table ends at slot `n`. -/
structure Ends (mem : ℕ → Callo φ α) (n : ℕ) : Prop where
  before : ∀ i < n, (mem i).c_func.isSome
  here : (mem n).c_func = none

/-- The table ends within the array. -/
def Closed (mem : ℕ → Callo φ α) : Prop := ∃ n < NCALL, Ends mem n

/-- `timeout` panics, or writes slots of the array only and leaves the table with an end within
it. -/
def Fits (mem : ℕ → Callo φ α) (r : Request φ α) : Prop :=
  match timeoutAt r (NCALL + 1) mem with
  | .panic => True
  | .wrote mem' slots => (∀ i ∈ slots, i < NCALL) ∧ ∃ n < NCALL, (mem' n).c_func = none
  | .lost => False

/-- There is a slot behind the end of the table, or no function in it is due later than the new
one. -/
def Room (mem : ℕ → Callo φ α) (r : Request φ α) : Prop :=
  ∃ n, Ends mem n ∧ (n + 1 < NCALL ∨ ∃ t, seek mem (NCALL + 1) r.tim 0 = some (n, t))

/-- The array as a list. -/
def table (mem : ℕ → Callo φ α) : List (Callo φ α) := (List.range NCALL).map mem

/-- The array is changed, and the memory behind it is not. -/
def overlay (callout : List (Callo φ α)) (mem : ℕ → Callo φ α) (i : ℕ) : Callo φ α :=
  callout.getD i (mem i)

/-- The memory after calls of `timeout` that find room, by themselves or from functions that
`clock` calls. -/
inductive Reached : (ℕ → Callo φ α) → Prop
  | start {mem : ℕ → Callo φ α} : (∀ i < NCALL, (mem i).c_func = none) → Reached mem
  | timeout {mem mem' : ℕ → Callo φ α} {r : Request φ α} {slots : List ℕ} : Reached mem →
      Room mem r → timeoutAt r (NCALL + 1) mem = .wrote mem' slots → Reached mem'
  | clock {mem : ℕ → Callo φ α} {doings : List (List (Request φ α))}
      {callout : List (Callo φ α)} {called : List (φ × α)} : Reached mem →
      clock doings (table mem) = some (callout, called) → Reached (overlay callout mem)

/-! ## timeout -/

theorem Ends.unique {m : ℕ} (ends : Ends mem n) (other : Ends mem m) : n = m := by
  rcases Nat.lt_trichotomy n m with less | same | more
  · have some := other.before n less
    rw [ends.here] at some
    cases some
  · exact same
  · have some := ends.before m more
    rw [other.here] at some
    cases some

/-- The place of the new function is in the table or at its end. -/
theorem seek_spec (ends : Ends mem n) (le : p1 ≤ n) (enough : n < fuel + p1) (t : ℤ) :
    ∃ q t', seek mem fuel t p1 = some (q, t') ∧ p1 ≤ q ∧ q ≤ n := by
  induction fuel generalizing p1 t with
  | zero => omega
  | succ fuel ih =>
      rw [seek]
      split
      next more =>
        have inner : p1 ≠ n := by
          rintro rfl
          rw [ends.here] at more
          cases more.1
        obtain ⟨q, t', found, low, high⟩ := ih (show p1 + 1 ≤ n by omega) (by omega)
          (t - (mem p1).c_time)
        exact ⟨q, t', found, by omega, high⟩
      next => exact ⟨p1, t, rfl, Nat.le_refl _, le⟩

theorem findEnd_spec (ends : Ends mem n) (le : p1 ≤ n) (enough : n < fuel + p1) :
    findEnd mem fuel p1 = some n := by
  induction fuel generalizing p1 with
  | zero => omega
  | succ fuel ih =>
      rw [findEnd]
      rcases Nat.lt_or_eq_of_le le with less | rfl
      · rw [if_pos (ends.before p1 less)]
        exact ih (by omega) (by omega)
      · rw [if_neg (by simp [ends.here])]

theorem moveUp_apply (p1 k : ℕ) (mem : ℕ → Callo φ α) (i : ℕ) :
    moveUp p1 k mem i = if p1 < i ∧ i ≤ p1 + k then mem (i - 1) else mem i := by
  induction k generalizing mem with
  | zero => rw [moveUp, if_neg (by omega)]
  | succ k ih =>
      rw [moveUp, ih]
      rcases Nat.lt_trichotomy i (p1 + k + 1) with less | rfl | more
      · rw [update_of_ne (by omega), update_of_ne (by omega)]
        refine if_congr ?_ rfl rfl
        omega
      · rw [if_neg (by omega), if_pos (by omega), update_self]
        congr 1
      · rw [if_neg (by omega), if_neg (by omega), update_of_ne (by omega)]

theorem seek_le {q : ℕ} {t' : ℤ} (found : seek mem fuel t p1 = some (q, t')) : p1 ≤ q := by
  induction fuel generalizing p1 t with
  | zero => cases found
  | succ fuel ih =>
      rw [seek] at found
      split at found
      · exact Nat.le_of_succ_le (ih found)
      · exact Nat.le_of_eq (Prod.mk.inj (Option.some.inj found)).1

/-- The time that is taken from a slot does not change where the table ends. -/
theorem Ends.lessen (ends : Ends mem n) (p1 : ℕ) (t : ℤ) :
    Ends (update mem p1 { mem p1 with c_time := (mem p1).c_time - t }) n := by
  have func : ∀ i, (update mem p1 { mem p1 with c_time := (mem p1).c_time - t } i).c_func =
      (mem i).c_func := by
    intro i
    by_cases same : i = p1
    · rw [same, update_self]
    · rw [update_of_ne same]
  exact ⟨fun i less => by rw [func]; exact ends.before i less, by rw [func]; exact ends.here⟩

/-- `timeout` on a table that ends at slot `n`. -/
theorem timeoutAt_spec (ends : Ends mem n) (enough : n < fuel) (r : Request φ α) :
    ∃ p1 t, seek mem fuel r.tim 0 = some (p1, t) ∧ p1 ≤ n ∧
      ((NCALL - 1 ≤ p1 ∧ timeoutAt r fuel mem = .panic) ∨
        p1 < NCALL - 1 ∧ ∃ mem' slots, timeoutAt r fuel mem = .wrote mem' slots ∧
          (∀ i, i ∈ slots ↔ p1 ≤ i ∧ i ≤ n + 1) ∧ Ends mem' (n + 1) ∧
          ∀ i, mem' i = if i = p1 then ⟨t, r.arg, some r.func⟩
            else if p1 < i ∧ i ≤ n + 1 then
              (if i - 1 = p1 then { mem p1 with c_time := (mem p1).c_time - t } else mem (i - 1))
            else mem i) := by
  obtain ⟨p1, t, found, -, le⟩ := seek_spec ends (Nat.zero_le n) (by omega) r.tim
  refine ⟨p1, t, found, le, ?_⟩
  cases Nat.decLe (NCALL - 1) p1 with
  | isTrue full =>
      refine .inl ⟨full, ?_⟩
      simp only [timeoutAt, found, if_pos full]
  | isFalse inside =>
      refine .inr ⟨Nat.lt_of_not_le inside, ?_⟩
      let mem₁ := update mem p1 { mem p1 with c_time := (mem p1).c_time - t }
      have ends₁ : Ends mem₁ n := ends.lessen p1 t
      have values : ∀ i, update (moveUp p1 (n + 1 - p1) mem₁) p1 ⟨t, r.arg, some r.func⟩ i =
          if i = p1 then ⟨t, r.arg, some r.func⟩
          else if p1 < i ∧ i ≤ n + 1 then
            (if i - 1 = p1 then { mem p1 with c_time := (mem p1).c_time - t } else mem (i - 1))
          else mem i := by
        intro i
        by_cases new : i = p1
        · rw [if_pos new, new, update_self]
        · rw [if_neg new, update_of_ne new, moveUp_apply, show p1 + (n + 1 - p1) = n + 1 by omega]
          split
          · exact update_apply _ _ _ _
          · exact update_of_ne new _ _
      refine ⟨update (moveUp p1 (n + 1 - p1) mem₁) p1 ⟨t, r.arg, some r.func⟩,
        p1 :: (List.range' (p1 + 1) (n + 1 - p1)).reverse ++ [p1], ?_, ?_, ⟨?_, ?_⟩, values⟩
      · simp only [timeoutAt, found, if_neg inside]
        rw [findEnd_spec ends₁ le (by omega)]
      · intro i
        simp only [List.cons_append, List.mem_cons, List.mem_append, List.mem_reverse,
          List.mem_range'_1, List.not_mem_nil, or_false]
        omega
      · intro i less
        rw [values]
        split
        · rfl
        · split
          · split
            · exact ends.before p1 (by omega)
            · exact ends.before (i - 1) (by omega)
          · exact ends.before i (by omega)
      · rw [values, if_neg (by omega), if_pos (by omega)]
        split
        next same =>
          obtain rfl : n = p1 := same
          exact ends.here
        next => exact ends.here

/-- On a closed table, `timeout` fits exactly when there is room. -/
theorem fits_iff_room (closed : Closed mem) (r : Request φ α) : Fits mem r ↔ Room mem r := by
  obtain ⟨n, inside, ends⟩ := closed
  obtain ⟨p1, t, found, le, outcome⟩ := timeoutAt_spec ends (Nat.lt_succ_of_lt inside) r
  have room : Room mem r ↔ n + 1 < NCALL ∨ p1 = n := by
    constructor
    · rintro ⟨m, other, space⟩
      obtain rfl := ends.unique other
      rcases space with space | ⟨t', again⟩
      · exact .inl space
      · rw [found] at again
        exact .inr (Prod.mk.inj (Option.some.inj again)).1
    · rintro (space | rfl)
      · exact ⟨n, ends, .inl space⟩
      · exact ⟨p1, ends, .inr ⟨t, found⟩⟩
  rw [room, Fits]
  rcases outcome with ⟨full, panics⟩ | ⟨early, mem', slots, wrote, slots_iff, ends', -⟩
  · rw [panics]
    have : p1 = n := by omega
    exact iff_of_true trivial (.inr this)
  · rw [wrote]
    constructor
    · rintro ⟨bound, -⟩
      exact .inl (bound (n + 1) ((slots_iff _).mpr ⟨by omega, Nat.le_refl _⟩))
    · intro space
      have space : n + 1 < NCALL := by omega
      exact ⟨fun i mem => Nat.lt_of_le_of_lt ((slots_iff i).mp mem).2 space, n + 1, space,
        ends'.here⟩

/-! ## The array as a list -/

/-- `n` slots from `p1` on. -/
def slots (mem : ℕ → Callo φ α) (p1 n : ℕ) : List (Callo φ α) := (List.range' p1 n).map mem

theorem slots_succ (mem : ℕ → Callo φ α) (p1 n : ℕ) :
    slots mem p1 (n + 1) = mem p1 :: slots mem (p1 + 1) n := by
  rw [slots, List.range'_succ, List.map_cons]
  rfl

theorem slots_congr {mem' : ℕ → Callo φ α} (same : ∀ i, p1 ≤ i → mem i = mem' i) :
    slots mem p1 k = slots mem' p1 k := by
  refine List.map_congr_left fun i inside => same i ?_
  exact (List.mem_range'_1.mp inside).1

theorem table_eq_slots (mem : ℕ → Callo φ α) : table mem = slots mem 0 NCALL := by
  rw [table, slots, List.range_eq_range']

/-- The slots move up by one as far as the end of the table. -/
theorem shift_slots (ends : Ends mem n) (le : p1 ≤ n) (room : n + 1 < p1 + (k + 1)) :
    shift (slots mem p1 (k + 1)) =
      some (slots (fun i => if i ≤ n + 1 then mem (i - 1) else mem i) (p1 + 1) k) := by
  induction k generalizing p1 with
  | zero => omega
  | succ k ih =>
      rw [slots_succ, shift.eq_def]
      cases Nat.lt_or_eq_of_le le with
      | inl less =>
          obtain ⟨func, here⟩ := Option.isSome_iff_exists.mp (ends.before p1 less)
          have rest := ih (show p1 + 1 ≤ n from less) (by omega)
          simp only [here, rest, Option.map_some]
          rw [slots_succ _ (p1 + 1), if_pos (by omega), Nat.add_sub_cancel]
      | inr same =>
          subst same
          rw [slots_succ]
          simp only [ends.here]
          rw [slots_succ _ (p1 + 1), if_pos (Nat.le_refl _), Nat.add_sub_cancel]
          refine congrArg (fun l => some (mem p1 :: l)) (slots_congr fun i beyond => ?_)
          rw [if_neg (by omega)]

/-- While the end of the table can move up, `timeout` on the memory is `timeout` on the list. -/
theorem timeout_table {mem' : ℕ → Callo φ α} {written : List ℕ} (ends : Ends mem n)
    (room : n + 1 < NCALL) (wrote : timeoutAt r (NCALL + 1) mem = .wrote mem' written) :
    timeout r (table mem) = some (table mem') := by
  obtain ⟨q, t', found, le, outcome⟩ := timeoutAt_spec ends (by omega : n < NCALL + 1) r
  rcases outcome with ⟨-, panics⟩ | ⟨-, mem₁, slots₁, wrote₁, -, -, values⟩
  · rw [panics] at wrote
    cases wrote
  rw [wrote₁] at wrote
  obtain ⟨rfl, -⟩ := Outcome.wrote.inj wrote
  have walk : ∀ (fuel k p1 : ℕ) (t : ℤ), seek mem fuel t p1 = some (q, t') → p1 + k = NCALL →
      p1 ≤ q ∧ timeoutFrom r.func r.arg t (slots mem p1 k) = some (slots mem₁ p1 k) := by
    intro fuel
    induction fuel with
    | zero => simp [seek]
    | succ fuel ih =>
        intro k p1 t found total
        rw [seek] at found
        split at found
        next later =>
          have inner : p1 + 1 ≤ q := seek_le found
          obtain ⟨k, rfl⟩ : ∃ k', k = k' + 1 := ⟨k - 1, by omega⟩
          obtain ⟨-, rest⟩ := ih k (p1 + 1) _ found (by omega)
          refine ⟨by omega, ?_⟩
          rw [slots_succ, timeoutFrom, if_pos later, rest, Option.map_some, slots_succ, values p1,
            if_neg (by omega), if_neg (by omega)]
        next here =>
          obtain ⟨rfl, rfl⟩ := Prod.mk.inj (Option.some.inj found)
          obtain ⟨k, rfl⟩ : ∃ k', k = k' + 2 := ⟨k - 2, by omega⟩
          refine ⟨Nat.le_refl _, ?_⟩
          let mem₂ := update mem p1 { mem p1 with c_time := (mem p1).c_time - t }
          have ends₂ : Ends mem₂ n := ends.lessen p1 t
          have behind : slots mem (p1 + 1) (k + 1) = slots mem₂ (p1 + 1) (k + 1) :=
            slots_congr fun i beyond => (update_of_ne (by omega) _ _).symm
          have whole : { mem p1 with c_time := (mem p1).c_time - t } :: slots mem (p1 + 1) (k + 1) =
              slots mem₂ p1 (k + 1 + 1) := by
            rw [behind, slots_succ mem₂ p1, show mem₂ p1 = _ from update_self _ _ _]
          rw [slots_succ, timeoutFrom, if_neg here, if_neg (by simp [slots_succ]), whole,
            shift_slots ends₂ le (by omega), Option.map_some, slots_succ mem₁, values p1,
            if_pos rfl]
          refine congrArg (fun l => some (_ :: l)) (slots_congr fun i beyond => ?_)
          have new : i ≠ p1 := by omega
          rw [values, if_neg new]
          refine if_congr (by omega) ?_ (update_of_ne new _ _)
          exact update_apply _ _ _ _
  rw [table_eq_slots, table_eq_slots]
  exact (walk _ _ _ _ found (Nat.zero_add _)).2

/-- The array has its length, and a slot without a function. -/
structure Whole (callout : List (Callo φ α)) : Prop where
  length : callout.length = NCALL
  halt : ∃ e ∈ callout, e.c_func = none

theorem closed_iff : Closed mem ↔ ∃ n < NCALL, (mem n).c_func = none := by
  constructor
  · rintro ⟨n, inside, ends⟩
    exact ⟨n, inside, ends.here⟩
  · intro halt
    refine ⟨Nat.find halt, (Nat.find_spec halt).1, fun i before => ?_, (Nat.find_spec halt).2⟩
    have other := Nat.find_min halt before
    have inside := before.trans (Nat.find_spec halt).1
    exact Option.isSome_iff_ne_none.mpr fun none => other ⟨inside, none⟩

theorem whole_table (closed : Closed mem) : Whole (table mem) := by
  obtain ⟨n, inside, ends⟩ := closed
  refine ⟨by rw [table, List.length_map, List.length_range], mem n, ?_, ends.here⟩
  exact List.mem_map_of_mem (List.mem_range.mpr inside)

theorem Whole.closed {callout : List (Callo φ α)} (whole : Whole callout) (mem : ℕ → Callo φ α) :
    Closed (overlay callout mem) := by
  obtain ⟨e, inside, halt⟩ := whole.halt
  obtain ⟨n, less, rfl⟩ := List.getElem_of_mem inside
  refine closed_iff.mpr ⟨n, whole.length ▸ less, ?_⟩
  rw [overlay, List.getD_eq_getElem _ _ less, halt]

theorem shift_whole {l l' : List (Callo φ α)} (moved : shift l = some l') :
    l'.length + 1 = l.length ∧ ∃ e ∈ l', e.c_func = none := by
  induction l generalizing l' with
  | nil => cases moved
  | cons p2 rest ih =>
      rw [shift.eq_def] at moved
      cases func : p2.c_func with
      | none =>
          cases rest with
          | nil => simp [func] at moved
          | cons p3 rest =>
              simp only [func, Option.some.injEq] at moved
              subst moved
              exact ⟨rfl, p2, List.mem_cons_self, func⟩
      | some f =>
          simp only [func, Option.map_eq_some_iff] at moved
          obtain ⟨l', moved, rfl⟩ := moved
          obtain ⟨length, e, inside, halt⟩ := ih moved
          exact ⟨congrArg (· + 1) length, e, List.mem_cons_of_mem _ inside, halt⟩

theorem timeoutFrom_whole {func : φ} {arg : α} {l l' : List (Callo φ α)}
    (called : timeoutFrom func arg t l = some l') :
    l'.length = l.length ∧ ∃ e ∈ l', e.c_func = none := by
  induction l generalizing t l' with
  | nil => cases called
  | cons p1 rest ih =>
      rw [timeoutFrom] at called
      split_ifs at called
      · obtain ⟨l', later, rfl⟩ := Option.map_eq_some_iff.mp called
        obtain ⟨length, e, inside, halt⟩ := ih later
        exact ⟨congrArg (· + 1) length, e, List.mem_cons_of_mem _ inside, halt⟩
      · obtain ⟨l', moved, rfl⟩ := Option.map_eq_some_iff.mp called
        obtain ⟨length, e, inside, halt⟩ := shift_whole moved
        exact ⟨length, e, List.mem_cons_of_mem _ inside, halt⟩

theorem Whole.timeouts {rs : List (Request φ α)} {l l' : List (Callo φ α)} (whole : Whole l)
    (called : Callout.timeouts rs l = some l') : Whole l' := by
  induction rs generalizing l with
  | nil =>
      cases called
      exact whole
  | cons r rs ih =>
      obtain ⟨l₁, first, rest⟩ := Option.bind_eq_some_iff.mp called
      obtain ⟨length, halt⟩ := timeoutFrom_whole first
      exact ih ⟨length.trans whole.length, halt⟩ rest

theorem countDown_func {l l' : List (Callo φ α)} (counted : countDown l = some l') :
    l'.map Callo.c_func = l.map Callo.c_func := by
  induction l generalizing l' with
  | nil => cases counted
  | cons p2 rest ih =>
      rw [countDown] at counted
      split_ifs at counted
      · obtain ⟨l', later, rfl⟩ := Option.map_eq_some_iff.mp counted
        rw [List.map_cons, List.map_cons, ih later]
      · cases counted
        rfl

theorem Whole.countDown {l l' : List (Callo φ α)} (whole : Whole l)
    (counted : Callout.countDown l = some l') : Whole l' := by
  have funcs := countDown_func counted
  obtain ⟨e, inside, halt⟩ := whole.halt
  refine ⟨?_, ?_⟩
  · rw [← whole.length, ← List.length_map (f := Callo.c_func), funcs, List.length_map]
  · have none : (none : Option φ) ∈ l'.map Callo.c_func := by
      rw [funcs, ← halt]
      exact List.mem_map_of_mem inside
    obtain ⟨e', inside', halt'⟩ := List.mem_map.mp none
    exact ⟨e', inside', halt'⟩

theorem Whole.calls {doings : List (List (Request φ α))} {l l' : List (Callo φ α)}
    {called : List (φ × α)} {p : ℕ} (whole : Whole l)
    (walked : Callout.calls fuel p1 doings l = some (p, l', called)) : Whole l' := by
  induction fuel generalizing p1 doings l called with
  | zero => cases walked
  | succ fuel ih =>
      rw [Callout.calls] at walked
      cases here : l[p1]? with
      | none => simp [here] at walked
      | some e =>
          cases func : e.c_func with
          | none =>
              simp only [here, func, Option.some.injEq, Prod.mk.injEq] at walked
              exact walked.2.1 ▸ whole
          | some f =>
              simp only [here, func] at walked
              split_ifs at walked
              · obtain ⟨l₁, asked, walked⟩ := Option.bind_eq_some_iff.mp walked
                obtain ⟨⟨p', l₂, called'⟩, later, same⟩ := Option.map_eq_some_iff.mp walked
                simp only [Prod.mk.injEq] at same
                obtain ⟨rfl, rfl, -⟩ := same
                exact ih (whole.timeouts asked) later
              · simp only [Option.some.injEq, Prod.mk.injEq] at walked
                exact walked.2.1 ▸ whole

theorem closeUp_whole {dst src l' : List (Callo φ α)} (closed : closeUp dst src = some l') :
    l'.length = dst.length ∧ ∃ e ∈ l', e.c_func = none := by
  induction dst generalizing src l' with
  | nil => cases closed
  | cons p2 rest ih =>
      cases src with
      | nil => cases closed
      | cons p1 src =>
          rw [closeUp] at closed
          cases func : p1.c_func with
          | none =>
              simp only [func, Option.some.injEq] at closed
              subst closed
              exact ⟨rfl, _, List.mem_cons_self, rfl⟩
          | some f =>
              simp only [func, Option.map_eq_some_iff] at closed
              obtain ⟨l', closed, rfl⟩ := closed
              obtain ⟨length, e, inside, halt⟩ := ih closed
              exact ⟨congrArg (· + 1) length, e, List.mem_cons_of_mem _ inside, halt⟩

theorem Whole.expire {doings : List (List (Request φ α))} {l l' : List (Callo φ α)}
    {called : List (φ × α)} (whole : Whole l)
    (expired : Callout.expire doings l = some (l', called)) : Whole l' := by
  cases l with
  | nil => cases expired
  | cons e rest =>
      rw [Callout.expire] at expired
      split_ifs at expired
      · obtain ⟨⟨p1, l₁, called₁⟩, walked, expired⟩ := Option.bind_eq_some_iff.mp expired
        obtain ⟨l₂, closed, same⟩ := Option.map_eq_some_iff.mp expired
        obtain ⟨rfl, -⟩ := Prod.mk.inj same
        obtain ⟨length, halt⟩ := closeUp_whole closed
        exact ⟨length.trans (whole.calls walked).length, halt⟩
      · obtain ⟨rfl, -⟩ := Prod.mk.inj (Option.some.inj expired)
        exact whole

/-- `clock` keeps an end in the table. -/
theorem Whole.clock {doings : List (List (Request φ α))} {l l' : List (Callo φ α)}
    {called : List (φ × α)} (whole : Whole l)
    (ticked : Callout.clock doings l = some (l', called)) : Whole l' := by
  cases l with
  | nil => cases ticked
  | cons e rest =>
      rw [Callout.clock] at ticked
      split_ifs at ticked
      · obtain ⟨rfl, -⟩ := Prod.mk.inj (Option.some.inj ticked)
        exact whole
      · obtain ⟨l₁, counted, expired⟩ := Option.bind_eq_some_iff.mp ticked
        exact (whole.countDown counted).expire expired

/-! ## Runs -/

/-- `timeout` with room keeps the end of the table within the array. -/
theorem Closed.timeout {mem' : ℕ → Callo φ α} {written : List ℕ} (closed : Closed mem)
    (room : Room mem r) (wrote : timeoutAt r (NCALL + 1) mem = .wrote mem' written) :
    Closed mem' := by
  have fits := (fits_iff_room closed r).mpr room
  rw [Fits, wrote] at fits
  exact closed_iff.mpr fits.2

theorem Reached.closed (reached : Reached mem) : Closed mem := by
  induction reached with
  | start empty => exact closed_iff.mpr ⟨0, by decide, empty 0 (by decide)⟩
  | timeout _ room wrote ih => exact ih.timeout room wrote
  | clock _ ticked ih => exact ((whole_table ih).clock ticked).closed _

/-- In every state that calls with room lead to, a further `timeout` panics or stays within the
array, exactly when it finds room. -/
theorem reached_fits (reached : Reached mem) (r : Request φ α) : Fits mem r ↔ Room mem r :=
  fits_iff_room reached.closed r

/-- The memory before the first call. -/
def blank (_ : ℕ) : Callo ℕ ℕ := ⟨0, 0, none⟩

/-- The memory after `k` calls of `timeout` with one time. -/
def asked : ℕ → ℕ → Callo ℕ ℕ
  | 0 => blank
  | k + 1 =>
      match timeoutAt ⟨1, 0, 5⟩ (NCALL + 1) (asked k) with
      | .wrote mem _ => mem
      | _ => asked k

theorem asked_spec (k : ℕ) (few : k + 1 < NCALL) :
    Reached (asked (k + 1)) ∧ Ends (asked (k + 1)) (k + 1) ∧ (asked (k + 1) 0).c_time = 5 := by
  induction k with
  | zero =>
      have ends : Ends blank 0 := ⟨by simp, rfl⟩
      obtain ⟨p1, t, found, le, outcome⟩ := timeoutAt_spec ends (by decide : 0 < NCALL + 1)
        (⟨1, 0, 5⟩ : Request ℕ ℕ)
      rcases outcome with ⟨full, -⟩ | ⟨-, mem', written, wrote, -, ends', values⟩
      · rw [NCALL] at full
        omega
      have here : asked 1 = mem' := by simp only [asked, wrote]
      obtain rfl : p1 = 0 := Nat.le_zero.mp le
      obtain rfl : (5 : ℤ) = t := (Prod.mk.inj (Option.some.inj found)).2
      rw [here]
      refine ⟨.timeout (.start fun _ _ => rfl) ⟨0, ends, .inl few⟩ wrote, ends', ?_⟩
      rw [values, if_pos rfl]
  | succ k ih =>
      obtain ⟨reached, ends, first⟩ := ih (Nat.lt_of_succ_lt few)
      obtain ⟨p1, t, found, le, outcome⟩ := timeoutAt_spec ends
        (by omega : k + 1 < NCALL + 1) (⟨1, 0, 5⟩ : Request ℕ ℕ)
      have past : 1 ≤ p1 := by
        rw [seek, if_pos ⟨ends.before 0 (Nat.succ_pos k), Int.le_of_eq first⟩] at found
        exact seek_le found
      rcases outcome with ⟨full, -⟩ | ⟨-, mem', written, wrote, -, ends', values⟩
      · omega
      have here : asked (k + 1 + 1) = mem' := by rw [asked, wrote]
      rw [here]
      refine ⟨.timeout reached ⟨k + 1, ends, .inl few⟩ wrote, ends', ?_⟩
      rw [values, if_neg (by omega), if_neg (by omega), first]

/-- With eighteen functions in the table there is room for one more. -/
theorem reached_fits_eighteen : Fits (asked 18) ⟨1, 0, 5⟩ := by
  obtain ⟨reached, ends, -⟩ := asked_spec 17 (by decide)
  exact (reached_fits reached ⟨1, 0, 5⟩).mpr ⟨18, ends, .inl (by decide)⟩

/-- Nineteen functions are in the table; one more that is due before them makes `timeout` write the
slot behind the array. -/
theorem early_insertion_overflows : Reached (asked 19) ∧ ¬Fits (asked 19) ⟨1, 0, 1⟩ := by
  obtain ⟨reached, ends, first⟩ := asked_spec 18 (by decide)
  refine ⟨reached, fun fits => ?_⟩
  obtain ⟨n, other, space⟩ := (fits_iff_room reached.closed _).mp fits
  obtain rfl := ends.unique other
  rcases space with space | ⟨t, found⟩
  · exact absurd space (by decide)
  · rw [seek, if_neg (by rw [first]; decide)] at found
    exact absurd (Prod.mk.inj (Option.some.inj found)).1 (by decide)

end Callout

end UnixV7
