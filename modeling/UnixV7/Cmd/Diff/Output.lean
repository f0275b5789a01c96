import UnixV7.Cmd.Diff.Check

/-!
# The script

`output` and `change` of `diff.c`. The runs of lines that are not paired in step are found by a
scan of `J`, forward or backward, and each becomes one change. What a script makes of a file is
defined for lines of any type, so that lines may be compared as they are or up to blanks.
-/

namespace UnixV7

open Function

namespace Diff

/-- The arguments of `change`: lines `a` to `b` of the first file become lines `c` to `d` of the
second. -/
structure Change where
  a : ℕ
  b : ℕ
  c : ℕ
  d : ℕ

/-- Where `change` returns at once. -/
def Change.Idle (x : Change) : Prop := x.b < x.a ∧ x.d < x.c

instance (x : Change) : Decidable x.Idle := inferInstanceAs (Decidable (_ ∧ _))

/-- What one call of `change` leaves in `anychange`. -/
def Change.any (anychange : ℕ) (x : Change) : ℕ := if x.Idle then anychange else 1

/-- `anychange` after the calls. -/
def anychange (xs : List Change) : ℕ := xs.foldl Change.any 0

/-- `while(i0<=m&&J[i0]==J[i0-1]+1) i0++` -/
def passKept (m : ℕ) (J : ℕ → ℕ) : ℕ → ℕ → ℕ
  | 0, i => i
  | n + 1, i => if i ≤ m ∧ J i = J (i - 1) + 1 then passKept m J n (i + 1) else i

/-- `while(i1<m&&J[i1+1]==0) i1++` -/
def passGone (m : ℕ) (J : ℕ → ℕ) : ℕ → ℕ → ℕ
  | 0, i => i
  | n + 1, i => if i < m ∧ J (i + 1) = 0 then passGone m J n (i + 1) else i

/-- The loop of `output` from line `i` on. -/
def forward (m : ℕ) : ℕ → ℕ → (ℕ → ℕ) → Option (List Change)
  | 0, _, _ => none
  | fuel + 1, i, J =>
      if m < i then some []
      else
        let i₀ := passKept m J (m + 1 - i) i
        let j₀ := J (i₀ - 1) + 1
        let i₁ := passGone m J (m + 1 - i₀) (i₀ - 1)
        let j₁ := J (i₁ + 1) - 1
        (forward m fuel (i₁ + 1) (update J i₁ j₁)).map (⟨i₀, i₁, j₀, j₁⟩ :: ·)

/-- `while(i0>=1&&J[i0]==J[i0+1]-1&&J[i0]!=0) i0--` -/
def backKept (J : ℕ → ℕ) : ℕ → ℕ
  | 0 => 0
  | i + 1 => if J (i + 1) = J (i + 2) - 1 ∧ J (i + 1) ≠ 0 then backKept J i else i + 1

/-- `while(i1>1&&J[i1-1]==0) i1--` -/
def backGone (J : ℕ → ℕ) : ℕ → ℕ
  | 0 => 0
  | i + 1 => if 1 < i + 1 ∧ J i = 0 then backGone J i else i + 1

/-- The loop of `output` with `-e`, from line `i` back. -/
def backward : ℕ → ℕ → (ℕ → ℕ) → Option (List Change)
  | 0, _, _ => none
  | fuel + 1, i, J =>
      if i < 1 then some []
      else
        let i₀ := backKept J i
        let j₀ := J (i₀ + 1) - 1
        let i₁ := backGone J (i₀ + 1)
        let j₁ := J (i₁ - 1) + 1
        (backward fuel (i₁ - 1) (update J i₁ j₁)).map (⟨i₁, i₀, j₁, j₀⟩ :: ·)

/-- `output`: the calls of `change`. -/
def output (opt : ℤ) (m n : ℕ) (J : ℕ → ℕ) : Option (List Change) := do
  let J := update (update J 0 0) (m + 1) (n + 1)
  let xs ← if opt ≠ -1 then forward m (2 * m + 2) 1 J else backward (2 * m + 2) m J
  some (if m = 0 then xs ++ [⟨1, 0, 1, n⟩] else xs)

/-! ## What a script does -/

variable {α : Type*}

/-- One change of a file, with lines of the file `new`. -/
def edit (new : List α) (x : Change) (lines : List α) : List α :=
  lines.take (x.a - 1) ++ (new.drop (x.c - 1)).take (x.d + 1 - x.c) ++ lines.drop x.b

/-- A script applied to the first file. With `-e` each change is made in what those before it left.
Otherwise all lines are numbered as in the first file, and the last change is made first. -/
def applied (opt : ℤ) (new : List α) (xs : List Change) (old : List α) : List α :=
  if opt ≠ -1 then xs.foldr (edit new) old else xs.foldl (fun lines x => edit new x lines) old

variable {us vs : List α} {J : ℕ → ℕ} {i k m n p q fuel : ℕ}

/-- An equal line may come from either file. -/
theorem take_append_drop_succ (inside : i < us.length) (same : us[i]? = vs[p]?) :
    us.take (i + 1) ++ vs.drop (p + 1) = us.take i ++ vs.drop p := by
  rw [List.getElem?_eq_getElem inside] at same
  obtain ⟨inside', here⟩ := List.getElem?_eq_some_iff.mp same.symm
  rw [List.take_add_one, List.getElem?_eq_getElem inside, List.drop_eq_getElem_cons inside', here,
    List.append_assoc]
  rfl

/-- A change of lines `k + 1` to `i` in a file of which the lines from `i` on are right. -/
theorem edit_append (vs : List α) (low : k ≤ i) (inside : i ≤ us.length) (order : p ≤ q) :
    edit vs ⟨k + 1, i, p + 1, q⟩ (us.take i ++ vs.drop q) = us.take k ++ vs.drop p := by
  have size : (us.take i).length = i := List.length_take_of_le inside
  have cut : (us.take i ++ vs.drop q).drop i = vs.drop q := by
    rw [List.drop_append_of_le_length (Nat.le_of_eq size.symm), List.drop_eq_nil_of_le
      (Nat.le_of_eq size), List.nil_append]
  have head : (us.take i ++ vs.drop q).take k = us.take k := by
    rw [List.take_append_of_le_length (by omega), List.take_take, Nat.min_eq_left low]
  have body : vs.drop q = (vs.drop p).drop (q - p) := by
    rw [List.drop_drop, Nat.add_sub_cancel' order]
  rw [edit]
  simp only [Nat.add_sub_cancel, Nat.reduceSubDiff]
  rw [cut, head, List.append_assoc, body, List.take_append_drop]

/-- Every line that has a partner is equal to it. -/
def Mates (us vs : List α) (i k : ℕ) (J : ℕ → ℕ) : Prop :=
  ∀ x, i ≤ x → x ≤ k → J x ≠ 0 → x ≤ us.length ∧ us[x - 1]? = vs[J x - 1]?

/-- Where `passKept` stops, with enough steps. -/
theorem passKept_spec (start : i ≤ m + 1) (enough : m + 1 - i ≤ n) :
    i ≤ passKept m J n i ∧ passKept m J n i ≤ m + 1 ∧
      (∀ x, i ≤ x → x < passKept m J n i → J x = J (x - 1) + 1) ∧
      (passKept m J n i ≤ m → J (passKept m J n i) ≠ J (passKept m J n i - 1) + 1) := by
  induction n generalizing i with
  | zero =>
    rw [passKept]
    exact ⟨Nat.le_refl i, start, fun x low high => by omega, fun most => by omega⟩
  | succ n hyp =>
    rw [passKept]
    split
    · rename_i step
      obtain ⟨low, high, run, stop⟩ := hyp (i := i + 1) (by omega) (by omega)
      refine ⟨by omega, high, fun x more less => ?_, stop⟩
      rcases Nat.lt_or_eq_of_le more with more | rfl
      · exact run x more less
      · exact step.2
    · rename_i step
      exact ⟨Nat.le_refl i, start, fun x low high => by omega, fun most here => step ⟨most, here⟩⟩

/-- Where `passGone` stops, with enough steps. -/
theorem passGone_spec (start : i ≤ m) (enough : m - i ≤ n) :
    i ≤ passGone m J n i ∧ passGone m J n i ≤ m ∧
      (∀ x, i < x → x ≤ passGone m J n i → J x = 0) ∧
      (passGone m J n i < m → J (passGone m J n i + 1) ≠ 0) := by
  induction n generalizing i with
  | zero =>
    rw [passGone]
    exact ⟨Nat.le_refl i, start, fun x low high => by omega, fun most => by omega⟩
  | succ n hyp =>
    rw [passGone]
    split
    · rename_i step
      obtain ⟨low, high, run, stop⟩ := hyp (i := i + 1) (by omega) (by omega)
      refine ⟨by omega, high, fun x more less => ?_, stop⟩
      rcases Nat.lt_or_eq_of_le (Nat.succ_le_of_lt more) with more | rfl
      · exact run x more less
      · exact step.2
    · rename_i step
      exact ⟨Nat.le_refl i, start, fun x low high => by omega, fun most here => step ⟨most, here⟩⟩

/-- Lines that are kept may come from either file. -/
theorem take_append_drop_run (low : 1 ≤ i) (mates : Mates us vs i (i + k - 1) J)
    (run : ∀ x, i ≤ x → x < i + k → J x = J (x - 1) + 1) :
    us.take (i + k - 1) ++ vs.drop (J (i + k - 1)) = us.take (i - 1) ++ vs.drop (J (i - 1)) := by
  induction k with
  | zero => rfl
  | succ k hyp =>
    have here := run (i + k) (by omega) (by omega)
    obtain ⟨inside, same⟩ := mates (i + k) (by omega) (by omega) (by omega)
    rw [here, Nat.add_sub_cancel] at same
    have step := take_append_drop_succ (by omega) same
    rw [Nat.sub_add_cancel (by omega), ← here] at step
    exact step.trans (hyp (fun x low high => mates x low (by omega))
      fun x low high => run x low (by omega))

/-! ## Forward -/

/-- What holds where the loop begins with line `i`: the lines from `i` on are as they were, and the
line before is paired with the last line of the second file that is done. -/
structure Forth (us vs : List α) (i : ℕ) (J : ℕ → ℕ) : Prop where
  low : 1 ≤ i
  high : i ≤ us.length + 1
  stop : J (us.length + 1) = vs.length + 1
  mates : Mates us vs i us.length J
  behind : ∀ y, i ≤ y → y ≤ us.length + 1 → J y ≠ 0 → J (i - 1) < J y
  rising : ∀ x y, i ≤ x → x < y → y ≤ us.length + 1 → J x ≠ 0 → J y ≠ 0 → J x < J y
  done : i = us.length + 1 → J us.length = vs.length

/-- The lines from `i` on are paired in step. -/
def InStep (m i : ℕ) (J : ℕ → ℕ) : Prop := ∀ x, i ≤ x → x ≤ m + 1 → J x = J (x - 1) + 1

/-- The value before a line that is kept is the one behind which the scan stands. -/
theorem Forth.behind_kept (forth : Forth us vs i J) (low : i ≤ k) (high : k ≤ us.length + 1)
    (run : ∀ x, i ≤ x → x < k → J x = J (x - 1) + 1) {y : ℕ} (more : k ≤ y)
    (most : y ≤ us.length + 1) (some : J y ≠ 0) : J (k - 1) < J y := by
  rcases Nat.lt_or_eq_of_le low with less | rfl
  · have here := run (k - 1) (by omega) (by omega)
    exact forth.rising (k - 1) y (by omega) (by omega) most (by omega) some
  · exact forth.behind y more most some

/-- The loop goes on behind the change. -/
theorem Forth.next (forth : Forth us vs i J) (low : i ≤ k + 1) (high : k ≤ us.length)
    (here : J (k + 1) ≠ 0) : Forth us vs (k + 1) (update J k (J (k + 1) - 1)) := by
  have same : ∀ x, k < x → update J k (J (k + 1) - 1) x = J x :=
    fun x more => update_of_ne (Nat.ne_of_gt more) _ _
  refine ⟨Nat.le_add_left 1 k, by omega, ?_, ?_, ?_, ?_, ?_⟩
  · rw [same _ (by omega), forth.stop]
  · intro x more most some
    rw [same x more] at some ⊢
    exact forth.mates x (by omega) most some
  · intro y more most some
    rw [same y more] at some
    rw [Nat.add_sub_cancel, update_self, same y more]
    rcases Nat.lt_or_eq_of_le more with more | rfl
    · have := forth.rising (k + 1) y low more most here some
      omega
    · omega
  · intro x y more less most some some'
    rw [same x more] at some
    rw [same y (by omega)] at some'
    rw [same x more, same y (by omega)]
    exact forth.rising x y (by omega) less most some some'
  · intro last
    obtain rfl : k = us.length := by omega
    rw [update_self, forth.stop, Nat.add_sub_cancel]

/-- The loop, forward: its script is right, and no change is made only if all lines are paired in
step. -/
theorem forward_spec (forth : Forth us vs i J)
    (enough : 2 * (us.length + 1 - i) + (if J i = J (i - 1) + 1 then 0 else 1) < fuel) :
    ∃ xs, forward us.length fuel i J = some xs ∧
      xs.foldr (edit vs) us = us.take (i - 1) ++ vs.drop (J (i - 1)) ∧
      ((∀ x ∈ xs, x.Idle) ↔ InStep us.length i J) := by
  induction fuel generalizing i J with
  | zero => omega
  | succ fuel hyp =>
    rw [forward]
    split
    · obtain rfl : i = us.length + 1 := Nat.le_antisymm forth.high (by omega)
      have done := forth.done rfl
      refine ⟨[], rfl, ?_, fun _ x low high => ?_, fun _ => List.forall_mem_nil _⟩
      · rw [Nat.add_sub_cancel, done, List.take_length, List.drop_length, List.append_nil]
        rfl
      · obtain rfl : x = us.length + 1 := by omega
        rw [forth.stop, Nat.add_sub_cancel, done]
    · rename_i more
      dsimp only
      have low := forth.low
      obtain ⟨from_i, most, run, halt⟩ := passKept_spec (J := J) forth.high (Nat.le_refl _)
      generalize passKept us.length J (us.length + 1 - i) i = i₀ at from_i most run halt ⊢
      obtain ⟨from_kept, inside, gone, halt'⟩ :=
        passGone_spec (n := us.length + 1 - i₀) (J := J) (by omega : i₀ - 1 ≤ us.length) (by omega)
      generalize passGone us.length J (us.length + 1 - i₀) (i₀ - 1) = i₁
        at from_kept inside gone halt' ⊢
      have here : J (i₁ + 1) ≠ 0 := by
        rcases Nat.lt_or_eq_of_le inside with less | rfl
        · exact halt' less
        · rw [forth.stop]
          exact Nat.succ_ne_zero _
      have before : J (i₀ - 1) < J (i₁ + 1) :=
        forth.behind_kept from_i most run (by omega) (by omega) here
      have other : update J i₁ (J (i₁ + 1) - 1) (i₁ + 1) = J (i₁ + 1) :=
        update_of_ne (Nat.succ_ne_self i₁) _ _
      have self : update J i₁ (J (i₁ + 1) - 1) i₁ = J (i₁ + 1) - 1 := update_self _ _ _
      obtain ⟨xs, scan, result, idle⟩ := hyp (forth.next (by omega) inside here) (by
        rw [Nat.add_sub_cancel, other, self, if_pos (by omega)]
        split at enough
        · rename_i step
          have : i₁ + 1 ≠ i := fun same => halt (by omega) (by rwa [show i₀ = i by omega])
          omega
        · omega)
      rw [scan]
      refine ⟨_, rfl, ?_, ?_⟩
      · have kept := take_append_drop_run (k := i₀ - i) low
          (fun x more most => forth.mates x more (by omega)) fun x more less =>
            run x more (by omega)
        rw [show i + (i₀ - i) - 1 = i₀ - 1 by omega] at kept
        have changed := edit_append vs from_kept inside
          (show J (i₀ - 1) ≤ J (i₁ + 1) - 1 by omega)
        rw [show i₀ - 1 + 1 = i₀ by omega] at changed
        rw [Nat.add_sub_cancel, self] at result
        rw [List.foldr_cons, result, changed, kept]
      · rw [List.forall_mem_cons, idle, Change.Idle]
        constructor
        · rintro ⟨⟨less, less'⟩, -⟩ x from_x most'
          simp only at less less'
          obtain rfl : i₁ = i₀ - 1 := by omega
          rw [Nat.sub_add_cancel (by omega)] at before less'
          obtain rfl : i₀ = us.length + 1 := by
            refine Nat.le_antisymm most (Nat.lt_of_not_le fun low => halt low ?_)
            omega
          rcases Nat.lt_or_eq_of_le most' with less | rfl
          · exact run x from_x less
          · omega
        · intro all
          obtain rfl : i₀ = us.length + 1 :=
            Nat.le_antisymm most (Nat.lt_of_not_le fun low => halt low (all i₀ from_i most))
          obtain rfl : i₁ = us.length := by omega
          have last := all _ from_i (Nat.le_refl _)
          rw [Nat.add_sub_cancel] at last
          refine ⟨⟨Nat.lt_succ_self _, ?_⟩, fun x more most => ?_⟩
          · show J (us.length + 1) - 1 < J (us.length + 1 - 1) + 1
            rw [Nat.add_sub_cancel]
            omega
          · obtain rfl : x = us.length + 1 := by omega
            rw [Nat.add_sub_cancel, other, self]
            omega

/-! ## Backward -/

/-- Where `backKept` stops. -/
theorem backKept_spec (J : ℕ → ℕ) (i : ℕ) :
    backKept J i ≤ i ∧
      (∀ x, backKept J i < x → x ≤ i → J x = J (x + 1) - 1 ∧ J x ≠ 0) ∧
      (1 ≤ backKept J i →
        ¬(J (backKept J i) = J (backKept J i + 1) - 1 ∧ J (backKept J i) ≠ 0)) := by
  induction i with
  | zero =>
      exact ⟨Nat.le_refl 0, fun x low high => by omega,
        fun one => absurd one (Nat.not_succ_le_zero 0)⟩
  | succ i hyp =>
    rw [backKept]
    split
    · rename_i step
      obtain ⟨low, run, stop⟩ := hyp
      refine ⟨by omega, fun x more most => ?_, stop⟩
      rcases Nat.lt_or_eq_of_le most with less | rfl
      · exact run x more (Nat.le_of_lt_succ less)
      · exact step
    · rename_i step
      exact ⟨Nat.le_refl _, fun x low high => by omega, fun _ => step⟩

/-- Where `backGone` stops. -/
theorem backGone_spec (J : ℕ → ℕ) (i : ℕ) :
    1 ≤ backGone J (i + 1) ∧ backGone J (i + 1) ≤ i + 1 ∧
      (1 < backGone J (i + 1) → J (backGone J (i + 1) - 1) ≠ 0) := by
  induction i with
  | zero => exact ⟨Nat.le_refl 1, Nat.le_refl 1, fun more => absurd more (Nat.lt_irrefl 1)⟩
  | succ i hyp =>
    rw [backGone]
    split
    · exact ⟨hyp.1, Nat.le_succ_of_le hyp.2.1, hyp.2.2⟩
    · rename_i step
      exact ⟨Nat.le_add_left 1 _, Nat.le_refl _, fun more none => step ⟨more, none⟩⟩

/-- What holds where the loop begins with line `i`: the lines up to `i` are as they were, and the
line behind is paired with the first line of the second file that is done. -/
structure Back (us vs : List α) (i : ℕ) (J : ℕ → ℕ) : Prop where
  high : i ≤ us.length
  zero : J 0 = 0
  some : J (i + 1) ≠ 0
  mates : Mates us vs 1 i J
  rising : ∀ x y, 1 ≤ x → x < y → y ≤ i + 1 → J x ≠ 0 → J y ≠ 0 → J x < J y
  done : i = 0 → J 1 = 1

/-- Lines that are kept may come from either file. -/
theorem take_append_drop_back (mates : Mates us vs 1 (i + k) J)
    (run : ∀ x, i < x → x ≤ i + k → J x = J (x + 1) - 1 ∧ J x ≠ 0) :
    us.take (i + k) ++ vs.drop (J (i + k + 1) - 1) = us.take i ++ vs.drop (J (i + 1) - 1) := by
  induction k with
  | zero => rfl
  | succ k hyp =>
    obtain ⟨here, some⟩ := run (i + (k + 1)) (by omega) (Nat.le_refl _)
    obtain ⟨inside, same⟩ := mates (i + (k + 1)) (by omega) (Nat.le_refl _) some
    have step := take_append_drop_succ (by omega) same
    rw [Nat.sub_add_cancel (by omega), Nat.sub_add_cancel (by omega)] at step
    rw [← here]
    exact step.trans (hyp (fun x low high => mates x low (by omega))
      fun x more most => run x more (by omega))

/-- The loop goes on before the change. -/
theorem Back.next (back : Back us vs i J) (most : k ≤ i) (here : k ≠ 0 → J k ≠ 0) :
    Back us vs k (update J (k + 1) (J k + 1)) := by
  have same : ∀ x ≤ k, update J (k + 1) (J k + 1) x = J x :=
    fun x less => update_of_ne (by omega) _ _
  refine ⟨Nat.le_trans most back.high, ?_, ?_, ?_, ?_, ?_⟩
  · rw [same 0 (Nat.zero_le k), back.zero]
  · rw [update_self]
    exact Nat.succ_ne_zero _
  · intro x low less some
    rw [same x less] at some ⊢
    exact back.mates x low (Nat.le_trans less most) some
  · intro x y low less high some some'
    rw [same x (by omega)] at some ⊢
    rcases Nat.lt_or_eq_of_le high with inside | rfl
    · rw [same y (by omega)] at some' ⊢
      exact back.rising x y low less (by omega) some some'
    · rw [update_self]
      rcases Nat.lt_or_eq_of_le (Nat.le_of_lt_succ less) with inside | rfl
      · have := back.rising x k low inside (by omega) some (here (by omega))
        omega
      · omega
  · rintro rfl
    rw [update_self, back.zero]

/-- The loop, backward: its script is right, and no change is made only if all lines are paired in
step. -/
theorem backward_spec (back : Back us vs i J)
    (enough : 2 * i + (if J i = J (i + 1) - 1 ∧ J i ≠ 0 then 0 else 1) < fuel) :
    ∃ xs, backward fuel i J = some xs ∧
      xs.foldl (fun lines x => edit vs x lines) (us.take i ++ vs.drop (J (i + 1) - 1)) = vs ∧
      ((∀ x ∈ xs, x.Idle) ↔ InStep i 1 J) := by
  induction fuel generalizing i J with
  | zero => omega
  | succ fuel hyp =>
    rw [backward]
    split
    · obtain rfl : i = 0 := by omega
      have done := back.done rfl
      refine ⟨[], rfl, ?_, fun _ x low high => ?_, fun _ => List.forall_mem_nil _⟩
      · rw [done]
        rfl
      · obtain rfl : x = 1 := by omega
        rw [done, Nat.sub_self, back.zero]
    · dsimp only
      obtain ⟨most, run, halt⟩ := backKept_spec J i
      generalize backKept J i = i₀ at most run halt ⊢
      obtain ⟨one, inside, halt'⟩ := backGone_spec J i₀
      obtain ⟨k, before⟩ : ∃ k, backGone J (i₀ + 1) = k + 1 := ⟨_, (Nat.sub_add_cancel one).symm⟩
      rw [before] at inside halt' ⊢
      rw [Nat.add_sub_cancel] at halt' ⊢
      have here : k ≠ 0 → J k ≠ 0 := fun some => halt' (by omega)
      have some : J (i₀ + 1) ≠ 0 := by
        rcases Nat.lt_or_eq_of_le most with less | rfl
        · exact (run (i₀ + 1) (by omega) less).2
        · exact back.some
      have order : J k < J (i₀ + 1) := by
        by_cases zero : k = 0
        · rw [zero, back.zero]
          omega
        · exact back.rising k (i₀ + 1) (by omega) (by omega) (by omega) (here zero) some
      have other : update J (k + 1) (J k + 1) k = J k := update_of_ne (by omega) _ _
      have self : update J (k + 1) (J k + 1) (k + 1) = J k + 1 := update_self _ _ _
      obtain ⟨xs, scan, result, idle⟩ := hyp (back.next (by omega) here) (by
        rw [other, self]
        split at enough
        · rename_i step
          have : k ≠ i := fun same => halt (by omega) (by rwa [show i₀ = i by omega])
          split <;> omega
        · split <;> omega)
      rw [scan]
      refine ⟨_, rfl, ?_, ?_⟩
      · have kept := take_append_drop_back (k := i - i₀)
          (by rw [Nat.add_sub_cancel' most]; exact back.mates)
          fun x more most => run x more (by omega)
        rw [Nat.add_sub_cancel' most] at kept
        have changed := edit_append vs (Nat.le_of_succ_le_succ inside)
          (Nat.le_trans most back.high) (show J k ≤ J (i₀ + 1) - 1 by omega)
        rw [self, Nat.add_sub_cancel] at result
        rw [List.foldl_cons, kept, changed, result]
      · rw [List.forall_mem_cons, idle, Change.Idle]
        constructor
        · rintro ⟨⟨less, less'⟩, -⟩ x low high
          simp only at less less'
          obtain rfl : k = i₀ := by omega
          obtain rfl : k = 0 := by
            by_contra some_line
            exact halt (by omega) ⟨by omega, here some_line⟩
          rcases Nat.lt_or_eq_of_le low with more | rfl
          · obtain ⟨step, some'⟩ := run (x - 1) (by omega) (by omega)
            rw [Nat.sub_add_cancel low] at step
            omega
          · rw [Nat.sub_self]
            rw [Nat.zero_add] at less' order
            omega
        · intro all
          obtain rfl : i₀ = 0 := by
            by_contra some_line
            have step := all (i₀ + 1) (by omega) (by omega)
            have last := all i₀ (by omega) (by omega)
            rw [Nat.add_sub_cancel] at step
            exact halt (by omega) ⟨by omega, by omega⟩
          obtain rfl : k = 0 := by omega
          have first := all 1 (Nat.le_refl 1) (by omega)
          refine ⟨⟨Nat.zero_lt_one, ?_⟩, fun x low high => ?_⟩
          · show J 1 - 1 < J 0 + 1
            rw [Nat.sub_self] at first
            omega
          · obtain rfl : x = 1 := by omega
            rw [Nat.sub_self, other]
            exact self

/-! ## The whole script -/

/-- `anychange` stays 0 if every call of `change` returns at once. -/
theorem anychange_eq_zero_iff (xs : List Change) : anychange xs = 0 ↔ ∀ x ∈ xs, x.Idle := by
  have any : ∀ n, xs.foldl Change.any n = 0 ↔ n = 0 ∧ ∀ x ∈ xs, x.Idle := by
    induction xs with
    | nil => exact fun n => (and_iff_left (List.forall_mem_nil _)).symm
    | cons x xs hyp =>
      intro n
      rw [List.foldl_cons, hyp, List.forall_mem_cons, Change.any, ← and_assoc]
      split
      · rename_i idle
        rw [and_iff_left idle]
      · rename_i busy
        exact ⟨fun h => absurd h.1 (by decide), fun h => absurd h.1.2 busy⟩
  exact (any 0).trans (and_iff_right rfl)

/-- Lines that are all paired in step are paired in place. -/
theorem inStep_iff (zero : J 0 = 0) (stop : J (m + 1) = n + 1) :
    InStep m 1 J ↔ m = n ∧ ∀ i, 1 ≤ i → i ≤ m → J i = i := by
  constructor
  · intro all
    have place : ∀ x ≤ m + 1, J x = x := by
      intro x
      induction x with
      | zero => exact fun _ => zero
      | succ x hyp =>
        intro most
        rw [all (x + 1) (Nat.le_add_left 1 x) most, Nat.add_sub_cancel, hyp (by omega)]
    have last := place (m + 1) (Nat.le_refl _)
    exact ⟨by omega, fun i low high => place i (by omega)⟩
  · rintro ⟨rfl, place⟩ x low high
    have place' : ∀ x ≤ m, J x = x := fun x most => by
      rcases Nat.eq_zero_or_pos x with rfl | more
      · exact zero
      · exact place x more most
    rw [place' (x - 1) (by omega)]
    rcases Nat.lt_or_eq_of_le high with less | rfl
    · rw [place' x (by omega)]
      omega
    · exact stop

/-- For every pairing of equal lines in order the script makes the second file of the first, and
`anychange` stays 0 only if every line is paired in place. -/
theorem output_spec (opt : ℤ) (pairs : Pairs us.length vs.length J)
    (mates : Mates us vs 1 us.length J) :
    ∃ xs, output opt us.length vs.length J = some xs ∧ applied opt vs xs us = vs ∧
      (anychange xs = 0 ↔ us.length = vs.length ∧ ∀ i, 1 ≤ i → i ≤ us.length → J i = i) := by
  rcases Nat.eq_zero_or_pos us.length with none | some
  · obtain rfl := List.length_eq_zero_iff.mp none
    have found : output opt 0 vs.length J = .some [⟨1, 0, 1, vs.length⟩] := by
      rw [output]
      split <;> rfl
    have change : edit vs ⟨1, 0, 1, vs.length⟩ [] = vs := by
      simp [edit]
    refine ⟨_, found, ?_, ?_⟩
    · rw [applied, List.foldr_cons, List.foldl_cons]
      split <;> exact change
    · have idle : Change.Idle ⟨1, 0, 1, vs.length⟩ ↔ vs.length < 1 := and_iff_right Nat.zero_lt_one
      rw [anychange_eq_zero_iff, List.forall_mem_singleton, idle, List.length_nil]
      constructor
      · exact fun empty => ⟨by omega, fun i low high => by omega⟩
      · exact fun empty => by omega
  · obtain ⟨J', border⟩ : ∃ J', update (update J 0 0) (us.length + 1) (vs.length + 1) = J' :=
      ⟨_, rfl⟩
    have zero : J' 0 = 0 := by
      rw [← border, update_of_ne (Nat.succ_ne_zero _).symm, update_self]
    have stop : J' (us.length + 1) = vs.length + 1 := by rw [← border, update_self]
    have same : ∀ i, 1 ≤ i → i ≤ us.length → J' i = J i := fun i low high => by
      rw [← border, update_of_ne (by omega), update_of_ne (by omega)]
    have mates' : Mates us vs 1 us.length J' := fun x low high nonzero => by
      rw [same x low high] at nonzero ⊢
      exact mates x low high nonzero
    have rising : ∀ x y, 1 ≤ x → x < y → y ≤ us.length + 1 → J' x ≠ 0 → J' y ≠ 0 →
        J' x < J' y := by
      intro x y low less high nonzero nonzero'
      rw [same x low (by omega)] at nonzero ⊢
      rcases Nat.lt_or_eq_of_le high with inside | rfl
      · rw [same y (by omega) (by omega)] at nonzero' ⊢
        exact pairs.rising x y low less (by omega) nonzero nonzero'
      · have := pairs.inside x low (by omega)
        omega
    have place : InStep us.length 1 J' ↔
        us.length = vs.length ∧ ∀ i, 1 ≤ i → i ≤ us.length → J i = i := by
      rw [inStep_iff zero stop]
      exact and_congr_right fun _ => forall_congr' fun i => forall_congr' fun low =>
        forall_congr' fun high => by rw [same i low high]
    rw [output, border]
    by_cases back : opt = -1
    · obtain ⟨xs, scan, result, idle⟩ := backward_spec
        (⟨Nat.le_refl _, zero, by rw [stop]; exact Nat.succ_ne_zero _, mates', rising,
          fun none => by omega⟩ : Back us vs us.length J')
        (by split <;> omega : _ < 2 * us.length + 2)
      rw [if_neg (not_not.mpr back), scan]
      refine ⟨xs, ?_, ?_, ?_⟩
      · exact congrArg Option.some (if_neg (Nat.ne_of_gt some))
      · rw [stop, Nat.add_sub_cancel, List.take_length, List.drop_length, List.append_nil] at result
        rw [applied, if_neg (not_not.mpr back), result]
      · rw [anychange_eq_zero_iff, idle, place]
    · obtain ⟨xs, scan, result, idle⟩ := forward_spec
        (⟨Nat.le_refl _, Nat.le_add_left 1 _, stop, mates', fun y low high nonzero => by
          rw [Nat.sub_self, zero]; omega, rising, fun none => by omega⟩ : Forth us vs 1 J')
        (by split <;> omega : _ < 2 * us.length + 2)
      rw [if_pos back, scan]
      refine ⟨xs, ?_, ?_, ?_⟩
      · exact congrArg Option.some (if_neg (Nat.ne_of_gt some))
      · rw [Nat.sub_self, zero] at result
        rw [applied, if_pos back, result]
        rfl
      · rw [anychange_eq_zero_iff, idle, place]

/-- A change commutes with what is done to each line. -/
theorem map_edit {β : Type*} (f : α → β) (new : List α) (x : Change) (lines : List α) :
    (edit new x lines).map f = edit (new.map f) x (lines.map f) := by
  simp only [edit, List.map_append, List.map_take, List.map_drop]

theorem map_applied {β : Type*} (f : α → β) (opt : ℤ) (new : List α) (xs : List Change)
    (old : List α) : (applied opt new xs old).map f = applied opt (new.map f) xs (old.map f) := by
  rw [applied, applied]
  split
  · induction xs with
    | nil => rfl
    | cons x xs hyp => rw [List.foldr_cons, List.foldr_cons, map_edit, hyp]
  · induction xs generalizing old with
    | nil => rfl
    | cons x xs hyp => rw [List.foldl_cons, List.foldl_cons, hyp, map_edit]

/-- What `fetch` prints of a file: lines `a` to `b`, found by the places where lines end. -/
def fetch (ix : ℕ → ℕ) (a b : ℕ) (f : List ℕ) : List ℕ :=
  (List.range' a (b + 1 - a)).flatMap fun i => (f.drop (ix (i - 1))).take (ix i - ix (i - 1))

/-- With the right places `fetch` prints whole lines. -/
theorem fetch_text {ix : ℕ → ℕ} {lines : List (List ℕ)} {a b : ℕ}
    (places : ∀ i ≤ lines.length, ix i = lineEnd lines i) (low : 1 ≤ a) (high : b ≤ lines.length) :
    fetch ix a b (text lines) = text ((lines.drop (a - 1)).take (b + 1 - a)) := by
  have one : ∀ i < lines.length, ((text lines).drop (lineEnd lines i)).take
      (lineEnd lines (i + 1) - lineEnd lines i) = lines.getD i [] ++ [newline] := by
    intro i inside
    have cut : text lines = text (lines.take i) ++ text (lines.drop i) := by
      rw [← text_append, List.take_append_drop]
    rw [lineEnd_succ inside, Nat.add_sub_cancel_left, cut, lineEnd, List.drop_left,
      text_drop inside, List.append_cons]
    exact List.take_left' (by rw [List.length_append]; rfl)
  rw [fetch]
  generalize size : b + 1 - a = k
  induction k generalizing a with
  | zero => rfl
  | succ k hyp =>
    have inside : a - 1 < lines.length := by omega
    have here := one (a - 1) inside
    rw [Nat.sub_add_cancel low, ← places a (by omega), ← places (a - 1) (by omega)] at here
    have rest := hyp (a := a + 1) (Nat.le_add_left 1 a) (by omega)
    rw [Nat.add_sub_cancel] at rest
    rw [List.range'_succ, List.flatMap_cons, here, rest, List.drop_eq_getElem_cons inside,
      List.take_succ_cons, text_cons, Nat.sub_add_cancel low, List.getD_eq_getElem _ _ inside]
    simp

/-- From a pairing of lines in order to the script. -/
theorem script_spec (bflag : Bool) (opt : ℤ) {old new : List (List ℕ)} {J : ℕ → ℕ}
    (plain : ∀ line ∈ old, newline ∉ line) (plain' : ∀ line ∈ new, newline ∉ line)
    (pairs : Pairs old.length new.length J) :
    ∃ s xs, check bflag (text old) (text new) old.length new.length J = some s ∧
      output opt old.length new.length s.J = some xs ∧
      (∀ i, 1 ≤ i → i ≤ old.length →
        s.J i = if Equal bflag old new i (J i) then J i else 0) ∧
      (∀ i ≤ old.length, s.ixold i = (text (old.take i)).length) ∧
      (∀ j ≤ new.length, s.ixnew j = (text (new.take j)).length) ∧
      (applied opt new xs old).map (essence bflag) = new.map (essence bflag) ∧
      (bflag = false → applied opt new xs old = new) ∧
      (anychange xs = 0 ↔
        old.length = new.length ∧ ∀ i, 1 ≤ i → i ≤ old.length → s.J i = i) := by
  obtain ⟨s, checked, done, -, ixold, ixnew⟩ := check_spec pairs plain plain'
  have left : ∀ i, 1 ≤ i → i ≤ old.length → s.J i ≠ 0 →
      s.J i = J i ∧ Equal bflag old new i (s.J i) := by
    intro i low high nonzero
    rw [done i low high, kept] at nonzero ⊢
    split at nonzero
    · rename_i equal
      rw [if_pos equal]
      exact ⟨rfl, equal⟩
    · exact absurd rfl nonzero
  have pairs' : Pairs (old.map (essence bflag)).length (new.map (essence bflag)).length s.J := by
    rw [List.length_map, List.length_map]
    constructor
    · intro i low high
      rw [done i low high, kept]
      split
      · exact pairs.inside i low high
      · exact Nat.zero_le _
    · intro i j low less high some some'
      have here := (left i low (by omega) some).1
      have there := (left j (by omega) high some').1
      rw [here] at some ⊢
      rw [there] at some' ⊢
      exact pairs.rising i j low less high some some'
  have mates : Mates (old.map (essence bflag)) (new.map (essence bflag)) 1
      (old.map (essence bflag)).length s.J := by
    intro i low high some
    rw [List.length_map] at high
    obtain ⟨here, equal⟩ := left i low high some
    have bound := pairs.inside i low high
    rw [← here] at bound
    rw [Equal, List.getD_eq_getElem _ _ (by omega), List.getD_eq_getElem _ _ (by omega)] at equal
    refine ⟨by rwa [List.length_map], ?_⟩
    rw [List.getElem?_map, List.getElem?_map, List.getElem?_eq_getElem (by omega),
      List.getElem?_eq_getElem (by omega)]
    exact congrArg Option.some equal
  obtain ⟨xs, scan, result, idle⟩ := output_spec opt pairs' mates
  rw [← map_applied] at result
  rw [List.length_map, List.length_map] at scan idle
  refine ⟨s, xs, checked, scan, done, ixold, ixnew, result, fun flag => ?_, idle⟩
  subst flag
  exact (List.map_id _).symm.trans (result.trans (List.map_id _))

/-- For every two files of lines and every `J` that pairs their lines in order, `check` leaves
exactly the pairs of equal lines and finds where each line ends, the script of `output` makes the
second file of the first, and `anychange` is 0 only if every line is paired in place. No line has
the value 0, so `prepare` counts all lines. -/
theorem script_of_pairs (bflag : Bool) (opt : ℤ) {old new : List (List ℕ)} {J : ℕ → ℕ}
    (plain : ∀ line ∈ old, newline ∉ line) (plain' : ∀ line ∈ new, newline ∉ line)
    (pairs : Pairs old.length new.length J) :
    (∃ values, prepare bflag (old.length + 1) (text old) = some values ∧
      values.length = old.length ∧ ∀ v ∈ values, v ≠ 0) ∧
    (∃ values, prepare bflag (new.length + 1) (text new) = some values ∧
      values.length = new.length ∧ ∀ v ∈ values, v ≠ 0) ∧
    ∃ s xs, check bflag (text old) (text new) old.length new.length J = some s ∧
      output opt old.length new.length s.J = some xs ∧
      (∀ i, 1 ≤ i → i ≤ old.length →
        s.J i = if Equal bflag old new i (J i) then J i else 0) ∧
      (∀ i ≤ old.length, s.ixold i = (text (old.take i)).length) ∧
      (∀ j ≤ new.length, s.ixnew j = (text (new.take j)).length) ∧
      (applied opt new xs old).map (essence bflag) = new.map (essence bflag) ∧
      (bflag = false → applied opt new xs old = new) ∧
      (anychange xs = 0 ↔
        old.length = new.length ∧ ∀ i, 1 ≤ i → i ≤ old.length → s.J i = i) := by
  exact ⟨prepare_text bflag plain, prepare_text bflag plain',
    script_spec bflag opt plain plain' pairs⟩

/-- Two lines, of which the second was paired with the first of the other file. -/
theorem script_two_lines :
    ∃ s xs, check true (text [[97], [98, 32]]) (text [[98], [99]]) 2 2
        (fun i => if i = 2 then 1 else 0) = some s ∧
      output (-1) 2 2 s.J = some xs ∧
      (applied (-1) [[98], [99]] xs [[97], [98, 32]]).map (essence true) = [[98], [99]] := by
  obtain ⟨-, -, s, xs, checked, scan, -, -, -, result, -⟩ :=
    script_of_pairs true (-1) (J := fun i => if i = 2 then 1 else 0)
      (by decide : ∀ line ∈ [[97], [98, 32]], newline ∉ line)
      (by decide : ∀ line ∈ [[98], [99]], newline ∉ line)
      ⟨fun i low high => by split <;> decide, fun i j low less high some some' => by
        obtain rfl : i = 1 := by
          have : j ≤ 2 := high
          omega
        exact absurd rfl some⟩
  exact ⟨s, xs, checked, scan, result⟩

end Diff

end UnixV7
