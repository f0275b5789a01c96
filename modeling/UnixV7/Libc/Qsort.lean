import UnixV7.Library.Bytes
import UnixV7.Library.Fuel
import UnixV7.Library.ThreeWay
import Mathlib.Data.Nat.Log

/-!
# Sorting

`qsort.c`, on bytes in memory. An array is `n` elements of `es` bytes from the address `base` on;
comparing or exchanging anything else is a fault, and so is a call of `qs1` nested too deep. The
array may lie anywhere, at the top of the stack too; it has less than 2^31 bytes, so that the
differences of its pointers are ints.
-/

namespace UnixV7.Libc.Qsort

open Fuel ThreeWay
open Equiv (swap)

/-- Why a sort gives no result. -/
inductive Fault
  | timeout
  | outside
  | deep

variable {es : ℕ} (base n : ℕ) (qscmp : (Fin es → UInt8) → (Fin es → UInt8) → ℤ)

/-- The bytes of the element at an address. -/
def element (m : Bytes) (p : ℕ) : Fin es → UInt8 := fun r => m (p + r)

/-- The address is that of an element of the array. -/
def Points (es base n p : ℕ) : Prop :=
  0 < es ∧ base ≤ p ∧ es ∣ p - base ∧ p + es ≤ base + n * es

instance (es base n p : ℕ) : Decidable (Points es base n p) := inferInstanceAs (Decidable (_ ∧ _))

/-- `(*qscmp)(i, j)` -/
def compare (m : Bytes) (i j : ℕ) : Except Fault ℤ :=
  if Points es base n i ∧ Points es base n j then
    .ok (qscmp (element m i) (element m j))
  else
    .error .outside

/-- The loop of `qsexc`. -/
def qsexcLoop : ℕ → Bytes → ℕ → ℕ → Bytes
  | 0, m, _, _ => m
  | n + 1, m, ri, rj =>
      let c := m ri
      let m := Function.update m ri (m rj)
      let m := Function.update m rj c
      qsexcLoop n m (ri + 1) (rj + 1)

/-- `qsexc` -/
def qsexc (es base n : ℕ) (m : Bytes) (i j : ℕ) : Except Fault Bytes :=
  if Points es base n i ∧ Points es base n j then .ok (qsexcLoop es m i j) else .error .outside

/-- The loop of `qstexc`. -/
def qstexcLoop : ℕ → Bytes → ℕ → ℕ → ℕ → Bytes
  | 0, m, _, _, _ => m
  | n + 1, m, ri, rj, rk =>
      let c := m ri
      let m := Function.update m ri (m rk)
      let m := Function.update m rk (m rj)
      let m := Function.update m rj c
      qstexcLoop n m (ri + 1) (rj + 1) (rk + 1)

/-- `qstexc` -/
def qstexc (es base n : ℕ) (m : Bytes) (i j k : ℕ) : Except Fault Bytes :=
  if Points es base n i ∧ Points es base n j ∧ Points es base n k then
    .ok (qstexcLoop es m i j k)
  else
    .error .outside

/-- The memory and the pointers of `qs1`. -/
structure State where
  m : Bytes
  i : ℕ
  lp : ℕ
  hp : ℕ
  j : ℕ

mutual

/-- The `for(;;)` of `qs1`, up to where `i == lp` ends it. -/
def forever : ℕ → State → Except Fault State
  | 0, _ => .error .timeout
  | fuel + 1, s =>
      if s.i < s.lp then do
        let c ← compare base n qscmp s.m s.i s.lp
        if c = 0 then
          let m ← qsexc es base n s.m s.i (s.lp - es)
          forever fuel { s with m := m, lp := s.lp - es }
        else if c < 0 then
          forever fuel { s with i := s.i + es }
        else
          loop fuel s
      else
        loop fuel s

/-- The part from the label `loop` on. -/
def loop : ℕ → State → Except Fault State
  | 0, _ => .error .timeout
  | fuel + 1, s =>
      if s.hp < s.j then do
        let c ← compare base n qscmp s.m s.hp s.j
        if c = 0 then
          let m ← qsexc es base n s.m (s.hp + es) s.j
          loop fuel { s with m := m, hp := s.hp + es }
        else if 0 < c then
          if s.i = s.lp then
            let m ← qstexc es base n s.m s.i (s.hp + es) s.j
            loop fuel { m := m, i := s.lp + es, lp := s.lp + es, hp := s.hp + es, j := s.j }
          else
            let m ← qsexc es base n s.m s.i s.j
            forever fuel { s with m := m, i := s.i + es, j := s.j - es }
        else
          loop fuel { s with j := s.j - es }
      else if s.i = s.lp then
        .ok s
      else do
        let m ← qstexc es base n s.m s.j (s.lp - es) s.i
        forever fuel { m := m, i := s.i, lp := s.lp - es, hp := s.hp - es, j := s.hp - es }

end

/-- The calls that may still be nested inside a nested call. -/
def nested : ℕ → Except Fault ℕ
  | 0 => .error .deep
  | depth + 1 => .ok depth

/-- `qs1`, with at most `depth` calls nested in it. -/
def qs1 : ℕ → ℕ → Bytes → ℕ → ℕ → Except Fault Bytes
  | 0, _, _, _, _ => .error .timeout
  | fuel + 1, depth, m, a, l =>
      if l - a ≤ es then
        .ok m
      else do
        let half := es * ((l - a) / (2 * es % 2 ^ 32)) % 2 ^ 32
        let s ← forever base n qscmp fuel ⟨m, a, a + half, a + half, l - es⟩
        let inner ← nested depth
        if l - s.hp ≤ s.lp - a then
          let m ← qs1 fuel inner s.m (s.hp + es) l
          qs1 fuel depth m a s.lp
        else
          let m ← qs1 fuel inner s.m a s.lp
          qs1 fuel depth m (s.hp + es) l

/-- `qsort` of the array, with at most `depth` calls of `qs1` nested in the first. -/
def qsort (depth fuel : ℕ) (m : Bytes) : Except Fault Bytes :=
  qs1 base n qscmp fuel depth m base (base + n * es % 2 ^ 32)

theorem qsexcLoop_apply (k : ℕ) (m : Bytes) {i j : ℕ} (apart : i = j ∨ i + k ≤ j ∨ j + k ≤ i)
    (p : ℕ) : qsexcLoop k m i j p =
      if i ≤ p ∧ p < i + k then m (p - i + j)
      else if j ≤ p ∧ p < j + k then m (p - j + i) else m p := by
  induction k generalizing m i j with
  | zero =>
      rw [qsexcLoop, if_neg (by omega), if_neg (by omega)]
  | succ k ih =>
      rw [qsexcLoop]
      rw [ih _ (by omega)]
      simp only [Function.update_apply]
      grind

theorem qstexcLoop_apply (k : ℕ) (m : Bytes) {i j l : ℕ} (first : i + k ≤ j ∨ j + k ≤ i)
    (second : i + k ≤ l ∨ l + k ≤ i) (third : j = l ∨ j + k ≤ l ∨ l + k ≤ j)
    (p : ℕ) : qstexcLoop k m i j l p =
      if i ≤ p ∧ p < i + k then m (p - i + l)
      else if j ≤ p ∧ p < j + k then m (p - j + i)
      else if l ≤ p ∧ p < l + k then m (p - l + j) else m p := by
  induction k generalizing m i j l with
  | zero =>
      rw [qstexcLoop, if_neg (by omega), if_neg (by omega), if_neg (by omega)]
  | succ k ih =>
      rw [qstexcLoop]
      rw [ih _ (by omega) (by omega) (by omega)]
      simp only [Function.update_apply]
      grind

/-! ### Elements -/

/-- The address of the element with number `k`. -/
def address (es base k : ℕ) : ℕ := base + k * es

/-- The elements by their numbers, those of the array first. -/
def contents (es base : ℕ) (m : Bytes) (k : ℕ) : Fin es → UInt8 := element m (address es base k)

section Address

variable {es base n i j k l : ℕ}

theorem address_add_le (es base : ℕ) (less : i < j) :
    address es base i + es ≤ address es base j := by
  have product := Nat.mul_le_mul_right es less
  rw [Nat.succ_mul] at product
  rw [address, address]
  omega

theorem address_lt_iff (base : ℕ) (positive : 0 < es) :
    address es base i < address es base j ↔ i < j := by
  constructor
  · intro less
    by_contra other
    have product := Nat.mul_le_mul_right es (not_lt.mp other)
    rw [address, address] at less
    omega
  · intro less
    have next := address_add_le es base less
    omega

theorem address_inj (positive : 0 < es) : address es base i = address es base j ↔ i = j := by
  have less := address_lt_iff (i := i) (j := j) base positive
  have greater := address_lt_iff (i := j) (j := i) base positive
  omega

theorem address_succ (es base k : ℕ) : address es base k + es = address es base (k + 1) := by
  rw [address, address, Nat.succ_mul, Nat.add_assoc]

theorem address_pred (es base : ℕ) (positive : 0 < k) :
    address es base k - es = address es base (k - 1) := by
  obtain ⟨k, rfl⟩ : ∃ p, k = p + 1 := ⟨k - 1, by omega⟩
  rw [← address_succ, Nat.add_sub_cancel, Nat.add_sub_cancel]

theorem points_address (base : ℕ) (positive : 0 < es) (inside : k < n) :
    Points es base n (address es base k) := by
  refine ⟨positive, Nat.le_add_right base _, ?_, address_add_le es base inside⟩
  rw [address, Nat.add_sub_cancel_left]
  exact Nat.dvd_mul_left es k

/-- A byte of an element lies in no other. -/
theorem within_iff (base : ℕ) (r : Fin es) :
    address es base i ≤ address es base k + r ∧ address es base k + r < address es base i + es ↔
      k = i := by
  have small := r.isLt
  rcases lt_trichotomy k i with less | rfl | greater
  · have next := address_add_le es base less
    omega
  · omega
  · have next := address_add_le es base greater
    omega

theorem apart (es base : ℕ) {i j : ℕ} (other : i ≠ j) :
    address es base i + es ≤ address es base j ∨ address es base j + es ≤ address es base i :=
  (Nat.lt_or_gt_of_ne other).imp (address_add_le es base) (address_add_le es base)

/-- `qsexc` exchanges two elements. -/
theorem contents_qsexcLoop (base : ℕ) (m : Bytes) (i j : ℕ) :
    contents es base (qsexcLoop es m (address es base i) (address es base j)) =
      contents es base m ∘ swap i j := by
  have distinct : address es base i = address es base j ∨
      address es base i + es ≤ address es base j ∨
        address es base j + es ≤ address es base i := by
    by_cases same : i = j
    · exact .inl (by rw [same])
    · exact .inr (apart es base same)
  funext k r
  simp only [contents, element, Function.comp]
  rw [qsexcLoop_apply es m distinct]
  simp only [within_iff]
  by_cases first : k = i
  · rw [if_pos first, first, Equiv.swap_apply_left, Nat.add_sub_cancel_left, Nat.add_comm]
  · rw [if_neg first]
    by_cases second : k = j
    · rw [if_pos second, second, Equiv.swap_apply_right, Nat.add_sub_cancel_left, Nat.add_comm]
    · rw [if_neg second, Equiv.swap_apply_of_ne_of_ne first second]

/-- `qstexc` rotates three elements. -/
theorem contents_qstexcLoop (base : ℕ) (m : Bytes) (first : i ≠ j) (second : i ≠ l) :
    contents es base
        (qstexcLoop es m (address es base i) (address es base j) (address es base l)) =
      rotate (contents es base m) i j l := by
  have distinct : address es base j = address es base l ∨
      address es base j + es ≤ address es base l ∨
        address es base l + es ≤ address es base j := by
    by_cases same : j = l
    · exact .inl (by rw [same])
    · exact .inr (apart es base same)
  funext k r
  simp only [contents, element]
  rw [qstexcLoop_apply es m (apart es base first) (apart es base second) distinct]
  simp only [within_iff]
  by_cases here : k = i
  · rw [if_pos here, here, rotate_first first second, Nat.add_sub_cancel_left, Nat.add_comm,
      contents, element]
  · rw [if_neg here]
    by_cases here' : k = j
    · rw [if_pos here', here', rotate_second, Nat.add_sub_cancel_left, Nat.add_comm, contents,
        element]
    · rw [if_neg here']
      by_cases last : k = l
      · rw [if_pos last, last, rotate_third (Ne.symm first) (by omega), Nat.add_sub_cancel_left,
          Nat.add_comm, contents, element]
      · rw [if_neg last, rotate_of_ne here here' last, contents, element]

/-- Elements from `a` to before `l` have changed places, and nothing before the array has changed.
-/
structure Moved (es base : ℕ) (m m' : Bytes) (a l : ℕ) : Prop where
  rearranged : Rearranged (contents es base m) (contents es base m') a l
  before : ∀ p < base, m' p = m p

namespace Moved

variable {m m' m'' : Bytes} {a : ℕ}

theorem refl (es base : ℕ) (m : Bytes) (a l : ℕ) : Moved es base m m a l :=
  ⟨Rearranged.refl _ a l, fun _ _ => rfl⟩

theorem trans (first : Moved es base m m' a l) (second : Moved es base m' m'' a l) :
    Moved es base m m'' a l :=
  ⟨first.rearranged.trans second.rearranged, fun p below =>
    (second.before p below).trans (first.before p below)⟩

theorem mono {b k : ℕ} (moved : Moved es base m m' b k) (start : a ≤ b) (stop : k ≤ l) :
    Moved es base m m' a l :=
  ⟨moved.rearranged.mono start stop, moved.before⟩

theorem qsexc (m : Bytes) (first : a ≤ i ∧ i < l) (second : a ≤ j ∧ j < l) :
    Moved es base m (qsexcLoop es m (address es base i) (address es base j)) a l := by
  constructor
  · rw [contents_qsexcLoop]
    exact Rearranged.swap _ first second
  · intro p below
    have left : base ≤ address es base i := Nat.le_add_right base _
    have right : base ≤ address es base j := Nat.le_add_right base _
    by_cases same : i = j
    · rw [qsexcLoop_apply es m (.inl (by rw [same])), if_neg (by omega), if_neg (by omega)]
    · rw [qsexcLoop_apply es m (.inr (apart es base same)), if_neg (by omega), if_neg (by omega)]

theorem qstexc (m : Bytes) {k : ℕ} (other : i ≠ j) (other' : i ≠ k) (first : a ≤ i ∧ i < l)
    (second : a ≤ j ∧ j < l) (third : a ≤ k ∧ k < l) :
    Moved es base m
      (qstexcLoop es m (address es base i) (address es base j) (address es base k)) a l := by
  constructor
  · rw [contents_qstexcLoop base m other other']
    exact Rearranged.rotate _ first second third
  · intro p below
    have left : base ≤ address es base i := Nat.le_add_right base _
    have middle : base ≤ address es base j := Nat.le_add_right base _
    have right : base ≤ address es base k := Nat.le_add_right base _
    by_cases same : j = k
    · rw [qstexcLoop_apply es m (apart es base other) (apart es base other') (.inl (by rw [same])),
        if_neg (by omega), if_neg (by omega), if_neg (by omega)]
    · rw [qstexcLoop_apply es m (apart es base other) (apart es base other')
        (.inr (apart es base same)), if_neg (by omega), if_neg (by omega), if_neg (by omega)]

end Moved

end Address

/-! ### The partition -/

section Partition

variable {es base n : ℕ} {qscmp : (Fin es → UInt8) → (Fin es → UInt8) → ℤ}
  {a l i j lp hp : ℕ} {m m' : Bytes} {pivot : Fin es → UInt8}

theorem compare_address (qscmp : (Fin es → UInt8) → (Fin es → UInt8) → ℤ) (m : Bytes)
    (positive : 0 < es) (first : i < n) (second : j < n) :
    compare base n qscmp m (address es base i) (address es base j) =
      .ok (qscmp (contents es base m i) (contents es base m j)) :=
  if_pos ⟨points_address base positive first, points_address base positive second⟩

theorem qsexc_address (m : Bytes) (positive : 0 < es) (first : i < n) (second : j < n) :
    qsexc es base n m (address es base i) (address es base j) =
      .ok (qsexcLoop es m (address es base i) (address es base j)) :=
  if_pos ⟨points_address base positive first, points_address base positive second⟩

theorem qstexc_address (m : Bytes) {k : ℕ} (positive : 0 < es) (first : i < n) (second : j < n)
    (third : k < n) :
    qstexc es base n m (address es base i) (address es base j) (address es base k) =
      .ok (qstexcLoop es m (address es base i) (address es base j) (address es base k)) :=
  if_pos ⟨points_address base positive first, points_address base positive second,
    points_address base positive third⟩

/-- The state with its pointers at the elements of these numbers. -/
def State.numbered (es base : ℕ) (m : Bytes) (i lp hp j : ℕ) : State :=
  ⟨m, address es base i, address es base lp, address es base hp, address es base j⟩

/-- The loops end with the elements from `a` to before `l` partitioned. -/
def Ends (base : ℕ) (qscmp : (Fin es → UInt8) → (Fin es → UInt8) → ℤ) (pivot : Fin es → UInt8)
    (a l : ℕ) (m : Bytes) (run : ℕ → Except Fault State) : Prop :=
  ∃ m' lp hp, Settles run (State.numbered es base m' lp lp hp hp) ∧
    Scan qscmp pivot (contents es base m') a l lp lp hp hp ∧ Moved es base m m' a l

theorem Ends.step {run next : ℕ → Except Fault State} (ends : Ends base qscmp pivot a l m' next)
    (moved : Moved es base m m' a l) (spend : ∀ fuel, run (fuel + 1) = next fuel) :
    Ends base qscmp pivot a l m run := by
  obtain ⟨m'', lp, hp, settles, scan, moved'⟩ := ends
  exact ⟨m'', lp, hp, settles.succ spend, scan, moved.trans moved'⟩

/-- What the two loops do from states with at most `k` to be done. -/
def Loops (base n : ℕ) (qscmp : (Fin es → UInt8) → (Fin es → UInt8) → ℤ)
    (pivot : Fin es → UInt8) (a l k : ℕ) : Prop :=
  ∀ m i lp hp j, Scan qscmp pivot (contents es base m) a l i lp hp j →
    (2 * (lp - i + (j - hp)) + 1 ≤ k → Ends base qscmp pivot a l m fun fuel =>
      forever base n qscmp fuel (State.numbered es base m i lp hp j)) ∧
    (2 * (lp - i + (j - hp)) ≤ k → (i < lp → 0 < qscmp (contents es base m i) pivot) →
      Ends base qscmp pivot a l m fun fuel =>
        loop base n qscmp fuel (State.numbered es base m i lp hp j))

theorem forever_step {k : ℕ} (loops : ∀ k' < k, Loops base n qscmp pivot a l k')
    (total : TotalPreorder qscmp) (positive : 0 < es) (stop : l ≤ n)
    (scan : Scan qscmp pivot (contents es base m) a l i lp hp j)
    (size : 2 * (lp - i + (j - hp)) + 1 ≤ k) :
    Ends base qscmp pivot a l m fun fuel =>
      forever base n qscmp fuel (State.numbered es base m i lp hp j) := by
  have start := scan.start
  have middle := scan.middle
  have right := scan.right
  have high := scan.stop
  have like := total.congr (x := contents es base m i) (scan.equal lp le_rfl middle)
  by_cases more : i < lp
  · by_cases same : qscmp (contents es base m i) (contents es base m lp) = 0
    · have next := scan.equal_left more (like.2.mp same)
      rw [← contents_qsexcLoop] at next
      apply Ends.step ((loops (k - 1) (by omega) _ _ _ _ _ next).1 (by omega))
        (Moved.qsexc m (by omega) (by omega))
      intro fuel
      simp only [State.numbered, forever, address_lt_iff base positive, if_pos more,
        address_pred es base (show 0 < lp by omega),
        compare_address qscmp m positive (show i < n by omega) (show lp < n by omega),
        qsexc_address m positive (show i < n by omega) (show lp - 1 < n by omega),
        bind, Except.bind, if_pos same]
    · by_cases less : qscmp (contents es base m i) (contents es base m lp) < 0
      · have next := scan.less_left more (like.1.mp less)
        apply Ends.step ((loops (k - 1) (by omega) _ _ _ _ _ next).1 (by omega))
          (Moved.refl es base m a l)
        intro fuel
        simp only [State.numbered, forever, address_lt_iff base positive, if_pos more, address_succ,
          compare_address qscmp m positive (show i < n by omega) (show lp < n by omega),
          bind, Except.bind, if_neg same, if_pos less]
      · apply Ends.step ((loops (k - 1) (by omega) _ _ _ _ _ scan).2 (by omega) (by omega))
          (Moved.refl es base m a l)
        intro fuel
        simp only [State.numbered, forever, address_lt_iff base positive, if_pos more,
          compare_address qscmp m positive (show i < n by omega) (show lp < n by omega),
          bind, Except.bind, if_neg same, if_neg less]
  · apply Ends.step ((loops (k - 1) (by omega) _ _ _ _ _ scan).2 (by omega)
      fun more' => absurd more' more) (Moved.refl es base m a l)
    intro fuel
    simp only [State.numbered, forever, address_lt_iff base positive, if_neg more]

theorem loop_step {k : ℕ} (loops : ∀ k' < k, Loops base n qscmp pivot a l k')
    (total : TotalPreorder qscmp) (positive : 0 < es) (stop : l ≤ n)
    (scan : Scan qscmp pivot (contents es base m) a l i lp hp j)
    (size : 2 * (lp - i + (j - hp)) ≤ k)
    (waits : i < lp → 0 < qscmp (contents es base m i) pivot) :
    Ends base qscmp pivot a l m fun fuel =>
      loop base n qscmp fuel (State.numbered es base m i lp hp j) := by
  have start := scan.start
  have left := scan.left
  have middle := scan.middle
  have right := scan.right
  have high := scan.stop
  have like := total.congr (x := contents es base m j) (scan.equal hp middle le_rfl)
  have turn := total.opposite (contents es base m j) (contents es base m hp)
  have turn' := total.opposite (contents es base m hp) (contents es base m j)
  by_cases more : hp < j
  · by_cases same : qscmp (contents es base m hp) (contents es base m j) = 0
    · have next := scan.equal_right more (like.2.mp (by omega))
      rw [← contents_qsexcLoop] at next
      have still (less : i < lp) : 0 < qscmp (contents es base
          (qsexcLoop es m (address es base (hp + 1)) (address es base j)) i) pivot := by
        rw [contents_qsexcLoop, Function.comp,
          Equiv.swap_apply_of_ne_of_ne (by omega) (by omega)]
        exact waits less
      apply Ends.step ((loops (k - 1) (by omega) _ _ _ _ _ next).2 (by omega) still)
        (Moved.qsexc m (by omega) (by omega))
      intro fuel
      simp only [State.numbered, loop, address_lt_iff base positive, if_pos more, address_succ,
        compare_address qscmp m positive (show hp < n by omega) (show j < n by omega),
        qsexc_address m positive (show hp + 1 < n by omega) (show j < n by omega),
        bind, Except.bind, if_pos same]
    · by_cases greater : 0 < qscmp (contents es base m hp) (contents es base m j)
      · have small := like.1.mp (turn.mpr greater)
        by_cases none : i = lp
        · subst none
          have next := scan.rotate_right more small
          rw [← contents_qstexcLoop base m (by omega) (by omega)] at next
          apply Ends.step ((loops (k - 1) (by omega) _ _ _ _ _ next).2 (by omega) (by omega))
            (Moved.qstexc m (by omega) (by omega) (by omega) (by omega) (by omega))
          intro fuel
          simp only [State.numbered, loop, address_lt_iff base positive, if_pos more, address_succ,
            compare_address qscmp m positive (show hp < n by omega) (show j < n by omega),
            qstexc_address m positive (show i < n by omega) (show hp + 1 < n by omega)
              (show j < n by omega),
            bind, Except.bind, if_neg same, if_pos greater, if_true]
        · have next := scan.exchange (by omega) more (waits (by omega)) small
          rw [← contents_qsexcLoop] at next
          apply Ends.step ((loops (k - 1) (by omega) _ _ _ _ _ next).1 (by omega))
            (Moved.qsexc m (by omega) (by omega))
          intro fuel
          simp only [State.numbered, loop, address_lt_iff base positive, if_pos more, address_succ,
            address_inj positive, address_pred es base (show 0 < j by omega),
            compare_address qscmp m positive (show hp < n by omega) (show j < n by omega),
            qsexc_address m positive (show i < n by omega) (show j < n by omega),
            bind, Except.bind, if_neg same, if_pos greater, if_neg none]
      · have other := like.1.not.mp (by omega)
        have other' := like.2.not.mp (by omega)
        have next := scan.greater_right more (by omega)
        apply Ends.step ((loops (k - 1) (by omega) _ _ _ _ _ next).2 (by omega) waits)
          (Moved.refl es base m a l)
        intro fuel
        simp only [State.numbered, loop, address_lt_iff base positive, if_pos more,
          address_pred es base (show 0 < j by omega),
          compare_address qscmp m positive (show hp < n by omega) (show j < n by omega),
          bind, Except.bind, if_neg same, if_neg greater]
  · obtain rfl : hp = j := by omega
    by_cases none : i = lp
    · subst none
      refine ⟨m, i, hp, (Settles.pure _).succ fun fuel => ?_, scan, Moved.refl es base m a l⟩
      simp only [State.numbered, loop, lt_irrefl, if_false, if_true]
    · have next := scan.rotate_left (by omega) (waits (by omega))
      rw [← contents_qstexcLoop base m (by omega) (by omega)] at next
      apply Ends.step ((loops (k - 1) (by omega) _ _ _ _ _ next).1 (by omega))
        (Moved.qstexc m (by omega) (by omega) (by omega) (by omega) (by omega))
      intro fuel
      simp only [State.numbered, loop, lt_irrefl, if_false, address_inj positive, if_neg none,
        address_pred es base (show 0 < lp by omega), address_pred es base (show 0 < hp by omega),
        qstexc_address m positive (show hp < n by omega) (show lp - 1 < n by omega)
          (show i < n by omega),
        bind, Except.bind]

theorem loops (total : TotalPreorder qscmp) (positive : 0 < es) (stop : l ≤ n) (k : ℕ) :
    Loops base n qscmp pivot a l k := by
  induction k using Nat.strong_induction_on with
  | h k ih =>
      intro m i lp hp j scan
      exact ⟨forever_step ih total positive stop scan, loop_step ih total positive stop scan⟩

end Partition

/-! ### The sort -/

section Sorting

variable {es base n : ℕ} {qscmp : (Fin es → UInt8) → (Fin es → UInt8) → ℤ} {a l : ℕ} {m : Bytes}

theorem address_sub (es base a l : ℕ) :
    address es base l - address es base a = (l - a) * es := by
  rw [address, address, Nat.sub_mul]
  omega

/-- `n = es * (n / (2*es))` gives the element in the middle. -/
theorem half_eq (positive : 0 < es) (fits : n * es < 2 ^ 31) (stop : l ≤ n)
    (more : 2 ≤ l - a) :
    address es base a +
        es * ((address es base l - address es base a) / (2 * es % 2 ^ 32)) % 2 ^ 32 =
      address es base (a + (l - a) / 2) := by
  have whole : (l - a) * es ≤ n * es := Nat.mul_le_mul_right es (by omega)
  have two : 2 * es ≤ (l - a) * es := Nat.mul_le_mul_right es more
  have half : (l - a) / 2 * es ≤ (l - a) * es := Nat.mul_le_mul_right es (Nat.div_le_self _ 2)
  rw [address_sub, Nat.mod_eq_of_lt (show 2 * es < 2 ^ 32 by omega),
    Nat.mul_div_mul_right _ _ positive, Nat.mul_comm es, Nat.mod_eq_of_lt (by omega), address,
    address, Nat.add_mul, Nat.add_assoc]

/-- `qs1` has sorted the elements from `a` to before `l`. -/
def Sorts (base n : ℕ) (qscmp : (Fin es → UInt8) → (Fin es → UInt8) → ℤ) (depth : ℕ) (m : Bytes)
    (a l : ℕ) : Prop :=
  ∃ m', Settles (fun fuel =>
      qs1 base n qscmp fuel depth m (address es base a) (address es base l)) m' ∧
    Moved es base m m' a l ∧ Sorted qscmp (contents es base m') a l

theorem qs1_step (total : TotalPreorder qscmp) (positive : 0 < es)
    (fits : n * es < 2 ^ 31) (stop : l ≤ n) {depth : ℕ} (deep : l - a < 2 ^ (depth + 1))
    (sorts : ∀ depth m a' l', l' ≤ n → l' - a' < l - a → l' - a' < 2 ^ (depth + 1) →
      Sorts base n qscmp depth m a' l') : Sorts base n qscmp depth m a l := by
  by_cases more : 2 ≤ l - a
  · have start := Scan.init (f := contents es base m) total (Nat.le_add_right a ((l - a) / 2))
      (show a + (l - a) / 2 < l by omega)
    obtain ⟨m₁, lp, hp, settles, scan, moved⟩ :=
      (loops total positive stop _ m _ _ _ _ start).1 le_rfl
    have low := scan.start
    have middle := scan.middle
    have high := scan.stop
    obtain ⟨inner, rfl⟩ : ∃ inner, depth = inner + 1 := by
      cases depth with
      | zero => omega
      | succ inner => exact ⟨inner, rfl⟩
    have large : ¬address es base l - address es base a ≤ es := by
      rw [address_sub]
      have two : 2 * es ≤ (l - a) * es := Nat.mul_le_mul_right es more
      omega
    have last := address_pred es base (show 0 < l by omega)
    have turn : address es base l - address es base hp ≤ address es base lp - address es base a ↔
        l - hp ≤ lp - a := by
      rw [address_sub, address_sub]
      exact Nat.mul_le_mul_right_iff positive
    obtain ⟨k₁, settles⟩ := settles
    by_cases left : l - hp ≤ lp - a
    · obtain ⟨m₂, ⟨k₂, settles₂⟩, moved₂, sorted₂⟩ :=
        sorts inner m₁ (hp + 1) l stop (by omega) (by omega)
      obtain ⟨m₃, ⟨k₃, settles₃⟩, moved₃, sorted₃⟩ :=
        sorts (inner + 1) m₂ a lp (by omega) (by omega) (by omega)
      have scan₂ := scan.rearrange_right moved₂.rearranged
      have scan₃ := scan₂.rearrange_left moved₃.rearranged
      refine ⟨m₃, ⟨max k₁ (max k₂ k₃) + 1, fun fuel enough => ?_⟩, ?_, ?_⟩
      · obtain ⟨rest, rfl⟩ : ∃ rest, fuel = rest + 1 := ⟨fuel - 1, by omega⟩
        have first := settles rest (by omega)
        rw [State.numbered] at first
        simp only [qs1, if_neg large, half_eq positive fits stop more, last, first,
          State.numbered, nested, bind, Except.bind, turn, if_pos left, address_succ,
          settles₂ rest (by omega), settles₃ rest (by omega)]
      · exact (moved.trans (moved₂.mono (by omega) le_rfl)).trans (moved₃.mono le_rfl (by omega))
      · have right := moved₃.rearranged.sorted (.inr (by omega)) sorted₂
        exact scan₃.sorted total sorted₃ right
    · obtain ⟨m₂, ⟨k₂, settles₂⟩, moved₂, sorted₂⟩ :=
        sorts inner m₁ a lp (by omega) (by omega) (by omega)
      obtain ⟨m₃, ⟨k₃, settles₃⟩, moved₃, sorted₃⟩ :=
        sorts (inner + 1) m₂ (hp + 1) l stop (by omega) (by omega)
      have scan₂ := scan.rearrange_left moved₂.rearranged
      have scan₃ := scan₂.rearrange_right moved₃.rearranged
      refine ⟨m₃, ⟨max k₁ (max k₂ k₃) + 1, fun fuel enough => ?_⟩, ?_, ?_⟩
      · obtain ⟨rest, rfl⟩ : ∃ rest, fuel = rest + 1 := ⟨fuel - 1, by omega⟩
        have first := settles rest (by omega)
        rw [State.numbered] at first
        simp only [qs1, if_neg large, half_eq positive fits stop more, last, first,
          State.numbered, nested, bind, Except.bind, turn, if_neg left, address_succ,
          settles₂ rest (by omega), settles₃ rest (by omega)]
      · exact (moved.trans (moved₂.mono le_rfl (by omega))).trans (moved₃.mono (by omega) le_rfl)
      · have left := moved₃.rearranged.sorted (.inl (by omega)) sorted₂
        exact scan₃.sorted total left sorted₃
  · have small : address es base l - address es base a ≤ es := by
      rw [address_sub]
      have one : (l - a) * es ≤ 1 * es := Nat.mul_le_mul_right es (by omega)
      omega
    refine ⟨m, (Settles.pure m).succ fun fuel => ?_, Moved.refl es base m a l, ?_⟩
    · simp only [qs1, if_pos small]
    · intro i j low less high
      omega

theorem qs1_spec (total : TotalPreorder qscmp) (positive : 0 < es)
    (fits : n * es < 2 ^ 31) {depth : ℕ} (m : Bytes) (stop : l ≤ n)
    (deep : l - a < 2 ^ (depth + 1)) : Sorts base n qscmp depth m a l := by
  obtain ⟨size, same⟩ : ∃ size, l - a = size := ⟨_, rfl⟩
  induction size using Nat.strong_induction_on generalizing depth m a l with
  | h size ih =>
      apply qs1_step total positive fits stop deep
      intro depth m a' l' stop' less deep'
      exact ih (l' - a') (by omega) m stop' deep' rfl

/-- The elements of the array. -/
def elements (es base n : ℕ) (m : Bytes) : List (Fin es → UInt8) :=
  List.ofFn fun k : Fin n => contents es base m k

/-- `qsort` ends, with the calls of `qs1` nested at most log n deep and no access outside the
array, and leaves the elements of the array in nondecreasing order. -/
theorem qsort_sorts (total : TotalPreorder qscmp) (fits : n * es < 2 ^ 31) (m : Bytes) :
    ∃ m', Settles (fun fuel => qsort base n qscmp (Nat.log 2 n) fuel m) m' ∧
      (elements es base n m').Perm (elements es base n m) ∧
      (elements es base n m').Pairwise (fun x y => qscmp x y ≤ 0) ∧
      ∀ p, p < base ∨ base + n * es ≤ p → m' p = m p := by
  cases Nat.eq_zero_or_pos es with
  | inl none =>
      subst none
      refine ⟨m, (Settles.pure m).succ fun fuel => ?_, .refl _, ?_, fun _ _ => rfl⟩
      · simp only [qsort, qs1, Nat.mul_zero, Nat.zero_mod, Nat.add_zero, Nat.sub_self, le_refl,
          if_true]
      · apply List.pairwise_of_forall
        intro x y
        rw [Subsingleton.elim x y]
        exact (total.self y).le
  | inr positive =>
      have deep : n - 0 < 2 ^ (Nat.log 2 n + 1) := Nat.lt_pow_succ_log_self (by decide) n
      obtain ⟨m', settles, moved, sorted⟩ := qs1_spec total positive fits m le_rfl deep
      refine ⟨m', settles.congr fun fuel => ?_, moved.rearranged.perm, ?_, ?_⟩
      · have first : address es base 0 = base := by rw [address, Nat.zero_mul, Nat.add_zero]
        rw [qsort, Nat.mod_eq_of_lt (show n * es < 2 ^ 32 by omega), first, address]
      · rw [elements, List.pairwise_ofFn]
        intro i j less
        exact sorted i j (Nat.zero_le _) less j.isLt
      · intro p outside
        cases outside with
        | inl before => exact moved.before p before
        | inr behind =>
            have number : n ≤ (p - base) / es := by
              rw [Nat.le_div_iff_mul_le positive]
              omega
            have same := moved.rearranged.outside (k := (p - base) / es) (by omega)
            have byte := congrFun same ⟨(p - base) % es, Nat.mod_lt _ positive⟩
            have whole := Nat.div_add_mod (p - base) es
            rw [Nat.mul_comm] at whole
            simp only [contents, element, address] at byte
            rwa [show base + (p - base) / es * es + (p - base) % es = p by omega] at byte

/-- The order of single bytes. -/
def byteOrder (x y : Fin 1 → UInt8) : ℤ := (x 0).toNat - (y 0).toNat

/-- Three bytes at address 100. -/
theorem qsort_sorts_bytes : ∃ m', Settles (fun fuel =>
      qsort 100 3 byteOrder (Nat.log 2 3) fuel fun p => UInt8.ofNat (200 - p)) m' ∧
    (elements 1 100 3 m').Perm (elements 1 100 3 fun p => UInt8.ofNat (200 - p)) ∧
    (elements 1 100 3 m').Pairwise (fun x y => byteOrder x y ≤ 0) ∧
    ∀ p, p < 100 ∨ 100 + 3 * 1 ≤ p → m' p = UInt8.ofNat (200 - p) := by
  apply qsort_sorts _ (by decide)
  constructor
  · intro x y
    simp only [byteOrder]
    omega
  · intro x y z
    simp only [byteOrder]
    omega

end Sorting

end UnixV7.Libc.Qsort
