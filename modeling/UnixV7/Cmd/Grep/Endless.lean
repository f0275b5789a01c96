import UnixV7.Cmd.Grep.Inside

/-!
# Expressions without an answer

Where an expression does not settle there is a line for which `advance` never answers, or reads
behind the NUL: the text of the shortest way. Every other way from a place of that line either
fails or comes to the same end.
-/

namespace UnixV7

namespace Grep

section

variable {mem line s t : List UInt8} {items ep : List Item} {item : Item} {x : Extent}
  {lp k n : ℕ} {g g' : Groups} {takes : UInt8 → Bool} {circf : Bool}
  {next : ℕ → Groups → Advanced}

/-! ## A line with no answer -/

/-- The groups are those of the shortest way. -/
structure Exact (x : Extent) (g : Groups) : Prop where
  opened : ∀ n b, x.groups.braslist n = some b → g.braslist n = some b ∧ b ≤ x.lp
  closed : ∀ n e, x.groups.braelist n = some e →
    g.braelist n = some e ∧ e ≤ x.lp ∧ ∃ b, x.groups.braslist n = some b ∧ b ≤ e

theorem Exact.group (exact : Exact x g) (known : x.least n = some k) :
    ∃ b, x.groups.braslist n = some b ∧ g.braslist n = some b ∧ g.braelist n = some (b + k) ∧
      b + k ≤ x.lp := by
  obtain ⟨e, stop, rfl⟩ := Option.map_eq_some_iff.mp known
  obtain ⟨stop', before, b, start, le⟩ := exact.closed n e stop
  have size : b + (e - (x.groups.braslist n).getD 0) = e := by
    rw [start]
    exact Nat.add_sub_of_le le
  refine ⟨b, start, (exact.opened n b start).1, ?_, ?_⟩
  · rwa [size]
  · rwa [size]

theorem Exact.ahead (exact : Exact x g) (j : ℕ) : Ahead x (x.lp + j) g where
  reached := Nat.le_add_right _ _
  ordered n closed := by
    obtain ⟨e, stop⟩ := Option.ne_none_iff_exists'.mp closed
    obtain ⟨-, -, b, start, -⟩ := exact.closed n e stop
    simp [start]
  opened n b start _ := by
    obtain ⟨same, before⟩ := exact.opened n b start
    exact ⟨b, same, before, by omega⟩
  closed n k known := by
    obtain ⟨b, -, start, stop, before⟩ := exact.group known
    exact ⟨b, b + k, start, stop, le_rfl, by omega⟩

theorem Exact.pass (exact : Exact x g) (j : ℕ) (more : Bool) : Exact (x.pass j more) g where
  opened n b start := by
    obtain ⟨same, before⟩ := exact.opened n b start
    exact ⟨same, before.trans (Nat.le_add_right _ _)⟩
  closed n e stop := by
    obtain ⟨same, before, group⟩ := exact.closed n e stop
    exact ⟨same, before.trans (Nat.le_add_right _ _), group⟩

theorem Exact.opening (exact : Exact x g) (fresh : x.groups.braelist n = none) :
    Exact (x.step (.cbra n)) (g.opening n x.lp) where
  opened m b start := by
    by_cases here : m = n
    · subst here
      obtain rfl : x.lp = b := by simpa [Extent.step, Groups.opening] using start
      exact ⟨by simp [Groups.opening], le_rfl⟩
    · obtain ⟨same, before⟩ :=
        exact.opened m b (by simpa [Extent.step, Groups.opening, here] using start)
      exact ⟨by simpa [Groups.opening, here] using same, before⟩
  closed m e stop := by
    have here : m ≠ n := by
      rintro rfl
      rw [show (x.step (.cbra m)).groups.braelist m = none from fresh] at stop
      cases stop
    obtain ⟨same, before, b, start, le⟩ := exact.closed m e stop
    exact ⟨same, before, b, by simpa [Extent.step, Groups.opening, here] using start, le⟩

theorem Exact.closing (exact : Exact x g) (opened : x.groups.braslist n ≠ none) :
    Exact (x.step (.cket n)) (g.closing n x.lp) where
  opened := exact.opened
  closed m e stop := by
    by_cases here : m = n
    · subst here
      obtain rfl : x.lp = e := by simpa [Extent.step, Groups.closing] using stop
      obtain ⟨b, start⟩ := Option.ne_none_iff_exists'.mp opened
      exact ⟨by simp [Groups.closing], le_rfl, b, start, (exact.opened m b start).2⟩
    · obtain ⟨same, rest⟩ :=
        exact.closed m e (by simpa [Extent.step, Groups.closing, here] using stop)
      exact ⟨by simpa [Groups.closing, here] using same, rest⟩

theorem Exact.kept (exact : Exact x g) (kept : Kept x g g') : Exact x g' where
  opened n b start := by
    rw [(kept n).1 (by simp [start])]
    exact exact.opened n b start
  closed n e stop := by
    rw [(kept n).2 (by simp [stop])]
    exact exact.closed n e stop

/-- Attempts that all fail find nothing. -/
theorem backUp_misses {J : Groups → Prop} (keeps : Keeps (fun g g' => J g → J g') next)
    {curlp size : ℕ}
    (misses : ∀ j ≤ k, ∀ g g', J g → next (curlp + j * size) g ≠ some (true, g')) (holds : J g) :
    backUp next curlp size k g ≠ some (true, g') := by
  induction k generalizing g with
  | zero =>
      have last := misses 0 le_rfl g g' holds
      rwa [Nat.zero_mul, Nat.add_zero] at last
  | succ k ih =>
      intro h
      rw [backUp] at h
      obtain ⟨⟨hit, g₁⟩, first, rest⟩ := Option.bind_eq_some_iff.mp h
      cases hit with
      | true => exact misses (k + 1) le_rfl g g₁ holds first
      | false => exact ih (fun j le => misses j (by omega)) (keeps _ _ _ _ first holds) rest

/-- If all attempts fail before the last, and that has no answer, there is none. -/
theorem backUp_none {J : Groups → Prop} (keeps : Keeps (fun g g' => J g → J g') next)
    {curlp size : ℕ}
    (misses : ∀ j, 0 < j → ∀ g g', J g → next (curlp + j * size) g ≠ some (true, g'))
    (last : ∀ g, J g → next curlp g = none) (holds : J g) :
    backUp next curlp size k g = none := by
  induction k generalizing g with
  | zero => exact last g holds
  | succ k ih =>
      rw [backUp]
      cases first : next (curlp + (k + 1) * size) g with
      | none => rfl
      | some r =>
          obtain ⟨hit, g₁⟩ := r
          cases hit with
          | true => exact absurd first (misses (k + 1) (Nat.succ_pos k) g g₁ holds)
          | false => exact ih (keeps _ _ _ _ first holds)

theorem fastCheck_misses (misses : next lp g ≠ some (true, g')) :
    fastCheck mem ep next lp g ≠ some (true, g') := by
  intro h
  rcases fastCheck_cases ep with ⟨c, tail, rfl⟩ | other
  · obtain ⟨d, -, h⟩ := Option.bind_eq_some_iff.mp h
    split at h
    · cases h
    · exact misses h
  · rw [other] at h
    exact misses h

theorem fastCheck_none (answers : advance mem ep lp g = none) :
    fastCheck mem ep (advance mem ep) lp g = none := by
  rcases fastCheck_cases ep with ⟨c, tail, rfl⟩ | other
  · cases read : mem[lp]? with
    | none => rw [fastCheck, read]; rfl
    | some d =>
        rw [fastCheck, read]
        change (if d ≠ c then some (false, g) else advance mem (.cchr c false :: tail) lp g) = none
        split
        next differs =>
          rw [advance, read] at answers
          change (if c = d then advance mem tail (lp + 1) g else some (false, g)) = none at answers
          rw [if_neg (Ne.symm differs)] at answers
          cases answers
        next => exact answers
  · rw [other]
    exact answers

theorem ecmp_outside {turns a b : ℕ} {count : ℤ} (more : count ≠ 0) (outside : mem.length ≤ b) :
    ecmp mem turns a b count = none := by
  cases turns with
  | zero => rfl
  | succ turns =>
      rw [ecmp, if_neg more, List.getElem?_eq_none outside]
      cases mem[a]? <;> rfl

theorem ecmp_same {turns a b ct : ℕ} (same : ∀ i < ct, mem[a + i]? = mem[b + i]?)
    (inside : b + ct ≤ mem.length) (patient : ct < turns) :
    ecmp mem turns a b ct = some true := by
  induction ct generalizing turns a b with
  | zero =>
      obtain ⟨turns, rfl⟩ := Nat.exists_eq_succ_of_ne_zero patient.ne'
      simp [ecmp]
  | succ ct ih =>
      obtain ⟨turns, rfl⟩ := Nat.exists_eq_succ_of_ne_zero (Nat.ne_zero_of_lt patient)
      have read := List.getElem?_eq_getElem (show b < mem.length by omega)
      have here : mem[a]? = some mem[b] := (same 0 (Nat.succ_pos ct)).trans read
      rw [ecmp, if_neg (by omega), here, read]
      dsimp only
      rw [if_neg (not_not.mpr rfl), show ((ct + 1 : ℕ) : ℤ) - 1 = ct by omega]
      refine ih (fun i less => ?_) (by omega) (by omega)
      have := same (i + 1) (by omega)
      rwa [show a + 1 + i = a + (i + 1) by omega, show b + 1 + i = b + (i + 1) by omega]

/-- The star behind a reference to an empty text goes on for ever. -/
theorem repeats_empty {turns a : ℕ} : repeats mem a 0 turns lp = none := by
  induction turns generalizing lp with
  | zero => rfl
  | succ turns ih => simp [repeats, ecmp, ih]

/-- From the place of the shortest way there is no answer, and from no place behind it the line is
found. -/
structure Stuck (items : List Item) (x : Extent) (s t : List UInt8) : Prop where
  here : ∀ g, Exact x g → advance (s ++ t ++ [0]) items x.lp g = none
  behind : ∀ lp g g', x.lp < lp → Ahead x lp g →
    advance (s ++ t ++ [0]) items lp g ≠ some (true, g')

/-- Behind a class that has taken the NUL something is read. -/
theorem reads_outside (proper : Proper items x) (exact : Exact x g) (outside : mem.length ≤ x.lp)
    (harmful : readsNothing Extent.mayBeEmpty items x = false) :
    advance mem items x.lp g = none := by
  induction items generalizing x g with
  | nil => cases harmful
  | cons item ep ih =>
      have nothing : mem[x.lp]? = none := List.getElem?_eq_none outside
      have empty : mem.drop x.lp = [] := List.drop_eq_nil_iff.mpr outside
      cases item with
      | cchr c star => cases star with
        | false => rw [advance, nothing]; rfl
        | true => rw [advance, empty]; rfl
      | cdot star => cases star with
        | false => rw [advance, nothing]; rfl
        | true => rw [advance, empty]; rfl
      | ccl table star => cases star with
        | false => rw [advance, nothing]; rfl
        | true => rw [advance, empty]; rfl
      | cdol => rw [advance, nothing]; rfl
      | cbra n =>
          exact ih (x := x.step (.cbra n)) proper.2 (exact.opening proper.1.2) outside harmful
      | cket n =>
          exact ih (x := x.step (.cket n)) proper.2 (exact.closing proper.1.1) outside harmful
      | cback n star =>
          obtain ⟨closed, harmful⟩ := Bool.or_eq_false_iff.mp harmful
          obtain ⟨k, known⟩ := Option.ne_none_iff_exists'.mp
            (show x.least n ≠ none from fun none => by simp [none] at closed)
          obtain ⟨b, -, start, stop, -⟩ := exact.group known
          have ct : ((b + k : ℕ) : ℤ) - b = k := by omega
          cases star with
          | false =>
              rw [advance, start, stop]
              simp only [ct]
              rcases Nat.eq_zero_or_pos k with rfl | pos
              · have same := exact.pass 0 (x.elastic n)
                have step : x.step (.cback n false) = x.pass 0 (x.elastic n) := by
                  simp [Extent.step, known]
                rw [← step] at same
                have rest := ih proper.2 same (by simpa [step, Extent.pass] using outside)
                  (by simpa [Extent.mayBeEmpty, known] using harmful)
                simpa [ecmp, step, Extent.pass] using rest
              · rw [ecmp_outside (by omega) outside]
                rfl
          | true =>
              rw [advance, start, stop]
              simp only [ct]
              rcases Nat.eq_zero_or_pos k with rfl | pos
              · have never : repeats mem b ((0 : ℕ) : ℤ) (mem.length + 1) x.lp = none :=
                  repeats_empty
                rw [never]
                rfl
              · rw [repeats, ecmp_outside (by omega) outside]
                rfl

/-- An item without a star is passed by a character. -/
theorem Stuck.one {c : UInt8} (one : item.piece = some ⟨takes, false⟩) (taken : takes c = true)
    (length : s.length = x.lp) (rest : Stuck ep (x.pass 1 true) (s ++ [c]) t) :
    Stuck (item :: ep) x s (c :: t) where
  here g exact := by
    have read : (s ++ c :: t ++ [0])[x.lp]? = some c := by simp [← length]
    have tail := rest.here g (exact.pass 1 true)
    rw [List.append_assoc s [c] t] at tail
    rw [advance_one one, read]
    change (if takes c then advance _ ep (x.lp + 1) g else some (false, g)) = none
    rw [if_pos taken]
    exact tail
  behind lp g g' less ahead h := by
    rw [advance_one one] at h
    obtain ⟨d, -, h⟩ := Option.bind_eq_some_iff.mp h
    split at h
    · have tail := rest.behind (lp + 1) g g' (Nat.succ_lt_succ less) (ahead.pass le_rfl)
      rw [List.append_assoc s [c] t] at tail
      exact tail h
    · cases h

/-- An item with a star is passed by nothing, after longer attempts have failed. -/
theorem Stuck.star (starred : item.piece = some ⟨takes, true⟩) (proper : Proper ep (x.pass 0 true))
    (rest : Stuck ep (x.pass 0 true) s t) : Stuck (item :: ep) x s t where
  here g exact := by
    rw [advance_star starred]
    cases run takes ((s ++ t ++ [0]).drop x.lp) with
    | none => rfl
    | some k =>
        change Grep.star _ ep (advance _ ep) x.lp g k = none
        unfold Grep.star
        split
        · exact rest.here g (exact.pass 0 true)
        · refine backUp_none (J := Exact x) ?_ ?_ ?_ exact
          · exact fastCheck_keeps (fun _ => id) fun lp g found g' h exact =>
              exact.kept (advance_kept (x := x.pass 0 true) proper lp g found g' h)
          · intro j pos g g' exact
            refine fastCheck_misses (rest.behind _ g g' ?_ ?_)
            · exact Nat.lt_add_of_pos_right (by omega)
            · exact (exact.ahead (j * 1)).pass (k := 0) le_rfl
          · exact fun g exact => fastCheck_none (rest.here g (exact.pass 0 true))
  behind lp g g' less ahead h := by
    rw [advance_star starred] at h
    obtain ⟨k, -, h⟩ := Option.bind_eq_some_iff.mp h
    unfold Grep.star at h
    split at h
    · exact rest.behind lp g g' less (ahead.pass (k := 0) le_rfl) h
    · refine backUp_misses (J := Ahead x lp) ?_ ?_ ahead h
      · exact fastCheck_keeps (fun _ => id) fun place g found g' h ahead =>
          ahead.kept (advance_kept (x := x.pass 0 true) proper place g found g' h)
      · intro j _ g g' ahead
        refine fastCheck_misses (rest.behind _ g g' (Nat.lt_add_right _ less) ?_)
        exact ahead.pass (Nat.zero_le _)

theorem Stuck.opening (rest : Stuck ep (x.step (.cbra n)) s t)
    (fresh : x.groups.braelist n = none) : Stuck (.cbra n :: ep) x s t where
  here _ exact := rest.here _ (exact.opening fresh)
  behind lp _ g' less ahead := rest.behind lp _ g' less (ahead.opening fresh)

theorem Stuck.closing (rest : Stuck ep (x.step (.cket n)) s t) (opened : x.groups.braslist n ≠ none)
    (fresh : x.groups.braelist n = none) : Stuck (.cket n :: ep) x s t where
  here _ exact := rest.here _ (exact.closing opened)
  behind lp _ g' less ahead := rest.behind lp _ g' less (ahead.closing opened fresh)

/-- A reference to a group is passed by the text of the group. -/
theorem Stuck.reference {b : ℕ} (start : x.groups.braslist n = some b)
    (stop : x.groups.braelist n = some (b + k)) (inside : b + k ≤ s.length)
    (length : s.length = x.lp)
    (rest : Stuck ep (x.pass k (x.elastic n)) (s ++ (s.drop b).take k) t) :
    Stuck (.cback n false :: ep) x s ((s.drop b).take k ++ t) where
  here g exact := by
    have size : ((s.drop b).take k).length = k := by
      rw [List.length_take, List.length_drop]
      omega
    have same : ecmp (s ++ ((s.drop b).take k ++ t) ++ [0])
        ((s ++ ((s.drop b).take k ++ t) ++ [0]).length + 1) b x.lp (((b + k : ℕ) : ℤ) - b) =
          some true := by
      rw [show ((b + k : ℕ) : ℤ) - b = k by omega, ← length]
      apply ecmp_same
      · intro i less
        rw [List.append_assoc, List.append_assoc, List.getElem?_append_left (by omega),
          List.getElem?_append_right (by omega), Nat.add_sub_cancel_left,
          List.getElem?_append_left (by omega), List.getElem?_take, if_pos less,
          List.getElem?_drop]
      · simp only [List.length_append, size]
        omega
      · simp only [List.length_append, size]
        omega
    have tail := rest.here g (exact.pass k (x.elastic n))
    rw [List.append_assoc s] at tail
    rw [advance, (exact.opened n b start).1, (exact.closed n (b + k) stop).1]
    simp only [same, Option.bind_eq_bind, Option.bind_some, if_true, Nat.add_sub_cancel_left]
    exact tail
  behind lp g g' less ahead h := by
    have known : x.least n = some k := by simp [Extent.least, start, stop]
    obtain ⟨bbeg, bend, start', stop', long, -⟩ := ahead.closed n k known
    rw [advance, start', stop'] at h
    obtain ⟨same, -, h⟩ := Option.bind_eq_some_iff.mp h
    split at h
    · have tail := rest.behind (lp + (bend - bbeg)) g g'
        (show x.lp + k < lp + (bend - bbeg) by omega) (ahead.pass (by omega))
      rw [List.append_assoc s] at tail
      exact tail h
    · cases h

/-- A star behind a reference to a text that is not empty. -/
theorem Stuck.references (known : x.least n = some k) (pos : 0 < k)
    (proper : Proper ep (x.pass 0 (x.elastic n))) (rest : Stuck ep (x.pass 0 (x.elastic n)) s t) :
    Stuck (.cback n true :: ep) x s t where
  here g exact := by
    obtain ⟨b, -, start, stop, -⟩ := exact.group known
    rw [advance, start, stop]
    dsimp only
    cases repeats (s ++ t ++ [0]) b (((b + k : ℕ) : ℤ) - b) ((s ++ t ++ [0]).length + 1) x.lp with
    | none => rfl
    | some times =>
        refine backUp_none (J := Exact x) ?_ ?_ ?_ exact
        · exact fun lp g found g' h exact =>
            exact.kept (advance_kept (x := x.pass 0 (x.elastic n)) proper lp g found g' h)
        · intro j more g g' exact
          have := Nat.mul_pos more pos
          rw [Nat.add_sub_cancel_left]
          refine rest.behind _ g g' (Nat.lt_add_of_pos_right this) ?_
          exact (exact.ahead (j * k)).pass (k := 0) le_rfl
        · exact fun g exact => rest.here g (exact.pass 0 _)
  behind lp g g' less ahead h := by
    obtain ⟨bbeg, bend, start, stop, -⟩ := ahead.closed n k known
    rw [advance, start, stop] at h
    obtain ⟨times, -, h⟩ := Option.bind_eq_some_iff.mp h
    refine backUp_misses (J := Ahead x lp) ?_ ?_ ahead h
    · exact fun place g found g' h ahead =>
        ahead.kept (advance_kept (x := x.pass 0 (x.elastic n)) proper place g found g' h)
    · intro j _ g g' ahead
      exact rest.behind _ g g' (Nat.lt_add_right _ less) (ahead.pass (Nat.zero_le _))

/-- A star behind a reference to a text that may be empty. -/
theorem stuck_empty (known : x.least n = some 0) (length : s.length = x.lp) :
    Stuck (.cback n true :: ep) x s [] where
  here g exact := by
    obtain ⟨b, -, start, stop, -⟩ := exact.group known
    have never : ∀ mem, repeats mem b (((b + 0 : ℕ) : ℤ) - b) (mem.length + 1) x.lp = none := by
      intro mem
      rw [show ((b + 0 : ℕ) : ℤ) - b = 0 by omega]
      exact repeats_empty
    rw [advance, start, stop]
    simp only [never]
    rfl
  behind lp g g' less ahead h := by
    obtain ⟨bbeg, bend, start, stop, long, -⟩ := ahead.closed n 0 known
    have outside : (s ++ [] ++ [0]).length ≤ lp := by
      simp only [List.append_nil, List.length_append, List.length_singleton]
      omega
    have never : repeats (s ++ [] ++ [0]) bbeg ((bend : ℤ) - bbeg)
        ((s ++ [] ++ [0]).length + 1) lp = none := by
      by_cases empty : (bend : ℤ) - bbeg = 0
      · rw [empty]
        exact repeats_empty
      · rw [repeats, ecmp_outside empty outside]
    rw [advance, start, stop] at h
    simp only [never] at h
    cases h

/-- A class that takes the NUL and has something behind it that reads. -/
theorem stuck_nul {table : ℕ} {star : Bool} (nul : table.testBit 0 = true)
    (proper : Proper ep (x.step (.ccl table star))) (length : s.length = x.lp)
    (harmful : (!star && readsNothing Extent.mayBeEmpty ep (x.step (.ccl table star))) = false) :
    Stuck (.ccl table star :: ep) x s [] where
  here g exact := by
    have last : (s ++ [] ++ [0])[x.lp]? = some 0 := by simp [← length]
    have taken : inClass table 0 = true := nul
    cases star with
    | false =>
        have rest : advance (s ++ [] ++ [0]) ep (x.lp + 1) g = none :=
          reads_outside proper (exact.pass 1 true)
            (by simp [Extent.step, Extent.pass, length]) (by simpa using harmful)
        rw [advance, last]
        change (if inClass table 0 then advance _ ep (x.lp + 1) g else some (false, g)) = none
        rw [if_pos taken]
        exact rest
    | true =>
        have only : (s ++ [] ++ [0]).drop x.lp = [0] := by simp [← length]
        rw [advance, only]
        simp [run, taken]
  behind lp g g' less _ h := by
    have outside : (s ++ [] ++ [0]).length ≤ lp := by
      simp only [List.append_nil, List.length_append, List.length_singleton]
      omega
    cases star with
    | false =>
        rw [advance, List.getElem?_eq_none outside] at h
        cases h
    | true =>
        rw [advance, List.drop_eq_nil_iff.mpr outside] at h
        cases h

/-- A class that is not empty has a character that is no newline: of two that it does not tell
apart, the one above 127. -/
theorem exists_char {table : ℕ} (useful : vain table = false) :
    ∃ c, (c ≠ 0 ∧ c ≠ newline) ∧ inClass table c = true := by
  have more : table % 2 ^ 128 ≠ 0 := of_decide_eq_false useful
  obtain ⟨i, bit⟩ := Nat.exists_testBit_of_ne_zero more
  rw [Nat.testBit_mod_two_pow, Bool.and_eq_true, decide_eq_true_eq] at bit
  obtain ⟨less, bit⟩ := bit
  have value : (UInt8.ofNat (i + 128)).toNat = i + 128 := by
    rw [UInt8.toNat_ofNat']
    omega
  have other : ∀ d : UInt8, d.toNat < 128 → UInt8.ofNat (i + 128) ≠ d := by
    rintro d small rfl
    omega
  refine ⟨UInt8.ofNat (i + 128), ⟨other 0 (by decide), other newline (by decide)⟩, ?_⟩
  rwa [inClass, low, value, Nat.add_mod_right, Nat.mod_eq_of_lt less]

theorem chars_append {u v : List UInt8} (chars : ∀ c ∈ u, c ≠ 0 ∧ c ≠ newline)
    (chars' : ∀ c ∈ v, c ≠ 0 ∧ c ≠ newline) : ∀ c ∈ u ++ v, c ≠ 0 ∧ c ≠ newline := by
  rw [List.forall_mem_append]
  exact ⟨chars, chars'⟩

/-- A reference to a closed group is passed by a copy of its text. -/
theorem exists_reference (exact : Exact x x.groups) (known : x.least n = some k)
    (length : s.length = x.lp) (chars : ∀ c ∈ s, c ≠ 0 ∧ c ≠ newline)
    (rest : ∀ s' : List UInt8, s'.length = x.lp + k → (∀ c ∈ s', c ≠ 0 ∧ c ≠ newline) →
      ∃ t, Plain (s' ++ t) ∧ Stuck ep (x.pass k (x.elastic n)) s' t) :
    ∃ t, Plain (s ++ t) ∧ Stuck (.cback n false :: ep) x s t := by
  obtain ⟨b, start, -, stop, before⟩ := exact.group known
  have copy : ∀ c ∈ (s.drop b).take k, c ≠ 0 ∧ c ≠ newline := fun c mem =>
    chars c (List.mem_of_mem_drop (List.mem_of_mem_take mem))
  have longer : (s ++ (s.drop b).take k).length = x.lp + k := by
    rw [List.length_append, List.length_take, List.length_drop]
    omega
  obtain ⟨t, plain, tail⟩ := rest _ longer (chars_append chars copy)
  rw [List.append_assoc] at plain
  exact ⟨(s.drop b).take k ++ t, plain, tail.reference start stop (by omega) length⟩

/-- There is a line that an expression has no answer for. -/
theorem exists_stuck (proper : Proper items x) (exact : Exact x x.groups) (length : s.length = x.lp)
    (chars : ∀ c ∈ s, c ≠ 0 ∧ c ≠ newline)
    (unsettled : settles Extent.mayBeEmpty items x = false) :
    ∃ t, Plain (s ++ t) ∧ Stuck items x s t := by
  induction items generalizing x s with
  | nil => cases unsettled
  | cons item ep ih =>
      obtain ⟨here, proper⟩ := proper
      rw [settles] at unsettled
      obtain ⟨short, unsettled⟩ := Bool.or_eq_false_iff.mp unsettled
      have plain : Plain (s ++ []) := by
        have := of_decide_eq_false short
        rw [List.append_nil]
        exact ⟨by omega, chars⟩
      have one : ∀ {takes : UInt8 → Bool} {c : UInt8}, c ≠ 0 ∧ c ≠ newline → takes c = true →
          item.piece = some ⟨takes, false⟩ → x.step item = x.pass 1 true →
          settles Extent.mayBeEmpty ep (x.step item) = false →
          ∃ t, Plain (s ++ t) ∧ Stuck (item :: ep) x s t := by
        intro takes c char taken piece step unsettled
        rw [step] at proper unsettled
        obtain ⟨t, plain, rest⟩ := ih proper (exact.pass 1 true) (s := s ++ [c])
          (by simp [Extent.pass, length])
          (chars_append chars (List.forall_mem_singleton.mpr char)) unsettled
        rw [List.append_assoc] at plain
        exact ⟨c :: t, plain, Stuck.one piece taken length rest⟩
      have starred : ∀ {takes : UInt8 → Bool}, item.piece = some ⟨takes, true⟩ →
          x.step item = x.pass 0 true → settles Extent.mayBeEmpty ep (x.step item) = false →
          ∃ t, Plain (s ++ t) ∧ Stuck (item :: ep) x s t := by
        intro takes piece step unsettled
        rw [step] at proper unsettled
        obtain ⟨t, plain, rest⟩ := ih proper (exact.pass 0 true) length chars unsettled
        exact ⟨t, plain, Stuck.star piece proper rest⟩
      cases item with
      | cchr c star =>
          obtain ⟨passed, unsettled⟩ := Bool.or_eq_false_iff.mp unsettled
          cases star with
          | false =>
              have other : c ≠ newline := by simpa using passed
              exact one ⟨here, other⟩ (decide_eq_true rfl) rfl rfl unsettled
          | true => exact starred rfl rfl unsettled
      | cdot star => cases star with
        | false => exact one (c := 1) (by decide) (by decide) rfl rfl unsettled
        | true => exact starred rfl rfl unsettled
      | ccl table star =>
          simp only [Item.settles] at unsettled
          cases nul : table.testBit 0 with
          | true =>
              rw [if_pos nul] at unsettled
              exact ⟨[], plain, stuck_nul nul proper length unsettled⟩
          | false =>
              rw [if_neg (by simp [nul])] at unsettled
              obtain ⟨useful, unsettled⟩ := Bool.or_eq_false_iff.mp unsettled
              cases star with
              | false =>
                  obtain ⟨c, char, taken⟩ := exists_char (by simpa using useful)
                  exact one char taken rfl rfl unsettled
              | true => exact starred rfl rfl unsettled
      | cbra n =>
          obtain ⟨t, plain, rest⟩ := ih (x := x.step (.cbra n)) proper
            (exact.opening here.2) length chars unsettled
          exact ⟨t, plain, rest.opening here.2⟩
      | cket n =>
          obtain ⟨t, plain, rest⟩ := ih (x := x.step (.cket n)) proper
            (exact.closing here.1) length chars unsettled
          exact ⟨t, plain, rest.closing here.1 here.2⟩
      | cback n star =>
          cases known : x.least n with
          | none => simp [Item.settles, known] at unsettled
          | some k =>
              simp only [Item.settles, known] at unsettled
              cases star with
              | false =>
                  have step : x.step (.cback n false) = x.pass k (x.elastic n) := by
                    simp [Extent.step, known]
                  rw [step] at proper unsettled
                  exact exists_reference exact known length chars fun s' longer chars =>
                    ih proper (exact.pass k _) longer chars (by simpa using unsettled)
              | true =>
                  rcases Nat.eq_zero_or_pos k with rfl | pos
                  · exact ⟨[], plain, stuck_empty known length⟩
                  · obtain ⟨t, plain, rest⟩ := ih proper (exact.pass 0 _) length chars
                      (by simpa [pos] using unsettled)
                    exact ⟨t, plain, Stuck.references known pos proper rest⟩
      | cdol =>
          obtain rfl := here
          cases unsettled

/-! ## Lines -/

/-- What may be read of a line in `linebuf`: it and the NUL behind it. -/
def within (line : List UInt8) : List UInt8 := line.takeWhile (· ≠ 0) ++ [0]

/-- `execute` with no memory but the lines, each up to its NUL: nothing where a line is not
answered, or something else is read. -/
def executeWithin (expbuf : List Item) (circf : Bool) :
    Groups → List (List UInt8) → Option (List Bool)
  | _, [] => some []
  | g, line :: lines => do
      let (found, g) ← matchLine expbuf circf (within line) g
      let marks ← executeWithin expbuf circf g lines
      some (found :: marks)

/-- Every line of every file is answered, and only the line and its NUL are read. -/
def Always (expbuf : List Item) (circf : Bool) : Prop :=
  ∀ linebuf input, ∃ marks,
    executeWithin expbuf circf noGroups (readLines [] input) = some marks ∧
      execute expbuf circf linebuf noGroups (readLines [] input) = some marks

/-- There is a reference somewhere behind a class with the byte 0. -/
def refersBehindNul : List Item → Bool
  | [] => false
  | .ccl table _ :: ep =>
      table.testBit 0 && ep.any (fun item => match item with | .cback _ _ => true | _ => false) ||
        refersBehindNul ep
  | _ :: ep => refersBehindNul ep

/-- No group with a reference in it has been closed. -/
def Unclosed (items : List Item) (g : Groups) : Prop :=
  ∀ n, refersWithin n items = true → g.braelist n = none

theorem unclosed_noGroups (items : List Item) : Unclosed items noGroups := fun _ _ => rfl

theorem Unclosed.along (unclosed : Unclosed items g) (lp : ℕ) :
    Along items Extent.start lp g where
  reached := Nat.zero_le lp
  ordered _ closed := absurd rfl closed
  opened _ _ start := by cases start
  closed _ _ known := by cases known
  hollow _ isOpen := by cases isOpen
  empty _ _ known := by cases known
  early n _ before := unclosed n before

theorem advance_unclosed :
    Keeps (fun g g' => Unclosed items g → Unclosed items g') (advance mem items) :=
  fun lp g found g' h unclosed n before =>
    advance_early before lp g found g' h (unclosed n before)

/-- The search over the places of a line comes to an end if the attempts do. -/
theorem search_inside {J : Groups → Prop} (keeps : Keeps (fun g g' => J g → J g') next)
    (each : ∀ lp ≤ line.length, ∀ g, J g → ∃ r, next lp g = some r) (within : lp ≤ line.length)
    (holds : J g) :
    ∃ found g', search next ((line ++ [0]).drop lp) lp g = some (found, g') ∧ J g' := by
  obtain ⟨k, last⟩ := Nat.exists_eq_add_of_le within
  induction k generalizing lp g with
  | zero =>
      obtain ⟨⟨hit, g'⟩, first⟩ := each lp within g holds
      have holds' := keeps _ _ _ _ first holds
      have only : (line ++ [0]).drop lp = [0] := by simp [last]
      refine ⟨hit, g', ?_, holds'⟩
      rw [only, search, first]
      cases hit <;> rfl
  | succ k ih =>
      obtain ⟨⟨hit, g₁⟩, first⟩ := each lp within g holds
      have holds' := keeps _ _ _ _ first holds
      have next : lp + 1 ≤ line.length := by omega
      obtain ⟨found, g', rest, holds''⟩ := ih next holds' (by omega)
      have less : lp < (line ++ [0]).length := by simp; omega
      rw [List.drop_eq_getElem_cons less, search, first]
      cases hit with
      | true => exact ⟨true, g₁, rfl, holds'⟩
      | false =>
          by_cases last : (line ++ [0])[lp] = 0
          · exact ⟨false, g₁, if_pos last, holds'⟩
          · exact ⟨found, g', (if_neg last).trans rest, holds''⟩

/-- A line is shorter than `linebuf` and has no newline. -/
theorem readLines_plain {input sofar : List UInt8} (short : sofar.length < LBSIZE - 1)
    (chars : newline ∉ sofar) (mem : line ∈ readLines sofar input) :
    line.length < LBSIZE ∧ newline ∉ line := by
  induction input generalizing sofar with
  | nil => cases mem
  | cons c input ih =>
      rw [readLines] at mem
      have next : newline ∉ ([] : List UInt8) := List.not_mem_nil
      split at mem
      next =>
        rcases List.mem_cons.mp mem with rfl | mem
        · exact ⟨by omega, chars⟩
        · exact ih (by decide) next mem
      next other =>
        have chars' : newline ∉ sofar ++ [c] := by
          rw [List.mem_append, List.mem_singleton, not_or]
          exact ⟨chars, Ne.symm other⟩
        split at mem
        next full =>
          rcases List.mem_cons.mp mem with rfl | mem
          · rw [List.length_append, List.length_singleton]
            exact ⟨by omega, chars'⟩
          · exact ih (by decide) next mem
        next room =>
          refine ih ?_ chars' mem
          rw [List.length_append, List.length_singleton]
          omega

theorem plain_within (short : line.length < LBSIZE) (chars : newline ∉ line) :
    Plain (line.takeWhile (· ≠ 0)) where
  short := (List.takeWhile_prefix _).length_le.trans_lt short
  chars c mem := by
    refine ⟨by simpa using List.mem_takeWhile_imp mem, ?_⟩
    rintro rfl
    exact chars ((List.takeWhile_prefix _).subset mem)

/-- A line is answered, and the groups with references in them are left open. -/
theorem matchLine_settles (circf : Bool) (plain : Plain (line.takeWhile (· ≠ 0)))
    (proper : Proper items Extent.start)
    (settled : settles Extent.rigid items Extent.start = true) (unclosed : Unclosed items g) :
    ∃ found g', matchLine items circf (within line) g = some (found, g') ∧ Unclosed items g' := by
  have each : ∀ lp ≤ (line.takeWhile (· ≠ 0)).length, ∀ g, Unclosed items g →
      ∃ r, advance (within line) items lp g = some r := fun lp le g unclosed =>
    advance_settles plain proper le (unclosed.along lp) settled
  unfold matchLine
  cases circf with
  | true =>
      obtain ⟨⟨found, g'⟩, result⟩ := each 0 (Nat.zero_le _) g unclosed
      exact ⟨found, g', result, advance_unclosed _ _ _ _ result unclosed⟩
  | false =>
      refine search_inside (J := Unclosed items) ?_ (fun lp le g unclosed => ?_) (Nat.zero_le _)
        unclosed
      · exact fastCheck_keeps (fun _ => id) advance_unclosed
      · obtain ⟨c, read, -⟩ := read_line plain.free le
        exact fastCheck_some read (each lp le g unclosed)

theorem executeWithin_settles (circf : Bool) {lines : List (List UInt8)}
    (plain : ∀ line ∈ lines, Plain (line.takeWhile (· ≠ 0))) (proper : Proper items Extent.start)
    (settled : settles Extent.rigid items Extent.start = true) (unclosed : Unclosed items g) :
    ∃ marks, executeWithin items circf g lines = some marks := by
  induction lines generalizing g with
  | nil => exact ⟨[], rfl⟩
  | cons line lines ih =>
      obtain ⟨here, plain⟩ := List.forall_mem_cons.mp plain
      obtain ⟨found, g', matched, unclosed⟩ :=
        matchLine_settles circf here proper settled unclosed
      obtain ⟨marks, rest⟩ := ih plain unclosed
      exact ⟨found :: marks, by simp [executeWithin, matched, rest]⟩

/-- In memory a line is followed by something. -/
theorem within_prefix (line after : List UInt8) :
    ∃ more, line ++ 0 :: after = within line ++ more := by
  induction line with
  | nil => exact ⟨after, rfl⟩
  | cons c line ih =>
      by_cases zero : c = 0
      · exact ⟨line ++ 0 :: after, by simp [within, zero]⟩
      · obtain ⟨more, eq⟩ := ih
        exact ⟨more, by simpa [within, zero] using eq⟩

/-- What is answered inside the lines is what `execute` answers. -/
theorem execute_of_within {lines : List (List UInt8)} {marks : List Bool}
    (h : executeWithin items circf g lines = some marks) (linebuf : List UInt8) :
    execute items circf linebuf g lines = some marks := by
  induction lines generalizing g marks linebuf with
  | nil => exact h
  | cons line lines ih =>
      rw [executeWithin] at h
      obtain ⟨⟨found, g'⟩, matched, h⟩ := Option.bind_eq_some_iff.mp h
      obtain ⟨rest, answered, h⟩ := Option.bind_eq_some_iff.mp h
      obtain ⟨more, memory⟩ := within_prefix line (linebuf.drop (line.length + 1))
      have matched' : matchLine items circf (within line ++ more) g = some (found, g') :=
        matchLine_append matched
      rw [← memory] at matched'
      simp only [execute, matched', Option.bind_eq_bind, Option.bind_some]
      rw [ih answered]
      exact h

/-- A long line is ended by the end of `linebuf`. -/
theorem readLines_full {sofar : List UInt8} (full : sofar.length + line.length = LBSIZE - 1)
    (chars : newline ∉ line) (nonempty : line ≠ []) : readLines sofar line = [sofar ++ line] := by
  induction line generalizing sofar with
  | nil => exact absurd rfl nonempty
  | cons c line ih =>
      rw [List.mem_cons, not_or] at chars
      rw [List.length_cons] at full
      rw [readLines, if_neg (Ne.symm chars.1)]
      cases line with
      | nil =>
          rw [List.length_nil] at full
          rw [if_pos (by omega)]
          rfl
      | cons d line =>
          rw [List.length_cons] at full
          have full' : (sofar ++ [c]).length + (d :: line).length = LBSIZE - 1 := by
            simp only [List.length_append, List.length_cons, List.length_nil]
            omega
          rw [if_neg (by omega), ih full' chars.2 (List.cons_ne_nil d line), List.append_assoc]
          rfl

/-- Every such line is the only one of some file. -/
theorem Plain.exists_input (plain : Plain line) : ∃ input, readLines [] input = [line] := by
  have short := plain.short
  have chars : newline ∉ line := fun mem => (plain.chars newline mem).2 rfl
  by_cases full : line.length = LBSIZE - 1
  · have nonempty : line ≠ [] := by
      rintro rfl
      cases full
    exact ⟨line, readLines_full (by simpa using full) chars nonempty⟩
  · refine ⟨line ++ [newline], ?_⟩
    have room : ([] : List UInt8).length + line.length < LBSIZE - 1 := by
      rw [List.length_nil]
      omega
    exact readLines_line room fun c mem => (plain.chars c mem).2

/-- A file without an answer. -/
theorem exists_input (circf : Bool) (proper : Proper items Extent.start)
    (unsettled : settles Extent.mayBeEmpty items Extent.start = false) :
    ∃ input, executeWithin items circf noGroups (readLines [] input) = none := by
  have exact : Exact Extent.start noGroups :=
    { opened := fun _ _ start => by cases start
      closed := fun _ _ stop => by cases stop }
  obtain ⟨t, plain, stuck⟩ := exists_stuck (s := []) proper exact rfl
    (fun _ mem => absurd mem List.not_mem_nil) unsettled
  have start : advance (t ++ [0]) items 0 noGroups = none := stuck.here noGroups exact
  have whole : within t = t ++ [0] := by
    rw [within, List.takeWhile_eq_self_iff.mpr]
    exact fun c mem => by simpa using (plain.chars c mem).1
  have matched : matchLine items circf (within t) noGroups = none := by
    rw [whole, matchLine]
    cases circf with
    | true => exact start
    | false =>
        have first := fastCheck_none start
        obtain ⟨c, l, memory⟩ := List.exists_cons_of_ne_nil (show t ++ [0] ≠ [] by simp)
        rw [if_neg Bool.false_ne_true, memory, search]
        rw [memory] at first
        rw [first]
        rfl
  obtain ⟨input, lines⟩ := plain.exists_input
  refine ⟨input, ?_⟩
  rw [lines, List.nil_append, executeWithin, matched]
  rfl

theorem readsNothing_congr {empty empty' : Extent → ℕ → Bool}
    (direct : ep.any (fun item => match item with | .cback _ _ => true | _ => false) = false) :
    readsNothing empty ep x = readsNothing empty' ep x := by
  induction ep generalizing x with
  | nil => rfl
  | cons item ep ih =>
      cases item with
      | cbra n => exact ih direct
      | cket n => exact ih direct
      | cback n star => cases direct
      | _ => rfl

/-- Without references behind classes with the byte 0 it does not matter which groups are
empty. -/
theorem settles_congr {empty empty' : Extent → ℕ → Bool} (direct : refersBehindNul items = false) :
    settles empty items x = settles empty' items x := by
  induction items generalizing x with
  | nil => rfl
  | cons item ep ih =>
      have rest : refersBehindNul ep = false →
          settles empty ep (x.step item) = settles empty' ep (x.step item) := ih
      rw [settles, settles]
      congr 1
      cases item with
      | ccl table star =>
          obtain ⟨here, direct⟩ := Bool.or_eq_false_iff.mp direct
          simp only [Item.settles]
          rw [rest direct]
          cases nul : table.testBit 0 with
          | true =>
              rw [nul, Bool.true_and] at here
              rw [readsNothing_congr here]
          | false => rfl
      | _ => rw [rest direct]; rfl

/-- Every line is answered, and only the line and its NUL are read, if the expression settles; and
if every line is, no star is behind a reference to a group that may be empty, and behind a class
that may take the NUL are only brackets and references to such groups. Without references behind
such a class the two are the same. -/
theorem always_settles {pattern : List UInt8} (proper : 0 ∉ pattern)
    (accepted : compile (pattern ++ [0]) = some (items, circf)) :
    (settles Extent.rigid items Extent.start = true → Always items circf) ∧
      (Always items circf → settles Extent.mayBeEmpty items Extent.start = true) ∧
      (refersBehindNul items = false →
        (Always items circf ↔ settles Extent.rigid items Extent.start = true)) := by
  have ordered := proper_of_compile proper accepted
  have enough : settles Extent.rigid items Extent.start = true → Always items circf := by
    intro settled linebuf input
    have plain : ∀ line ∈ readLines [] input, Plain (line.takeWhile (· ≠ 0)) := by
      intro line mem
      obtain ⟨short, chars⟩ := readLines_plain (by decide) List.not_mem_nil mem
      exact plain_within short chars
    obtain ⟨marks, answered⟩ :=
      executeWithin_settles circf plain ordered settled (unclosed_noGroups items)
    exact ⟨marks, answered, execute_of_within answered linebuf⟩
  have needed : Always items circf → settles Extent.mayBeEmpty items Extent.start = true := by
    intro always
    by_contra unsettled
    obtain ⟨input, nothing⟩ := exists_input circf ordered (by simpa using unsettled)
    obtain ⟨marks, answered, -⟩ := always [] input
    rw [nothing] at answered
    cases answered
  refine ⟨enough, needed, fun direct => ⟨fun always => ?_, enough⟩⟩
  rw [settles_congr direct]
  exact needed always

/-- `\([ab]\)c*\1*` always answers, and `\(a*\)\1*` does not. -/
theorem always_settles_ab :
    Always [.cbra 0, .ccl (2 ^ 97 + 2 ^ 98) false, .cket 0, .cchr 99 true, .cback 0 true] false ∧
      ¬Always [.cbra 0, .cchr 97 true, .cket 0, .cback 0 true] false := by
  have accepted : compile ([92, 40, 91, 97, 98, 93, 92, 41, 99, 42, 92, 49, 42] ++ [0]) =
      some ([.cbra 0, .ccl (2 ^ 97 + 2 ^ 98) false, .cket 0, .cchr 99 true, .cback 0 true],
        false) := by
    decide +kernel
  have accepted' : compile ([92, 40, 97, 42, 92, 41, 92, 49, 42] ++ [0]) =
      some ([.cbra 0, .cchr 97 true, .cket 0, .cback 0 true], false) := by
    decide +kernel
  have unsettled : settles Extent.mayBeEmpty
      [.cbra 0, .cchr 97 true, .cket 0, .cback 0 true] Extent.start = false := by
    decide +kernel
  refine ⟨(always_settles (by decide) accepted).1 (by decide +kernel), fun always => ?_⟩
  rw [(always_settles (by decide) accepted').2.1 always] at unsettled
  cases unsettled

/-- The star behind a reference to an empty group, `\(\)\1*`, is never done. -/
theorem not_forall_always :
    ¬∀ (pattern : List UInt8) (items : List Item) (circf : Bool), 0 ∉ pattern →
      compile (pattern ++ [0]) = some (items, circf) → Always items circf := by
  intro always
  have accepted : compile ([92, 40, 92, 41, 92, 49, 42] ++ [0]) =
      some ([.cbra 0, .cket 0, .cback 0 true], false) := by decide +kernel
  obtain ⟨marks, answered, -⟩ := always _ _ _ (by decide) accepted [] [10]
  have nothing : executeWithin [.cbra 0, .cket 0, .cback 0 true] false noGroups
      (readLines [] [10]) = none := by
    decide +kernel
  rw [nothing] at answered
  cases answered

end

end Grep

end UnixV7
