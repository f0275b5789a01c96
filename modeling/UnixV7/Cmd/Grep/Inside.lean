import UnixV7.Cmd.Grep.Attempts

/-!
# Answers inside the line

Another way through the items of an expression than the shortest one is no shorter in any group.
So a star behind a reference to a group that is never empty comes to its end inside the line, and
`advance` always answers where an expression settles.
-/

namespace UnixV7

namespace Grep

section

variable {mem line : List UInt8} {items ep : List Item} {item : Item} {x : Extent} {lp k n : ℕ}
  {g g' : Groups} {takes : UInt8 → Bool} {next : ℕ → Groups → Advanced}

/-! ## The shortest way and another one -/

/-- A place in the line and groups that another way through the same items has come to: no group
is shorter than on the shortest way. -/
structure Ahead (x : Extent) (lp : ℕ) (g : Groups) : Prop where
  reached : x.lp ≤ lp
  ordered : ∀ n, x.groups.braelist n ≠ none → x.groups.braslist n ≠ none
  opened : ∀ n b, x.groups.braslist n = some b → x.groups.braelist n = none →
    ∃ bbeg, g.braslist n = some bbeg ∧ b ≤ x.lp ∧ bbeg + (x.lp - b) ≤ lp
  closed : ∀ n k, x.least n = some k →
    ∃ bbeg bend, g.braslist n = some bbeg ∧ g.braelist n = some bend ∧ bbeg + k ≤ bend ∧ bend ≤ lp

/-- The groups that no item makes longer are empty, and a group with a reference in it is not
closed. -/
structure Along (items : List Item) (x : Extent) (lp : ℕ) (g : Groups) : Prop
    extends Ahead x lp g where
  hollow : ∀ n, x.isOpen n = true → x.elastic n = false → g.braslist n = some lp
  empty : ∀ n k, x.least n = some k → x.elastic n = false →
    ∃ bbeg, g.braslist n = some bbeg ∧ g.braelist n = some bbeg
  early : ∀ n, x.groups.braelist n = none → refersWithin n items = true → g.braelist n = none

theorem Extent.least_none : x.least n = none ↔ x.groups.braelist n = none :=
  Option.map_eq_none_iff

theorem Extent.least_opening (proper : x.groups.braelist n = none) (m : ℕ) :
    (x.step (.cbra n)).least m = x.least m := by
  by_cases here : m = n
  · subst here
    rw [least_none.mpr proper]
    exact least_none.mpr proper
  · simp [Extent.least, Extent.step, Groups.opening, here]

theorem Extent.least_closing (m : ℕ) :
    (x.step (.cket n)).least m =
      if m = n then some (x.lp - (x.groups.braslist n).getD 0) else x.least m := by
  by_cases here : m = n <;> simp [Extent.least, Extent.step, Groups.closing, here]

theorem Ahead.pass {more : Bool} {j : ℕ} (ahead : Ahead x lp g) (le : j ≤ k) :
    Ahead (x.pass j more) (lp + k) g where
  reached := Nat.add_le_add ahead.reached le
  ordered := ahead.ordered
  opened n b known none := by
    obtain ⟨bbeg, at_, before, far⟩ := ahead.opened n b known none
    refine ⟨bbeg, at_, before.trans (Nat.le_add_right _ _), ?_⟩
    change bbeg + (x.lp + j - b) ≤ lp + k
    omega
  closed n k' known := by
    obtain ⟨bbeg, bend, at_, at', long, before⟩ := ahead.closed n k' known
    exact ⟨bbeg, bend, at_, at', long, by omega⟩

theorem Ahead.opening (ahead : Ahead x lp g) (fresh : x.groups.braelist n = none) :
    Ahead (x.step (.cbra n)) lp (g.opening n lp) where
  reached := ahead.reached
  ordered m closed := by
    by_cases here : m = n
    · simp [Extent.step, Groups.opening, here]
    · simpa [Extent.step, Groups.opening, here] using ahead.ordered m closed
  opened m b known none := by
    by_cases here : m = n
    · subst here
      obtain rfl : x.lp = b := by simpa [Extent.step, Groups.opening] using known
      exact ⟨lp, by simp [Groups.opening], le_rfl, by simp [Extent.step]⟩
    · obtain ⟨bbeg, at_, rest⟩ :=
        ahead.opened m b (by simpa [Extent.step, Groups.opening, here] using known) none
      exact ⟨bbeg, by simpa [Groups.opening, here] using at_, rest⟩
  closed m k known := by
    rw [Extent.least_opening fresh] at known
    have here : m ≠ n := by
      rintro rfl
      rw [Extent.least_none.mpr fresh] at known
      cases known
    obtain ⟨bbeg, bend, at_, rest⟩ := ahead.closed m k known
    exact ⟨bbeg, bend, by simpa [Groups.opening, here] using at_, rest⟩

theorem Ahead.closing (ahead : Ahead x lp g) (opened : x.groups.braslist n ≠ none)
    (fresh : x.groups.braelist n = none) : Ahead (x.step (.cket n)) lp (g.closing n lp) where
  reached := ahead.reached
  ordered m closed := by
    by_cases here : m = n
    · exact here ▸ opened
    · exact ahead.ordered m (by simpa [Extent.step, Groups.closing, here] using closed)
  opened m b known none := by
    have here : m ≠ n := by
      rintro rfl
      simp [Extent.step, Groups.closing] at none
    exact ahead.opened m b known (by simpa [Extent.step, Groups.closing, here] using none)
  closed m k known := by
    rw [Extent.least_closing] at known
    by_cases here : m = n
    · subst here
      rw [if_pos rfl] at known
      obtain ⟨b, start⟩ := Option.ne_none_iff_exists'.mp opened
      obtain ⟨bbeg, at_, before, far⟩ := ahead.opened m b start fresh
      rw [start] at known
      obtain rfl : x.lp - b = k := Option.some.inj known
      exact ⟨bbeg, lp, at_, by simp [Groups.closing], far, le_rfl⟩
    · rw [if_neg here] at known
      obtain ⟨bbeg, bend, at_, at', rest⟩ := ahead.closed m k known
      exact ⟨bbeg, bend, at_, by simpa [Groups.closing, here] using at', rest⟩

theorem Ahead.kept (ahead : Ahead x lp g) (kept : Kept x g g') : Ahead x lp g' where
  reached := ahead.reached
  ordered := ahead.ordered
  opened n b known none := by
    rw [(kept n).1 (by simp [known])]
    exact ahead.opened n b known none
  closed n k known := by
    have closed : x.groups.braelist n ≠ none := fun none => by
      rw [Extent.least_none.mpr none] at known
      cases known
    rw [(kept n).1 (ahead.ordered n closed), (kept n).2 closed]
    exact ahead.closed n k known

theorem Along.tail (along : Along (item :: ep) x lp g)
    (plain : ∀ n, refersWithin n ep = true → refersWithin n (item :: ep) = true) :
    Along ep x lp g :=
  { along with early := fun n none before => along.early n none (plain n before) }

/-- Characters are passed, no fewer than on the shortest way. -/
theorem Along.pass {more : Bool} {j : ℕ} (along : Along ep x lp g) (le : j ≤ k)
    (rigid : more = false → k = 0) : Along ep (x.pass j more) (lp + k) g where
  toAhead := along.toAhead.pass le
  hollow n isOpen rigid' := by
    change x.isOpen n = true at isOpen
    simp only [Extent.pass, Bool.or_eq_false_iff, isOpen, Bool.and_true] at rigid'
    rw [rigid rigid'.2]
    exact along.hollow n isOpen rigid'.1
  empty n k known rigid' := by
    simp only [Extent.pass, Bool.or_eq_false_iff] at rigid'
    exact along.empty n k known rigid'.1
  early := along.early

theorem Along.opening (along : Along (.cbra n :: ep) x lp g) (fresh : x.groups.braelist n = none) :
    Along ep (x.step (.cbra n)) lp (g.opening n lp) where
  toAhead := along.toAhead.opening fresh
  hollow m isOpen rigid := by
    by_cases here : m = n
    · simp [Groups.opening, here]
    · have before : x.isOpen m = true := by
        simpa [Extent.isOpen, Extent.step, Groups.opening, here] using isOpen
      simpa [Groups.opening, here] using along.hollow m before rigid
  empty m k known rigid := by
    rw [Extent.least_opening fresh] at known
    have here : m ≠ n := by
      rintro rfl
      rw [Extent.least_none.mpr fresh] at known
      cases known
    obtain ⟨bbeg, at_, at'⟩ := along.empty m k known rigid
    exact ⟨bbeg, by simpa [Groups.opening, here] using at_, at'⟩
  early := along.early

theorem Along.closing (along : Along (.cket n :: ep) x lp g) (opened : x.groups.braslist n ≠ none)
    (fresh : x.groups.braelist n = none) :
    Along ep (x.step (.cket n)) lp (g.closing n lp) where
  toAhead := along.toAhead.closing opened fresh
  hollow m isOpen rigid := by
    have here : m ≠ n := by
      rintro rfl
      simp [Extent.isOpen, Extent.step, Groups.closing] at isOpen
    exact along.hollow m (by simpa [Extent.isOpen, Extent.step, Groups.closing, here] using isOpen)
      rigid
  empty m k known rigid := by
    by_cases here : m = n
    · subst here
      have isOpen : x.isOpen m = true := by
        simpa [Extent.isOpen, fresh] using Option.isSome_iff_ne_none.mpr opened
      have start := along.hollow m isOpen rigid
      exact ⟨lp, start, by simp [Groups.closing]⟩
    · rw [Extent.least_closing, if_neg here] at known
      obtain ⟨bbeg, at_, at'⟩ := along.empty m k known rigid
      exact ⟨bbeg, at_, by simpa [Groups.closing, here] using at'⟩
  early m none before := by
    have here : m ≠ n := by
      rintro rfl
      simp [Extent.step, Groups.closing] at none
    have none' : x.groups.braelist m = Option.none := by
      simpa [Extent.step, Groups.closing, here] using none
    rw [show (g.closing n lp).braelist m = g.braelist m from if_neg here]
    exact along.early m none' (by simp [refersWithin, before, Ne.symm here])

/-- A failing attempt leaves everything as it was. -/
theorem keeps_along (kept : Keeps (Kept x) (advance mem ep)) :
    Keeps (fun g g' => Along ep x lp g → Along ep x lp g') (advance mem ep) := by
  intro at_ g found g' h along
  have kept := kept at_ g found g' h
  exact
    { along.toAhead.kept kept with
      hollow := fun n isOpen rigid => by
        have opened : x.groups.braslist n ≠ none :=
          Option.isSome_iff_ne_none.mp (Bool.and_eq_true_iff.mp isOpen).1
        rw [(kept n).1 opened]
        exact along.hollow n isOpen rigid
      empty := fun n k known rigid => by
        have closed : x.groups.braelist n ≠ none := fun none => by
          rw [Extent.least_none.mpr none] at known
          cases known
        rw [(kept n).1 (along.ordered n closed), (kept n).2 closed]
        exact along.empty n k known rigid
      early := fun n none before =>
        advance_early before at_ g found g' h (along.early n none before) }

/-! ## Inside the line -/

/-- What may lie in `linebuf` in front of its NUL. -/
structure Plain (line : List UInt8) : Prop where
  short : line.length < LBSIZE
  chars : ∀ c ∈ line, c ≠ 0 ∧ c ≠ newline

theorem Plain.free (plain : Plain line) : 0 ∉ line := fun mem => (plain.chars 0 mem).1 rfl

/-- No newline is read. -/
theorem Plain.read {c : UInt8} (plain : Plain line) (read : (line ++ [0])[lp]? = some c) :
    c ≠ newline := by
  rcases List.mem_append.mp (List.mem_of_getElem? read) with mem | mem
  · exact (plain.chars c mem).2
  · rw [List.mem_singleton.mp mem]
    decide

theorem read_line (free : 0 ∉ line) (le : lp ≤ line.length) :
    ∃ c, (line ++ [0])[lp]? = some c ∧ (c = 0 ↔ lp = line.length) := by
  rcases Nat.lt_or_eq_of_le le with less | rfl
  · refine ⟨_, (List.getElem?_append_left less).trans (List.getElem?_eq_getElem less), ?_⟩
    exact iff_of_false (fun zero => free (zero ▸ List.getElem_mem less)) less.ne
  · exact ⟨0, by simp, by simp⟩

/-- A text of the line is compared with another place of it. -/
theorem ecmp_inside (free : 0 ∉ line) (turns : ℕ) {a b ct : ℕ} (source : a + ct ≤ line.length)
    (place : b ≤ line.length) (patient : ct < turns) :
    ∃ same, ecmp (line ++ [0]) turns a b ct = some same ∧
      (same = true → b + ct ≤ line.length) := by
  induction ct generalizing turns a b with
  | zero =>
      obtain ⟨turns, rfl⟩ := Nat.exists_eq_succ_of_ne_zero patient.ne'
      exact ⟨true, by simp [ecmp], fun _ => place⟩
  | succ ct ih =>
      obtain ⟨turns, rfl⟩ := Nat.exists_eq_succ_of_ne_zero (Nat.ne_zero_of_lt patient)
      obtain ⟨c, here, ends⟩ := read_line free (show a ≤ line.length by omega)
      obtain ⟨d, there, ends'⟩ := read_line free place
      have more : ((ct + 1 : ℕ) : ℤ) ≠ 0 := by omega
      by_cases same : c = d
      · have inside : b ≠ line.length := by
          intro last
          have : a = line.length := ends.mp (same.trans (ends'.mpr last))
          omega
        obtain ⟨result, rest, far⟩ := ih turns (a := a + 1) (b := b + 1) (by omega)
          (by omega) (by omega)
        refine ⟨result, ?_, fun yes => by have := far yes; omega⟩
        rw [ecmp, if_neg more, here, there]
        dsimp only
        rw [if_neg (not_not.mpr same), show ((ct + 1 : ℕ) : ℤ) - 1 = ct by omega]
        exact rest
      · refine ⟨false, ?_, fun no => by cases no⟩
        rw [ecmp, if_neg more, here, there]
        dsimp only
        rw [if_pos same]

/-- The star behind a reference to a text that is not empty comes to an end. -/
theorem repeats_inside (free : 0 ∉ line) (turns : ℕ) {a ct : ℕ} (nonempty : 0 < ct)
    (source : a + ct ≤ line.length) (place : lp ≤ line.length)
    (patient : line.length < turns + lp) :
    ∃ k, repeats (line ++ [0]) a ct turns lp = some k ∧ lp + k * ct ≤ line.length := by
  induction turns generalizing lp with
  | zero => omega
  | succ turns ih =>
      obtain ⟨same, compared, far⟩ := ecmp_inside free ((line ++ [0]).length + 1) source
        place (by simp; omega)
      cases same with
      | false => exact ⟨0, by rw [repeats, compared], by omega⟩
      | true =>
          obtain ⟨k, rest, within⟩ := ih (far rfl) (by omega)
          refine ⟨k + 1, ?_, ?_⟩
          · rw [repeats, compared]
            simp [rest]
          · rw [Nat.succ_mul]
            omega

theorem backUp_some {J : Groups → Prop} (keeps : Keeps (fun g g' => J g → J g') next)
    {curlp size : ℕ} (each : ∀ j ≤ k, ∀ g, J g → ∃ r, next (curlp + j * size) g = some r)
    (holds : J g) : ∃ r, backUp next curlp size k g = some r := by
  induction k generalizing g with
  | zero => simpa [backUp] using each 0 le_rfl g holds
  | succ k ih =>
      obtain ⟨⟨hit, g'⟩, first⟩ := each (k + 1) le_rfl g holds
      rw [backUp, first]
      cases hit with
      | true => exact ⟨_, rfl⟩
      | false => exact ih (fun j le => each j (by omega)) (keeps _ _ _ _ first holds)

theorem fastCheck_some {c : UInt8} (read : mem[lp]? = some c) (total : ∃ r, next lp g = some r) :
    ∃ r, fastCheck mem ep next lp g = some r := by
  rcases fastCheck_cases ep with ⟨d, tail, rfl⟩ | other
  · rw [fastCheck, read]
    change ∃ r, (if c ≠ d then some (false, g) else next lp g) = some r
    split
    · exact ⟨_, rfl⟩
    · exact total
  · rw [other]
    exact total

/-- A star that stops at the NUL comes to an end, if what is behind it does from every place. -/
theorem star_some {J : Groups → Prop} (free : 0 ∉ line)
    (within : lp ≤ line.length) (stops : takes 0 = false)
    (keeps : Keeps (fun g g' => J g → J g') next)
    (each : ∀ j, lp + j ≤ line.length → ∀ g, J g → ∃ r, next (lp + j) g = some r) (holds : J g) :
    ∃ r, (do let k ← run takes ((line ++ [0]).drop lp)
             star (line ++ [0]) ep next lp g k) = some r := by
  have text : Text (line ++ [0]) lp (line.drop lp) :=
    ⟨[], List.drop_append_of_le_length within, fun mem => free (List.mem_of_mem_drop mem)⟩
  rw [text.run stops]
  have far : lp + ((line.drop lp).takeWhile takes).length ≤ line.length := by
    have := (List.takeWhile_prefix (l := line.drop lp) takes).length_le
    rw [List.length_drop] at this
    omega
  generalize ((line.drop lp).takeWhile takes).length = k at far
  change ∃ r, star (line ++ [0]) ep next lp g k = some r
  unfold star
  split
  · exact each 0 within g holds
  · refine backUp_some (J := J) ?_ (fun j le g holds => ?_) holds
    · exact fastCheck_keeps (fun _ => id) keeps
    · rw [Nat.mul_one]
      obtain ⟨c, here, -⟩ := read_line free (show lp + j ≤ line.length by omega)
      exact fastCheck_some here (each j (by omega) g holds)

/-! ## References -/

theorem Along.reference {star : Bool} (along : Along (.cback n star :: ep) x lp g) :
    Along ep x lp g :=
  along.tail fun m before => by simp [refersWithin, before]

/-- A reference to a group that is not closed fits nothing. -/
theorem Along.unset {star : Bool} (along : Along (.cback n star :: ep) x lp g)
    (none : x.least n = none) : advance mem (.cback n star :: ep) lp g = some (false, g) := by
  have unset : g.braelist n = Option.none :=
    along.early n (Extent.least_none.mp none) (by simp [refersWithin])
  cases star <;> rw [advance, unset]

/-- A closed group is no shorter than on the shortest way, and is empty if nothing can make it
longer. -/
theorem Along.group (along : Along items x lp g) (known : x.least n = some k) :
    ∃ bbeg bend, g.braslist n = some bbeg ∧ g.braelist n = some bend ∧ bbeg + k ≤ bend ∧
      bend ≤ lp ∧ (x.elastic n = false → bend = bbeg) := by
  obtain ⟨bbeg, bend, start, stop, long, before⟩ := along.closed n k known
  refine ⟨bbeg, bend, start, stop, long, before, fun rigid => ?_⟩
  obtain ⟨empty, start', stop'⟩ := along.empty n k known rigid
  rw [start] at start'
  rw [stop] at stop'
  rw [Option.some.inj start', Option.some.inj stop']

/-- Behind the NUL nothing more is read. -/
theorem advance_readsNothing (proper : Proper items x) (along : Along items x lp g)
    (harmless : readsNothing Extent.rigid items x = true) :
    ∃ r, advance mem items lp g = some r := by
  induction items generalizing x lp g with
  | nil => exact ⟨_, rfl⟩
  | cons item ep ih =>
      cases item with
      | cbra n => exact ih proper.2 (along.opening proper.1.2) harmless
      | cket n => exact ih proper.2 (along.closing proper.1.1 proper.1.2) harmless
      | cback n star =>
          cases known : x.least n with
          | none => exact ⟨_, along.unset known⟩
          | some k =>
              simp only [readsNothing, known, Option.isNone_some, Bool.false_or,
                Bool.and_eq_true] at harmless
              obtain ⟨⟨once, rigid⟩, rest⟩ := harmless
              obtain rfl : star = false := by simpa using once
              have rigid : x.elastic n = false := by simpa [Extent.rigid] using rigid
              obtain ⟨bbeg, bend, start, stop, long, -, empty⟩ := along.group known
              obtain rfl := empty rigid
              obtain rfl : k = 0 := by omega
              have passed : Along ep (x.pass 0 (x.elastic n)) (lp + 0) g :=
                along.reference.pass le_rfl fun _ => rfl
              have step : x.step (.cback n false) = x.pass 0 (x.elastic n) := by
                simp [Extent.step, known]
              rw [← step] at passed
              obtain ⟨r, result⟩ := ih proper.2 passed rest
              refine ⟨r, ?_⟩
              rw [advance, start, stop]
              simpa [ecmp] using result
      | _ => cases harmless

/-- A reference to a closed group is compared inside the line. -/
theorem reference_settles (free : 0 ∉ line) (within : lp ≤ line.length)
    (along : Along (.cback n false :: ep) x lp g) (known : x.least n = some k)
    (rest : ∀ lp ≤ line.length, Along ep (x.pass k (x.elastic n)) lp g →
      ∃ r, advance (line ++ [0]) ep lp g = some r) :
    ∃ r, advance (line ++ [0]) (.cback n false :: ep) lp g = some r := by
  obtain ⟨bbeg, bend, start, stop, long, before, empty⟩ := along.group known
  obtain ⟨same, compared, far⟩ := ecmp_inside free ((line ++ [0]).length + 1)
    (show bbeg + (bend - bbeg) ≤ line.length by omega) within (by simp; omega)
  rw [advance, start, stop]
  simp only [show (bend : ℤ) - bbeg = (bend - bbeg : ℕ) by omega, compared, Option.bind_eq_bind,
    Option.bind_some]
  split
  next yes =>
    refine rest _ (far yes) (along.reference.pass (by omega) fun rigid => ?_)
    have := empty rigid
    omega
  next => exact ⟨_, rfl⟩

/-- A star behind a reference to a group that is never empty comes to its end. -/
theorem references_settles (free : 0 ∉ line) (within : lp ≤ line.length)
    (along : Along (.cback n true :: ep) x lp g) (known : x.least n = some k) (nonempty : 0 < k)
    (proper : Proper ep (x.pass 0 (x.elastic n)))
    (rest : ∀ lp ≤ line.length, ∀ g, Along ep (x.pass 0 (x.elastic n)) lp g →
      ∃ r, advance (line ++ [0]) ep lp g = some r) :
    ∃ r, advance (line ++ [0]) (.cback n true :: ep) lp g = some r := by
  obtain ⟨bbeg, bend, start, stop, long, before, empty⟩ := along.group known
  obtain ⟨times, met, far⟩ := repeats_inside free ((line ++ [0]).length + 1)
    (show 0 < bend - bbeg by omega) (show bbeg + (bend - bbeg) ≤ line.length by omega) within
    (by simp; omega)
  rw [advance, start, stop]
  simp only [show (bend : ℤ) - bbeg = (bend - bbeg : ℕ) by omega, met, Option.bind_eq_bind,
    Option.bind_some]
  refine backUp_some (J := Along ep x lp)
    (keeps_along (advance_kept (x := x.pass 0 (x.elastic n)) proper)) (fun j le g along => ?_)
    along.reference
  refine rest _ ?_ g (along.pass (Nat.zero_le _) fun rigid => ?_)
  · have := Nat.mul_le_mul_right (bend - bbeg) le
    omega
  · have := empty rigid
    omega

/-! ## The whole expression -/

/-- An item without a star that does not take the NUL stays in the line. -/
theorem one_settles (one : item.piece = some ⟨takes, false⟩) (free : 0 ∉ line)
    (within : lp ≤ line.length) (stops : takes 0 = false)
    (rest : lp + 1 ≤ line.length → ∃ r, advance (line ++ [0]) ep (lp + 1) g = some r) :
    ∃ r, advance (line ++ [0]) (item :: ep) lp g = some r := by
  obtain ⟨c, read, ends⟩ := read_line free within
  rw [advance_one one, read]
  change ∃ r, (if takes c then advance (line ++ [0]) ep (lp + 1) g else some (false, g)) = some r
  split
  next taken =>
    have inside : lp ≠ line.length := fun last => by
      rw [ends.mpr last, stops] at taken
      cases taken
    exact rest (by omega)
  next => exact ⟨_, rfl⟩

/-- So does an item with a star. -/
theorem star_settles (starred : item.piece = some ⟨takes, true⟩) (free : 0 ∉ line)
    (within : lp ≤ line.length) (stops : takes 0 = false) (proper : Proper ep (x.pass 0 true))
    (along : Along ep x lp g)
    (rest : ∀ lp ≤ line.length, ∀ g, Along ep (x.pass 0 true) lp g →
      ∃ r, advance (line ++ [0]) ep lp g = some r) :
    ∃ r, advance (line ++ [0]) (item :: ep) lp g = some r := by
  rw [advance_star starred]
  exact star_some (J := Along ep x lp) free within stops
    (keeps_along (advance_kept (x := x.pass 0 true) proper))
    (fun j inside g along => rest _ inside g (along.pass (Nat.zero_le j) (by simp))) along

theorem inClass_of_vain {table : ℕ} (none : vain table = true) (c : UInt8) :
    inClass table c = false := by
  have zero : table % 2 ^ 128 = 0 := of_decide_eq_true none
  have bit := Nat.testBit_mod_two_pow table 128 (low c)
  rw [zero, Nat.zero_testBit] at bit
  have small : low c < 128 := Nat.mod_lt _ (by decide)
  simpa [small, inClass] using bit.symm

/-- `advance` answers inside the line, from wherever it is called. -/
theorem advance_settles (plain : Plain line) (proper : Proper items x) (within : lp ≤ line.length)
    (along : Along items x lp g) (settled : settles Extent.rigid items x = true) :
    ∃ r, advance (line ++ [0]) items lp g = some r := by
  have free := plain.free
  induction items generalizing x lp g with
  | nil => exact ⟨_, rfl⟩
  | cons item ep ih =>
      obtain ⟨here, proper⟩ := proper
      have inside : decide (LBSIZE ≤ x.lp) = false := by
        have := along.reached
        have := plain.short
        exact decide_eq_false (by omega)
      rw [settles, inside, Bool.false_or] at settled
      cases item with
      | cchr c star =>
          have stops : decide (0 = c) = false := decide_eq_false (Ne.symm here)
          have tail : Along ep x lp g := along.tail fun _ => id
          rcases Bool.or_eq_true_iff.mp settled with never | settled
          · obtain ⟨once, last⟩ := Bool.and_eq_true_iff.mp never
            obtain rfl : star = false := by simpa using once
            obtain rfl := of_decide_eq_true last
            obtain ⟨d, read, -⟩ := read_line free within
            exact ⟨(false, g), by rw [advance, read]; simp [(plain.read read).symm]⟩
          · cases star with
            | false =>
                exact one_settles rfl free within stops fun inside =>
                  ih proper inside (tail.pass le_rfl (by simp)) settled
            | true =>
                exact star_settles rfl free within stops proper tail fun _ inside _ along =>
                  ih proper inside along settled
      | cdot star =>
          have tail : Along ep x lp g := along.tail fun _ => id
          cases star with
          | false =>
              exact one_settles rfl free within rfl fun inside =>
                ih proper inside (tail.pass le_rfl (by simp)) settled
          | true =>
              exact star_settles rfl free within rfl proper tail fun _ inside _ along =>
                ih proper inside along settled
      | ccl table star =>
          have tail : Along ep x lp g := along.tail fun _ => id
          simp only [Item.settles] at settled
          cases nul : table.testBit 0 with
          | true =>
              rw [if_pos nul] at settled
              obtain ⟨once, harmless⟩ := Bool.and_eq_true_iff.mp settled
              obtain rfl : star = false := by simpa using once
              obtain ⟨c, read, -⟩ := read_line free within
              rw [advance, read]
              change ∃ r, (if inClass table c then advance (line ++ [0]) ep (lp + 1) g
                else some (false, g)) = some r
              split
              · exact advance_readsNothing proper (tail.pass le_rfl (by simp)) harmless
              · exact ⟨_, rfl⟩
          | false =>
              rw [if_neg (by simp [nul])] at settled
              rcases Bool.or_eq_true_iff.mp settled with never | settled
              · obtain ⟨once, none⟩ := Bool.and_eq_true_iff.mp never
                obtain rfl : star = false := by simpa using once
                obtain ⟨c, read, -⟩ := read_line free within
                exact ⟨(false, g), by rw [advance, read]; simp [inClass_of_vain none]⟩
              · cases star with
                | false =>
                    exact one_settles rfl free within nul fun inside =>
                      ih proper inside (tail.pass le_rfl (by simp)) settled
                | true =>
                    exact star_settles rfl free within nul proper tail fun _ inside _ along =>
                      ih proper inside along settled
      | cbra n => exact ih proper within (along.opening here.2) settled
      | cket n => exact ih proper within (along.closing here.1 here.2) settled
      | cback n star =>
          cases known : x.least n with
          | none => exact ⟨_, along.unset known⟩
          | some k =>
              simp only [Item.settles, known] at settled
              obtain ⟨nonempty, settled⟩ := Bool.and_eq_true_iff.mp settled
              cases star with
              | false =>
                  have step : x.step (.cback n false) = x.pass k (x.elastic n) := by
                    simp [Extent.step, known]
                  rw [step] at proper settled
                  exact reference_settles free within along known fun _ inside along =>
                    ih proper inside along settled
              | true =>
                  exact references_settles free within along known (by simpa using nonempty)
                    proper fun _ inside _ along => ih proper inside along settled
      | cdol =>
          obtain rfl := here
          obtain ⟨c, read, -⟩ := read_line free within
          rw [advance, read]
          change ∃ r, (if c = 0 then some (true, g) else some (false, g)) = some r
          split
          · exact ⟨_, rfl⟩
          · exact ⟨_, rfl⟩

end

end Grep

end UnixV7
