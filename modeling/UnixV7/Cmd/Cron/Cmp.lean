import UnixV7.Cmd.Cron.Compiled

/-!
# The entries of a minute

`cmp` of `cron.c` and the loop of `main` over the list. A pointer into the list is the list of the
bytes from there to its end; `none` is a read behind it.
-/

namespace UnixV7.Cron

/-- Over the rest of a list of numbers. -/
def pastList : List UInt8 → Option (List UInt8)
  | [] => none
  | c :: cp => if c = LIST then some cp else pastList cp

/-- The numbers of a list. -/
def inlist (v : ℕ) : List UInt8 → Option (List UInt8 × ℕ)
  | [] => none
  | c :: cp =>
      if c = LIST then some (cp, 1)
      else if c.toNat = v then (pastList cp).map fun cp => (cp, 0)
      else inlist v cp

/-- The place behind a field, and what is added to the flag. -/
def cmp (p : List UInt8) (v : ℕ) : Option (List UInt8 × ℕ) :=
  match p with
  | [] => none
  | c :: cp =>
      if c = EXACT then
        match cp with
        | [] => none
        | n :: cp => some (cp, if n.toNat ≠ v then 1 else 0)
      else if c = ANY then some (cp, 0)
      else if c = LIST then inlist v cp
      else if c = RANGE then
        match cp with
        | low :: high :: cp => some (cp, if low.toNat > v ∨ high.toNat < v then 1 else 0)
        | _ => none
      else some (cp, if c.toNat ≠ v then 1 else 0)

/-- A minute of the calendar. -/
structure Minute where
  min : ℕ
  hour : ℕ
  mday : ℕ
  mon : ℕ
  wday : ℕ

def Minute.values (m : Minute) : List ℕ := [m.min, m.hour, m.mday, m.mon, m.wday]

/-- The calls of `cmp`, one behind the other. -/
def cmps : List ℕ → List UInt8 → Option (List UInt8 × ℕ)
  | [], cp => some (cp, 0)
  | v :: vs, cp =>
      cmp cp v >>= fun read => (cmps vs read.1).map fun last => (last.1, read.2 + last.2)

/-- Over the null behind a command. -/
def next : List UInt8 → Option (List UInt8)
  | [] => none
  | c :: cp => if c = 0 then some cp else next cp

/-! ## What is read gets shorter -/

theorem pastList_length {p cp : List UInt8} (found : pastList p = some cp) :
    cp.length ≤ p.length := by
  induction p with
  | nil => cases found
  | cons c p ih =>
      rw [pastList] at found
      split at found
      next =>
        cases found
        exact Nat.le_succ _
      next => exact Nat.le_succ_of_le (ih found)

theorem next_length {p cp : List UInt8} (found : next p = some cp) : cp.length < p.length := by
  induction p with
  | nil => cases found
  | cons c p ih =>
      rw [next] at found
      split at found
      next =>
        cases found
        exact Nat.lt_succ_self _
      next => exact Nat.lt_succ_of_lt (ih found)

theorem inlist_length {v : ℕ} {p : List UInt8} {read : List UInt8 × ℕ}
    (found : inlist v p = some read) : read.1.length ≤ p.length := by
  induction p with
  | nil => cases found
  | cons c p ih =>
      rw [inlist] at found
      split at found
      next =>
        cases found
        exact Nat.le_succ _
      next =>
        split at found
        next =>
          obtain ⟨cp, skipped, rfl⟩ := Option.map_eq_some_iff.mp found
          exact Nat.le_succ_of_le (pastList_length skipped)
        next => exact Nat.le_succ_of_le (ih found)

theorem cmp_length {p : List UInt8} {v : ℕ} {read : List UInt8 × ℕ} (found : cmp p v = some read) :
    read.1.length ≤ p.length := by
  revert found
  fun_cases cmp p v with
  | case1 => exact fun found => by cases found
  | case2 => exact fun found => by cases found
  | case3 n cp =>
      rintro ⟨⟩
      exact Nat.le_add_right _ 2
  | case4 cp =>
      rintro ⟨⟩
      exact Nat.le_succ _
  | case5 cp => exact fun found => Nat.le_succ_of_le (inlist_length found)
  | case6 low high cp =>
      rintro ⟨⟩
      exact Nat.le_add_right _ 3
  | case7 => exact fun found => by cases found
  | case8 c cp =>
      rintro ⟨⟩
      exact Nat.le_succ _

theorem cmps_length {vs : List ℕ} {p : List UInt8} {read : List UInt8 × ℕ}
    (found : cmps vs p = some read) : read.1.length ≤ p.length := by
  induction vs generalizing p read with
  | nil =>
      cases found
      exact Nat.le_refl _
  | cons v vs ih =>
      obtain ⟨first, here, found⟩ := Option.bind_eq_some_iff.mp found
      obtain ⟨last, behind, rfl⟩ := Option.map_eq_some_iff.mp found
      have length := ih behind
      exact Nat.le_trans length (cmp_length here)

/-- The entries that are selected in a minute: where each begins, and its command. -/
def scan (m : Minute) (cp : List UInt8) : Option (List (List UInt8 × List UInt8)) :=
  match cp with
  | [] => none
  | c :: rest =>
      if c = EOS then some []
      else
        match _found : cmps m.values (c :: rest) with
        | none => none
        | some read =>
            match _behind : next read.1 with
            | none => none
            | some cp =>
                (scan m cp).map fun chosen =>
                  if read.2 = 0 then (c :: rest, read.1.takeWhile (· != 0)) :: chosen else chosen
termination_by cp.length
decreasing_by exact Nat.lt_of_lt_of_le (next_length _behind) (cmps_length _found)

/-! ## The entries of a line -/

/-- The numbers fit in a byte and are none of the codes. -/
def Entry.Small : Entry → Prop
  | any => True
  | exact n => n < 100
  | list ns => ∀ n ∈ ns, n < 100
  | range low high => low < 100 ∧ high < 100

theorem byte_toNat {n : ℕ} (small : n < 100) : (byte n).toNat = n := by
  rw [byte, UInt8.toNat_ofNat']
  omega

theorem byte_ne_list {n : ℕ} (small : n < 100) : byte n ≠ LIST := by
  intro same
  have value := congrArg UInt8.toNat same
  rw [byte_toNat small] at value
  exact absurd value (Nat.ne_of_lt (Nat.lt_trans small (by decide)))

theorem over_codes {ns : List ℕ} (small : ∀ n ∈ ns, n < 100) (more : List UInt8) :
    pastList (ns.map byte ++ LIST :: more) = some more := by
  induction ns with
  | nil => exact if_pos rfl
  | cons n ns ih =>
      obtain ⟨first, others⟩ := List.forall_mem_cons.mp small
      rw [List.map_cons, List.cons_append, pastList, if_neg (byte_ne_list first), ih others]

theorem inlist_codes {ns : List ℕ} (small : ∀ n ∈ ns, n < 100) (v : ℕ) (more : List UInt8) :
    inlist v (ns.map byte ++ LIST :: more) = some (more, if v ∈ ns then 0 else 1) := by
  induction ns with
  | nil => exact if_pos rfl
  | cons n ns ih =>
      obtain ⟨first, others⟩ := List.forall_mem_cons.mp small
      rw [List.map_cons, List.cons_append, inlist, if_neg (byte_ne_list first), byte_toNat first]
      obtain rfl | other := eq_or_ne n v
      · rw [if_pos rfl, over_codes others, if_pos List.mem_cons_self]
        rfl
      · rw [if_neg other, ih others]
        simp only [List.mem_cons, Ne.symm other, false_or]

/-- A field is skipped by its own length, matched or not. -/
theorem cmp_codes {e : Entry} (small : e.Small) (v : ℕ) (more : List UInt8) :
    ∃ flag, cmp (e.codes ++ more) v = some (more, flag) ∧ (flag = 0 ↔ e.Matches v) := by
  cases e with
  | any => exact ⟨0, rfl, iff_of_true rfl trivial⟩
  | exact n =>
      refine ⟨_, rfl, ?_⟩
      rw [byte_toNat small]
      split <;> simp_all [Entry.Matches]
  | list ns =>
      refine ⟨if v ∈ ns then 0 else 1, ?_, ?_⟩
      · rw [Entry.codes, List.cons_append, List.append_assoc, List.singleton_append]
        exact inlist_codes small v more
      · rw [Entry.Matches]
        split <;> simp_all
  | range low high =>
      refine ⟨_, rfl, ?_⟩
      rw [byte_toNat small.1, byte_toNat small.2, Entry.Matches]
      split <;> omega

theorem members_small (l : List UInt8) : ∀ n ∈ (members l).1, n < 100 := by
  fun_induction members l with
  | case1 l many => exact fun n mem => absurd mem List.not_mem_nil
  | case2 l few => exact List.forall_mem_singleton.mpr (Nat.lt_of_not_le few)
  | case3 l few rest next ih => exact List.forall_mem_cons.mpr ⟨Nat.lt_of_not_le few, ih⟩
  | case4 l few => exact List.forall_mem_singleton.mpr (Nat.lt_of_not_le few)
  | case5 l few => exact List.forall_mem_singleton.mpr (Nat.lt_of_not_le few)

theorem upper_small {low : ℕ} (small : low < 100) {l rest : List UInt8} {e : Entry}
    (whole : upper low l = .whole e rest) : e.Small := by
  revert whole
  fun_cases upper low l with
  | case1 => exact fun whole => by cases whole
  | case2 => exact fun whole => by cases whole
  | case3 few =>
      rintro ⟨⟩
      exact ⟨small, Nat.lt_of_not_le few⟩
  | case4 => exact fun whole => by cases whole

theorem piece_small {l rest : List UInt8} {e : Entry} (whole : piece l = .whole e rest) :
    e.Small := by
  revert whole
  fun_cases piece l with
  | case2 =>
      rintro ⟨⟩
      trivial
  | case6 c l first other few behind =>
      rintro ⟨⟩
      exact List.forall_mem_cons.mpr ⟨Nat.lt_of_not_le few, members_small behind⟩
  | case7 c l first other few => exact upper_small (Nat.lt_of_not_le few)
  | case8 c l first other few =>
      rintro ⟨⟩
      exact Nat.lt_of_not_le few
  | _ => exact fun whole => by cases whole

theorem reading_small (k : ℕ) (l : List UInt8) : ∀ e ∈ (reading k l).entries, e.Small := by
  induction k generalizing l with
  | zero =>
      rw [reading]
      split <;> exact fun e mem => absurd mem List.not_mem_nil
  | succ k ih =>
      rw [reading]
      cases read : piece l with
      | broken begun => exact fun e mem => absurd mem List.not_mem_nil
      | whole entry rest => exact List.forall_mem_cons.mpr ⟨piece_small read, ih rest⟩

/-- A command has all of the fields before it. -/
theorem reading_entries {k : ℕ} {l cmd : List UInt8} (found : (reading k l).command = some cmd) :
    (reading k l).entries.length = k := by
  induction k generalizing l with
  | zero =>
      rw [reading]
      split <;> rfl
  | succ k ih =>
      rw [reading] at found ⊢
      cases read : piece l with
      | broken begun =>
          rw [read] at found
          cases found
      | whole entry rest =>
          rw [read] at found
          exact congrArg Nat.succ (ih found)

/-- The fields have the values. -/
def Matches (entries : List Entry) (m : Minute) : Prop :=
  List.Forall₂ Entry.Matches entries m.values

theorem cmps_codes {entries : List Entry} (small : ∀ e ∈ entries, e.Small) {vs : List ℕ}
    (length : entries.length = vs.length) (more : List UInt8) :
    ∃ flag, cmps vs (entries.flatMap Entry.codes ++ more) = some (more, flag) ∧
      (flag = 0 ↔ List.Forall₂ Entry.Matches entries vs) := by
  induction entries generalizing vs with
  | nil =>
      obtain rfl := List.eq_nil_of_length_eq_zero length.symm
      exact ⟨0, rfl, iff_of_true rfl .nil⟩
  | cons e entries ih =>
      obtain ⟨first, others⟩ := List.forall_mem_cons.mp small
      cases vs with
      | nil => cases length
      | cons v vs =>
          obtain ⟨flag, here, zero⟩ := cmp_codes first v (entries.flatMap Entry.codes ++ more)
          obtain ⟨flag', behind, zero'⟩ := ih others (Nat.succ.inj length)
          refine ⟨flag + flag', ?_, ?_⟩
          · rw [List.flatMap_cons, List.append_assoc, cmps, here]
            simp only [Option.bind_eq_bind, Option.bind_some, behind, Option.map_some]
          · rw [List.forall₂_cons, ← zero, ← zero']
            exact Nat.add_eq_zero_iff

/-! ## The list of all lines -/

variable {m : Minute} {lines : List (List UInt8)} {l cmd : List UInt8}

theorem scan_step {c : UInt8} {rest text cp : List UInt8} {flag : ℕ} (inner : c ≠ EOS)
    (read : cmps m.values (c :: rest) = some (text, flag)) (behind : next text = some cp) :
    scan m (c :: rest) = (scan m cp).map fun chosen =>
      if flag = 0 then (c :: rest, text.takeWhile (· != 0)) :: chosen else chosen := by
  rw [scan, if_neg inner]
  split
  next none =>
    rw [read] at none
    cases none
  next read' found =>
    rw [read] at found
    cases found
    split
    next none =>
      rw [behind] at none
      cases none
    next cp' found =>
      rw [behind] at found
      cases found
      rfl

theorem scan_end (m : Minute) (rest : List UInt8) : scan m (EOS :: rest) = some [] := by
  rw [scan, if_pos rfl]

/-- No text has a null. -/
theorem scan_text {cp : List UInt8} {chosen : List (List UInt8 × List UInt8)}
    (found : scan m cp = some chosen) : ∀ p ∈ chosen, 0 ∉ p.2 := by
  fun_induction scan m cp generalizing chosen with
  | case1 => cases found
  | case2 =>
      cases found
      exact fun p mem => absurd mem List.not_mem_nil
  | case3 => cases found
  | case4 => cases found
  | case5 c rest _ read _ cp _ ih =>
      obtain ⟨later, here, rfl⟩ := Option.map_eq_some_iff.mp found
      have others := ih here
      split
      next =>
        refine List.forall_mem_cons.mpr ⟨fun mem => ?_, others⟩
        have := List.mem_takeWhile_imp mem
        exact absurd this (by decide)
      next => exact others

theorem newlines_null (clean : 0 ∉ cmd) : ∀ c ∈ newlines cmd ++ [newline], c != 0 := by
  intro c mem
  refine bne_iff_ne.mpr fun null => ?_
  subst null
  obtain inner | last := List.mem_append.mp mem
  · obtain ⟨c, mem, same⟩ := List.mem_map.mp inner
    split at same
    next => exact absurd same (by decide)
    next => exact clean (same ▸ mem)
  · exact absurd (List.mem_singleton.mp last) (by decide)

theorem next_text {text : List UInt8} (clean : ∀ c ∈ text, c != 0) (more : List UInt8) :
    next (text ++ 0 :: more) = some more := by
  induction text with
  | nil => exact if_pos rfl
  | cons c text ih =>
      obtain ⟨first, others⟩ := List.forall_mem_cons.mp clean
      rw [List.cons_append, next, if_neg (bne_iff_ne.mp first), ih others]

/-- An entry begins with one of the codes. -/
theorem codes_head {k : ℕ} (found : (reading (k + 1) l).command = some cmd) :
    ∃ c rest, (reading (k + 1) l).codes true = c :: rest ∧ c ≠ EOS := by
  have count := reading_entries found
  cases entries : (reading (k + 1) l).entries with
  | nil =>
      rw [entries] at count
      cases count
  | cons e es =>
      rw [Reading.codes, entries, List.flatMap_cons, List.append_assoc]
      cases e with
      | any => exact ⟨_, _, rfl, by decide⟩
      | exact n => exact ⟨_, _, rfl, by decide⟩
      | list ns => exact ⟨_, _, rfl, by decide⟩
      | range low high => exact ⟨_, _, rfl, by decide⟩

/-- What is selected of a line. -/
def Chosen (m : Minute) (l text : List UInt8) : Prop :=
  ∃ cmd, (reading 5 l).command = some cmd ∧ Matches (reading 5 l).entries m ∧
    text = newlines cmd ++ [newline]

/-- No command has a null. -/
def Clean (lines : List (List UInt8)) : Prop :=
  ∀ l ∈ lines, ∀ cmd, (reading 5 l).command = some cmd → 0 ∉ cmd

/-- The entry of one line. -/
theorem scan_entry (found : (reading 5 l).command = some cmd) (clean : 0 ∉ cmd)
    (m : Minute) (more : List UInt8) :
    (Matches (reading 5 l).entries m → scan m (entry l ++ more) =
      (scan m more).map fun chosen => (entry l ++ more, newlines cmd ++ [newline]) :: chosen) ∧
    (¬ Matches (reading 5 l).entries m → scan m (entry l ++ more) = scan m more) := by
  have stored : entry l = (reading 5 l).codes true := if_pos (by rw [found]; rfl)
  have clean' := newlines_null clean
  have count : (reading 5 l).entries.length = m.values.length := reading_entries found
  obtain ⟨flag, read, zero⟩ := cmps_codes (reading_small 5 l) count
    (newlines cmd ++ [newline] ++ 0 :: more)
  have whole : entry l ++ more =
      (reading 5 l).entries.flatMap Entry.codes ++ (newlines cmd ++ [newline] ++ 0 :: more) := by
    rw [stored, Reading.codes, found]
    simp
  obtain ⟨c, rest, head, inner⟩ := codes_head found
  have first : entry l ++ more = c :: (rest ++ more) := by rw [stored, head, List.cons_append]
  rw [← whole, first] at read
  rw [first, scan_step inner read (next_text clean' more), takeWhile_append clean' (by decide)]
  constructor
  · intro fits
    simp only [zero.mpr fits, if_true]
  · intro differs
    simp only [if_neg (mt zero.mp differs), Option.map_id']

end UnixV7.Cron
