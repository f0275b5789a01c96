import UnixV7.Cmd.Cron.Cmp

/-!
# The crontab

A crontab is compiled and read again every minute. The entries that are selected are the lines that
say so, unless a line is read though it is not as it has to be, or is stored outside of the list, or
is not ended.
-/

namespace UnixV7.Cron

open UnixV7.Lines

variable {place : ℕ → ℕ} {bin : Bytes} {comes : Minute → Prop} {m : Minute}
  {lines : List (List UInt8)} {l last more : List UInt8}

/-- What the lines are to select: a line with five fields that have the values of the minute. -/
def Wanted (m : Minute) (l text : List UInt8) : Prop :=
  ∃ es cmd, Says 5 l es cmd ∧ Matches es m ∧ text = newlines cmd ++ [newline]

/-- The bytes of the list. -/
def State.bytes (s : State) : List UInt8 := (List.range s.listsize).map fun k => s.bin (s.list + k)

/-- A crontab of `lines` and of `last`, which is behind the last newline, is run as it says: nothing
is stored outside of the list, and whenever a minute comes, what is selected are the lines that are
wanted, each where it is compiled. -/
def Runs (place : ℕ → ℕ) (bin : Bytes) (comes : Minute → Prop) (lines : List (List UInt8))
    (last : List UInt8) : Prop :=
  ∃ s, init place bin (unlines newline lines ++ last) = .ok s ∧
    ∀ m, comes m → ∃ chosen, scan m s.bytes = some chosen ∧
      chosen.Pairwise (fun p q => q.1.length < p.1.length) ∧
      ∀ p text, (p, text) ∈ chosen ↔
        ∃ before l after, lines ++ [last] = before ++ l :: after ∧ Wanted m l text ∧
          p = s.bytes.drop (compiled before).length

/-- When all of it is so: no line is stored outside of the list, no line that is not as it has to be
is read as one of a minute that comes, and what is behind the last newline is not wanted. -/
structure Fits (comes : Minute → Prop) (lines : List (List UInt8)) (last : List UInt8) : Prop where
  roomy : Roomy 0 LISTS lines last
  formed : ∀ m, comes m → ∀ l ∈ lines, ∀ cmd, (reading 5 l).command = some cmd →
    Matches (reading 5 l).entries m → Says 5 l (reading 5 l).entries cmd
  ended : ∀ m, comes m → ∀ text, ¬ Wanted m last text

theorem Holds.bytes {s : State} {t : List UInt8} (holds : Holds s t) :
    ∃ more, s.bytes = t ++ more := by
  have inside := holds.inside
  refine ⟨s.bytes.drop t.length, ?_⟩
  have first : s.bytes.take t.length = t := by
    refine List.ext_getElem ?_ fun k small less => ?_
    · rw [List.length_take, State.bytes, List.length_map, List.length_range, Nat.min_eq_left inside]
    · simp only [State.bytes, List.getElem_take, List.getElem_map, List.getElem_range]
      exact holds.cell k less
  have parts := List.take_append_drop t.length s.bytes
  rw [first] at parts
  exact parts.symm

theorem compiled_append (before after : List (List UInt8)) :
    compiled (before ++ after) = compiled before ++ compiled after := List.flatMap_append

theorem compiled_cons (l : List UInt8) (lines : List (List UInt8)) :
    compiled (l :: lines) = entry l ++ compiled lines := List.flatMap_cons

/-- One of the lines is the first or one of the others. -/
theorem exists_split (l : List UInt8) (lines : List (List UInt8))
    (p : List UInt8 → List (List UInt8) → Prop) :
    (∃ before x after, l :: lines = before ++ x :: after ∧ p x after) ↔
      p l lines ∨ ∃ before x after, lines = before ++ x :: after ∧ p x after := by
  constructor
  · rintro ⟨before, x, after, parts, found⟩
    cases before with
    | nil =>
        obtain ⟨rfl, rfl⟩ := List.cons.inj parts
        exact .inl found
    | cons y before =>
        obtain ⟨rfl, rfl⟩ := List.cons.inj parts
        exact .inr ⟨before, x, after, rfl, found⟩
  · rintro (first | ⟨before, x, after, rfl, found⟩)
    · exact ⟨[], l, lines, rfl, first⟩
    · exact ⟨l :: before, x, after, rfl, found⟩

/-- A line with a command is left in the list. -/
theorem entry_ne {cmd : List UInt8} (found : (reading 5 l).command = some cmd) : entry l ≠ [] := by
  obtain ⟨c, rest, head, -⟩ := codes_head found
  rw [entry, if_pos (by rw [found]; rfl), head]
  exact List.cons_ne_nil c rest

/-- What a scan selects of the lines. -/
theorem scan_compiled (clean : Clean lines) (m : Minute) (more : List UInt8) :
    ∃ chosen, scan m (compiled lines ++ EOS :: more) = some chosen ∧
      chosen.Pairwise (fun p q => q.1.length < p.1.length) ∧
      (∀ p ∈ chosen, p.1.length ≤ (compiled lines ++ EOS :: more).length) ∧
      ∀ p text, (p, text) ∈ chosen ↔
        ∃ before l after, lines = before ++ l :: after ∧ Chosen m l text ∧
          p = compiled (l :: after) ++ EOS :: more := by
  induction lines with
  | nil =>
      refine ⟨[], scan_end m more, .nil, fun p mem => absurd mem List.not_mem_nil, fun p text => ?_⟩
      refine iff_of_false List.not_mem_nil ?_
      rintro ⟨before, l, after, parts, -⟩
      exact absurd parts.symm (List.append_ne_nil_of_right_ne_nil _ (List.cons_ne_nil _ _))
  | cons l lines ih =>
      obtain ⟨first, others⟩ := List.forall_mem_cons.mp clean
      obtain ⟨chosen, here, order, longest, mem⟩ := ih others
      simp only [exists_split l lines fun x after => Chosen m x _ ∧ _ = compiled (x :: after) ++ _]
      rw [compiled_cons, List.append_assoc]
      have longer : ∀ p ∈ chosen,
          p.1.length ≤ (entry l ++ (compiled lines ++ EOS :: more)).length := fun p mem => by
        rw [List.length_append]
        exact Nat.le_trans (longest p mem) (Nat.le_add_left _ _)
      cases found : (reading 5 l).command with
      | none =>
          have left : entry l = [] := if_neg (by rw [found]; decide)
          have never : ∀ text, ¬ Chosen m l text := fun text ⟨cmd, other, _⟩ => by
            rw [found] at other
            cases other
          refine ⟨chosen, by rw [left, List.nil_append, here], order, longer, fun p text => ?_⟩
          rw [mem p text]
          exact (or_iff_right fun both => never text both.1).symm
      | some cmd =>
          have clean := first cmd found
          obtain ⟨fits, differs⟩ := scan_entry found clean m (compiled lines ++ EOS :: more)
          obtain yes | no := em (Matches (reading 5 l).entries m)
          · refine ⟨_, (fits yes).trans (congrArg _ here), ?_, ?_, fun p text => ?_⟩
            · refine List.pairwise_cons.mpr ⟨fun p mem => ?_, order⟩
              have some := List.length_pos_iff.mpr (entry_ne found)
              have length := longest p mem
              dsimp only
              rw [List.length_append]
              omega
            · exact List.forall_mem_cons.mpr ⟨Nat.le_refl _, longer⟩
            · rw [List.mem_cons, mem p text, Prod.mk.injEq]
              refine or_congr ⟨?_, ?_⟩ Iff.rfl
              · rintro ⟨rfl, rfl⟩
                exact ⟨⟨cmd, found, yes, rfl⟩, rfl⟩
              · rintro ⟨⟨cmd', found', -, rfl⟩, rfl⟩
                rw [found] at found'
                cases found'
                exact ⟨rfl, rfl⟩
          · refine ⟨chosen, by rw [differs no, here], order, longer, fun p text => ?_⟩
            rw [mem p text]
            refine (or_iff_right fun both => ?_).symm
            obtain ⟨⟨cmd, -, yes, -⟩, -⟩ := both
            exact no yes

/-- Two lines that are compiled at one place are one. -/
theorem split_unique {all before before' after after' : List (List UInt8)} {l' : List UInt8}
    (parts : all = before ++ l :: after) (parts' : all = before' ++ l' :: after')
    (some : entry l ≠ []) (some' : entry l' ≠ [])
    (same : (compiled before).length = (compiled before').length) :
    before = before' ∧ l = l' ∧ after = after' := by
  subst parts
  obtain ⟨between, rfl, parts⟩ | ⟨between, rfl, parts⟩ := List.append_eq_append_iff.mp parts'
  · cases between with
    | nil =>
        obtain ⟨rfl, rfl⟩ := List.cons.inj parts
        exact ⟨(List.append_nil _).symm, rfl, rfl⟩
    | cons x between =>
        obtain ⟨rfl, -⟩ := List.cons.inj parts
        have positive := List.length_pos_iff.mpr some
        rw [compiled_append, compiled_cons, List.length_append, List.length_append] at same
        omega
  · cases between with
    | nil =>
        obtain ⟨rfl, rfl⟩ := List.cons.inj parts
        exact ⟨List.append_nil _, rfl, rfl⟩
    | cons x between =>
        obtain ⟨rfl, -⟩ := List.cons.inj parts
        have positive := List.length_pos_iff.mpr some'
        rw [compiled_append, compiled_cons, List.length_append, List.length_append] at same
        omega

theorem Wanted.command {text : List UInt8} (wanted : Wanted m l text) : Chosen m l text := by
  obtain ⟨es, cmd, told, fits, rfl⟩ := wanted
  have read := told.reading
  exact ⟨cmd, by rw [read], by rw [read]; exact fits, rfl⟩

theorem Chosen.entry {text : List UInt8} (chosen : Chosen m l text) : entry l ≠ [] := by
  obtain ⟨cmd, found, -⟩ := chosen
  exact entry_ne found

/-- The lines are compiled, and the scan finds them. -/
theorem init_roomy (place : ℕ → ℕ) (bin : Bytes) (whole : Whole lines) (free : newline ∉ last)
    (roomy : Roomy 0 LISTS lines last) :
    ∃ s more, init place bin (unlines newline lines ++ last) = .ok s ∧
      s.bytes = compiled lines ++ EOS :: more := by
  have start : Holds ⟨place LISTS, LISTS, place LISTS, bin⟩ [] :=
    ⟨rfl, Nat.zero_le _, fun k less => absurd less (Nat.not_lt_zero k)⟩
  obtain ⟨s, compiled, holds⟩ :
      ∃ s, init place bin (unlines newline lines ++ last) = .ok s ∧
        Holds s ([] ++ compiled lines ++ [EOS, EOS]) := loop_roomy start whole free roomy
  obtain ⟨more, bytes⟩ := holds.bytes
  refine ⟨s, EOS :: more, compiled, ?_⟩
  rw [bytes, List.nil_append, List.append_assoc]
  rfl

theorem init_full (place : ℕ → ℕ) (bin : Bytes) (whole : Whole lines) (free : newline ∉ last)
    (full : ¬ Roomy 0 LISTS lines last) :
    init place bin (unlines newline lines ++ last) = .error .outside := by
  have start : Holds ⟨place LISTS, LISTS, place LISTS, bin⟩ [] :=
    ⟨rfl, Nat.zero_le _, fun k less => absurd less (Nat.not_lt_zero k)⟩
  exact loop_full start whole free full

/-- The bytes of the list from a line on. -/
theorem drop_compiled {before after : List (List UInt8)} (parts : lines = before ++ l :: after)
    (more : List UInt8) :
    (compiled lines ++ more).drop (compiled before).length = compiled (l :: after) ++ more := by
  rw [parts, compiled_append, List.append_assoc, List.drop_left]

theorem fits_runs (whole : Whole lines) (free : newline ∉ last) (clean : Clean lines)
    (fits : Fits comes lines last) : Runs place bin comes lines last := by
  obtain ⟨s, more, compiles, bytes⟩ := init_roomy place bin whole free fits.roomy
  refine ⟨s, compiles, fun m come => ?_⟩
  obtain ⟨chosen, found, order, -, mem⟩ := scan_compiled clean m more
  rw [bytes]
  refine ⟨chosen, found, order, fun p text => ?_⟩
  rw [mem]
  constructor
  · rintro ⟨before, l, after, parts, ⟨cmd, command, values, rfl⟩, rfl⟩
    have mem : l ∈ lines := by simp [parts]
    have told := fits.formed m come l mem cmd command values
    refine ⟨before, l, after ++ [last], by simp [parts], ⟨_, cmd, told, values, rfl⟩, ?_⟩
    exact (drop_compiled parts _).symm
  · rintro ⟨before, l, after, parts, wanted, rfl⟩
    obtain rfl | ⟨others, x, rfl⟩ := List.eq_nil_or_concat after
    · obtain ⟨rfl, last⟩ := List.append_inj' parts rfl
      obtain ⟨rfl, -⟩ := List.cons.inj last
      exact absurd wanted (fits.ended m come text)
    · rw [List.concat_eq_append, ← List.cons_append, ← List.append_assoc] at parts
      obtain ⟨parts, -⟩ := List.append_inj' parts rfl
      exact ⟨before, l, others, parts, wanted.command, drop_compiled parts _⟩

/-- Every line is compiled in the list. -/
theorem compiled_le {before after : List (List UInt8)}
    (parts : lines ++ [last] = before ++ l :: after) :
    (compiled before).length ≤ (compiled lines).length := by
  obtain rfl | ⟨others, x, rfl⟩ := List.eq_nil_or_concat after
  · obtain ⟨rfl, -⟩ := List.append_inj' parts rfl
    exact Nat.le_refl _
  · rw [List.concat_eq_append, ← List.cons_append, ← List.append_assoc] at parts
    obtain ⟨rfl, -⟩ := List.append_inj' parts rfl
    rw [compiled_append, List.length_append]
    exact Nat.le_add_right _ _

theorem runs_fits (whole : Whole lines) (free : newline ∉ last) (clean : Clean lines)
    (runs : Runs place bin comes lines last) : Fits comes lines last := by
  obtain ⟨s, compiles, runs⟩ := runs
  have roomy : Roomy 0 LISTS lines last := by
    by_contra full
    rw [init_full place bin whole free full] at compiles
    cases compiles
  obtain ⟨s', more, compiles', bytes⟩ := init_roomy place bin whole free roomy
  obtain rfl := Except.ok.inj (compiles.symm.trans compiles')
  refine ⟨roomy, fun m come l mem cmd command values => ?_, fun m come text wanted => ?_⟩
  · obtain ⟨chosen, found, -, mem'⟩ := runs m come
    obtain ⟨chosen', found', -, -, mem''⟩ := scan_compiled clean m more
    rw [bytes] at found mem'
    obtain rfl := Option.some.inj (found.symm.trans found')
    obtain ⟨before, after, parts⟩ := List.append_of_mem mem
    have here : Chosen m l (newlines cmd ++ [newline]) := ⟨cmd, command, values, rfl⟩
    have selected := (mem'' _ _).mpr ⟨before, l, after, parts, here, rfl⟩
    obtain ⟨before', l', after', parts', wanted, place⟩ := (mem' _ _).mp selected
    have all : lines ++ [last] = before ++ l :: (after ++ [last]) := by simp [parts]
    have same : (compiled before).length = (compiled before').length := by
      have lengths := congrArg List.length place
      have inside := compiled_le parts'
      rw [parts, compiled_append] at inside lengths
      simp only [List.length_append, List.length_drop, List.length_cons] at lengths inside
      omega
    obtain ⟨-, rfl, -⟩ := split_unique all parts' here.entry wanted.command.entry same
    obtain ⟨es, cmd', told, -⟩ := wanted
    have read := told.reading
    rw [read] at command ⊢
    cases command
    exact told
  · obtain ⟨chosen, found, -, mem'⟩ := runs m come
    obtain ⟨chosen', found', -, -, mem''⟩ := scan_compiled clean m more
    rw [bytes] at found mem'
    obtain rfl := Option.some.inj (found.symm.trans found')
    have selected := (mem' _ _).mpr ⟨lines, last, [], rfl, wanted, rfl⟩
    obtain ⟨before, l, after, -, here, place⟩ := (mem'' _ _).mp selected
    have positive := List.length_pos_iff.mpr here.entry
    have lengths := congrArg List.length place
    rw [List.drop_left, compiled_cons] at lengths
    simp only [List.length_append] at lengths
    omega

/-- A command with a null is not run as it stands. -/
theorem null_not_runs {text : List UInt8} (come : comes m) (mem : l ∈ lines ++ [last])
    (wanted : Wanted m l text) (null : 0 ∈ text) : ¬ Runs place bin comes lines last := by
  rintro ⟨s, -, runs⟩
  obtain ⟨chosen, found, -, mem'⟩ := runs m come
  obtain ⟨before, after, parts⟩ := List.append_of_mem mem
  have selected := (mem' _ text).mpr ⟨before, l, after, parts, wanted, rfl⟩
  exact scan_text found _ selected null

/-- A crontab whose commands have no null runs if and only if it fits, and none runs of which a
command with a null is wanted in a minute that comes. -/
theorem runs_iff (place : ℕ → ℕ) (bin : Bytes) (comes : Minute → Prop) (whole : Whole lines)
    (free : newline ∉ last) :
    (Clean lines → (Runs place bin comes lines last ↔ Fits comes lines last)) ∧
      ((∃ m, comes m ∧ ∃ l ∈ lines ++ [last], ∃ text, Wanted m l text ∧ 0 ∈ text) →
        ¬ Runs place bin comes lines last) := by
  constructor
  · exact fun clean => ⟨runs_fits whole free clean, fits_runs whole free clean⟩
  · rintro ⟨m, come, l, mem, text, wanted, null⟩
    exact null_not_runs come mem wanted null

/-- Stars and a command. -/
def stars : ℕ → List UInt8
  | 0 => [120]
  | k + 1 => star :: 32 :: stars k

theorem stars_told (k : ℕ) : Says k (stars k) (List.replicate k .any) [120] := by
  induction k with
  | zero =>
      have told : Says 0 ([] ++ [120]) [] [120] :=
        .command (fun b mem => absurd mem List.not_mem_nil) (by decide)
      exact told
  | succ k ih =>
      have told : Says (k + 1) ([] ++ ([star] ++ 32 :: stars k))
          (.any :: List.replicate k .any) [120] :=
        .field (fun b mem => absurd mem List.not_mem_nil) .any (by decide) ih
      exact told

theorem nothing_wanted (m : Minute) (text : List UInt8) : ¬ Wanted m [] text := by
  rintro ⟨es, cmd, told, -⟩
  have read := congrArg Reading.command told.reading
  cases read

theorem runs_iff_stars : Runs (fun _ => 0) (fun _ => 0) (fun _ => True) [stars 5] [] := by
  have read := (stars_told 5).reading
  refine ((runs_iff _ _ _ ?_ List.not_mem_nil).1 ?_).mpr ⟨?_, ?_, fun m _ => nothing_wanted m⟩
  · exact List.forall_mem_singleton.mpr (by decide)
  · refine List.forall_mem_singleton.mpr fun cmd found => ?_
    rw [read] at found
    cases found
    decide
  · refine ⟨fun _ => ?_, fun room => ?_⟩
    · rw [read]
      decide
    · exact Nat.le_trans (Nat.le_add_right _ 2) room
  · intro m _
    refine List.forall_mem_singleton.mpr fun cmd found _ => ?_
    rw [read] at found ⊢
    cases found
    exact stars_told 5

/-- A list that begins with a comma is read as one that begins with zero. -/
theorem comma_read : ¬ Runs (fun _ => 0) (fun _ => 0) (fun _ => True)
    [comma :: 53 :: 32 :: stars 4] [] := by
  have numeral : Numeral [53] 5 :=
    ⟨by decide, List.forall_mem_singleton.mpr (by decide), rfl, by decide⟩
  have blank : isblank 32 := by decide
  have list : members (53 :: 32 :: stars 4) = ([5], some (stars 4)) :=
    (Numerals.one numeral).members blank (stars 4)
  have field : piece (comma :: 53 :: 32 :: stars 4) = .whole (.list [0, 5]) (stars 4) := by
    have first : (comma :: 53 :: 32 :: stars 4).dropWhile isblank = comma :: 53 :: 32 :: stars 4 :=
      rfl
    have zero : cut (comma :: 53 :: 32 :: stars 4) = 0 := rfl
    have digits : (comma :: 53 :: 32 :: stars 4).dropWhile isdigit =
      comma :: 53 :: 32 :: stars 4 := rfl
    rw [piece, first]
    simp only [if_neg (show comma ≠ star by decide), zero, digits, list]
    rfl
  have read : reading 5 (comma :: 53 :: 32 :: stars 4) =
      ⟨.list [0, 5] :: List.replicate 4 .any, [], some [120]⟩ := by
    rw [reading, field]
    simp only [(stars_told 4).reading]
  intro runs
  have fits := runs_fits (List.forall_mem_singleton.mpr (by decide)) List.not_mem_nil ?_ runs
  · have told := fits.formed ⟨0, 0, 1, 1, 0⟩ trivial _ List.mem_cons_self [120] (by rw [read]) ?_
    · exact absurd told.head (by decide)
    · rw [read]
      exact .cons List.mem_cons_self (.cons trivial (.cons trivial (.cons trivial
        (.cons trivial .nil))))
  · refine List.forall_mem_singleton.mpr fun cmd found => ?_
    rw [read] at found
    cases found
    decide

end UnixV7.Cron
