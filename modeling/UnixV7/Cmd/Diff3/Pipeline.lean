import Mathlib.Data.List.Sort
import UnixV7.Cmd.Diff.Faithful
import UnixV7.Cmd.Diff3.Readin
import UnixV7.Cmd.Diff3.Script

/-!
# Reports, scripts and the editor

`diff3` is given the reports that `diff` makes of the two older files and file 3, and the script
goes to the editor. So do the scripts of `diff` with the option `e`. What the editor has at the end
is told from the files alone.
-/

namespace UnixV7.Diff3

open Fuel Lines

/-- The bytes of the lines of a file. -/
def bytes (lines : List (List Char)) : List (List ℕ) := lines.map (·.map Char.toNat)

/-- What `diff` prints about two files. -/
def report (opt : ℤ) (old new : List (List Char)) : Option (List Char) :=
  (Diff.report false opt (Diff.text (bytes old)) (Diff.text (bytes new))).map Readin.chars

/-- The changes that `diff3` reads from the report about two files. -/
def compared (old new : List (List Char)) : Option (List Diff) := (report 0 old new).bind readin

variable {old new : List (List Char)} {i j : ℕ} {xs : List Diff.Change}

theorem plain_bytes (plain : Plain old) : ∀ line ∈ bytes old, Diff.newline ∉ line := by
  intro line mem
  obtain ⟨l, inside, rfl⟩ := List.mem_map.mp mem
  exact Diff.newline_notMem_map (plain l inside)

theorem bytes_inj {old new : List (List Char)} (same : bytes old = bytes new) : old = new :=
  List.map_injective_iff.mpr (List.map_injective_iff.mpr fun c d equal => by
    rw [← Char.ofNat_toNat c, equal, Char.ofNat_toNat]) same

theorem length_bytes (lines : List (List Char)) : (bytes lines).length = lines.length :=
  List.length_map _

theorem bytes_drop (lines : List (List Char)) (n : ℕ) :
    (bytes lines).drop n = bytes (lines.drop n) :=
  List.map_drop.symm

theorem part_bytes (lines : List (List Char)) (a b : ℕ) :
    Diff.part (bytes lines) a b = bytes (Diff.part lines a b) := by
  rw [Diff.part, bytes_drop, bytes, ← List.map_take]
  rfl

/-- The ranges of the changes are those of a correct list. -/
theorem correct_ranges (faithful : Diff.Faithful (bytes old) (bytes new) i j xs) :
    Correct old new i j (xs.map Readin.ranges) := by
  induction faithful with
  | none same =>
      rw [bytes_drop, bytes_drop] at same
      exact .none (bytes_inj same)
  | @cons i j x xs old_low new_low same inside apart others ih =>
      have high := inside.old_high
      have high' := inside.new_high
      have low := inside.old_low
      have low' := inside.new_low
      have order := inside.old_order
      have order' := inside.new_order
      rw [length_bytes] at high high'
      rw [part_bytes, part_bytes] at same
      have between := bytes_inj same
      rw [Diff.part, Diff.part, Nat.sub_add_cancel low, Nat.sub_add_cancel low'] at between
      refine .cons old_low new_low between order order' (Nat.succ_le_succ high)
        (Nat.succ_le_succ high') ?_ ih
      intro y mem
      rw [List.head?_map] at mem
      obtain ⟨z, first, rfl⟩ := Option.mem_map.mp mem
      exact apart z first

/-- The report about two files has the lines of these changes, each of which changes something, and
they are the changes from the one file to the other. -/
structure Printed (old new : List (List Char)) (xs : List Diff.Change) : Prop where
  text : report 0 old new = some (Readin.chars
    (Diff.text (xs.flatMap (Diff.Change.lines 0 (bytes old) (bytes new)))))
  busy : ∀ x ∈ xs, ¬x.Idle
  correct : Correct old new 1 1 (xs.map Readin.ranges)

/-- `diff3` reads from the report of `diff` the changes that it was printed for, unless there are
too many. -/
theorem compared_spec (plain : Plain old) (plain' : Plain new) (small : old.length < 1000000000)
    (small' : new.length < 1000000000) :
    ∃ xs, Printed old new xs ∧
      compared old new = if xs.length ≤ NC then some (xs.map Readin.ranges) else none := by
  obtain ⟨xs, printed, busy, faithful⟩ := Diff.report_spec 0 (plain_bytes plain)
    (plain_bytes plain')
  rw [if_pos (by decide)] at faithful
  have text : report 0 old new = some (Readin.chars
      (Diff.text (xs.flatMap (Diff.Change.lines 0 (bytes old) (bytes new))))) := by
    rw [report, printed, Option.map_some]
  refine ⟨xs, ⟨text, busy, correct_ranges faithful⟩, ?_⟩
  rw [compared, text, Option.bind_some, Readin.readin_text
    (plain_bytes plain) (plain_bytes plain') faithful.inside busy (by rwa [length_bytes])
    (by rwa [length_bytes])]

/-! ## Merging -/

variable {f g : List (List Char)} {D : List Diff} {x : Diff} {r : Region} {a c : ℕ}
  {rs : List Region} {flag : Flag} {lines : Which → List (List Char)} {d13 d23 : List Diff}

/-- The script for correct lists makes of file 1 the file with the regions that are asked for
replaced. -/
theorem merged_correct (flag : Flag) (plain : ∀ i, Plain (lines i))
    (none : ['.'] ∉ lines .three) (correct : Correct (lines .one) (lines .three) 1 1 d13)
    (correct' : Correct (lines .two) (lines .three) 1 1 d23) :
    ∃ rs script, Merged flag lines d13 d23 rs ∧
      Settles (diff3 flag d13 d23 fun i => unlines '\n' (lines i)) script ∧
      ∀ other, (Ed.run other script (lines .one)).lines =
        replaced (lines .one) (lines .three) 0 rs := by
  obtain ⟨rs, found, settled⟩ := diff3_settles plain correct.listed correct'.listed flag
  have free : Plain ((rs.map Region.diff).reverse.flatMap (scriptLines (lines .three))) := by
    intro line mem
    obtain ⟨d, -, mem⟩ := List.mem_flatMap.mp mem
    exact plain_scriptLines (plain .three) d line mem
  have clear : ∀ r ∈ rs, ['.'] ∉ slice (lines .three) r.three := fun r _ mem =>
    none (List.mem_of_mem_drop (List.mem_of_mem_take mem))
  refine ⟨rs, _, ⟨found.mem, found.apart.imp And.left⟩, settled, fun other => ?_⟩
  obtain ⟨dot', done⟩ := foldl_regions other rs found.apart found.inside clear (lines .one).length
  rw [Ed.run, split_unlines free, done]

/-- `diff3` reads from the two reports the changes that `diff` printed them for, unless there are
too many, and the script it writes for them makes of file 1 the file with the regions that are asked
for replaced. -/
theorem reports_merged (flag : Flag) (plain : ∀ i, Plain (lines i))
    (small : ∀ i, (lines i).length < 1000000000) (none : ['.'] ∉ lines .three) :
    ∃ xs ys, Printed (lines .one) (lines .three) xs ∧ Printed (lines .two) (lines .three) ys ∧
      compared (lines .one) (lines .three) =
        (if xs.length ≤ NC then some (xs.map Readin.ranges) else Option.none) ∧
      compared (lines .two) (lines .three) =
        (if ys.length ≤ NC then some (ys.map Readin.ranges) else Option.none) ∧
      ∃ rs script, Merged flag lines (xs.map Readin.ranges) (ys.map Readin.ranges) rs ∧
        Settles (diff3 flag (xs.map Readin.ranges) (ys.map Readin.ranges)
          fun i => unlines '\n' (lines i)) script ∧
        ∀ other,
          (Ed.run other script (lines .one)).lines = replaced (lines .one) (lines .three) 0 rs := by
  obtain ⟨xs, printed, read⟩ :=
    compared_spec (plain .one) (plain .three) (small .one) (small .three)
  obtain ⟨ys, printed', read'⟩ :=
    compared_spec (plain .two) (plain .three) (small .two) (small .three)
  exact ⟨xs, ys, printed, printed', read, read',
    merged_correct flag plain none printed.correct printed'.correct⟩

/-- Three files of which each is different. -/
def letters : Which → List (List Char)
  | .one => [['a']]
  | .two => [['b']]
  | .three => [['c']]

theorem reports_merged_letters :
    ∃ xs ys, Printed (letters .one) (letters .three) xs ∧
      Printed (letters .two) (letters .three) ys ∧
      compared (letters .one) (letters .three) =
        (if xs.length ≤ NC then some (xs.map Readin.ranges) else none) ∧
      compared (letters .two) (letters .three) =
        (if ys.length ≤ NC then some (ys.map Readin.ranges) else none) ∧
      ∃ rs script, Merged .x letters (xs.map Readin.ranges) (ys.map Readin.ranges) rs ∧
        Settles (diff3 .x (xs.map Readin.ranges) (ys.map Readin.ranges)
          fun i => unlines '\n' (letters i)) script ∧
        ∀ other, (Ed.run other script (letters .one)).lines =
          replaced (letters .one) (letters .three) 0 rs := by
  refine reports_merged .x (fun i => ?_) (fun i => ?_) (by decide)
  · cases i <;> exact List.forall_mem_singleton.mpr (by decide)
  · cases i <;> decide

/-- The lines of the older file for those of a change are those that were changed. -/
theorem carried_mem (listed : Listed f g D) (mem : x ∈ D) : carried D x.new = x.old := by
  obtain ⟨pre, post, parts⟩ := List.append_of_mem mem
  obtain ⟨before, sorted⟩ := listed.ordered parts
  exact (Head.fresh listed parts).carried_eq (fun z inside => before z inside x List.mem_cons_self)
    (fun z inside => (listed.inside z inside).new_order)
    fun z inside => List.rel_of_pairwise_cons sorted inside

/-- Changes of a list do not touch each other. -/
theorem eq_of_touch (listed : Listed f g D) {x y : Diff} (mem : x ∈ D) (mem' : y ∈ D)
    (touch : Touching.Touch (fun x => x.new.start) (fun x => x.new.stop) x y) : x = y := by
  have touch : x.new.start ≤ y.new.stop ∧ y.new.start ≤ x.new.stop := touch
  by_contra other
  obtain ⟨i, inside, rfl⟩ := List.mem_iff_getElem.mp mem
  obtain ⟨j, inside', rfl⟩ := List.mem_iff_getElem.mp mem'
  obtain less | rfl | more := Nat.lt_trichotomy i j
  · have apart := List.pairwise_iff_getElem.mp listed.apart i j inside inside' less
    omega
  · exact other rfl
  · have apart := List.pairwise_iff_getElem.mp listed.apart j i inside' inside more
    omega

/-- With one list of changes for both files every change is a region. -/
theorem isRegion_same (listed : Listed f g D) (mem : x ∈ D) :
    IsRegion D D x r ↔ r = ⟨x.old, x.old, x.new⟩ := by
  have hull : Touching.Hull (fun x => x.new.start) (fun x => x.new.stop) (· ∈ D ++ D) x x.new.start
      x.new.stop := by
    refine .of_closed (· = x) ?_ ?_ rfl ?_ ⟨x, rfl, rfl⟩ ⟨x, rfl, rfl⟩
    · intro u v here inside touch
      obtain inside | inside := List.mem_append.mp inside <;>
        exact (eq_of_touch listed inside (here ▸ mem) touch.symm).trans here
    · rintro u rfl v rfl
      exact .refl
    · rintro u rfl
      exact ⟨le_rfl, le_rfl⟩
  have old := carried_mem listed mem
  constructor
  · rintro ⟨-, three, one, two⟩
    obtain ⟨one', two', start, stop⟩ := r
    obtain ⟨rfl, rfl⟩ := three.unique hull
    dsimp only at one two
    rw [one, two, Region.mk.injEq]
    exact ⟨old, old, rfl⟩
  · rintro rfl
    exact ⟨⟨x, mem, .refl⟩, hull, old.symm, old.symm⟩

/-- Replacing all changes makes the newer file. -/
theorem replaced_correct (correct : Correct f g a c D) (low : 0 < a) (low' : 0 < c)
    (parts : rs.map Region.diff = D) : replaced f g (a - 1) rs = g.drop (c - 1) := by
  induction correct generalizing rs with
  | none same =>
      obtain rfl := List.map_eq_nil_iff.mp parts
      exact same
  | @cons a c x d old new same order order' high high' apart others ih =>
      obtain ⟨r, rs, rfl, rfl, rest⟩ := List.map_eq_cons_iff.mp parts
      have old : a ≤ r.one.start := old
      have new : c ≤ r.three.start := new
      have order : r.one.start ≤ r.one.stop := order
      have order' : r.three.start ≤ r.three.stop := order'
      have same : (f.drop (a - 1)).take (r.one.start - a) =
          (g.drop (c - 1)).take (r.three.start - c) :=
        same
      have further : replaced f g (r.one.stop - 1) rs = g.drop (r.three.stop - 1) :=
        ih (low.trans_le (old.trans order)) (low'.trans_le (new.trans order')) rest
      have first : g.drop (r.three.start - 1) = slice g r.three ++ g.drop (r.three.stop - 1) := by
        rw [slice,
          show r.three.stop - 1 = r.three.start - 1 + (r.three.stop - r.three.start) by omega,
          ← List.drop_drop, List.take_append_drop]
      have begun : g.drop (c - 1) =
          (g.drop (c - 1)).take (r.three.start - c) ++ g.drop (r.three.start - 1) := by
        rw [show r.three.start - 1 = c - 1 + (r.three.start - c) by omega, ← List.drop_drop,
          List.take_append_drop]
      rw [replaced, further, show r.one.start - 1 - (a - 1) = r.one.start - a by omega, same,
        List.append_assoc, ← first, ← begun]

/-- One change begins before another. -/
def Before (x y : Diff) : Prop := x.new.start < y.new.start

instance : Std.Irrefl Before := ⟨fun _ => Nat.lt_irrefl _⟩

instance : Std.Antisymm Before := ⟨fun _ _ before after => absurd before (Nat.lt_asymm after)⟩

/-- With one list of changes for both files the script has all of them. -/
theorem merged_same (listed : Listed (lines .one) (lines .three) D)
    (merged : Merged .e lines D D rs) : rs.map Region.diff = D := by
  have want : ∀ r, Wanted .e lines r := by
    intro r
    rw [Wanted]
    cases decide (slice (lines .one) r.one = slice (lines .two) r.two) <;> decide
  have mem : ∀ r, r ∈ rs ↔ ∃ x ∈ D, r = ⟨x.old, x.old, x.new⟩ := by
    intro r
    rw [merged.mem]
    constructor
    · rintro ⟨-, x, inside, region⟩
      exact ⟨x, inside, (isRegion_same listed inside).mp region⟩
    · rintro ⟨x, inside, region⟩
      exact ⟨want r, x, inside, (isRegion_same listed inside).mpr region⟩
  have sorted : D.Pairwise Before := listed.apart.imp_of_mem fun {x y} inside _ apart =>
    (listed.inside x inside).new_order.trans_lt apart
  have sorted' : (rs.map Region.diff).Pairwise Before := by
    rw [List.pairwise_map]
    refine merged.apart.imp_of_mem fun {r s} inside _ apart => ?_
    obtain ⟨x, member, rfl⟩ := (mem r).mp inside
    exact (listed.inside x member).new_order.trans_lt apart
  refine sorted'.eq_of_mem_iff sorted fun x => ?_
  rw [List.mem_map]
  constructor
  · rintro ⟨r, inside, rfl⟩
    obtain ⟨y, member, rfl⟩ := (mem r).mp inside
    exact member
  · intro inside
    exact ⟨_, (mem _).mpr ⟨x, inside, rfl⟩, rfl⟩

/-- Files 1 and 2 are one file, and file 3 is a newer one. -/
def copies (old new : List (List Char)) : Which → List (List Char)
  | .one => old
  | .two => old
  | .three => new

/-- For two copies of one file the script that comes of the changes in the reports makes the newer
file of it. -/
theorem copies_merged (plain : Plain old) (plain' : Plain new) (small : old.length < 1000000000)
    (small' : new.length < 1000000000) (none : ['.'] ∉ new) :
    ∃ xs, Printed old new xs ∧
      compared old new = (if xs.length ≤ NC then some (xs.map Readin.ranges) else Option.none) ∧
      ∃ script, Settles (diff3 .e (xs.map Readin.ranges) (xs.map Readin.ranges)
          fun i => unlines '\n' (copies old new i)) script ∧
        ∀ other, (Ed.run other script old).lines = new := by
  obtain ⟨xs, printed, read⟩ := compared_spec plain plain' small small'
  have correct := printed.correct
  have whole : ∀ i, Plain (copies old new i) := by
    intro i
    cases i
    · exact plain
    · exact plain
    · exact plain'
  obtain ⟨rs, script, merged, settled, edited⟩ := merged_correct .e whole none correct correct
  have parts := merged_same correct.listed merged
  have result : replaced old new 0 rs = new :=
    replaced_correct correct Nat.one_pos Nat.one_pos parts
  exact ⟨xs, printed, read, script, settled, fun other => (edited other).trans result⟩

theorem copies_merged_letter :
    ∃ xs, Printed [['a']] [['b']] xs ∧
      compared [['a']] [['b']] =
        (if xs.length ≤ NC then some (xs.map Readin.ranges) else none) ∧
      ∃ script, Settles (diff3 .e (xs.map Readin.ranges) (xs.map Readin.ranges)
          fun i => unlines '\n' (copies [['a']] [['b']] i)) script ∧
        ∀ other, (Ed.run other script [['a']]).lines = [['b']] :=
  copies_merged (List.forall_mem_singleton.mpr (by decide))
    (List.forall_mem_singleton.mpr (by decide)) (by decide) (by decide) (by decide)

/-! ## The scripts of `diff` -/

namespace Ed

/-- The lines `n` to `m` are deleted, and the current line is the one behind them, if any. -/
def rdelete (n m : ℕ) (ed : Ed) : Ed :=
  if 1 ≤ n ∧ n ≤ m ∧ m ≤ ed.lines.length then
    let lines := ed.lines.take (n - 1) ++ ed.lines.drop m
    ⟨lines, if lines.length < n then lines.length else n, ed.input⟩
  else ed

/-- The command `d` with numbers for addresses. -/
def deletion (line : List Char) (ed : Ed) : Ed :=
  match number line with
  | some (n, ['d']) => ed.rdelete n n
  | some (n, ',' :: rest) =>
      match number rest with
      | some (m, ['d']) => ed.rdelete n m
      | _ => ed
  | _ => ed

end Ed

variable {one : List (List Char)} {dot : ℕ} {y : Diff.Change}

/-- The lines of a change in a script. -/
def edLines (new : List (List Char)) (y : Diff.Change) : List (List Char) :=
  (Readin.rangeText y.a y.b ++ [Readin.letter y]) ::
    (Diff.part new y.c y.d ++ if y.c ≤ y.d then [['.']] else [])

theorem chars_lines (busy : ¬y.Idle) (old new : List (List Char)) :
    (y.lines (-1) (bytes old) (bytes new)).map Readin.chars = edLines new y := by
  have header : Readin.chars (y.header (-1)) = Readin.rangeText y.a y.b ++ [Readin.letter y] := by
    rw [Diff.Change.header, if_pos (by decide), if_neg (by decide), Readin.chars, List.map_append,
      List.map_cons, Readin.ofNat_kind]
    exact congrArg (· ++ [Readin.letter y]) (Readin.chars_range y.a y.b)
  have taken : ((Diff.part (bytes new) y.c y.d).map ([] ++ ·)).map Readin.chars =
      Diff.part new y.c y.d := by
    rw [part_bytes, bytes, List.map_map, List.map_map]
    exact (List.map_congr_left fun line _ => Readin.chars_toNat line).trans (List.map_id _)
  rw [Diff.Change.lines, if_neg busy, if_neg (by decide), if_neg (by decide), List.nil_append,
    List.map_cons, List.map_append, header, taken, edLines]
  by_cases some : y.c ≤ y.d
  · rw [if_pos ⟨by decide, some⟩, if_pos some]
    rfl
  · rw [if_neg fun both => some both.2, if_neg some]
    rfl

/-- Text is put in by the lines that `diff3` prints for it. -/
theorem edLines_eq (some : y.c ≤ y.d) (order : y.a ≤ y.b + 1) :
    edLines new y = scriptLines new (Readin.ranges y) := by
  have first : Readin.rangeText y.a y.b ++ [Readin.letter y] = header ⟨y.a, y.b + 1⟩ := by
    rw [Readin.rangeText, Readin.letter, header]
    dsimp only
    by_cases added : y.b < y.a
    · have last : y.a - 1 = y.b := by omega
      rw [if_pos added, if_pos added, if_neg (Nat.lt_asymm added), if_pos (Nat.succ_le_of_lt added),
        List.append_nil, last]
    · have more : y.a + 1 < y.b + 1 ↔ y.a < y.b := Nat.add_lt_add_iff_right
      rw [if_neg added, if_neg added, if_neg (Nat.not_lt.mpr some),
        if_neg fun less => added (Nat.lt_of_succ_le less), Nat.add_sub_cancel]
      simp only [more]
  rw [edLines, scriptLines, first, if_pos some]
  rfl

/-- A deletion is no other command, and the editor deletes the lines of the range. -/
theorem step_deletion {a b : ℕ} (order : a ≤ b) (ed : Ed) (idle : ed.input = false) :
    Ed.step Ed.deletion ed (Readin.rangeText a b ++ ['d']) = ed.rdelete a b := by
  have only := number_decimal b (c := 'd') (by decide) []
  have comma := number_decimal a (c := ',') (by decide) (decimal b ++ ['d'])
  have none : command (Readin.rangeText a b ++ ['d']) = none ∧
      Ed.deletion (Readin.rangeText a b ++ ['d']) ed = ed.rdelete a b := by
    rw [Readin.rangeText, if_neg (by omega)]
    by_cases more : a < b
    · rw [if_pos more, List.append_assoc, List.cons_append]
      exact ⟨by simp [command, comma, only], by simp [Ed.deletion, comma, only]⟩
    · obtain rfl : a = b := by omega
      rw [if_neg more, List.append_nil, command, Ed.deletion, only]
      exact ⟨rfl, rfl⟩
  rw [Ed.step, if_neg (by rw [idle]; exact Bool.false_ne_true), none.1]
  exact none.2

/-- The lines of a change put those of the newer file in the place of those of the older one. -/
theorem foldl_edLines (busy : ¬y.Idle) (one : List (List Char)) (dot : ℕ) (low : 1 ≤ y.a)
    (order : y.a ≤ y.b + 1) (high : y.b ≤ one.length) (none : ['.'] ∉ new) :
    ∃ dot', (edLines new y).foldl (Ed.step Ed.deletion) ⟨one, dot, false⟩ =
      ⟨one.take (y.a - 1) ++ Diff.part new y.c y.d ++ one.drop y.b, dot', false⟩ := by
  by_cases some : y.c ≤ y.d
  · rw [edLines_eq some order]
    exact foldl_scriptLines (d := Readin.ranges y) Ed.deletion one dot low order
      (Nat.succ_le_succ high) fun mem => none (List.mem_of_mem_drop (List.mem_of_mem_take mem))
  · have kept : y.a ≤ y.b := by
      by_contra added
      exact busy ⟨by omega, by omega⟩
    have gone : Diff.part new y.c y.d = [] := by
      rw [Diff.part, show y.d + 1 - y.c = 0 by omega, List.take_zero]
    have letter : Readin.letter y = 'd' := by
      rw [Readin.letter, if_neg (by omega), if_pos (by omega)]
    rw [edLines, gone, if_neg some, letter, List.append_nil, List.append_nil, List.foldl_cons,
      List.foldl_nil, step_deletion kept _ rfl, Ed.rdelete, if_pos ⟨low, kept, high⟩]
    exact ⟨_, rfl⟩

theorem take_part {a b : ℕ} (lines : List (List Char)) (low : 1 ≤ a) (order : a ≤ b + 1) :
    lines.take (a - 1) ++ Diff.part lines a b = lines.take b := by
  rw [Diff.part, ← List.take_add, show a - 1 + (b + 1 - a) = b by omega]

theorem part_drop {a b : ℕ} (lines : List (List Char)) (low : 1 ≤ a) (order : a ≤ b + 1) :
    Diff.part lines a b ++ lines.drop b = lines.drop (a - 1) := by
  rw [Diff.part, show lines.drop b = (lines.drop (a - 1)).drop (b + 1 - a) by
    rw [List.drop_drop, show a - 1 + (b + 1 - a) = b by omega], List.take_append_drop]

/-- After the changes behind a place, the buffer has the older file before it and the newer one
behind it. -/
theorem foldl_changes (faithful : Diff.Faithful (bytes old) (bytes new) i j xs)
    (busy : ∀ x ∈ xs, ¬x.Idle) (low : 1 ≤ i) (low' : 1 ≤ j) (none : ['.'] ∉ new) (dot : ℕ) :
    ∃ dot', (xs.reverse.flatMap (edLines new)).foldl (Ed.step Ed.deletion) ⟨old, dot, false⟩ =
      ⟨old.take (i - 1) ++ new.drop (j - 1), dot', false⟩ := by
  induction faithful with
  | @none i j same =>
      rw [bytes_drop, bytes_drop] at same
      rw [← bytes_inj same, List.take_append_drop]
      exact ⟨dot, rfl⟩
  | @cons i j x xs old_low new_low same inside apart others ih =>
      obtain ⟨some, rest⟩ := List.forall_mem_cons.mp busy
      obtain ⟨middle, done⟩ := ih rest (Nat.le_add_left 1 _) (Nat.le_add_left 1 _)
      have first := inside.old_low
      have high := inside.old_high
      rw [length_bytes] at high
      rw [Nat.add_sub_cancel, Nat.add_sub_cancel] at done
      obtain ⟨dot', put⟩ := foldl_edLines some (old.take x.b ++ new.drop x.d) middle first
        inside.old_order (by rw [List.length_append, List.length_take_of_le high]; omega) none
      have size : (old.take x.b).length = x.b := List.length_take_of_le high
      have order := inside.old_order
      have order' := inside.new_order
      have first' := inside.new_low
      rw [part_bytes, part_bytes] at same
      refine ⟨dot', ?_⟩
      rw [List.reverse_cons, List.flatMap_append, List.foldl_append, done, List.flatMap_singleton,
        put, List.take_append_of_le_length (by omega), List.take_take, Nat.min_eq_left (by omega),
        List.drop_left' size, List.append_assoc, part_drop new first' order',
        ← take_part old low (show i ≤ x.a - 1 + 1 by omega), bytes_inj same, List.append_assoc,
        part_drop new low' (by omega)]

/-- The script that `diff -e` prints makes the one file into the other. -/
theorem script_edits (plain : Plain old) (plain' : Plain new) (none : ['.'] ∉ new) :
    ∃ script, report (-1) old new = some script ∧ (Ed.run Ed.deletion script old).lines = new := by
  obtain ⟨xs, printed, busy, faithful⟩ :=
    Diff.report_spec (-1) (plain_bytes plain) (plain_bytes plain')
  rw [if_neg (by decide)] at faithful
  have texts : (xs.flatMap (Diff.Change.lines (-1) (bytes old) (bytes new))).map Readin.chars =
      xs.flatMap (edLines new) := by
    rw [List.map_flatMap]
    exact List.flatMap_congr fun x mem => chars_lines (busy x mem) old new
  have free : ∀ line ∈ xs.flatMap (edLines new), '\n' ∉ line := by
    rw [← texts]
    intro line mem
    obtain ⟨l, inside, rfl⟩ := List.mem_map.mp mem
    obtain ⟨x, -, inside⟩ := List.mem_flatMap.mp inside
    exact Readin.newline_notMem_chars
      (Diff.plain_lines (-1) (plain_bytes plain) (plain_bytes plain') x l inside)
  obtain ⟨dot, done⟩ := foldl_changes faithful (fun x mem => busy x (List.mem_reverse.mp mem))
    le_rfl le_rfl none old.length
  rw [List.reverse_reverse] at done
  refine ⟨_, by rw [report, printed, Option.map_some, Readin.chars_text, texts], ?_⟩
  rw [Ed.run, split_unlines free, done, Nat.sub_self, List.take_zero, List.drop_zero,
    List.nil_append]

theorem script_edits_letter : ∃ script, report (-1) [['a']] [['b']] = some script ∧
    (Ed.run Ed.deletion script [['a']]).lines = [['b']] :=
  script_edits (List.forall_mem_singleton.mpr (by decide))
    (List.forall_mem_singleton.mpr (by decide)) (by decide)

end UnixV7.Diff3
