import UnixV7.Cmd.Fgrep.Machine

/-!
# Which lines count

A line counts when one of the words that were entered is in it, or with `-x` is all of it, and
with `-v` when none is, however `read` cuts the file. Those are the words of the list, except that
the last one is not entered when it has no newline and begins another.
-/

namespace UnixV7

open Function Suffixes

namespace Fgrep

/-- Whether a line is one that is asked for. -/
def wanted (xflag vflag : Bool) (words : List (List UInt8)) (l : List UInt8) : Bool :=
  xor (words.any fun w => if xflag then w == l else decide (w <:+: l)) vflag

/-- The words of a list whose last one, if there is one, has no newline. -/
def given (words : List (List UInt8)) (last : List UInt8) : List (List UInt8) :=
  if last = [] then words else words ++ [last]

/-- The words that are entered. -/
def entered (words : List (List UInt8)) (last : List UInt8) : List (List UInt8) :=
  if last = [] ∨ ∃ w ∈ words, last <+: w then words else words ++ [last]

/-- How a line is decided: at the first beginning that a word ends, or at its newline. -/
def Verdict (xflag vflag : Bool) (P D : Set (List UInt8)) (l : List UInt8) (mark : Bool) : Prop :=
  (∃ t failed, t <+: l ++ [newline] ∧ Ends D t ∧ (failed = true ↔ t ∉ P) ∧
    mark = counts xflag vflag failed) ∨
  (∀ t, t <+: l ++ [newline] → ¬Ends D t) ∧ mark = vflag

section

variable {kids : List UInt8 → List ℕ} {D : Set (List UInt8)} {w : ℕ → Words}
  {l s rest last : List UInt8} {c fuel : ℕ} {failed xflag vflag mark : Bool} {r : Reader}
  {piece : ℕ → ℕ} {lines words : List (List UInt8)}

/-- The rest of a line is passed. -/
theorem skipLine_spec (here : r.here = l ++ newline :: rest) (plain : newline ∉ l)
    (some : 0 < r.ccount) (inside : r.p + r.ccount ≤ 1024) (enough : l.length < fuel) :
    ∃ r', skipLine piece fuel r = .ok r' ∧ r'.left = rest ∧ r'.p + (r'.ccount - 1) ≤ 1024 := by
  induction l generalizing r fuel with
  | nil =>
      obtain ⟨fuel, rfl⟩ : ∃ n, fuel = n + 1 := ⟨fuel - 1, by omega⟩
      rw [Reader.here_eq some, List.nil_append] at here
      obtain ⟨first, left⟩ := List.cons_eq_cons.mp here
      refine ⟨{ r with p := r.p + 1 }, ?_, left, by dsimp only; omega⟩
      rw [skipLine, if_pos first]
  | cons ch l ih =>
      obtain ⟨fuel, rfl⟩ : ∃ n, fuel = n + 1 := ⟨fuel - 1, by simp at enough; omega⟩
      obtain ⟨other, plain⟩ := not_or.mp ((not_congr List.mem_cons).mp plain)
      rw [Reader.here_eq some, List.cons_append] at here
      obtain ⟨first, left⟩ := List.cons_eq_cons.mp here
      rw [skipLine, if_neg (by rw [first]; exact Ne.symm other)]
      rcases refill_spec (r := { r with p := r.p + 1 })
        (by dsimp only; omega) with ⟨-, empty⟩ | ⟨r', eq, here', some', inside'⟩
      · rw [left] at empty
        simp at empty
      · rw [eq]
        exact ih (here'.trans left) plain some' inside' (by simpa using enough)

/-- One more character is read. -/
theorem Machine.read (m : Machine kids D w) (at_s : At kids (longest (places kids) s) c failed)
    (failed_iff : failed = true ↔ s ∉ places kids) (ch : UInt8) :
    ∃ c' failed', nstate w ch MAXSIZ c failed = .ok (c', failed') ∧
      At kids (longest (places kids) (s ++ [ch])) c' failed' ∧
      (failed' = true ↔ s ++ [ch] ∉ places kids) ∧
      ((w c').out = true ↔ Ends D (s ++ [ch])) := by
  have place : longest (places kids) s ∈ places kids := longest_mem m.nil_mem
  have enough : (longest (places kids) s).length < MAXSIZ := by
    obtain ⟨t, seen, trie, -, -⟩ := m.made
    exact (trie.depth_le place).trans_lt trie.small
  obtain ⟨c', failed', eq, at', failed_iff'⟩ := m.nstate_spec at_s place enough
  rw [← longest_append m.prefixClosed] at at'
  refine ⟨c', failed', eq, at', ?_, ?_⟩
  · rw [failed_iff', failed_iff]
    cases Classical.em (s ∈ places kids) with
    | inl mem =>
        rw [longest_of_mem mem]
        exact or_iff_right (not_not.mpr mem)
    | inr other => exact iff_of_true (Or.inl other) fun mem => other (m.prefixClosed mem)
  · rw [m.out_iff at', ends_longest m.subset]

/-- One turn of the loop of `execute`. -/
theorem execute_step (m : Machine kids D w) {ch : UInt8} {tail : List UInt8}
    (left : r.left = ch :: tail) (inside : r.p + (r.ccount - 1) ≤ 1024)
    (at_s : At kids (longest (places kids) s) c failed)
    (failed_iff : failed = true ↔ s ∉ places kids) :
    ∃ r' c' failed', r'.here = ch :: tail ∧ 0 < r'.ccount ∧ r'.p + r'.ccount ≤ 1024 ∧
      At kids (longest (places kids) (s ++ [ch])) c' failed' ∧
      (failed' = true ↔ s ++ [ch] ∉ places kids) ∧
      ((w c').out = true ↔ Ends D (s ++ [ch])) ∧
      execute xflag vflag w piece (fuel + 1) r c failed =
        if (w c').out then
          skipLine piece fuel r' >>= fun r => execute xflag vflag w piece fuel r 0 false >>=
            fun marks => .ok (counts xflag vflag failed' :: marks)
        else if ch = newline then
          execute xflag vflag w piece fuel { r' with p := r'.p + 1 } 0 false >>=
            fun marks => .ok (vflag :: marks)
        else execute xflag vflag w piece fuel { r' with p := r'.p + 1 } c' failed' := by
  rcases refill_spec inside with ⟨-, empty⟩ | ⟨r', eq, here, some, inside'⟩
  · rw [left] at empty
    cases empty
  · rw [left] at here
    have first := (List.cons_eq_cons.mp ((Reader.here_eq some).symm.trans here)).1
    obtain ⟨c', failed', next, at', failed_iff', out_iff⟩ := m.read at_s failed_iff ch
    refine ⟨r', c', failed', here, some, inside', at', failed_iff', out_iff, ?_⟩
    rw [execute, eq]
    simp only [first, next]
    rfl

theorem Reader.left_of_here {ch : UInt8} {tail : List UInt8} (here : r.here = ch :: tail)
    (some : 0 < r.ccount) : Reader.left { r with p := r.p + 1 } = tail :=
  (List.cons_eq_cons.mp ((Reader.here_eq some).symm.trans here)).2

/-- A line is read and decided. -/
theorem execute_line (m : Machine kids D w) (left : r.left = l ++ newline :: rest)
    (plain : newline ∉ l) (inside : r.p + (r.ccount - 1) ≤ 1024)
    (at_s : At kids (longest (places kids) s) c failed)
    (failed_iff : failed = true ↔ s ∉ places kids) (silent : ∀ t, t <+: s → ¬Ends D t)
    (enough : l.length + rest.length + 1 < fuel) :
    ∃ mark r' fuel', execute xflag vflag w piece fuel r c failed =
        (execute xflag vflag w piece fuel' r' 0 false >>= fun marks => .ok (mark :: marks)) ∧
      r'.left = rest ∧ r'.p + (r'.ccount - 1) ≤ 1024 ∧ rest.length < fuel' ∧
      Verdict xflag vflag (places kids) D (s ++ l) mark := by
  induction l generalizing r c failed s fuel with
  | nil =>
      obtain ⟨fuel, rfl⟩ : ∃ n, fuel = n + 1 := ⟨fuel - 1, by omega⟩
      obtain ⟨r', c', failed', here, some, inside', -, failed_iff', out_iff, eq⟩ :=
        execute_step m left
          inside at_s failed_iff
      rw [eq]
      split
      next marked =>
        obtain ⟨r'', skipped, left'', inside''⟩ := skipLine_spec
          (l := []) here plain some inside' (by simp at enough ⊢; omega : _ < fuel)
        rw [skipped]
        refine ⟨_, r'', fuel, rfl, left'', inside'', by simp at enough; omega, Or.inl ?_⟩
        exact ⟨s ++ [newline], failed', by simp, out_iff.mp marked, failed_iff', rfl⟩
      next silent' =>
        rw [if_pos rfl]
        refine ⟨vflag, _, fuel, rfl, Reader.left_of_here here some, by dsimp only; omega,
          by simp at enough; omega, Or.inr ⟨?_, rfl⟩⟩
        intro t before ends
        rw [List.append_nil] at before
        rcases List.prefix_concat_iff.mp before with rfl | before
        · exact silent' (out_iff.mpr ends)
        · exact silent t before ends
  | cons ch l ih =>
      obtain ⟨fuel, rfl⟩ : ∃ n, fuel = n + 1 := ⟨fuel - 1, by omega⟩
      obtain ⟨other, plain'⟩ := not_or.mp ((not_congr List.mem_cons).mp plain)
      obtain ⟨r', c', failed', here, some, inside', at', failed_iff', out_iff, eq⟩ :=
        execute_step m left
          inside at_s failed_iff
      have regroup : s ++ ch :: l = s ++ [ch] ++ l := by simp
      rw [eq]
      split
      next marked =>
        obtain ⟨r'', skipped, left'', inside''⟩ := skipLine_spec
          (l := ch :: l) here plain some inside' (by simp at enough ⊢; omega : _ < fuel)
        rw [skipped]
        refine ⟨_, r'', fuel, rfl, left'', inside'', by simp at enough; omega, Or.inl ?_⟩
        refine ⟨s ++ [ch], failed', ?_, out_iff.mp marked, failed_iff', rfl⟩
        rw [regroup, List.append_assoc]
        exact List.prefix_append _ _
      next silent' =>
        rw [if_neg (Ne.symm other), regroup]
        apply ih (Reader.left_of_here here some) plain' (by dsimp only; omega) at' failed_iff'
        · intro t before ends
          rcases List.prefix_concat_iff.mp before with rfl | before
          · exact silent' (out_iff.mpr ends)
          · exact silent t before ends
        · simp at enough
          omega

/-- Every line is read and decided. -/
theorem execute_lines (xflag vflag : Bool) (m : Machine kids D w) (plain : ∀ l ∈ lines, newline ∉ l)
    (left : r.left = lines.flatMap (· ++ [newline])) (inside : r.p + (r.ccount - 1) ≤ 1024)
    (enough : (lines.flatMap (· ++ [newline])).length < fuel) :
    ∃ marks, execute xflag vflag w piece fuel r 0 false = .ok marks ∧
      List.Forall₂ (Verdict xflag vflag (places kids) D) lines marks := by
  have root : (kids []).head? = some 0 := by
    obtain ⟨t, seen, trie, -, -⟩ := m.made
    exact trie.root
  induction lines generalizing r fuel with
  | nil =>
      obtain ⟨fuel, rfl⟩ : ∃ n, fuel = n + 1 := ⟨fuel - 1, by omega⟩
      rcases refill_spec inside with ⟨eq, -⟩ | ⟨r', -, here, some, -⟩
      · exact ⟨[], by rw [execute, eq], List.Forall₂.nil⟩
      · rw [left, Reader.here_eq some] at here
        cases here
  | cons l lines ih =>
      obtain ⟨plain_l, plain⟩ := List.forall_mem_cons.mp plain
      have split : (l :: lines).flatMap (· ++ [newline]) =
          l ++ newline :: lines.flatMap (· ++ [newline]) := by simp
      rw [split] at left enough
      have proper : ∀ t, t <+: ([] : List UInt8) → ¬Ends D t := by
        intro t before
        rw [List.prefix_nil.mp before]
        exact not_ends_nil m.proper
      have begun : false = true ↔ ([] : List UInt8) ∉ places kids := by simp [m.nil_mem]
      obtain ⟨mark, r', fuel', eq, left', inside', enough', verdict⟩ :=
        execute_line (s := []) m left plain_l
          inside (Or.inl root) begun proper
          (by rw [List.length_append, List.length_cons] at enough; omega)
      obtain ⟨marks, rest, verdicts⟩ := ih plain left' inside' enough'
      refine ⟨mark :: marks, ?_, List.Forall₂.cons verdict verdicts⟩
      rw [eq, rest]
      rfl

/-- The words that are marked are those that are entered. -/
theorem mem_marked_iff {k : List UInt8} :
    k ∈ marked xflag words last ↔ ∃ w ∈ entered words last, k = key xflag w := by
  unfold marked entered
  constructor
  · rintro ⟨w, rfl, mem | ⟨rfl, some, others⟩⟩
    · refine ⟨w, ?_, rfl⟩
      split
      · exact mem
      · exact List.mem_append_left _ mem
    · refine ⟨w, ?_, rfl⟩
      rw [if_neg]
      · exact List.mem_append_right _ (List.mem_singleton.mpr rfl)
      · rintro (empty | ⟨w', mem, before⟩)
        · exact some empty
        · exact others w' mem before
  · rintro ⟨w, mem, rfl⟩
    refine ⟨w, rfl, ?_⟩
    split at mem
    next => exact Or.inl mem
    next new =>
      rcases List.mem_append.mp mem with mem | mem
      · exact Or.inl mem
      · rw [List.mem_singleton.mp mem]
        exact Or.inr ⟨rfl, fun empty => new (Or.inl empty),
          fun w mem before => new (Or.inr ⟨w, mem, before⟩)⟩

/-- A word without newlines is in a line when it is in the line and its newline. -/
theorem infix_append_newline (plain : newline ∉ s) (some : s ≠ []) :
    s <:+: l ++ [newline] ↔ s <:+: l := by
  constructor
  · rintro ⟨front, back, eq⟩
    cases back using List.reverseRecOn with
    | nil =>
        have last := congrArg List.getLast? eq
        rw [List.append_nil, List.getLast?_append_of_ne_nil _ some, List.getLast?_concat] at last
        exact absurd (List.mem_of_getLast? last) plain
    | append_singleton back c =>
        rw [← List.append_assoc] at eq
        exact ⟨front, back, (List.append_inj' eq rfl).1⟩
  · exact List.infix_append_of_infix_left

/-- Without `-x`, the lines that a word is in count, and with `-v` the others. -/
theorem verdict_plain {P : Set (List UInt8)}
    (proper : ∀ w ∈ words, w ≠ [] ∧ newline ∉ w) (D_eq : ∀ k, k ∈ D ↔ k ∈ words)
    (verdict : Verdict false vflag P D l mark) : mark = wanted false vflag words l := by
  have ends_iff : (∃ t, t <+: l ++ [newline] ∧ Ends D t) ↔ ∃ w ∈ words, w <:+: l := by
    rw [← exists_infix_iff]
    constructor
    · rintro ⟨w, mem, inside⟩
      obtain ⟨some, free⟩ := proper w ((D_eq w).mp mem)
      exact ⟨w, (D_eq w).mp mem, (infix_append_newline free some).mp inside⟩
    · rintro ⟨w, mem, inside⟩
      exact ⟨w, (D_eq w).mpr mem, List.infix_append_of_infix_left inside⟩
  have any : (words.any fun w => decide (w <:+: l)) = decide (∃ w ∈ words, w <:+: l) := by
    rw [Bool.eq_iff_iff]
    simp
  unfold wanted
  simp only [Bool.false_eq_true, if_false]
  rw [any]
  rcases verdict with ⟨t, failed, before, ends, -, rfl⟩ | ⟨silent, rfl⟩
  · rw [decide_eq_true (ends_iff.mp ⟨t, before, ends⟩)]
    cases vflag <;> cases failed <;> rfl
  · rw [decide_eq_false fun found => by
      obtain ⟨t, before, ends⟩ := ends_iff.mpr found
      exact silent t before ends]
    exact (Bool.false_xor _).symm

/-- With `-x`, the lines that are a word count, and with `-v` the others. -/
theorem verdict_whole {P : Set (List UInt8)} (plain : newline ∉ l)
    (proper : ∀ w ∈ words, w ≠ [] ∧ newline ∉ w)
    (D_eq : ∀ k, k ∈ D ↔ ∃ w ∈ words, k = w ++ [newline]) (sub : D ⊆ P)
    (reached : ∀ v ∈ P, v = [] ∨ ∃ k ∈ D, v <+: k)
    (verdict : Verdict true vflag P D l mark) : mark = wanted true vflag words l := by
  have place_iff : l ++ [newline] ∈ P ↔ l ∈ words := by
    constructor
    · intro place
      rcases reached _ place with empty | ⟨k, mem, before⟩
      · simp at empty
      · obtain ⟨w, w_mem, rfl⟩ := (D_eq k).mp mem
        rcases List.prefix_concat_iff.mp before with same | before
        · rw [(List.append_inj' same rfl).1]
          exact w_mem
        · exact absurd (before.subset (List.mem_append_right l (List.mem_singleton.mpr rfl)))
            (proper w w_mem).2
    · exact fun mem => sub ((D_eq _).mpr ⟨l, mem, rfl⟩)
  have any : (words.any fun w => w == l) = decide (l ∈ words) := by
    rw [Bool.eq_iff_iff]
    simp
  unfold wanted
  simp only [if_true]
  rw [any]
  rcases verdict with ⟨t, failed, before, ⟨k, mem, ends⟩, failed_iff, rfl⟩ | ⟨silent, rfl⟩
  · obtain ⟨w, w_mem, rfl⟩ := (D_eq k).mp mem
    have there : newline ∈ t := ends.subset (List.mem_append_right w (List.mem_singleton.mpr rfl))
    have whole : t = l ++ [newline] := by
      rcases List.prefix_concat_iff.mp before with same | before
      · exact same
      · exact absurd (before.subset there) plain
    rw [whole, place_iff] at failed_iff
    cases failed with
    | true =>
        rw [decide_eq_false (failed_iff.mp rfl)]
        cases vflag <;> rfl
    | false =>
        have mem : l ∈ words := by
          by_contra other
          exact Bool.false_ne_true (failed_iff.mpr other)
        rw [decide_eq_true mem]
        cases vflag <;> rfl
  · have other : l ∉ words := fun mem =>
      silent (l ++ [newline]) (List.prefix_refl _)
        ⟨_, (D_eq _).mpr ⟨l, mem, rfl⟩, List.suffix_rfl⟩
    rw [decide_eq_false other]
    exact (Bool.false_xor _).symm

/-- The words of a list that is given, none of them empty or with a NUL or a newline. -/
def Proper (words : List (List UInt8)) (last : List UInt8) : Prop :=
  ∀ w ∈ given words last, w ≠ [] ∧ ∀ d ∈ w, d ≠ 0 ∧ d ≠ newline

/-- The lines that count are those that the words entered ask for. -/
theorem fgrep_lines (proper : Proper words last)
    (fits : machine xflag (words.flatMap (· ++ [newline]) ++ last) ≠ .error .overflo)
    (plain : ∀ l ∈ lines, newline ∉ l) :
    fgrep xflag vflag (words.flatMap (· ++ [newline]) ++ last) piece
        (lines.flatMap (· ++ [newline])) =
      .ok (lines.map (wanted xflag vflag (entered words last))) := by
  have proper_words : ∀ w ∈ words, w ≠ [] ∧ ∀ d ∈ w, d ≠ 0 ∧ d ≠ newline := by
    intro w mem
    apply proper w
    unfold given
    split
    · exact mem
    · exact List.mem_append_left _ mem
  have proper_last : ∀ d ∈ last, d ≠ 0 ∧ d ≠ newline := by
    intro d mem
    have some : last ≠ [] := List.ne_nil_of_mem mem
    apply (proper last _).2 d mem
    rw [given, if_neg some]
    exact List.mem_append_right _ (List.mem_singleton.mpr rfl)
  have proper_entered : ∀ w ∈ entered words last, w ≠ [] ∧ newline ∉ w := by
    intro w mem
    unfold entered at mem
    split at mem
    next => exact ⟨(proper_words w mem).1, fun there => ((proper_words w mem).2 _ there).2 rfl⟩
    next new =>
      rcases List.mem_append.mp mem with mem | mem
      · exact ⟨(proper_words w mem).1, fun there => ((proper_words w mem).2 _ there).2 rfl⟩
      · rw [List.mem_singleton.mp mem]
        exact ⟨fun empty => new (Or.inl empty), fun there => (proper_last _ there).2 rfl⟩
  have nil_new : [] ∉ marked xflag words last := by
    intro mem
    obtain ⟨w, w_mem, eq⟩ := mem_marked_iff.mp mem
    unfold key at eq
    split at eq
    · simp at eq
    · exact (proper_entered w w_mem).1 eq.symm
  have made : Gives (machine xflag (words.flatMap (· ++ [newline]) ++ last)) fun w =>
      ∃ kids, Machine kids (marked xflag words last) w ∧
        Reached kids (marked xflag words last) [] := by
    apply (cgotofn_gives (fun w mem => (proper_words w mem).2) proper_last).bind
    rintro t ⟨kids, trie, reached⟩
    apply (cfail_gives trie nil_new).mono
    rintro w ⟨seen, progress, all⟩
    exact ⟨kids, ⟨⟨t, seen, trie, progress, all⟩, nil_new⟩, reached⟩
  unfold fgrep
  cases table : machine xflag (words.flatMap (· ++ [newline]) ++ last) with
  | error e =>
      rw [table] at made fits
      have made : e = .overflo := made
      rw [made] at fits
      exact absurd rfl fits
  | ok w =>
      rw [table] at made
      obtain ⟨kids, m, reached⟩ := made
      obtain ⟨marks, eq, verdicts⟩ := execute_lines xflag vflag
        (r := ⟨fun _ => 0, 0, 0, lines.flatMap (· ++ [newline]), 0⟩) m plain rfl
        (by dsimp only; omega) (Nat.lt_succ_self _)
      have each : marks = lines.map (wanted xflag vflag (entered words last)) := by
        clear eq
        induction verdicts with
        | nil => rfl
        | cons verdict rest ih =>
            obtain ⟨plain_l, plain⟩ := List.forall_mem_cons.mp plain
            rw [List.map_cons, ← ih plain]
            congr 1
            cases xflag with
            | false =>
                exact verdict_plain proper_entered (by simp [mem_marked_iff, key]) verdict
            | true =>
                apply verdict_whole plain_l proper_entered (by simp [mem_marked_iff, key]) m.subset
                  _ verdict
                intro v place
                rcases reached v place with empty | known | before
                · exact Or.inl empty
                · exact Or.inr known
                · exact Or.inl (List.prefix_nil.mp before)
      rw [← each]
      exact eq

/-- The last word is entered, or the others make up for it. -/
def Kept (xflag : Bool) (words : List (List UInt8)) (last : List UInt8) : Prop :=
  last = [] ∨ (∀ w ∈ words, ¬last <+: w) ∨
    ∃ w ∈ words, if xflag then w = last else w <:+: last

theorem wanted_entered (kept : Kept xflag words last) :
    wanted xflag vflag (entered words last) l = wanted xflag vflag (given words last) l := by
  unfold entered given
  cases Classical.em (last = []) with
  | inl empty => rw [if_pos (Or.inl empty), if_pos empty]
  | inr some =>
      rw [if_neg some]
      split
      next absorbed =>
        obtain ⟨w', mem', before⟩ := absorbed.resolve_left some
        have other := (kept.resolve_left some).resolve_left fun none => none w' mem' before
        obtain ⟨w, mem, covers⟩ := other
        unfold wanted
        congr 1
        rw [List.any_append, List.any_cons, List.any_nil, Bool.or_false, eq_comm,
          Bool.or_eq_left_iff_imp]
        intro here
        rw [List.any_eq_true]
        refine ⟨w, mem, ?_⟩
        cases xflag with
        | true =>
            rw [if_pos rfl] at here covers ⊢
            rw [covers]
            exact here
        | false =>
            have covers : w <:+: last := covers
            exact decide_eq_true (covers.trans (of_decide_eq_true here))
      next => rfl

/-- `fgrep` counts the lines that the list asks for, in every file however it is read, exactly when
the last word of the list has a newline, begins no other word, or is covered by another. -/
theorem fgrep_exact_iff (proper : Proper words last)
    (fits : machine xflag (words.flatMap (· ++ [newline]) ++ last) ≠ .error .overflo) :
    (∀ (piece : ℕ → ℕ) (lines : List (List UInt8)), (∀ l ∈ lines, newline ∉ l) →
      fgrep xflag vflag (words.flatMap (· ++ [newline]) ++ last) piece
          (lines.flatMap (· ++ [newline])) =
        .ok (lines.map (wanted xflag vflag (given words last)))) ↔
      Kept xflag words last := by
  constructor
  · intro exact_
    by_contra lost
    obtain ⟨some, lost⟩ := not_or.mp lost
    obtain ⟨absorbed, alone⟩ := not_or.mp lost
    simp only [not_forall, not_not, exists_prop] at absorbed
    have free : newline ∉ last := by
      intro there
      have mem : last ∈ given words last := by
        rw [given, if_neg some]
        exact List.mem_append_right _ (List.mem_singleton.mpr rfl)
      exact ((proper last mem).2 _ there).2 rfl
    have plain : ∀ l ∈ [last], newline ∉ l := by
      intro l mem
      rw [List.mem_singleton.mp mem]
      exact free
    have same := (exact_ (fun _ => 0) [last] plain).symm.trans (fgrep_lines proper fits plain)
    have same := (List.cons_eq_cons.mp (Except.ok.inj same)).1
    rw [given, if_neg some, entered, if_pos (Or.inr absorbed)] at same
    have none : (words.any fun w => if xflag then w == last else decide (w <:+: last)) = false := by
      rw [List.any_eq_false]
      intro w mem here
      apply alone
      refine ⟨w, mem, ?_⟩
      cases xflag with
      | true => exact eq_of_beq here
      | false => exact of_decide_eq_true here
    unfold wanted at same
    rw [List.any_append, none, List.any_cons] at same
    cases xflag <;> cases vflag <;> simp at same
  · intro kept piece lines plain
    rw [fgrep_lines proper fits plain]
    congr 1
    apply List.map_congr_left
    intro l _
    exact wanted_entered kept

/-- The list `ab`, `abc` with a newline at its end is kept. -/
theorem fgrep_exact_ab :
    (∀ (piece : ℕ → ℕ) (lines : List (List UInt8)), (∀ l ∈ lines, newline ∉ l) →
      fgrep false false ([[97, 98], [97, 98, 99]].flatMap (· ++ [newline]) ++ []) piece
          (lines.flatMap (· ++ [newline])) =
        .ok (lines.map (wanted false false (given [[97, 98], [97, 98, 99]] [])))) ↔
      Kept false [[97, 98], [97, 98, 99]] [] := by
  apply fgrep_exact_iff
  · simp [Proper, given, newline]
  · intro overflow
    have made : (machine false ([[97, 98], [97, 98, 99]].flatMap (· ++ [newline]) ++ [])).isOk =
        true :=
      rfl
    rw [overflow] at made
    cases made

/-- The last word of the list `abc`, `ab` is not found in the line that it is. -/
theorem fgrep_misses :
    fgrep false false [97, 98, 99, 10, 97, 98] (fun _ => 512) [97, 98, 10] = .ok [false] ∧
      wanted false false [[97, 98, 99], [97, 98]] [97, 98] = true := by
  constructor
  · rfl
  · decide

end

end Fgrep

end UnixV7
