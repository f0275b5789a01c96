import UnixV7.Cmd.Ed.Buffers
import Mathlib.Data.List.TakeWhile

/-!
# Lines are kept

A line that `putline` has put in the file stays there and `getline` returns it, as long as every
later `putline` starts in a block that one of the buffers has, or that `obuff` is right for. An
abandoned `putline` may leave `obuff` with the block behind the end of the text: the next one then
takes `obuff` for the block at the end, which has been written to the file and is not read.
-/

namespace UnixV7.Ed

variable {ed : Temp} {K : ℕ → UInt8 → Prop} {place : Place} {n nl pos q tl atl : ℕ} {c d : UInt8}
  {lp line : List UInt8} {w : World}

/-- The characters of a line and the NUL behind it, from `pos` on. -/
def Along : List UInt8 → ℕ → ℕ → UInt8 → Prop
  | [], pos, q, d => q = pos ∧ d = 0
  | c :: line, pos, q, d => (q = pos ∧ d = c) ∨ Along line (pos + 1) q d

theorem Along.bounds (along : Along line pos q d) : pos ≤ q ∧ q ≤ pos + line.length := by
  induction line generalizing pos with
  | nil => exact ⟨Nat.le_of_eq along.1.symm, Nat.le_of_eq along.1⟩
  | cons c line ih =>
      rw [List.length_cons]
      rcases along with ⟨rfl, -⟩ | later
      · omega
      · have := ih later
        omega

/-- The characters of `linebuf` that `putline` takes. -/
abbrev upto (lp : List UInt8) : List UInt8 := lp.takeWhile (· ≠ newline)

/-- A byte is stored behind those that matter. -/
theorem store_spec (c : UInt8) (before : ∀ q d, K q d → q < pos) :
    Task.Spec (fun ed => Sound K tl ed ∧ Points place pos ed ∧ Writable place ed)
      (Task.step fun ed => ed.store c place)
      (fun _ ed => Sound (Put K pos c) tl ed ∧ Points place pos ed ∧ Writable place ed)
      (Sound K tl) := by
  apply Task.Spec.step
  · exact fun ed ⟨sound, points, writable⟩ =>
      ⟨sound.store points writable fun d mem => Nat.lt_irrefl _ (before pos d mem),
        points.store, writable.store⟩
  · exact fun ed ⟨sound, _⟩ => sound

/-- The line is put in the file behind the bytes that matter. -/
theorem putloop_spec (lp : List UInt8) {tl' : ℕ} (left : nl = 512 - pos % 512)
    (block : tl' = 256 * (pos / 512)) (before : ∀ q d, K q d → q < pos) :
    Task.Spec (fun ed => Sound K tl ed ∧ Points place pos ed ∧ Writable place ed)
      (putloop lp place nl tl')
      (fun taken ed => taken = (upto lp).length + 1 ∧
        Sound (fun q d => K q d ∨ Along (upto lp) pos q d) tl ed) (Sound K tl) := by
  induction lp generalizing K place pos nl tl' with
  | nil =>
      apply Task.Spec.bind (store_spec 0 before)
      intro _
      apply Task.Spec.pure
      exact fun ed ⟨sound, _⟩ => ⟨rfl, sound⟩
  | cons c lp ih =>
      rw [putloop]
      apply Task.Spec.bind (store_spec c before)
      intro _
      apply Task.Spec.ite
      · rintro rfl
        have none : upto (newline :: lp) = [] := List.takeWhile_cons_of_neg (by simp)
        apply Task.Spec.bind ((store_spec 0 before).strengthen _)
        · intro _
          apply Task.Spec.pure
          rintro ed ⟨sound, -⟩
          rw [none]
          exact ⟨rfl, sound⟩
        · exact fun ed ⟨sound, writes⟩ => ⟨sound.mono fun q d => Or.inl, writes⟩
      intro inner
      have first : upto (c :: lp) = c :: upto lp :=
        List.takeWhile_cons_of_pos (by simpa using inner)
      have before' : ∀ q d, Put K pos c q d → q < pos + 1 := by
        rintro q d (old | ⟨rfl, -⟩)
        · exact Nat.lt_succ_of_lt (before q d old)
        · exact Nat.lt_succ_self _
      have whole : ∀ taken ed, taken = (upto lp).length + 1 ∧
          Sound (fun q d => Put K pos c q d ∨ Along (upto lp) (pos + 1) q d) tl ed →
          taken + 1 = (upto (c :: lp)).length + 1 ∧
            Sound (fun q d => K q d ∨ Along (upto (c :: lp)) pos q d) tl ed := by
        rintro taken ed ⟨rfl, sound⟩
        rw [first]
        refine ⟨rfl, sound.mono ?_⟩
        rintro q d (old | here | later)
        · exact .inl (.inl old)
        · exact .inl (.inr here)
        · exact .inr later
      apply Task.Spec.ite
      · -- The line goes on in the next block, which has no byte that matters.
        intro last
        have next : position (tl' + 256) = pos + 1 := by
          unfold position blockOf offsetOf
          omega
        have free : ∀ ed, Fits (Put K pos c) (blockOf (tl' + 256)) ed := by
          intro ed q d mem here
          have := before' q d mem
          unfold blockOf at here
          omega
        apply Task.Spec.bind (((getblock_write (tl' + 256)).strengthen _).consequence
          (fun _ => id) (fun _ _ => id) fun ed (sound : Sound (Put K pos c) tl ed) =>
            sound.mono fun q d => Or.inl)
        · intro bp
          apply Task.Spec.look
          intro ed
          apply Task.Spec.assume (ed.nleft = 512 - offsetOf (tl' + 256))
          · rintro _ ⟨rfl, -, -, -, left'⟩
            exact left'
          intro left'
          apply Task.Spec.bind (Q := fun taken ed => taken = (upto lp).length + 1 ∧
            Sound (fun q d => Put K pos c q d ∨ Along (upto lp) (pos + 1) q d) tl ed)
          · apply (ih _ _ before').consequence
            · rintro _ ⟨rfl, sound, points, writable, -⟩
              rw [next] at points
              exact ⟨sound, points, writable⟩
            · exact fun _ _ => id
            · exact fun ed sound => sound.mono fun q d => Or.inl
            · rw [left', ← next, position_mod]
            · unfold position blockOf offsetOf at next
              omega
          · exact fun taken => Task.Spec.pure _ (whole taken)
        · exact fun ed ⟨sound, _⟩ => ⟨sound, .inr (.inr (free ed))⟩
      · intro more
        apply Task.Spec.bind (Q := fun taken ed => taken = (upto lp).length + 1 ∧
          Sound (fun q d => Put K pos c q d ∨ Along (upto lp) (pos + 1) q d) tl ed)
        · apply (ih _ _ before').consequence
          · rintro ed ⟨sound, points, writable⟩
            exact ⟨sound, points.next (by omega), writable.next⟩
          · exact fun _ _ => id
          · exact fun ed sound => sound.mono fun q d => Or.inl
          · omega
          · omega
        · exact fun taken => Task.Spec.pure _ (whole taken)

/-- `putline` may start where the block is in a buffer, or `obuff` is right for it. -/
theorem putline_spec (linebuf : List UInt8) (even : tl % 2 = 0)
    (before : ∀ q d, K q d → q < 2 * tl) :
    Task.Spec
      (fun ed => Sound K tl ed ∧ (ed.iblock = some (blockOf tl) ∨ ed.oblock = some (blockOf tl) ∨
        Fits K (blockOf tl) ed))
      (putline linebuf)
      (fun addr ed => addr = tl ∧ Sound (fun q d => K q d ∨ Along (upto linebuf) (2 * tl) q d)
        (tl + ((upto linebuf).length + 4) / 2 / 2 * 2) ed) (Sound K tl) := by
  unfold putline
  apply Task.Spec.look
  intro ed₀
  apply Task.Spec.assume (ed₀.tline = tl)
  · rintro _ ⟨rfl, sound, -⟩
    exact sound.tline
  intro tline
  rw [tline]
  apply Task.Spec.bind ((getblock_write tl).strengthen fun _ => And.right)
  intro bp
  apply Task.Spec.look
  intro ed
  apply Task.Spec.assume (ed.nleft = 512 - offsetOf tl)
  · rintro _ ⟨rfl, -, -, -, left⟩
    exact left
  intro left
  rw [position_even even]
  apply Task.Spec.bind (Q := fun taken ed => taken = (upto linebuf).length + 1 ∧
    Sound (fun q d => K q d ∨ Along (upto linebuf) (2 * tl) q d) tl ed)
  · apply (putloop_spec linebuf _ _ before).strengthen
    · exact fun _ ⟨_, sound, points, writable, _⟩ => ⟨sound, points, writable⟩
    · rw [left, ← position_even even, position_mod]
    · omega
  intro taken
  apply Task.Spec.bind (Q := fun _ ed =>
    Sound (fun q d => K q d ∨ Along (upto linebuf) (2 * tl) q d)
      (tl + ((upto linebuf).length + 4) / 2 / 2 * 2) ed)
  · apply Task.Spec.step
    · rintro ed ⟨rfl, sound⟩
      exact { sound with tline := by rw [sound.tline] }
    · exact fun ed ⟨_, sound⟩ => sound.mono fun q d => Or.inl
  · exact fun _ => Task.Spec.pure _ fun ed sound => ⟨rfl, sound⟩

/-! ## Getting a line -/

theorem Points.char (points : Points place pos ed) (sound : Sound K tl ed) (mem : K pos c) :
    ed.char place = c := by
  cases place with
  | ibuff off =>
      obtain ⟨held, rfl⟩ := points
      rcases sound.cases mem with ⟨-, eq⟩ | ⟨other, -⟩
      · exact eq
      · exact absurd held other
  | obuff off =>
      obtain ⟨held, rfl⟩ := points
      rcases sound.cases mem with ⟨here, -⟩ | ⟨-, ⟨-, eq⟩ | ⟨other, -⟩⟩
      · exact absurd held (sound.apart _ here)
      · exact eq
      · exact absurd held other

/-- The characters are read up to the NUL. -/
theorem getloop_spec {tl' : ℕ} (short : line.length < n) (proper : ∀ c ∈ line, c ≠ 0)
    (left : nl = 512 - pos % 512) (block : tl' = 256 * (pos / 512))
    (along : ∀ q d, Along line pos q d → K q d) :
    Task.Spec (fun ed => Sound K tl ed ∧ Points place pos ed) (getloop n place nl tl')
      (fun chars ed => chars = line ∧ Sound K tl ed) fun _ => True := by
  induction line generalizing n place pos nl tl' with
  | nil =>
      obtain ⟨n, rfl⟩ : ∃ k, n = k + 1 := ⟨n - 1, by simp at short; omega⟩
      rw [getloop]
      apply Task.Spec.look
      intro ed
      apply Task.Spec.assume (ed.char place = 0)
      · rintro _ ⟨rfl, sound, points⟩
        exact points.char sound (along pos 0 ⟨rfl, rfl⟩)
      intro stop
      rw [if_pos stop]
      apply Task.Spec.pure
      exact fun _ ⟨_, sound, _⟩ => ⟨rfl, sound⟩
  | cons c line ih =>
      obtain ⟨n, rfl⟩ : ∃ k, n = k + 1 := ⟨n - 1, by simp at short; omega⟩
      rw [List.length_cons] at short
      obtain ⟨some, proper'⟩ := List.forall_mem_cons.mp proper
      have later : ∀ q d, Along line (pos + 1) q d → K q d := fun q d mem => along q d (.inr mem)
      rw [getloop]
      apply Task.Spec.look
      intro ed
      apply Task.Spec.assume (ed.char place = c)
      · rintro _ ⟨rfl, sound, points⟩
        exact points.char sound (along pos c (.inl ⟨rfl, rfl⟩))
      rintro rfl
      rw [if_neg some]
      apply Task.Spec.ite
      · intro last
        have next : position (tl' + 256) = pos + 1 := by
          unfold position blockOf offsetOf
          omega
        obtain ⟨d, mem⟩ : ∃ d, K (pos + 1) d := by
          cases line with
          | nil => exact ⟨0, later _ _ ⟨rfl, rfl⟩⟩
          | cons d line => exact ⟨d, later _ _ (.inl ⟨rfl, rfl⟩)⟩
        have here : (pos + 1) / 512 = blockOf (tl' + 256) := by rw [← next, position_div]
        apply Task.Spec.bind ((getblock_read _ mem here).strengthen fun _ ⟨_, sound, _⟩ => sound)
        intro bp
        apply Task.Spec.look
        intro ed'
        apply Task.Spec.assume (ed'.nleft = 512 - offsetOf (tl' + 256))
        · rintro _ ⟨rfl, -, -, left'⟩
          exact left'
        intro left'
        apply Task.Spec.bind (Q := fun chars ed => chars = line ∧ Sound K tl ed)
        · apply (ih (by omega) proper' _ _ later).strengthen
          · rintro _ ⟨rfl, sound, points, -⟩
            rw [next] at points
            exact ⟨sound, points⟩
          · rw [left', ← next, position_mod]
          · unfold position blockOf offsetOf at next
            omega
        · exact fun chars => Task.Spec.pure _ fun _ ⟨same, sound⟩ => ⟨congrArg _ same, sound⟩
      · intro more
        apply Task.Spec.bind (Q := fun chars ed => chars = line ∧ Sound K tl ed)
        · apply (ih (by omega) proper' _ _ later).strengthen
          · exact fun _ ⟨_, sound, points⟩ => ⟨sound, points.next (by omega)⟩
          · omega
          · omega
        · exact fun chars => Task.Spec.pure _ fun _ ⟨same, sound⟩ => ⟨congrArg _ same, sound⟩

theorem getline_spec (even : atl % 2 = 0) (short : line.length < LBSIZE)
    (proper : ∀ c ∈ line, c ≠ 0) (along : ∀ q d, Along line (2 * atl) q d → K q d) :
    Task.Spec (Sound K tl) (getline atl) (fun chars ed => chars = line ∧ Sound K tl ed)
      fun _ => True := by
  unfold getline
  obtain ⟨d, mem⟩ : ∃ d, K (2 * atl) d := by
    cases line with
    | nil => exact ⟨0, along _ _ ⟨rfl, rfl⟩⟩
    | cons d line => exact ⟨d, along _ _ (.inl ⟨rfl, rfl⟩)⟩
  have here : 2 * atl / 512 = blockOf atl := by rw [← position_even even, position_div]
  apply Task.Spec.bind (getblock_read atl mem here)
  intro bp
  apply Task.Spec.look
  intro ed
  apply Task.Spec.assume (ed.nleft = 512 - offsetOf atl)
  · rintro _ ⟨rfl, -, -, left⟩
    exact left
  intro left
  rw [position_even even]
  apply (getloop_spec short proper _ _ along).strengthen
  · exact fun _ ⟨_, sound, points, _⟩ => ⟨sound, points⟩
  · rw [left, ← position_even even, position_mod]
  · omega

/-! ## Runs -/

namespace World

/-- The bytes of the lines that were put in the file. -/
def Contents (w : World) (q : ℕ) (d : UInt8) : Prop :=
  ∃ tl line, (tl, line) ∈ w.stored ∧ Along line (2 * tl) q d

/-- `putline` may start: the block that `tline` lies in is in a buffer, or `obuff` has all bytes of
the lines that were put in the file which lie in that block. -/
def Clear (w : World) : Prop :=
  w.ed.iblock = some (blockOf w.ed.tline) ∨ w.ed.oblock = some (blockOf w.ed.tline) ∨
    Fits w.Contents (blockOf w.ed.tline) w.ed

/-- A line is read at an address that was returned for it, and put where `putline` may start. -/
def May (w : World) : Event → Prop
  | .putline _ _ => w.Clear
  | .getline tl => ∃ line, (tl, line) ∈ w.stored

/-- The invariant of the runs. -/
structure Kept (w : World) : Prop where
  sound : Ed.Sound w.Contents w.ed.tline w.ed
  even : w.ed.tline % 2 = 0
  before : ∀ q d, w.Contents q d → q < 2 * w.ed.tline
  lines : ∀ tl line, (tl, line) ∈ w.stored →
    tl % 2 = 0 ∧ line.length < LBSIZE ∧ ∀ c ∈ line, c ≠ 0

end World

/-- The worlds that are reached when every step may be made; when the file is encrypted, by tables
that undo what they have done. -/
inductive Run : World → Prop
  | init (ibuff obuff : Buffer) (nleft : ℕ) (tperm : Option Perm) :
      (∀ t, tperm = some t → t.Undoes) → Run (Ed.init ibuff obuff nleft tperm)
  | step {w : World} (e : Event) : Run w → w.May e → Run (w.step e)

theorem World.Kept.step (kept : w.Kept) {e : Event} (may : w.May e) : (w.step e).Kept := by
  cases e with
  | putline linebuf ticks =>
      have done := putline_spec linebuf.chars kept.even kept.before ⟨w.ed, ticks⟩
        ⟨kept.sound, may⟩
      rw [World.step]
      rcases eq : Ed.putline linebuf.chars ⟨w.ed, ticks⟩ with ⟨_ | addr, after⟩
      · simp only [eq] at done ⊢
        have same := done.1.tline
        exact ⟨same.symm ▸ done.1, same.symm ▸ kept.even, same.symm ▸ kept.before, kept.lines⟩
      · simp only [eq] at done ⊢
        obtain ⟨⟨rfl, sound⟩, -⟩ := done
        have tline := sound.tline
        refine ⟨?_, ?_, ?_, ?_⟩
        · rw [tline]
          apply sound.mono
          rintro q d ⟨tl, line, mem, along⟩
          rcases List.mem_cons.mp mem with new | old
          · obtain ⟨rfl, rfl⟩ := Prod.mk.inj new
            exact .inr along
          · exact .inl ⟨tl, line, old, along⟩
        · rw [tline]
          have := kept.even
          omega
        · rw [tline]
          rintro q d ⟨tl, line, mem, along⟩
          rcases List.mem_cons.mp mem with new | old
          · obtain ⟨rfl, rfl⟩ := Prod.mk.inj new
            have bounds : _ ∧ q ≤ 2 * w.ed.tline + (upto linebuf.chars).length := along.bounds
            omega
          · have := kept.before q d ⟨tl, line, old, along⟩
            omega
        · intro tl line mem
          rcases List.mem_cons.mp mem with new | old
          · obtain ⟨rfl, rfl⟩ := Prod.mk.inj new
            refine ⟨kept.even, ?_, fun c inside => ?_⟩
            · exact Nat.lt_of_le_of_lt (List.takeWhile_sublist _).length_le linebuf.short
            · exact linebuf.proper c ((List.takeWhile_sublist _).subset inside)
          · exact kept.lines tl line old
  | getline tl =>
      obtain ⟨line, mem⟩ := may
      obtain ⟨even, short, proper⟩ := kept.lines tl line mem
      have along : ∀ q d, Along line (2 * tl) q d → w.Contents q d :=
        fun q d here => ⟨tl, line, mem, here⟩
      obtain ⟨chars, ed, eq, -, sound⟩ :=
        (getline_spec even short proper along).returns kept.sound
      rw [World.step, eq]
      have same := sound.tline
      exact ⟨same.symm ▸ sound, same.symm ▸ kept.even, same.symm ▸ kept.before, kept.lines⟩

theorem Run.kept (run : Run w) : w.Kept := by
  induction run with
  | init ibuff obuff nleft tperm undoes =>
      have none : ∀ q d, ¬(Ed.init ibuff obuff nleft tperm).Contents q d := by
        rintro q d ⟨tl, line, mem, -⟩
        cases mem
      refine ⟨⟨undoes, rfl, ?_, ?_, ?_, ?_⟩, Nat.mod_self 2, ?_, ?_⟩
      · exact fun b held => by cases held
      · exact fun _ b held => by cases held
      · exact fun changed => by cases changed
      · exact fun q d mem => absurd mem (none q d)
      · exact fun q d mem => absurd mem (none q d)
      · exact fun tl line mem => by cases mem
  | step e _ may kept => exact kept.step may

/-- Every line that was put in the file is read back, whatever was put and read since and however
often a `putline` was abandoned. -/
theorem getline_stored (run : Run w) {tl : ℕ} {line : List UInt8} (mem : (tl, line) ∈ w.stored) :
    ∃ ed, getline tl ⟨w.ed, none⟩ = (some line, ⟨ed, none⟩) := by
  obtain ⟨even, short, proper⟩ := run.kept.lines tl line mem
  obtain ⟨chars, ed, eq, rfl, -⟩ := (getline_spec even short proper
    fun q d here => ⟨tl, line, mem, here⟩).returns run.kept.sound
  exact ⟨ed, eq⟩

/-- The line `ab`. -/
def ab : Linebuf := ⟨[97, 98], by simp, by simp [LBSIZE]⟩

/-- A line of `n` times the same letter. -/
def many (c : UInt8) (n : ℕ) (proper : c ≠ 0) (short : n < LBSIZE) : Linebuf where
  chars := List.replicate n c
  proper d mem := by rwa [List.eq_of_mem_replicate mem]
  short := by rwa [List.length_replicate]

/-- An abandoned `putline` in the same block does no harm. -/
theorem getline_stored_ab :
    ∃ ed, getline 2
      ⟨(((init (fun _ => 0) (fun _ => 0) 0 none).step (.putline ab none)).step
        (.putline ab (some 3))).ed, none⟩ = (some [97, 98], ⟨ed, none⟩) := by
  have start : Run (init (fun _ => 0) (fun _ => 0) 0 none) :=
    .init _ _ _ _ fun t some => by cases some
  have first := start.step (.putline ab none) (.inr (.inr fun q d ⟨_, _, mem, _⟩ => by cases mem))
  have second := first.step (.putline ab (some 3)) (.inr (.inl (by decide)))
  exact getline_stored second (by decide)

/-- The line `ab` is put at the start of the first block, and another one fills the block up to
its last four bytes. The next `putline` is abandoned when it has put some of its characters in the
next block; the one after it starts in the first block again, which `obuff` has no longer, and
`ab` has become `xxx`. -/
theorem abandoned_putline_loses :
    let w := [.putline ab none, .putline (many 99 499 (by decide) (by simp [LBSIZE])) none,
        .putline (many 120 12 (by decide) (by simp [LBSIZE])) (some 526), .putline ab none].foldl
      World.step (init (fun _ => 0) (fun _ => 0) 0 none)
    (2, [97, 98]) ∈ w.stored ∧ (getline 2 ⟨w.ed, none⟩).1 = some [120, 120, 120] := by
  decide +kernel

end UnixV7.Ed
