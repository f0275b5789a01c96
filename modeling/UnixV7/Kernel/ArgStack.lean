import Mathlib.Algebra.Group.Nat.Defs
import UnixV7.Kernel.ArgLists

/-!
# The stack that a program begins with

The loops of `exece` that write the words and the strings at the top of the new memory. Each part
of the loop writes the next words and the next bytes, once each, and leaves all others alone.
-/

namespace UnixV7.Exec

open Fuel Ureg Space

variable {m m' m'' : User} {region region' : ℕ → Prop} {a u v lo n : ℕ} {s : List UInt8}
  {l : List (List UInt8)}

/-! ## What is written -/

/-- Every byte of a region has been written once, and no other. -/
structure Written (m m' : User) (region : ℕ → Prop) : Prop where
  readable : m'.readable = m.readable
  writable : m'.writable = m.writable
  other : ∀ a, ¬region a → m'.byte a = m.byte a ∧ m'.times a = m.times a
  once : ∀ a, region a → m'.times a = m.times a + 1

/-- The addresses from `a` up to `b`. -/
def Between (a b x : ℕ) : Prop := a ≤ x ∧ x < b

/-- The addresses from `lo` on can be read and written. -/
def Open (m : User) (lo : ℕ) : Prop :=
  ∀ a, lo ≤ a → a < USRSIZE → m.readable a = true ∧ m.writable a = true

theorem Written.trans (first : Written m m' region) (second : Written m' m'' region')
    (apart : ∀ a, region a → ¬region' a) : Written m m'' fun a => region a ∨ region' a where
  readable := second.readable.trans first.readable
  writable := second.writable.trans first.writable
  other a outside := by
    obtain ⟨byte, times⟩ := first.other a fun inside => outside (.inl inside)
    obtain ⟨byte', times'⟩ := second.other a fun inside => outside (.inr inside)
    exact ⟨byte'.trans byte, times'.trans times⟩
  once a inside := by
    rcases inside with inside | inside
    · rw [(second.other a (apart a inside)).2, first.once a inside]
    · have outside : ¬region a := fun also => apart a also inside
      rw [second.once a inside, (first.other a outside).2]

theorem Written.congr (written : Written m m' region) (same : ∀ a, region a ↔ region' a) :
    Written m m' region' where
  readable := written.readable
  writable := written.writable
  other a outside := written.other a fun inside => outside ((same a).mp inside)
  once a inside := written.once a ((same a).mpr inside)

theorem Written.isOpen (written : Written m m' region) (opened : Open m lo) : Open m' lo := by
  intro a above below
  rw [written.readable, written.writable]
  exact opened a above below

theorem store_written (source : ℕ → UInt8) (writable : ∀ i < n, m.writable (a + i) = true) :
    Written m (m.store a n source) (Between a (a + n)) := by
  rw [User.store, if_pos writable]
  refine ⟨rfl, rfl, fun x outside => ?_, fun x inside => ?_⟩
  · exact ⟨if_neg outside, congrArg (m.times x + ·) (if_neg outside)⟩
  · exact congrArg (m.times x + ·) (if_pos inside)

theorem byte_store (source : ℕ → UInt8) (writable : ∀ i < n, m.writable (a + i) = true) {i : ℕ}
    (inside : i < n) : (m.store a n source).byte (a + i) = source i := by
  rw [User.store, if_pos writable]
  have within : a ≤ a + i ∧ a + i < a + n := by omega
  exact (if_pos within).trans (by rw [Nat.add_sub_cancel_left])

theorem Open.writable (opened : Open m lo) (above : lo ≤ a) (below : a + n ≤ USRSIZE) :
    ∀ i < n, m.writable (a + i) = true :=
  fun i inside => (opened (a + i) (by omega) (by omega)).2

theorem subyte_spec (opened : Open m lo) (above : lo ≤ a) (below : a < USRSIZE) (c : UInt8) :
    Written m (m.subyte a c) (Between a (a + 1)) ∧ (m.subyte a c).fubyte a = c.toNat := by
  have writable := opened.writable (n := 1) above below
  have written := store_written (fun _ => c) writable
  refine ⟨written, ?_⟩
  have readable := written.isOpen opened a above below
  rw [User.subyte, User.fubyte, if_pos readable.1]
  have stored := byte_store (fun _ => c) writable (i := 0) (by omega)
  rw [Nat.add_zero] at stored
  rw [stored]

theorem suword_spec (opened : Open m lo) (above : lo ≤ a) (below : a + 4 ≤ USRSIZE)
    (small : v < 2 ^ 32) :
    Written m (m.suword a v) (Between a (a + 4)) ∧ (m.suword a v).fuword a = v := by
  have writable := opened.writable above below
  have written := store_written (fun i => UInt8.ofNat (v / 256 ^ i)) writable
  refine ⟨written, ?_⟩
  have readable (i : ℕ) (inside : i < 4) : (m.suword a v).readable (a + i) = true :=
    (written.isOpen opened (a + i) (by omega) (by omega)).1
  have byte (i : ℕ) (inside : i < 4) :
      (m.suword a v).byte (a + i) = UInt8.ofNat (v / 256 ^ i) :=
    byte_store _ writable inside
  have first := byte 0 (by omega)
  have zero := readable 0 (by omega)
  rw [Nat.add_zero] at first zero
  rw [User.fuword, if_pos ⟨zero, readable 1 (by omega), readable 2 (by omega),
    readable 3 (by omega)⟩, first, byte 1 (by omega), byte 2 (by omega), byte 3 (by omega)]
  simp only [UInt8.toNat_ofNat']
  omega

/-! ## What is left alone -/

theorem Written.fubyte (written : Written m m' region) (outside : ¬region a) :
    m'.fubyte a = m.fubyte a := by
  rw [User.fubyte, User.fubyte, written.readable, (written.other a outside).1]

theorem Written.fuword (written : Written m m' region)
    (outside : ∀ x, Between a (a + 4) x → ¬region x) : m'.fuword a = m.fuword a := by
  have same (i : ℕ) (inside : i < 4) : m'.byte (a + i) = m.byte (a + i) :=
    (written.other (a + i) (outside _ ⟨by omega, by omega⟩)).1
  have first := same 0 (by omega)
  rw [Nat.add_zero] at first
  rw [User.fuword, User.fuword, written.readable, first, same 1 (by omega), same 2 (by omega),
    same 3 (by omega)]

theorem CString.frame (string : CString m a s) (written : Written m m' region)
    (outside : ∀ x, Between a (a + (s.length + 1)) x → ¬region x) : CString m' a s := by
  induction string with
  | @nil a last =>
      exact .nil ((written.fubyte (outside a ⟨by omega, by simp⟩)).trans last)
  | @cons a c s here some _ ih =>
      refine .cons ((written.fubyte (outside a ⟨by omega, by simp⟩)).trans here) some ?_
      refine ih fun x inside => outside x ?_
      obtain ⟨low, high⟩ := inside
      rw [List.length_cons]
      exact ⟨by omega, by omega⟩

/-- The words from `a` on point to the strings, which begin at `u`, one behind the other. -/
def Placed (m : User) : ℕ → ℕ → List (List UInt8) → Prop
  | _, _, [] => True
  | a, u, s :: l =>
      m.fuword a = u ∧ CString m u s ∧ Placed m (a + NBPW) (u + (s.length + 1)) l

theorem length_flat_cons (s : List UInt8) (l : List (List UInt8)) :
    (flat (s :: l)).length = s.length + 1 + (flat l).length := by
  simp only [flat_cons, List.length_append, List.length_singleton]

theorem Placed.frame (placed : Placed m a u l) (written : Written m m' region)
    (words : ∀ x, Between a (a + 4 * l.length) x → ¬region x)
    (bytes : ∀ x, Between u (u + (flat l).length) x → ¬region x) : Placed m' a u l := by
  induction l generalizing a u with
  | nil => trivial
  | cons s l ih =>
      obtain ⟨word, string, rest⟩ := placed
      rw [length_flat_cons] at bytes
      rw [List.length_cons] at words
      refine ⟨?_, ?_, ?_⟩
      · rw [written.fuword fun x inside => words x ⟨inside.1, by have := inside.2; omega⟩, word]
      · exact string.frame written fun x inside => bytes x ⟨inside.1, by have := inside.2; omega⟩
      · refine ih rest (fun x inside => words x ?_) fun x inside => bytes x ?_
        · obtain ⟨low, high⟩ := inside
          rw [NBPW] at low high
          exact ⟨by omega, by omega⟩
        · obtain ⟨low, high⟩ := inside
          exact ⟨by omega, by omega⟩

/-- With a 0 behind them the words are a list. -/
theorem Placed.strings (placed : Placed m a u l) (pos : 0 < u)
    (last : m.fuword (a + 4 * l.length) = 0) : Strings m a l := by
  induction l generalizing a u with
  | nil => exact .nil last
  | cons s l ih =>
      obtain ⟨word, string, rest⟩ := placed
      refine .cons (by omega) (word ▸ string) (ih rest (by omega) ?_)
      rw [← last, List.length_cons, NBPW]
      congr 1
      omega

/-! ## The loops -/

variable {p : Pages} {core : Pg → Bytes} {after : List UInt8} {t : Top} {ne : ℕ}

/-- A string is copied. -/
theorem copy_spec (before : List UInt8)
    (holds : Holds p core (before ++ (s ++ [0]) ++ after)) (clean : 0 ∉ s)
    (count : t.nc = before.length) (opened : Open t.user lo) (above : lo ≤ t.ucp)
    (room : t.ucp + (s.length + 1) ≤ USRSIZE) :
    ∃ m, Settles (fun fuel => t.string p core fuel)
        ⟨t.ap, t.ucp + (s.length + 1), t.nc + (s.length + 1), m⟩ ∧
      Written t.user m (Between t.ucp (t.ucp + (s.length + 1))) ∧ CString m t.ucp s := by
  induction s generalizing t before with
  | nil =>
      have here : argc p core t.nc = 0 := by
        rw [holds t.nc (by simp [count])]
        simp [count]
      obtain ⟨written, read⟩ := subyte_spec opened above
        (by simp only [List.length_nil] at room; omega) 0
      refine ⟨_, (Settles.pure _).succ fun fuel => ?_, written, .nil read⟩
      rw [Top.string, here, if_neg (by simp)]
      rfl
  | cons c s ih =>
      have here : argc p core t.nc = c := by
        rw [holds t.nc (by simp [count])]
        simp [count]
      have some : c ≠ 0 := fun zero => clean (by rw [zero]; exact List.mem_cons_self)
      rw [List.length_cons] at room
      obtain ⟨written, read⟩ := subyte_spec opened above (by omega) c
      obtain ⟨m, settles, written', string⟩ := ih (before ++ [c])
        (t := ⟨t.ap, t.ucp + 1, t.nc + 1, t.user.subyte t.ucp c⟩) (by simpa using holds)
        (fun mem => clean (List.mem_cons_of_mem c mem)) (by simp [count])
        (written.isOpen opened) (Nat.le_succ_of_le above) (by dsimp only; omega)
      have length : t.ucp + 1 + (s.length + 1) = t.ucp + ((c :: s).length + 1) := by
        rw [List.length_cons]
        omega
      have length' : t.nc + 1 + (s.length + 1) = t.nc + ((c :: s).length + 1) := by
        rw [List.length_cons]
        omega
      dsimp only at settles written' string
      rw [length] at settles written'
      rw [length'] at settles
      refine ⟨m, settles.succ fun fuel => ?_, ?_, .cons ?_ some string⟩
      · rw [Top.string, here, if_pos some]
      · refine (written.trans written' fun x one two => ?_).congr fun x => ?_
        · exact absurd one.2 (Nat.not_lt.mpr two.1)
        · simp only [Between, List.length_cons]
          omega
      · rw [written'.fubyte fun inside => absurd inside.1 (by omega)]
        exact read

/-- The bytes that a part of the loop writes: words from `t.ap` on, and bytes of strings. -/
def Slots (a b u v x : ℕ) : Prop := Between a b x ∨ Between u v x

/-- A pointer is written, and its string is copied. -/
theorem pointer_spec (before : List UInt8)
    (holds : Holds p core (before ++ (s ++ [0]) ++ after)) (clean : 0 ∉ s)
    (count : t.nc = before.length) (opened : Open t.user lo) (above : lo ≤ t.ap)
    (words : t.ap + 4 ≤ t.ucp) (room : t.ucp + (s.length + 1) ≤ USRSIZE) :
    ∃ m, Settles
      (fun fuel => ({ t with user := t.user.suword t.ap t.ucp } : Top).string p core fuel)
        ⟨t.ap, t.ucp + (s.length + 1), t.nc + (s.length + 1), m⟩ ∧
      Written t.user m (Slots t.ap (t.ap + 4) t.ucp (t.ucp + (s.length + 1))) ∧
      m.fuword t.ap = t.ucp ∧ CString m t.ucp s := by
  have small : t.ucp < 2 ^ 32 := by
    simp only [USRSIZE] at room
    omega
  obtain ⟨written, read⟩ := suword_spec opened above (by omega) small
  obtain ⟨m, settles, written', string⟩ := copy_spec before
    (t := { t with user := t.user.suword t.ap t.ucp }) holds clean count (written.isOpen opened)
    (by dsimp only; omega) room
  refine ⟨m, settles, ?_, ?_, string⟩
  · refine written.trans written' fun x one two => ?_
    have low : t.ucp ≤ x := two.1
    exact absurd one.2 (by omega)
  · rw [written'.fuword fun x one two => ?_]
    · exact read
    · have low : t.ucp ≤ x := two.1
      exact absurd one.2 (by omega)

/-- A part of the loop, and the next one. -/
theorem Written.slots {b c w : ℕ} (first : Written m m' (Slots a b u v))
    (second : Written m' m'' (Slots b c v w)) (words : a ≤ b) (words' : b ≤ c) (below : c ≤ u)
    (bytes : u ≤ v) (bytes' : v ≤ w) : Written m m'' (Slots a c u w) := by
  refine (first.trans second fun x one two => ?_).congr fun x => ?_
  · simp only [Slots, Between] at one two
    omega
  · simp only [Slots, Between]
    omega

/-- A string and its pointer before those that the rest of the loop writes. -/
theorem joined (written : Written m m' (Slots a (a + 4) u (u + (s.length + 1))))
    (word : m'.fuword a = u) (string : CString m' u s)
    (written' : Written m' m'' (Slots (a + 4) n (u + (s.length + 1)) v))
    (placed : Placed m'' (a + 4) (u + (s.length + 1)) l) (words : a + 4 ≤ n ∧ n ≤ u)
    (bytes : u + (s.length + 1) ≤ v) :
    Written m m'' (Slots a n u v) ∧ Placed m'' a u (s :: l) := by
  refine ⟨written.slots written' (by omega) words.1 words.2 (by omega) bytes, ?_, ?_, placed⟩
  · rw [written'.fuword fun x one two => ?_, word]
    simp only [Slots, Between] at one two
    omega
  · refine string.frame written' fun x one two => ?_
    simp only [Slots, Between] at one two
    omega

/-- The strings of a list can be told apart. -/
def Clean (l : List (List UInt8)) : Prop := ∀ s ∈ l, 0 ∉ s

/-- The loop once the argument list has ended: the pointers of the environment list. -/
theorem copyback_env (before : List UInt8) (holds : Holds p core (before ++ flat l))
    (clean : Clean l)
    (count : t.nc = before.length) (opened : Open t.user lo) (above : lo ≤ t.ap)
    (words : t.ap + 4 * (l.length + 1) ≤ t.ucp) (room : t.ucp + (flat l).length ≤ USRSIZE)
    (ended : l.length < ne) :
    ∃ m, Settles (fun fuel => t.copyback p core ne fuel l.length)
        ⟨t.ap + 4 * (l.length + 1), t.ucp + (flat l).length, t.nc + (flat l).length, m⟩ ∧
      Written t.user m (Slots (t.ap + 4) (t.ap + 4 * (l.length + 1)) t.ucp
        (t.ucp + (flat l).length)) ∧
      Placed m (t.ap + 4) t.ucp l := by
  induction l generalizing t before with
  | nil =>
      have step : t.step 0 ne = { t with ap := t.ap + 4 } := by
        rw [Top.step]
        exact if_neg (by simpa using Nat.ne_of_lt ended)
      refine ⟨t.user, ?_, ⟨rfl, rfl, fun _ _ => ⟨rfl, rfl⟩, fun x inside => ?_⟩, trivial⟩
      · refine (Settles.pure _).congr fun fuel => ?_
        rw [List.length_nil, Top.copyback, step]
        rfl
      · exfalso
        rcases inside with ⟨low, high⟩ | ⟨low, high⟩
        · simp only [List.length_nil] at high
          omega
        · simp only [flat_nil, List.length_nil] at high
          omega
  | cons s l ih =>
      simp only [List.length_cons] at words ended
      rw [length_flat_cons] at room
      have step : t.step (l.length + 1) ne = { t with ap := t.ap + 4 } := by
        rw [Top.step]
        exact if_neg (Nat.ne_of_lt ended)
      obtain ⟨m, settles, written, word, string⟩ := pointer_spec (t := { t with ap := t.ap + 4 })
        before (s := s) (show Holds p core (before ++ (s ++ [0]) ++ flat l) by
          simpa [List.append_assoc] using holds) (clean s List.mem_cons_self) count opened
        (by dsimp only; omega) (by dsimp only; omega) (by dsimp only; omega)
      dsimp only at settles written word string
      obtain ⟨m', settles', written', placed⟩ := ih (before ++ (s ++ [0]))
        (t := ⟨t.ap + 4, t.ucp + (s.length + 1), t.nc + (s.length + 1), m⟩)
        (by simpa [List.append_assoc] using holds)
        (fun s' mem => clean s' (List.mem_cons_of_mem s mem)) (by simp [count])
        (written.isOpen opened) (by dsimp only; omega) (by dsimp only; omega)
        (by dsimp only; omega) (by omega)
      dsimp only at settles' written' placed
      obtain ⟨written'', placed'⟩ := joined written word string written' placed
        ⟨by omega, by omega⟩ (by omega)
      have slots : t.ap + 4 + 4 * (l.length + 1) = t.ap + 4 * ((s :: l).length + 1) := by
        rw [List.length_cons]
        omega
      rw [length_flat_cons, ← Nat.add_assoc t.ucp, ← Nat.add_assoc t.nc, ← slots]
      refine ⟨m', ?_, written'', placed'⟩
      refine (settles.bind (fun fuel t => t.copyback p core ne fuel l.length) settles').congr
        fun fuel => ?_
      rw [List.length_cons, Top.copyback, step]

/-- The loop: the pointers of the argument list, a 0, and the pointers of the environment list. -/
theorem copyback_spec {env : List (List UInt8)} (before : List UInt8)
    (holds : Holds p core (before ++ flat (l ++ env)))
    (clean : Clean (l ++ env)) (count : t.nc = before.length) (opened : Open t.user lo)
    (above : lo ≤ t.ap) (words : t.ap + 4 * (l.length + env.length + 2) ≤ t.ucp)
    (room : t.ucp + (flat (l ++ env)).length ≤ USRSIZE) :
    ∃ m, Settles (fun fuel => t.copyback p core env.length fuel (l.length + env.length))
        ⟨t.ap + 4 * (l.length + env.length + 2), t.ucp + (flat (l ++ env)).length,
          t.nc + (flat (l ++ env)).length, m⟩ ∧
      Written t.user m (Slots (t.ap + 4) (t.ap + 4 * (l.length + env.length + 2)) t.ucp
        (t.ucp + (flat (l ++ env)).length)) ∧
      Placed m (t.ap + 4) t.ucp l ∧ m.fuword (t.ap + 4 * (l.length + 1)) = 0 ∧
      Placed m (t.ap + 4 * (l.length + 2)) (t.ucp + (flat l).length) env := by
  induction l generalizing t before with
  | nil =>
      simp only [List.nil_append, List.length_nil, Nat.zero_add] at *
      have small : t.ap + 4 + 4 ≤ USRSIZE := by omega
      obtain ⟨written, read⟩ := suword_spec opened (a := t.ap + 4) (by omega) small
        (v := 0) (by omega)
      have step : t.step env.length env.length =
          ⟨t.ap + 8, t.ucp, t.nc, t.user.suword (t.ap + 4) 0⟩ := if_pos rfl
      cases env with
      | nil =>
          refine ⟨t.user.suword (t.ap + 4) 0, ?_, ?_, trivial, read, trivial⟩
          · refine (Settles.pure _).congr fun fuel => ?_
            rw [List.length_nil] at step ⊢
            rw [Top.copyback, step]
            rfl
          · refine written.congr fun x => ?_
            simp only [Slots, Between, flat_nil, List.length_nil]
            omega
      | cons e env =>
          rw [List.length_cons] at words
          rw [length_flat_cons] at room
          obtain ⟨m, settles, written', word, string⟩ := pointer_spec
            (t := ⟨t.ap + 8, t.ucp, t.nc, t.user.suword (t.ap + 4) 0⟩) before (s := e)
            (show Holds p core (before ++ (e ++ [0]) ++ flat env) by
              simpa [List.append_assoc] using holds)
            (clean e List.mem_cons_self) count (written.isOpen opened) (by dsimp only; omega)
            (by dsimp only; omega) (by dsimp only; omega)
          dsimp only at settles written' word string
          obtain ⟨m', settles', written'', placed⟩ := copyback_env (before ++ (e ++ [0]))
            (t := ⟨t.ap + 8, t.ucp + (e.length + 1), t.nc + (e.length + 1), m⟩)
            (by simpa [List.append_assoc] using holds)
            (fun s' mem => clean s' (List.mem_cons_of_mem e mem)) (by simp [count])
            (written'.isOpen (written.isOpen opened)) (by dsimp only; omega)
            (by dsimp only; omega) (by dsimp only; omega) (Nat.lt_succ_self env.length)
          dsimp only at settles' written'' placed
          obtain ⟨all, placed'⟩ := joined written' word string written'' placed
            ⟨by omega, by omega⟩ (by omega)
          have slots : t.ap + 8 + 4 * (env.length + 1) = t.ap + 4 * (env.length + 1 + 2) := by omega
          rw [slots] at settles' all
          rw [length_flat_cons, ← Nat.add_assoc t.ucp, ← Nat.add_assoc t.nc, List.length_cons]
          refine ⟨m', ?_, ?_, trivial, ?_, placed'⟩
          · refine (settles.bind (fun fuel t => t.copyback p core (env.length + 1) fuel env.length)
              settles').congr fun fuel => ?_
            rw [List.length_cons] at step
            rw [Top.copyback, step]
          · refine (written.trans all fun x one two => ?_).congr fun x => ?_
            · simp only [Slots, Between] at one two
              omega
            · simp only [Slots, Between]
              omega
          · refine (all.fuword fun x one two => ?_).trans read
            simp only [Slots, Between] at one two
            omega
  | cons s l ih =>
      simp only [List.length_cons, List.cons_append] at words holds clean ⊢
      rw [List.cons_append, length_flat_cons] at room
      have step : t.step (l.length + env.length + 1) env.length = { t with ap := t.ap + 4 } := by
        rw [Top.step]
        exact if_neg (by omega)
      obtain ⟨m, settles, written, word, string⟩ := pointer_spec (t := { t with ap := t.ap + 4 })
        before (s := s) (show Holds p core (before ++ (s ++ [0]) ++ flat (l ++ env)) by
          simpa [List.append_assoc] using holds) (clean s List.mem_cons_self) count opened
        (by dsimp only; omega) (by dsimp only; omega) (by dsimp only; omega)
      dsimp only at settles written word string
      obtain ⟨m', settles', written', placed, last, placed'⟩ := ih (before ++ (s ++ [0]))
        (t := ⟨t.ap + 4, t.ucp + (s.length + 1), t.nc + (s.length + 1), m⟩)
        (by simpa [List.append_assoc] using holds)
        (fun s' mem => clean s' (List.mem_cons_of_mem s mem)) (by simp [count])
        (written.isOpen opened) (by dsimp only; omega) (by dsimp only; omega)
        (by dsimp only; omega)
      dsimp only at settles' written' placed last placed'
      obtain ⟨written'', placed''⟩ := joined written word string written' placed
        ⟨by omega, by omega⟩ (by omega)
      have slots : t.ap + 4 + 4 * (l.length + env.length + 2) =
          t.ap + 4 * (l.length + 1 + env.length + 2) := by omega
      have slots' : t.ap + 4 + 4 * (l.length + 2) = t.ap + 4 * (l.length + 1 + 2) := by omega
      have slots'' : t.ap + 4 + 4 * (l.length + 1) = t.ap + 4 * (l.length + 1 + 1) := by omega
      rw [slots] at settles' written''
      rw [slots''] at last
      rw [slots', Nat.add_assoc t.ucp, ← length_flat_cons] at placed'
      rw [length_flat_cons s (l ++ env), ← Nat.add_assoc t.ucp, ← Nat.add_assoc t.nc]
      refine ⟨m', ?_, written'', placed'', last, placed'⟩
      refine (settles.bind (fun fuel t => t.copyback p core env.length fuel
        (l.length + env.length)) settles').congr fun fuel => ?_
      rw [Nat.add_right_comm, Top.copyback, step]

/-! ## The call -/

/-- The bytes that `exece` asks `getxfile` for. -/
def nargc (args env : List (List UInt8)) : ℕ :=
  ((flat (args ++ env)).length + 3) / 4 * 4 + (args.length + env.length + 3) * 4

/-- The program finds both lists, and no others, at its stack pointer, and what has been written
lies within the pages for the stack, no byte of it in two of the words and strings. -/
structure HandedOver (r : Result) (args env : List (List UInt8)) : Prop where
  aligned : r.sp % 8 = 0
  count : r.user.fuword r.sp = args.length
  argv : ∀ l, Strings r.user (r.sp + 4) l ↔ l = args
  envp : ∀ l, Strings r.user (r.sp + 4 * (args.length + 2)) l ↔ l = env
  inside : ∀ a, r.user.times a ≠ 0 →
    USRSIZE - PGSIZE * (SSIZE + btop (nargc args env)) ≤ a ∧ a < USRSIZE
  once : ∀ a, r.user.times a ≤ 1

/-- The call gets as far as its lists: the file may be executed, and there are pages for them. -/
structure Call.Allowed (call : Call) (ip : File) : Prop where
  found : call.file = .ok ip
  access : ip.access = 0
  mode : ip.i_mode &&& IFMT = IFREG ∧ ip.i_mode &&& 0o111 ≠ 0
  pages : NARGPG ≤ call.npgfree

theorem CString.clean (string : CString m a s) : 0 ∉ s := by
  induction string with
  | nil _ => exact List.not_mem_nil
  | cons _ some _ ih =>
      intro mem
      rcases List.mem_cons.mp mem with zero | mem
      · exact some zero.symm
      · exact ih mem

theorem Strings.clean (strings : Strings m a l) : Clean l := by
  induction strings with
  | nil _ => exact fun s mem => absurd mem List.not_mem_nil
  | cons _ string _ ih =>
      intro s mem
      rcases List.mem_cons.mp mem with rfl | mem
      · exact string.clean
      · exact ih s mem

theorem length_le_flat (l : List (List UInt8)) : l.length ≤ (flat l).length := by
  induction l with
  | nil => exact Nat.le_refl 0
  | cons s l ih =>
      rw [length_flat_cons, List.length_cons]
      omega

/-- The stack of the new memory can be used, and nothing has been written there. -/
theorem getxfile_open {maxmem n : ℕ} {ip : File} (got : getxfile maxmem ip n = .ok m) :
    Open m (USRSIZE - PGSIZE * (SSIZE + btop n)) ∧ ∀ a, m.times a = 0 := by
  rw [getxfile] at got
  split at got
  · cases got
  · next t0 ts d0 ds _ =>
      dsimp only at got
      split at got
      · cases got
      · split at got
        · next fit =>
            split at got
            · cases got
            · split at got
              · cases got
              · cases got
                have pages := (fits_apart fit).1
                refine ⟨fun a above below => ?_, fun a => rfl⟩
                have stack : inPages (top - (SSIZE + btop n)) (SSIZE + btop n) a = true := by
                  rw [inPages, Bool.and_eq_true, decide_eq_true_eq, decide_eq_true_eq]
                  simp only [USRSIZE, PGSIZE, top] at above below pages ⊢
                  omega
                simp [image, stack]
        · cases got

/-- The words, from `ap` on, lie below the strings, from `ucp` on, and both above the lowest page of
the stack. -/
structure Layout (args env : List (List UInt8)) (ap ucp : ℕ) : Prop where
  aligned : ap % 8 = 0
  words : ap + 4 * (args.length + env.length + 3) ≤ ucp
  strings : ucp + (flat (args ++ env)).length + 4 ≤ USRSIZE
  low : USRSIZE - PGSIZE * (SSIZE + btop (nargc args env)) ≤ ap
  real : 0 < ucp

theorem layout {args env : List (List UInt8)} (short : (flat (args ++ env)).length < NCARGS) :
    Layout args env ((USRSIZE - ((flat (args ++ env)).length + 3) / 4 * 4 - 4 -
      (args.length + env.length) * 4 - 12) / 8 * 8)
      (USRSIZE - ((flat (args ++ env)).length + 3) / 4 * 4 - 4) := by
  have few := length_le_flat (args ++ env)
  rw [List.length_append] at few
  have word : nargc args env ≤ 2 ^ 32 - 4096 := by
    simp only [nargc, NCARGS] at short ⊢
    omega
  have pages := btop_of_le word
  simp only [NCARGS] at short
  refine ⟨by omega, ?_, ?_, ?_, ?_⟩
  · simp only [USRSIZE]
    omega
  · simp only [USRSIZE]
    omega
  · rw [pages]
    simp only [USRSIZE, PGSIZE, SSIZE, nargc]
    omega
  · simp only [USRSIZE]
    omega

theorem Strings.iff (strings : Strings m a l) (l' : List (List UInt8)) :
    Strings m a l' ↔ l' = l := by
  constructor
  · exact fun strings' => strings'.unique strings
  · rintro rfl
    exact strings

/-- What is written at the top of the memory is handed over. -/
theorem written_handed_over {args env : List (List UInt8)} {ap ucp : ℕ}
    (layout : Layout args env ap ucp)
    (opened : Open m (USRSIZE - PGSIZE * (SSIZE + btop (nargc args env))))
    (fresh : ∀ a, m.times a = 0) (holds : Holds p core (flat (args ++ env)))
    (clean : Clean (args ++ env)) :
    ∃ t, Settles (fun fuel => Top.copyback p core env.length fuel (args.length + env.length)
        ⟨ap, ucp, 0, m.suword ap args.length⟩) t ∧
      HandedOver ⟨ap, (t.user.suword t.ap 0).suword t.ucp 0⟩ args env := by
  obtain ⟨aligned, words, strings, low, real⟩ := layout
  have small : ucp < 2 ^ 32 := by
    simp only [USRSIZE] at strings
    omega
  obtain ⟨written₁, count⟩ := suword_spec opened (a := ap) low (by omega)
    (v := args.length) (by omega)
  obtain ⟨m₂, settles, written₂, argv, last, envp⟩ := copyback_spec []
    (t := ⟨ap, ucp, 0, m.suword ap args.length⟩) holds clean rfl (written₁.isOpen opened) low
    (by dsimp only; omega) (by dsimp only; omega)
  dsimp only at settles written₂ argv last envp
  have opened₂ := written₂.isOpen (written₁.isOpen opened)
  obtain ⟨written₃, last'⟩ := suword_spec opened₂ (v := 0)
    (a := ap + 4 * (args.length + env.length + 2)) (by omega) (by omega) (by omega)
  obtain ⟨written₄, -⟩ := suword_spec (written₃.isOpen opened₂) (v := 0)
    (a := ucp + (flat (args ++ env)).length) (by omega) (by omega) (by omega)
  have length : (flat (args ++ env)).length = (flat args).length + (flat env).length := by
    rw [flat_append, List.length_append]
  -- the words and the strings, without the last words of both
  have slots₁ : Written m _ (Slots ap (ap + 4) ucp ucp) := written₁.congr fun x => by
    simp only [Slots, Between]
    omega
  have slots₃ : Written m₂ _ (Slots (ap + 4 * (args.length + env.length + 2))
      (ap + 4 * (args.length + env.length + 3)) (ucp + (flat (args ++ env)).length)
      (ucp + (flat (args ++ env)).length)) := written₃.congr fun x => by
    simp only [Slots, Between]
    omega
  have slots₄ : Written _ _ (Slots (ap + 4 * (args.length + env.length + 3))
      (ap + 4 * (args.length + env.length + 3)) (ucp + (flat (args ++ env)).length)
      (ucp + (flat (args ++ env)).length + 4)) := written₄.congr fun x => by
    simp only [Slots, Between]
    omega
  have rest := slots₃.slots slots₄ (by omega) (by omega) (by omega) (by omega) (by omega)
  have behind := written₂.slots rest (by omega) (by omega) (by omega) (by omega) (by omega)
  have all := slots₁.slots behind (by omega) (by omega) (by omega) (by omega) (by omega)
  refine ⟨_, settles, aligned, ?_, ?_, ?_, fun a some => ?_, fun a => ?_⟩
  · refine (behind.fuword fun x one two => ?_).trans count
    simp only [Slots, Between] at one two
    omega
  · refine Strings.iff ((argv.frame rest (fun x one two => ?_) fun x one two => ?_).strings real ?_)
    · simp only [Slots, Between] at one two
      omega
    · simp only [Slots, Between] at one two
      omega
    · rw [show ap + 4 + 4 * args.length = ap + 4 * (args.length + 1) by omega]
      refine (rest.fuword fun x one two => ?_).trans last
      simp only [Slots, Between] at one two
      omega
  · refine Strings.iff ((envp.frame rest (fun x one two => ?_) fun x one two => ?_).strings
      (by omega) ?_)
    · simp only [Slots, Between] at one two
      omega
    · simp only [Slots, Between] at one two
      omega
    · rw [show ap + 4 * (args.length + 2) + 4 * env.length =
        ap + 4 * (args.length + env.length + 2) by omega]
      refine (written₄.fuword fun x one two => ?_).trans last'
      simp only [Between] at one two
      omega
  · have inside : Slots ap (ap + 4 * (args.length + env.length + 3)) ucp
        (ucp + (flat (args ++ env)).length + 4) a := by
      by_contra outside
      exact some ((all.other a outside).2.trans (fresh a))
    simp only [Slots, Between] at inside
    omega
  · by_cases inside : Slots ap (ap + 4 * (args.length + env.length + 3)) ucp
      (ucp + (flat (args ++ env)).length + 4) a
    · rw [all.once a inside, fresh]
    · rw [(all.other a inside).2, fresh]
      exact Nat.zero_le 1

/-- `exece` hands over its lists: when the new memory has been set up, the program begins with the
same two lists at the top of its stack. -/
theorem exece_hands_over {maxmem : ℕ} {call : Call} {ip : File} {args env : List (List UInt8)}
    (allowed : call.Allowed ip) (some : call.argp ≠ 0)
    (listed : Strings call.user call.argp args) (behind : Environment call.user call.envp env)
    (short : (flat (args ++ env)).length < NCARGS)
    (loaded : getxfile maxmem ip (nargc args env) = .ok m) :
    ∃ r, Settles (fun fuel => exece maxmem call fuel) r ∧ HandedOver r args env := by
  obtain ⟨t, collects, na, ne, nc, holds⟩ := collect_spec (p := call.pages)
    (t := ⟨call.argp, call.envp, 0, 0, 0, call.core⟩) listed rfl some behind
    (show Holds call.pages call.core [] from fun i inside => absurd inside (Nat.not_lt_zero i))
    rfl short
  dsimp only at na ne nc
  simp only [Nat.zero_add, List.nil_append] at na ne nc holds
  obtain ⟨opened, fresh⟩ := getxfile_open loaded
  have clean : Clean (args ++ env) := by
    intro s mem
    rcases List.mem_append.mp mem with mem | mem
    · exact listed.clean s mem
    · rcases behind with ⟨-, none⟩ | ⟨-, strings⟩
      · exact absurd mem (none ▸ List.not_mem_nil)
      · exact strings.clean s mem
  have few := length_le_flat (args ++ env)
  rw [List.length_append] at few na
  obtain ⟨r, writes, handed⟩ := written_handed_over (layout short) opened fresh holds clean
  have nc' : (t.nc + NBPW - 1) / NBPW * NBPW = ((flat (args ++ env)).length + 3) / 4 * 4 := by
    rw [nc]
    rfl
  have na' : t.na - t.ne = args.length := by omega
  have total : (t.nc + NBPW - 1) / NBPW * NBPW + (t.na + 3) * NBPW = nargc args env := by
    rw [nc', na]
    rfl
  obtain ⟨ucp, string⟩ : ∃ ucp, ucp = USRSIZE - ((flat (args ++ env)).length + 3) / 4 * 4 - 4 :=
    ⟨_, rfl⟩
  obtain ⟨ap, pointer⟩ : ∃ ap, ap = (ucp - (args.length + env.length) * 4 - 12) / 8 * 8 := ⟨_, rfl⟩
  rw [← string, ← pointer] at writes handed
  have copies : Settles (fun fuel => t.copyout call.pages maxmem ip fuel)
      ⟨ap, (r.user.suword r.ap 0).suword r.ucp 0⟩ := by
    refine (writes.bind (fun _ r => .ok ⟨ap, (r.user.suword r.ap 0).suword r.ucp 0⟩)
      (.pure _)).congr fun fuel => ?_
    rw [Args.copyout]
    simp only [total, na']
    rw [loaded]
    simp only [nc', na, ne, bind, Except.bind]
    simp only [NBPW, ← string, ← pointer]
  refine ⟨_, (collects.bind (fun fuel t => t.copyout call.pages maxmem ip fuel) copies).congr
    fun fuel => ?_, handed⟩
  have mode : ¬(ip.i_mode &&& IFMT ≠ IFREG ∨ ip.i_mode &&& 0o111 = 0) := fun bad =>
    bad.elim (fun other => other allowed.mode.1) allowed.mode.2
  rw [exece, allowed.found]
  dsimp only
  rw [if_neg (by simp [allowed.access]), if_neg mode, if_neg (Nat.not_lt.mpr allowed.pages),
    if_pos some]

/-- A program of one page of text and one of data. -/
def onePageEach : File := ⟨0, 0o100755, .ok (2, 1, 3, 1), true, true, .ok fun _ => 0⟩

theorem below_two {a : ℕ} (readable : (decide (8192 ≤ a) && decide (a < 12288)) = true) :
    a < USRSIZE := by
  simp only [Bool.and_eq_true, decide_eq_true_eq] at readable
  simp only [USRSIZE]
  omega

/-- The first pages. -/
def firstPages : Pages := ⟨id, fun _ _ _ _ same => same⟩

/-- A process with a list of the argument `a` at 8192, and of the environment string `b` at 8200. -/
def twoStrings : Call where
  argp := 8192
  envp := 8200
  file := .ok onePageEach
  npgfree := 2
  pages := firstPages
  core _ _ := 0
  user :=
    { byte := fun a =>
        if a = 8192 then 16
        else if a = 8200 then 18
        else if a = 8193 ∨ a = 8201 then 32
        else if a = 8208 then 97
        else if a = 8210 then 98
        else 0
      readable := fun a => decide (8192 ≤ a) && decide (a < 12288)
      writable := fun _ => false
      times := fun _ => 0
      below := fun _ => below_two }

theorem exece_hands_over_two : ∃ r, Settles (fun fuel => exece 64 twoStrings fuel) r ∧
    HandedOver r [[97]] [[98]] := by
  have allowed : twoStrings.Allowed onePageEach :=
    ⟨rfl, rfl, ⟨by decide, by decide⟩, Nat.le_refl 2⟩
  have listed : Strings twoStrings.user twoStrings.argp [[97]] :=
    .cons (by decide) (.cons (by decide) (by decide) (.nil (by decide))) (.nil (by decide))
  have behind : Environment twoStrings.user twoStrings.envp [[98]] :=
    .inr ⟨by decide, .cons (by decide) (.cons (by decide) (by decide) (.nil (by decide)))
      (.nil (by decide))⟩
  have fit : fits 64 2 1 3 1 (SSIZE + btop (nargc [[97]] [[98]])) = true := by decide
  have loaded : getxfile 64 onePageEach (nargc [[97]] [[98]]) = .ok (image (fun _ => 0) fit) := by
    simp only [getxfile, onePageEach, Bool.true_eq_false, if_false]
    exact dif_pos fit
  exact exece_hands_over allowed (by decide) listed behind (by decide) loaded

end UnixV7.Exec
