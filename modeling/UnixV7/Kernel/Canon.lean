import UnixV7.Kernel.Tty
import Mathlib.Logic.Relation

/-!
# Line editing

A line as it is typed and as it is read. The reference keeps a list of characters and goes over the
line from left to right; `canon` does the same in its buffer, and finds on the raw queue the lines
in the order in which they were typed.
-/

namespace UnixV7.Terminal

open Function Prim

variable {κ : Type} [DecidableEq κ]

/-! ### The reference -/

/-- What is kept of a line when the character `c` comes next. -/
def keep (tp : Tty κ) (line : List UInt8) (c : UInt8) : List UInt8 :=
  if line.getLast? = some backslash then
    if c = tp.t_erase ∨ c = tp.t_kill then line.dropLast ++ [c] else line ++ [c]
  else if c = tp.t_erase then line.dropLast
  else if c = tp.t_kill then []
  else if c = tp.t_eofc then line
  else line ++ [c]

/-- What is kept of a whole line. -/
def edited (tp : Tty κ) (line : List UInt8) : List UInt8 := line.foldl (keep tp) []

/-- A character that ends a line. -/
def Ends (tp : Tty κ) (c : UInt8) : Prop := c = newline ∨ c = tp.t_eofc ∨ c = tp.t_brkc

instance (tp : Tty κ) (c : UInt8) : Decidable (Ends tp c) := inferInstanceAs (Decidable (_ ∨ _))

/-- A typed character as it is queued. -/
def queued (tp : Tty κ) (c : UInt8) : UInt8 :=
  if c = 0x0d ∧ tp.t_flags &&& CRMOD ≠ 0 then newline else c

/-- Lines and the beginning of another, when one more character has been typed. -/
def typed (tp : Tty κ) (text : List (List UInt8) × List UInt8) (c : UInt8) :
    List (List UInt8) × List UInt8 :=
  if Ends tp (queued tp c) then (text.1 ++ [text.2 ++ [queued tp c]], [])
  else (text.1, text.2 ++ [queued tp c])

/-- The complete lines of a text, and what has been typed of the next one. -/
def lines (tp : Tty κ) (text : List UInt8) : List (List UInt8) × List UInt8 :=
  text.foldl (typed tp) ([], [])

/-- A cooked mode without case mapping. -/
structure Cooked (tp : Tty κ) : Prop where
  single : tp.t_flags &&& (RAW ||| CBREAK) = 0
  raw : tp.t_flags &&& RAW = 0
  lcase : tp.t_flags &&& LCASE = 0
  apart : tp.t_rawq ≠ tp.t_canq

/-- A character of seven bits that does not interrupt, quit, stop or start, and is not a NUL for
erase or kill. -/
structure Ordinary (tp : Tty κ) (c : UInt8) : Prop where
  seven : c.toNat < 128
  intrc : c ≠ tp.t_intrc
  quitc : c ≠ tp.t_quitc
  stopc : c ≠ tp.t_stopc
  startc : c ≠ tp.t_startc
  nul : c = 0 → c ≠ tp.t_erase ∧ c ≠ tp.t_kill

/-! ### Editing -/

variable {tp : Tty κ} {e : Edit κ} {c : UInt8}

/-- The characters that `canon` has kept. -/
def Edit.line (e : Edit κ) : List UInt8 := buffer (fun i => e.canonb (2 + i)) (e.bp - 2)

/-- The pointer is behind the two bytes before the line, which are no backslashes. -/
structure Edit.Fine (e : Edit κ) : Prop where
  low : 2 ≤ e.bp
  first : e.canonb 0 ≠ backslash
  second : e.canonb 1 ≠ backslash

/-- No entry of the table is the character itself. -/
theorem maptab_ne (c : UInt8) (entry : maptab c ≠ 0) : maptab c ≠ c := by
  intro same
  simp only [maptab] at entry same
  split_ifs at entry same with a b d e f g
  · exact absurd (a ▸ same) (by decide)
  · exact absurd (b ▸ same) (by decide)
  · exact absurd (d ▸ same) (by decide)
  · exact absurd (e ▸ same) (by decide)
  · exact absurd (f ▸ same) (by decide)
  · have bytes := congrArg UInt8.toNat same
    have size := c.toNat_lt
    rw [UInt8.toNat_sub] at bytes
    simp at bytes
    omega
  · exact entry rfl

omit [DecidableEq κ] in
theorem length_line (e : Edit κ) : e.line.length = e.bp - 2 := by
  rw [Edit.line, buffer, List.length_map, List.length_range]

theorem buffer_snoc (cp : ℕ → UInt8) (n : ℕ) : buffer cp (n + 1) = buffer cp n ++ [cp n] := by
  rw [buffer, List.range_succ, List.map_append, buffer]
  rfl

omit [DecidableEq κ] in
theorem line_eq_nil (here : e.bp = 2) : e.line = [] := by
  rw [Edit.line, here]
  rfl

omit [DecidableEq κ] in
/-- A line with a character has a last one, which is before the pointer. -/
theorem line_eq_snoc (more : 2 < e.bp) :
    e.line = { e with bp := e.bp - 1 }.line ++ [e.canonb (e.bp - 1)] := by
  obtain ⟨n, length⟩ : ∃ n, e.bp = n + 3 := ⟨e.bp - 3, by omega⟩
  simp only [Edit.line, length]
  rw [show n + 3 - 2 = n + 1 by omega, show n + 3 - 1 - 2 = n by omega, buffer_snoc,
    show 2 + n = n + 3 - 1 by omega]

omit [DecidableEq κ] in
theorem line_pred (more : 2 < e.bp) : { e with bp := e.bp - 1 }.line = e.line.dropLast := by
  rw [line_eq_snoc more, List.dropLast_concat]

omit [DecidableEq κ] in
/-- `bp[-1]` tells whether the last character kept is a backslash. -/
theorem back_one (fine : e.Fine) (small : e.bp < CANBSIZ) :
    ∃ b, e.back 1 = .ok b ∧ (b = backslash ↔ e.line.getLast? = some backslash) := by
  have low := fine.low
  refine ⟨e.canonb (e.bp - 1), if_pos ⟨by omega, by omega⟩, ?_⟩
  by_cases more : 2 < e.bp
  · rw [line_eq_snoc more, List.getLast?_append, List.getLast?_singleton, Option.some_or,
      Option.some.injEq]
  · have here : e.bp = 2 := by omega
    rw [line_eq_nil here, here]
    exact iff_of_false fine.second (by simp)

omit [DecidableEq κ] in
/-- A character stored is the last one of the line. -/
theorem store_spec (fine : e.Fine) (small : e.bp + 1 < CANBSIZ) (c : UInt8) :
    ∃ e', e.store c = .ok (e', false) ∧ e'.Fine ∧ e'.line = e.line ++ [c] ∧ e'.m = e.m ∧
      e'.t_delct = e.t_delct := by
  have low := fine.low
  refine ⟨{ e with canonb := update e.canonb e.bp c, bp := e.bp + 1 }, ?_, ⟨?_, ?_, ?_⟩, ?_, rfl,
    rfl⟩
  · rw [Edit.store, if_pos (by omega), decide_eq_false (by omega)]
  · exact low.trans (Nat.le_succ _)
  · dsimp only
    rw [update_of_ne (by omega)]
    exact fine.first
  · dsimp only
    rw [update_of_ne (by omega)]
    exact fine.second
  · simp only [Edit.line]
    rw [show e.bp + 1 - 2 = e.bp - 2 + 1 by omega, buffer_snoc]
    congr 1
    · apply List.map_congr_left
      intro i mem
      have less := List.mem_range.mp mem
      rw [update_of_ne (by omega)]
    · rw [show 2 + (e.bp - 2) = e.bp by omega, update_self]

omit [DecidableEq κ] in
/-- A character that is not the mark is edited in as the reference does. -/
theorem char_spec (cooked : Cooked tp) (fine : e.Fine) (small : e.line.length + 1 < CANBSIZ - 2)
    (other : c ≠ mark) (nul : c = 0 → c ≠ tp.t_erase ∧ c ≠ tp.t_kill) :
    ∃ e', Edit.char tp e c = .ok (e', false) ∧ e'.Fine ∧ e'.line = keep tp e.line c ∧
      e'.m = e.m ∧ e'.t_delct = e.t_delct := by
  have low := fine.low
  rw [length_line, CANBSIZ] at small
  obtain ⟨b, last, slash⟩ := back_one fine (by rw [CANBSIZ]; omega)
  have single : ¬tp.Single := not_not.mpr cooked.single
  rw [Edit.char, if_neg single, if_neg other, last, keep]
  simp only [bind, Except.bind]
  by_cases escape : b = backslash
  · rw [if_neg (not_not.mpr escape), if_pos (slash.mp escape)]
    by_cases special : c = tp.t_erase ∨ c = tp.t_kill
    · have more : 2 < e.bp := by
        by_contra none
        have kept := slash.mp escape
        rw [line_eq_nil (by omega)] at kept
        cases kept
      have some : c ≠ 0 := by
        rintro rfl
        exact special.elim (nul rfl).1 (nul rfl).2
      have before : e.back 2 = .ok (e.canonb (e.bp - 2)) :=
        if_pos ⟨low, by rw [CANBSIZ]; omega⟩
      rw [if_pos special, if_pos special, if_pos ⟨some, .inl rfl⟩, before]
      dsimp only
      rw [ite_self, ← line_pred more]
      have low' : 2 ≤ e.bp - 1 := by omega
      have fine' : Edit.Fine { e with bp := e.bp - 1 } := ⟨low', fine.first, fine.second⟩
      have room : e.bp - 1 + 1 < CANBSIZ := by
        rw [CANBSIZ]
        omega
      exact store_spec fine' room c
    · rw [if_neg special, if_neg special, if_neg]
      · exact store_spec fine (by rw [CANBSIZ]; omega) c
      · rintro ⟨entry, same | mapped⟩
        · exact maptab_ne c entry same
        · exact mapped cooked.lcase
  · rw [if_pos escape, if_neg (slash.not.mp escape)]
    by_cases erase : c = tp.t_erase
    · rw [if_pos erase, if_pos erase]
      by_cases more : 2 < e.bp
      · rw [if_pos more, ← line_pred more]
        have low' : 2 ≤ e.bp - 1 := by omega
        exact ⟨_, rfl, ⟨low', fine.first, fine.second⟩, rfl, rfl, rfl⟩
      · rw [if_neg more, line_eq_nil (e := e) (by omega)]
        exact ⟨e, rfl, fine, line_eq_nil (by omega), rfl, rfl⟩
    · rw [if_neg erase, if_neg erase]
      by_cases kill : c = tp.t_kill
      · rw [if_pos kill, if_pos kill]
        exact ⟨_, rfl, ⟨le_rfl, fine.first, fine.second⟩, line_eq_nil rfl, rfl, rfl⟩
      · rw [if_neg kill, if_neg kill]
        by_cases eof : c = tp.t_eofc
        · rw [if_pos eof, if_pos eof]
          exact ⟨e, rfl, fine, rfl, rfl, rfl⟩
        · rw [if_neg eof, if_neg eof]
          exact store_spec fine (by rw [CANBSIZ]; omega) c

/-! ### A line from the raw queue -/

variable {cfree : ℕ} {blocks : κ → List ℕ} {free : List ℕ} {contents : κ → List UInt8}
  {l rest : List UInt8}

omit [DecidableEq κ] in
theorem keep_length (tp : Tty κ) (line : List UInt8) (c : UInt8) :
    (keep tp line c).length ≤ line.length + 1 := by
  have snoc (k : List UInt8) : (k ++ [c]).length = k.length + 1 := List.length_append
  have shorter : line.dropLast.length ≤ line.length :=
    line.length_dropLast.trans_le (Nat.sub_le _ 1)
  rw [keep]
  split_ifs
  · rw [snoc]
    omega
  · exact (snoc line).le
  · omega
  · exact Nat.zero_le _
  · exact Nat.le_succ _
  · exact (snoc line).le

/-- A turn of the loop with a character. -/
theorem loop_succ (first : (e.m.getc tp.t_rawq).1 = c.toNat) (k : ℕ) :
    Edit.loop tp (k + 1) e =
      (Edit.char tp { e with m := (e.m.getc tp.t_rawq).2 } c >>= fun (e, last) =>
        if last then .ok e else Edit.loop tp k e) := by
  simp only [Edit.loop, first]
  rw [if_neg (by omega), Int.toNat_natCast, UInt8.ofNat_toNat]

/-- The loop of `canon` takes a line with its mark off the raw queue. -/
theorem loop_spec (cooked : Cooked tp) (fine : e.Fine) {fuel : ℕ} (enough : l.length < fuel)
    (laid : Laid cfree e.m blocks free contents)
    (raw : contents tp.t_rawq = l ++ mark :: rest)
    (small : e.line.length + l.length < CANBSIZ - 2)
    (ordinary : ∀ c ∈ l, c ≠ mark ∧ (c = 0 → c ≠ tp.t_erase ∧ c ≠ tp.t_kill)) :
    ∃ e' blocks' free', Edit.loop tp fuel e = .ok e' ∧ e'.Fine ∧
      e'.line = l.foldl (keep tp) e.line ∧ e'.t_delct = e.t_delct - 1 ∧
      Laid cfree e'.m blocks' free' (update contents tp.t_rawq rest) := by
  induction l generalizing e fuel blocks free contents with
  | nil =>
      obtain ⟨k, rfl⟩ : ∃ k, fuel = k + 1 := ⟨fuel - 1, by rw [List.length_nil] at enough; omega⟩
      have own := laid.own tp.t_rawq
      rw [raw, List.nil_append] at own
      obtain ⟨first, step⟩ := own.getc
      obtain ⟨blocks', free', laid'⟩ := laid.step step
      refine ⟨{ e with m := (e.m.getc tp.t_rawq).2, t_delct := e.t_delct - 1 }, blocks', free', ?_,
        ⟨fine.low, fine.first, fine.second⟩, rfl, rfl, laid'⟩
      have single : ¬tp.Single := not_not.mpr cooked.single
      rw [loop_succ first, Edit.char, if_neg single, if_pos rfl]
      rfl
  | cons c l ih =>
      obtain ⟨k, rfl⟩ : ∃ k, fuel = k + 1 := ⟨fuel - 1, by omega⟩
      rw [List.length_cons] at enough small
      have own := laid.own tp.t_rawq
      rw [raw, List.cons_append] at own
      obtain ⟨first, step⟩ := own.getc
      obtain ⟨blocks₁, free₁, laid₁⟩ := laid.step step
      obtain ⟨other, nul⟩ := ordinary c List.mem_cons_self
      have fine₁ : Edit.Fine { e with m := (e.m.getc tp.t_rawq).2 } :=
        ⟨fine.low, fine.first, fine.second⟩
      have room : Edit.line { e with m := (e.m.getc tp.t_rawq).2 } = e.line := rfl
      obtain ⟨e₁, done, fine₂, line₁, m₁, delct₁⟩ :=
        char_spec cooked fine₁ (by rw [room]; omega) other nul
      rw [room] at line₁
      have longer := keep_length tp e.line c
      rw [show (e.m.getc tp.t_rawq).2 = e₁.m from m₁.symm] at laid₁
      obtain ⟨e₂, blocks₂, free₂, run, fine₃, line₂, delct₂, laid₂⟩ :=
        ih fine₂ (show l.length < k by omega) laid₁ (update_self _ _ _) (by rw [line₁]; omega)
        fun d mem => ordinary d (List.mem_cons_of_mem c mem)
      refine ⟨e₂, blocks₂, free₂, ?_, fine₃, ?_, delct₂.trans (by rw [delct₁]), ?_⟩
      · rw [loop_succ first, done]
        exact run
      · rw [line₂, line₁, List.foldl_cons]
      · rwa [update_idem] at laid₂

/-! ### The queues -/

variable {s s' : Line κ} {n : ℕ}

/-- The bytes before the line are no backslashes, and the lists hold `contents`. -/
structure Line.Sound (cfree : ℕ) (s : Line κ) (contents : κ → List UInt8) : Prop where
  laid : ∃ blocks free, Laid cfree s.m blocks free contents
  first : s.canonb 0 ≠ backslash
  second : s.canonb 1 ≠ backslash

/-- `canon` takes the first line off the raw queue and puts it, edited, on the canonical queue. -/
theorem canon_spec (sound : s.Sound cfree contents) (cooked : Cooked s.tp)
    (some : s.tp.t_delct ≠ 0) (raw : contents s.tp.t_rawq = l ++ mark :: rest)
    (small : l.length < CANBSIZ - 2)
    (ordinary : ∀ c ∈ l, c ≠ mark ∧ (c = 0 → c ≠ s.tp.t_erase ∧ c ≠ s.tp.t_kill)) :
    ∃ n s', s.canon = .ok (n, s') ∧ n = (edited s.tp l).length ∧
      s'.tp = { s.tp with t_delct := s.tp.t_delct - 1 } ∧
      (s'.m.cfreelist ≠ none → s'.Sound cfree (update (update contents s.tp.t_rawq rest) s.tp.t_canq
        (contents s.tp.t_canq ++ edited s.tp l))) := by
  obtain ⟨blocks, free, laid⟩ := sound.laid
  have count := (laid.holds s.tp.t_rawq).c_cc
  rw [raw, List.length_append, List.length_cons] at count
  have fine : Edit.Fine ⟨s.m, s.canonb, 2, s.tp.t_delct⟩ := ⟨le_rfl, sound.first, sound.second⟩
  have empty : Edit.line ⟨s.m, s.canonb, 2, s.tp.t_delct⟩ = [] := line_eq_nil rfl
  have enough : l.length < (s.m.clist s.tp.t_rawq).c_cc.toNat + 1 := by omega
  obtain ⟨e, blocks₁, free₁, run, fine₁, line, delct, laid₁⟩ :=
    loop_spec cooked fine enough laid raw
    (by rw [empty]; exact (Nat.zero_add _).trans_lt small) ordinary
  rw [empty] at line
  have single : ¬s.tp.Single := not_not.mpr cooked.single
  obtain ⟨moved, left, full, step⟩ :=
    (laid₁.own s.tp.t_canq).b_to_q (e.bp - 2 : ℕ) fun i => e.canonb (2 + i)
  obtain ⟨blocks₂, free₂, laid₂⟩ := laid₁.step step
  refine ⟨e.bp - 2, ⟨(e.m.b_to_q (fun i => e.canonb (2 + i)) (e.bp - 2 : ℕ) s.tp.t_canq).2,
    e.canonb, { s.tp with t_delct := e.t_delct }⟩, ?_, ?_, ?_, fun room => ?_⟩
  · rw [Line.canon, if_neg (by tauto), run]
    rfl
  · rw [← length_line, line, edited]
  · rw [delct]
  · have all : moved = e.bp - 2 := by
      by_contra other
      exact room (full (by omega))
    rw [update_of_ne cooked.apart.symm, all] at laid₂
    have bytes : buffer (fun i => e.canonb (2 + i)) (e.bp - 2) = edited s.tp l := line
    rw [bytes] at laid₂
    exact ⟨⟨blocks₂, free₂, laid₂⟩, fine₁.first, fine₁.second⟩

/-- A character is appended unless no block is free. -/
theorem putc_laid {m : Prim κ} {p : κ} (d : BitVec 32) (laid : Laid cfree m blocks free contents) :
    ((m.putc d p).1 = 0 ∧ ∃ blocks' free', Laid cfree (m.putc d p).2 blocks' free'
      (update contents p (contents p ++ [char d]))) ∨
    (m.putc d p = (-1, m) ∧ m.Full p ∧ m.cfreelist = none) := by
  rcases (laid.own p).putc d with ⟨fine, -, step⟩ | failed
  · exact .inl ⟨fine, laid.step step⟩
  · exact .inr failed

/-- A character comes to the end of the raw queue, and a mark behind the last one of a line. -/
theorem queue_spec (sound : s.Sound cfree contents) (cooked : Cooked s.tp)
    (below : (contents s.tp.t_rawq).length ≤ TTYHOG) (c : UInt8)
    (room : (s.queue c).m.cfreelist ≠ none) :
    (s.queue c).Sound cfree (update contents s.tp.t_rawq
      (contents s.tp.t_rawq ++ if Ends s.tp c then [c, mark] else [c])) ∧
    (s.queue c).tp =
      { s.tp with t_delct := if Ends s.tp c then s.tp.t_delct + 1 else s.tp.t_delct } := by
  obtain ⟨blocks, free, laid⟩ := sound.laid
  have count := (laid.holds s.tp.t_rawq).c_cc
  have same : char (c.toBitVec.setWidth 32) = c := by simp [char]
  have last : char 0o377 = mark := rfl
  have hog : ¬(TTYHOG : ℤ) < (s.m.clist s.tp.t_rawq).c_cc := by omega
  have lower : ¬(s.tp.t_flags &&& LCASE ≠ 0 ∧ 0x41 ≤ c ∧ c ≤ 0x5a) :=
    fun mapped => mapped.1 cooked.lcase
  have single : ¬s.tp.Single := not_not.mpr cooked.single
  rw [Line.queue, if_neg hog, if_neg lower] at room ⊢
  by_cases ends : Ends s.tp c
  · have both : ¬s.tp.Single ∧ (c = newline ∨ c = s.tp.t_eofc ∨ c = s.tp.t_brkc) := ⟨single, ends⟩
    simp only [if_pos both] at room ⊢
    rw [if_pos ends, if_pos ends]
    rcases putc_laid (p := s.tp.t_rawq) (c.toBitVec.setWidth 32) laid with
      ⟨-, blocks₁, free₁, laid₁⟩ | ⟨failed, full, empty⟩
    · rw [same] at laid₁
      rcases putc_laid (p := s.tp.t_rawq) 0o377 laid₁ with
        ⟨fine, blocks₂, free₂, laid₂⟩ | ⟨failed, -, empty⟩
      · rw [last, update_self, update_idem, List.append_assoc] at laid₂
        simp only [fine, if_true]
        exact ⟨⟨⟨blocks₂, free₂, laid₂⟩, sound.first, sound.second⟩, trivial⟩
      · simp only [failed] at room
        exact absurd empty room
    · -- Where there is no room for the character, there is none for the mark.
      simp only [failed] at room
      rcases (laid.own s.tp.t_rawq).putc 0o377 with ⟨-, some, -⟩ | ⟨failed', -, -⟩
      · exact absurd ⟨full, empty⟩ some
      · simp only [failed'] at room
        exact absurd empty room
  · have none : ¬(¬s.tp.Single ∧ (c = newline ∨ c = s.tp.t_eofc ∨ c = s.tp.t_brkc)) :=
      fun both => ends both.2
    simp only [if_neg none] at room ⊢
    rw [if_neg ends, if_neg ends]
    rcases putc_laid (p := s.tp.t_rawq) (c.toBitVec.setWidth 32) laid with
      ⟨-, blocks₁, free₁, laid₁⟩ | ⟨failed, -, empty⟩
    · rw [same] at laid₁
      exact ⟨⟨⟨blocks₁, free₁, laid₁⟩, sound.first, sound.second⟩, rfl⟩
    · rw [failed] at room
      exact absurd empty room

/-- An ordinary character is queued, also while output is stopped. -/
theorem ttyinput_eq (cooked : Cooked s.tp) (ordinary : Ordinary s.tp c) :
    s.ttyinput c = s.queue (queued s.tp c) := by
  have masked : c &&& 0o177 = c := by
    apply UInt8.toNat_inj.mp
    rw [UInt8.toNat_and]
    exact (Nat.and_two_pow_sub_one_eq_mod _ 7).trans (Nat.mod_eq_of_lt ordinary.seven)
  have raw : ¬s.tp.t_flags &&& RAW ≠ 0 := not_not.mpr cooked.raw
  have signal : ¬(c = s.tp.t_quitc ∨ c = s.tp.t_intrc) :=
    not_or.mpr ⟨ordinary.quitc, ordinary.intrc⟩
  simp only [Line.ttyinput, if_neg raw, masked, if_neg ordinary.startc, if_neg ordinary.stopc,
    ite_self, Line.cooked, if_neg signal, queued]

/-! ### Sessions -/

/-- The characters of a list. -/
def chars (m : Prim κ) (p : κ) : List UInt8 := (m.q_to_b p (m.clist p).c_cc).1

theorem chars_eq {m : Prim κ} (laid : Laid cfree m blocks free contents) (p : κ) :
    chars m p = contents p := by
  have count := (laid.holds p).c_cc
  obtain ⟨stored, -⟩ := (laid.own p).q_to_b (m.clist p).c_cc
  rw [chars, stored, count, Int.toNat_natCast, List.take_length]

/-- A terminal, what has been typed there, and what each call of `canon` has put on the canonical
queue. -/
structure Session (κ : Type) where
  s : Line κ
  text : List UInt8
  log : List (List UInt8)

/-- What can happen next, while some block is always free: an ordinary character is typed to a line
that stays short, when the raw queue is not too full; `canon` runs when there is a line; the system
does other things, such as reading the canonical queue, output, and all of this for other
terminals. -/
inductive Step (cfree : ℕ) : Session κ → Session κ → Prop
  | typed {x : Session κ} {c : UInt8} (ordinary : Ordinary x.s.tp c)
      (short : (lines x.s.tp x.text).2.length + 1 < CANBSIZ - 2)
      (below : (chars x.s.m x.s.tp.t_rawq).length ≤ TTYHOG)
      (room : (x.s.ttyinput c).m.cfreelist ≠ none) :
      Step cfree x ⟨x.s.ttyinput c, x.text ++ [c], x.log⟩
  | canon {x : Session κ} {n : ℕ} {s' : Line κ} (some : x.s.tp.t_delct ≠ 0)
      (done : x.s.canon = .ok (n, s')) (room : s'.m.cfreelist ≠ none) :
      Step cfree x ⟨s', x.text, x.log ++
        [(chars s'.m x.s.tp.t_canq).drop (chars x.s.m x.s.tp.t_canq).length]⟩
  | others {x : Session κ} {s' : Line κ} {t_state : ℕ} {t_chan : Bool}
      (sound : s'.Sound cfree (chars s'.m))
      (settings : s'.tp = { x.s.tp with t_state := t_state, t_chan := t_chan })
      (raw : chars s'.m x.s.tp.t_rawq = chars x.s.m x.s.tp.t_rawq) :
      Step cfree x ⟨s', x.text, x.log⟩

/-- The raw queue holds the lines that have not been read, and the calls of `canon` have edited the
lines before them. -/
structure Reads (cfree : ℕ) (tp : Tty κ) (x : Session κ) : Prop where
  sound : x.s.Sound cfree (chars x.s.m)
  settings : ∃ t_state t_chan t_delct,
    x.s.tp = { tp with t_state := t_state, t_chan := t_chan, t_delct := t_delct }
  read : x.log.length ≤ (lines tp x.text).1.length
  delct : x.s.tp.t_delct = UInt8.ofNat ((lines tp x.text).1.length - x.log.length)
  raw : chars x.s.m tp.t_rawq = ((lines tp x.text).1.drop x.log.length).flatMap (· ++ [mark]) ++
    (lines tp x.text).2
  log : x.log = ((lines tp x.text).1.take x.log.length).map (edited tp)
  full : (chars x.s.m tp.t_rawq).length ≤ TTYHOG + 2
  short : ∀ l ∈ (lines tp x.text).1, 0 < l.length ∧ l.length < CANBSIZ - 2
  plain : ∀ l ∈ (lines tp x.text).2 :: (lines tp x.text).1, ∀ c ∈ l,
    c ≠ mark ∧ (c = 0 → c ≠ tp.t_erase ∧ c ≠ tp.t_kill)

omit [DecidableEq κ] in
theorem lines_snoc (tp : Tty κ) (text : List UInt8) (c : UInt8) :
    lines tp (text ++ [c]) = typed tp (lines tp text) c := by
  rw [lines, List.foldl_append]
  rfl

omit [DecidableEq κ] in
/-- What is put into the queue is no mark, and no null that edits. -/
theorem Ordinary.queued_plain (ordinary : Ordinary tp c) : queued tp c ≠ mark ∧
    (queued tp c = 0 → queued tp c ≠ tp.t_erase ∧ queued tp c ≠ tp.t_kill) := by
  rw [queued]
  split
  next => exact ⟨by decide, fun zero => absurd zero (by decide)⟩
  next =>
    constructor
    · rintro rfl
      exact absurd ordinary.seven (by decide)
    · exact ordinary.nul

omit [DecidableEq κ] in
/-- The characters of the lines are those of before and the new one. -/
theorem typed_plain {P : UInt8 → Prop} {text : List (List UInt8) × List UInt8}
    (before : ∀ l ∈ text.2 :: text.1, ∀ d ∈ l, P d) (new : P (queued tp c)) :
    ∀ l ∈ (typed tp text c).2 :: (typed tp text c).1, ∀ d ∈ l, P d := by
  obtain ⟨current, complete⟩ := List.forall_mem_cons.mp before
  have longer : ∀ d ∈ text.2 ++ [queued tp c], P d :=
    List.forall_mem_append.mpr ⟨current, List.forall_mem_singleton.mpr new⟩
  rw [typed]
  split
  · refine List.forall_mem_cons.mpr ⟨fun d none => absurd none List.not_mem_nil, ?_⟩
    exact List.forall_mem_append.mpr ⟨complete, List.forall_mem_singleton.mpr longer⟩
  · exact List.forall_mem_cons.mpr ⟨longer, complete⟩

omit [DecidableEq κ] in
/-- The complete lines are short when the one that is being typed is. -/
theorem typed_short {text : List (List UInt8) × List UInt8} {k : ℕ}
    (before : ∀ l ∈ text.1, 0 < l.length ∧ l.length < k) (short : text.2.length + 1 < k) :
    ∀ l ∈ (typed tp text c).1, 0 < l.length ∧ l.length < k := by
  rw [typed]
  split
  · refine List.forall_mem_append.mpr ⟨before, List.forall_mem_singleton.mpr ?_⟩
    rw [List.length_append, List.length_singleton]
    exact ⟨Nat.succ_pos _, short⟩
  · exact before

/-- A character for the line that is being typed. -/
theorem Reads.typed {x : Session κ} (reads : Reads cfree tp x) (cooked : Cooked tp)
    (ordinary : Ordinary x.s.tp c) (short : (lines x.s.tp x.text).2.length + 1 < CANBSIZ - 2)
    (below : (chars x.s.m x.s.tp.t_rawq).length ≤ TTYHOG)
    (room : (x.s.ttyinput c).m.cfreelist ≠ none) :
    Reads cfree tp ⟨x.s.ttyinput c, x.text ++ [c], x.log⟩ := by
  obtain ⟨t_state, t_chan, t_delct, settings⟩ := reads.settings
  have cooked' : Cooked x.s.tp := by
    rw [settings]
    exact ⟨cooked.single, cooked.raw, cooked.lcase, cooked.apart⟩
  have same : queued x.s.tp c = queued tp c := by
    rw [settings]
    rfl
  have ends : Ends x.s.tp (queued tp c) ↔ Ends tp (queued tp c) := by
    rw [settings]
    rfl
  have list : x.s.tp.t_rawq = tp.t_rawq := by rw [settings]
  have text : lines x.s.tp x.text = lines tp x.text := by
    rw [settings]
    rfl
  have plain := ordinary.queued_plain
  rw [same] at plain
  have nulls : queued tp c = 0 → queued tp c ≠ tp.t_erase ∧ queued tp c ≠ tp.t_kill := by
    intro zero
    have nul := plain.2 zero
    rw [settings] at nul
    exact nul
  rw [ttyinput_eq cooked' ordinary, same] at room ⊢
  obtain ⟨sound, tp'⟩ := queue_spec reads.sound cooked' below (queued tp c) room
  rw [list, reads.raw] at sound below
  obtain ⟨blocks, free, laid⟩ := sound.laid
  have now : chars (x.s.queue (queued tp c)).m = _ := funext fun p => chars_eq laid p
  rw [text] at short
  obtain ⟨⟨ls, cur⟩, held⟩ : ∃ p, lines tp x.text = p := ⟨_, rfl⟩
  have read := reads.read
  have delct := reads.delct
  have log := reads.log
  have shorts := reads.short
  have plains := reads.plain
  rw [held] at short sound now below read delct log shorts plains
  dsimp only at short sound now below read delct log shorts plains
  have next : lines tp (x.text ++ [c]) = Terminal.typed tp (ls, cur) c := by rw [lines_snoc, held]
  have shorts' : ∀ l ∈ (Terminal.typed tp (ls, cur) c).1, 0 < l.length ∧ l.length < CANBSIZ - 2 :=
    typed_short shorts short
  have plains' : ∀ l ∈ (Terminal.typed tp (ls, cur) c).2 :: (Terminal.typed tp (ls, cur) c).1,
      ∀ d ∈ l, d ≠ mark ∧ (d = 0 → d ≠ tp.t_erase ∧ d ≠ tp.t_kill) :=
    typed_plain plains ⟨plain.1, nulls⟩
  rw [← next] at shorts' plains'
  by_cases last : Ends tp (queued tp c)
  · rw [if_pos (ends.mpr last)] at sound now tp'
    rw [Terminal.typed, if_pos last] at next
    have sum : ls.length + 1 - x.log.length = ls.length - x.log.length + 1 := by omega
    have taken : (ls ++ [cur ++ [queued tp c]]).take x.log.length = ls.take x.log.length :=
      List.take_append_of_le_length read
    have left : (ls ++ [cur ++ [queued tp c]]).drop x.log.length =
        ls.drop x.log.length ++ [cur ++ [queued tp c]] := List.drop_append_of_le_length read
    constructor
    · rwa [now]
    · exact ⟨t_state, t_chan, _, by rw [tp', settings]⟩
    · rw [next, List.length_append]
      exact read.trans (Nat.le_add_right _ _)
    · rw [tp', next, List.length_append, List.length_singleton, sum, UInt8.ofNat_add, ← delct]
      rfl
    · rw [now, update_self, next, left, List.flatMap_append, List.flatMap_singleton,
        List.append_nil, List.append_assoc, List.append_assoc]
      rfl
    · rw [next, taken]
      exact log
    · rw [now, update_self, List.length_append]
      exact Nat.add_le_add_right below 2
    · exact shorts'
    · exact plains'
  · rw [if_neg (ends.not.mpr last)] at sound now tp'
    rw [Terminal.typed, if_neg last] at next
    constructor
    · rwa [now]
    · exact ⟨t_state, t_chan, _, by rw [tp', settings]⟩
    · rwa [next]
    · rw [tp', next]
      exact delct
    · rw [now, update_self, next, List.append_assoc]
    · rw [next]
      exact log
    · rw [now, update_self, List.length_append]
      exact Nat.add_le_add below (Nat.le_succ 1)
    · exact shorts'
    · exact plains'

/-- The next line is read. -/
theorem Reads.canon {x : Session κ} (reads : Reads cfree tp x) (cooked : Cooked tp)
    (some : x.s.tp.t_delct ≠ 0) : ∃ n s', x.s.canon = .ok (n, s') ∧
      (s'.m.cfreelist ≠ none → Reads cfree tp ⟨s', x.text, x.log ++
        [(chars s'.m x.s.tp.t_canq).drop (chars x.s.m x.s.tp.t_canq).length]⟩) := by
  obtain ⟨t_state, t_chan, t_delct, settings⟩ := reads.settings
  have cooked' : Cooked x.s.tp := by
    rw [settings]
    exact ⟨cooked.single, cooked.raw, cooked.lcase, cooked.apart⟩
  have list : x.s.tp.t_rawq = tp.t_rawq := by rw [settings]
  have same : edited x.s.tp = edited tp := by
    rw [settings]
    rfl
  obtain ⟨⟨ls, cur⟩, held⟩ : ∃ p, lines tp x.text = p := ⟨_, rfl⟩
  have delct := reads.delct
  have raw := reads.raw
  have log := reads.log
  have shorts := reads.short
  have plains := reads.plain
  rw [held] at delct raw log shorts plains
  dsimp only at delct raw log shorts plains
  have waiting : x.log.length < ls.length := by
    by_contra none
    rw [Nat.sub_eq_zero_of_le (not_lt.mp none)] at delct
    exact some delct
  have first := List.drop_eq_getElem_cons waiting
  have mem : ls[x.log.length] ∈ ls := List.getElem_mem waiting
  generalize ls[x.log.length] = l at first mem
  rw [first, List.flatMap_cons, List.append_assoc, List.append_assoc, ← list,
    List.singleton_append] at raw
  have plain : ∀ c ∈ l, c ≠ mark ∧ (c = 0 → c ≠ x.s.tp.t_erase ∧ c ≠ x.s.tp.t_kill) := by
    rw [settings]
    exact plains l (List.mem_cons_of_mem _ mem)
  obtain ⟨n, s', done, length, tp', next⟩ :=
    canon_spec reads.sound cooked' some raw (shorts l mem).2 plain
  refine ⟨n, s', done, fun room => ?_⟩
  have sound := next room
  obtain ⟨blocks, free, laid⟩ := sound.laid
  have now : chars s'.m = _ := funext fun p => chars_eq laid p
  have put : (chars s'.m x.s.tp.t_canq).drop (chars x.s.m x.s.tp.t_canq).length = edited tp l := by
    rw [now, update_self, List.drop_left, same]
  have taken : ls.take (x.log.length + 1) = ls.take x.log.length ++ [l] := by
    rw [List.take_add_one, ← List.head?_drop, first]
    rfl
  have rest : ls.length - x.log.length = ls.length - (x.log.length + 1) + 1 := by omega
  rw [put]
  constructor
  · rwa [now]
  · exact ⟨t_state, t_chan, _, by rw [tp', settings]⟩
  · rw [held, List.length_append]
    exact waiting
  · rw [tp', held, List.length_append, List.length_singleton]
    dsimp only
    rw [delct, rest, UInt8.ofNat_add]
    exact UInt8.add_sub_cancel _ _
  · rw [now, held, List.length_append, List.length_singleton, ← list,
      update_of_ne cooked'.apart, update_self]
  · rw [held, List.length_append, List.length_singleton, taken, List.map_append, ← log]
    rfl
  · have full := reads.full
    rw [← list, raw, List.length_append, List.length_cons] at full
    rw [now, ← list, update_of_ne cooked'.apart, update_self]
    omega
  · rw [held]
    exact shorts
  · rw [held]
    exact plains

theorem Reads.step {x y : Session κ} (reads : Reads cfree tp x) (cooked : Cooked tp)
    (step : Step cfree x y) : Reads cfree tp y := by
  cases step with
  | typed ordinary short below room => exact reads.typed cooked ordinary short below room
  | canon some done room =>
      obtain ⟨n, s', done', next⟩ := reads.canon cooked some
      obtain ⟨rfl, rfl⟩ := Prod.mk.inj (Except.ok.inj (done.symm.trans done'))
      exact next room
  | others sound settings' raw =>
      obtain ⟨t_state, t_chan, t_delct, settings⟩ := reads.settings
      have list : x.s.tp.t_rawq = tp.t_rawq := by rw [settings]
      rw [list, reads.raw] at raw
      refine ⟨sound, ?_, reads.read, ?_, raw, reads.log, ?_, reads.short, reads.plain⟩
      · rw [settings] at settings'
        exact ⟨_, _, _, settings'⟩
      · rw [settings']
        exact reads.delct
      · rw [raw, ← reads.raw]
        exact reads.full

/-- A terminal at the start of a session: a cooked mode, and nothing typed. -/
structure Line.Fresh (cfree : ℕ) (s : Line κ) : Prop where
  cooked : Cooked s.tp
  sound : s.Sound cfree (chars s.m)
  raw : chars s.m s.tp.t_rawq = []
  delct : s.tp.t_delct = 0

theorem Line.Fresh.reads (fresh : s.Fresh cfree) : Reads cfree s.tp ⟨s, [], []⟩ where
  sound := fresh.sound
  settings := ⟨_, _, _, rfl⟩
  read := le_rfl
  delct := fresh.delct
  raw := fresh.raw
  log := rfl
  full := by
    dsimp only
    rw [fresh.raw]
    exact Nat.zero_le _
  short l mem := absurd mem List.not_mem_nil
  plain l mem c here := by
    rw [List.mem_singleton.mp mem] at here
    exact absurd here List.not_mem_nil

/-- A terminal with the usual characters, of four lists. -/
def usual : Tty (Fin 4) where
  t_rawq := 0
  t_canq := 1
  t_outq := 2
  t_holdq := 3
  t_chan := false
  t_flags := 0
  t_state := CARR_ON
  t_delct := 0
  t_erase := 0x23
  t_kill := 0x40
  t_intrc := 0x7f
  t_quitc := 0x1c
  t_startc := 0x11
  t_stopc := 0x13
  t_eofc := 0x04
  t_brkc := 0o377

/-- The terminal when all blocks are free. -/
def idle : Line (Fin 4) where
  m := Prim.cinit ⟨fun _ => none, fun _ => 0, none, 0, fun _ => ⟨0, 0, 0⟩⟩ 4096
  canonb := fun _ => 0
  tp := usual

/-- Before each character of a text, and behind the last, some block is free. -/
def Spare : List UInt8 → Line (Fin 4) → Prop
  | [], s => s.m.cfreelist ≠ none
  | c :: text, s => s.m.cfreelist ≠ none ∧ Spare text (s.ttyinput c)

instance Spare.decidable : ∀ (text : List UInt8) (s : Line (Fin 4)), Decidable (Spare text s)
  | [], s => inferInstanceAs (Decidable (s.m.cfreelist ≠ none))
  | c :: text, s =>
      have := Spare.decidable text (s.ttyinput c)
      inferInstanceAs (Decidable (s.m.cfreelist ≠ none ∧ Spare text (s.ttyinput c)))

end UnixV7.Terminal
