import Mathlib.Algebra.Order.Group.Nat
import UnixV7.Library.Stretch
import UnixV7.Cmd.Ed.Stored

/-!
# Moving and copying lines

`move`, `append`, `getcopy` and `reverse` of `ed.c`. The addresses of the lines stand in a table in
memory, which `append` may have to enlarge; `realloc` may put it elsewhere. The temporary file is
the map from the addresses to the lines that `getline` reads and `putline` extends.
-/

namespace UnixV7.Ed

open Function

/-- What the commands work on. A pointer is the number of a word in memory. -/
structure Table where
  /-- The words of memory. There are none where nothing was stored, or where it was given back. -/
  word : ℕ → Option ℕ
  zero : ℕ
  dol : ℕ
  dot : ℕ
  addr1 : ℕ
  addr2 : ℕ
  nlall : ℕ
  /-- The lines of the temporary file. -/
  file : ℕ → List UInt8
  tline : ℕ
  linebuf : List UInt8

/-- Why a command is left. -/
inductive Stop
  | error (ed : Table)
  /-- A word was used that has no value. -/
  | undefined
  | endless

namespace Table

/-- `setdot` -/
def setdot (ed : Table) : Except Stop Table :=
  let ed := if ed.addr2 = 0 then { ed with addr1 := ed.dot, addr2 := ed.dot } else ed
  if ed.addr2 < ed.addr1 then .error (.error ed) else .ok ed

/-- `nonzero` -/
def nonzero (ed : Table) : Except Stop Unit :=
  if ed.addr1 ≤ ed.zero ∨ ed.dol < ed.addr2 then .error (.error ed) else .ok ()

/-- `getline`: the line at an address, whose last bit is a mark. -/
def getline (tl : ℕ) (ed : Table) : Table := { ed with linebuf := ed.file (tl / 2 * 2) }

/-- `putline`, with the address of the line. -/
def putline (ed : Table) : ℕ × Table :=
  let line := ed.linebuf.takeWhile (· ≠ newline)
  (ed.tline, { ed with
    file := update ed.file ed.tline line
    tline := ed.tline + (line.length + 4) / 2 / 2 * 2 })

/-- `getcopy`: the next line of the range, or nothing behind it. -/
def getcopy (ed : Table) : Except Stop (Option Table) :=
  if ed.addr2 < ed.addr1 then .ok none
  else
    match ed.word ed.addr1 with
    | none => .error .undefined
    | some tl => .ok (some { ed.getline tl with addr1 := ed.addr1 + 1 })

/-- The table begins at `base` now; its words have come along. -/
def reallocated (base : ℕ) (ed : Table) : Table :=
  { ed with
    word := fun p =>
      if base ≤ p ∧ p - base < ed.nlall then ed.word (ed.zero + (p - base)) else none
    zero := base
    dot := ed.dot - ed.zero + base
    dol := ed.dol - ed.zero + base
    nlall := ed.nlall + 512 }

/-- Room for one more line in the table. `place` is where `realloc` puts a table of a size. -/
def enlarge (place : ℕ → Option ℕ) (ed : Table) : Except Stop Table :=
  if ed.nlall ≤ ed.dol - ed.zero + 1 then
    match place (ed.nlall + 512) with
    | none => .error (.error { ed with nlall := ed.nlall + 512 })
    | some base => .ok (ed.reallocated base)
  else .ok ed

/-- The words from `rdot` to `a1` go up by one. -/
def shift (rdot : ℕ) : ℕ → (ℕ → Option ℕ) → ℕ → Option ℕ
  | 0, word => word
  | a1 + 1, word => if rdot < a1 + 1 then shift rdot a1 (update word (a1 + 1) (word a1)) else word

/-- The line in `linebuf` comes behind dot. -/
def insert (ed : Table) : Table :=
  let (tl, ed) := ed.putline
  { ed with
    dol := ed.dol + 1
    dot := ed.dot + 1
    word := update (shift (ed.dot + 1) (ed.dol + 1) ed.word) (ed.dot + 1) (some tl) }

/-- The loop of `append`, with the number of lines. -/
def appendFrom (place : ℕ → Option ℕ) (f : Table → Except Stop (Option Table)) :
    ℕ → ℕ → Table → Except Stop (ℕ × Table)
  | 0, _, _ => .error .endless
  | fuel + 1, nline, ed => do
      match ← f ed with
      | none => .ok (nline, ed)
      | some ed =>
          let ed ← ed.enlarge place
          appendFrom place f fuel (nline + 1) ed.insert

/-- `append` -/
def append (place : ℕ → Option ℕ) (f : Table → Except Stop (Option Table)) (fuel a : ℕ)
    (ed : Table) : Except Stop (ℕ × Table) :=
  appendFrom place f fuel 0 { ed with dot := a }

/-- The marks of the words from `ad1` on are cleared. -/
def unmark : ℕ → ℕ → (ℕ → Option ℕ) → ℕ → Option ℕ
  | 0, _, word => word
  | n + 1, ad1, word => unmark n (ad1 + 1) (update word ad1 ((word ad1).map fun tl => tl / 2 * 2))

/-- `reverse` -/
def reverse (a1 a2 : ℕ) (ed : Table) : Table := { ed with word := turnRound ed.word a1 a2 }

/-- The three reversals: the lines from `ad1` to `ad2` come behind `adt`. -/
def exchange (adt ad1 ad2 : ℕ) (ed : Table) : Except Stop Table :=
  if adt < ad1 then
    let ed := { ed with dot := adt + (ad2 - ad1) }
    if adt + 1 = ad1 then .ok ed
    else .ok (((ed.reverse (adt + 1) ad1).reverse ad1 ad2).reverse (adt + 1) ad2)
  else if ad2 ≤ adt then
    let ed := { ed with dot := adt }
    .ok (((ed.reverse ad1 ad2).reverse ad2 (adt + 1)).reverse ad1 (adt + 1))
  else .error (.error ed)

/-- `move`, for the destination that `address` found, 0 if there was none. -/
def move (place : ℕ → Option ℕ) (cflag : Bool) (adt : ℕ) (ed : Table) : Except Stop Table := do
  let ed ← ed.setdot
  ed.nonzero
  if adt = 0 then .error (.error ed)
  else if cflag then do
    let (_, copied) ← ed.append place getcopy (ed.addr2 + 2 - ed.addr1) ed.dol
    copied.exchange (adt - ed.zero + copied.zero) (ed.dol + 1 - ed.zero + copied.zero)
      (copied.dol + 1)
  else
    let ed := { ed with word := unmark (ed.addr2 + 1 - ed.addr1) ed.addr1 ed.word }
    ed.exchange adt ed.addr1 (ed.addr2 + 1)

end Table

/-! ## The lines of the table -/

namespace Table

/-- The line that a word leads to. -/
def text (ed : Table) (tl : ℕ) : List UInt8 := ed.file (tl / 2 * 2)

/-- Memory with the lines instead of the words. -/
def view (ed : Table) (p : ℕ) : Option (List UInt8) := (ed.word p).map ed.text

/-- The words of the table and what is known of them. -/
structure Sound (ed : Table) : Prop where
  /-- Memory is looked at as far as it belongs to the table. -/
  inside : ∀ p, ed.word p ≠ none → ed.zero ≤ p ∧ p < ed.zero + ed.nlall
  old : ∀ p tl, ed.word p = some tl → tl / 2 * 2 < ed.tline
  even : ed.tline % 2 = 0
  plain : ∀ tl, newline ∉ ed.file tl

/-- The lines of the buffer. -/
structure Holds (ed : Table) (ls : List (List UInt8)) : Prop extends ed.Sound where
  dol : ed.dol = ed.zero + ls.length
  lines : LiesAt ed.view (ed.zero + 1) (ls.map some)
  fits : ls.length < ed.nlall

variable {ed ed₀ : Table} {ls us xs cs rest : List (List UInt8)} {line : List UInt8}
  {adt ad1 ad2 n : ℕ}

theorem view_reverse (ed : Table) (a1 a2 : ℕ) :
    (ed.reverse a1 a2).view = turnRound ed.view a1 a2 :=
  turnRound_map (Option.map ed.text) ed.word a1 a2

/-- A reversal inside the table. -/
theorem Sound.reverse (sound : ed.Sound) {a1 a2 : ℕ} (low : ed.zero ≤ a1)
    (high : a2 ≤ ed.zero + ed.nlall) : (ed.reverse a1 a2).Sound where
  inside p some' := by
    by_contra out
    refine out (sound.inside p ?_)
    have same : turnRound ed.word a1 a2 p = ed.word p :=
      turnRound_of_out (show p < a1 ∨ a2 ≤ p from by
        by_contra within
        exact out ⟨show ed.zero ≤ p by omega, show p < ed.zero + ed.nlall by omega⟩)
    exact same ▸ some'
  old p tl here := by
    obtain ⟨q, same⟩ := exists_turnRound ed.word a1 a2 p
    exact sound.old q tl (same.symm.trans here)
  even := sound.even
  plain := sound.plain

/-- The three reversals let two neighbouring groups of lines change places. -/
theorem Holds.exchanged {as bs : List (List UInt8)} (holds : ed.Holds (as ++ (xs ++ us) ++ bs))
    (start : ad1 = ed.zero + 1 + as.length) (middle : ad2 = ad1 + xs.length) {stop : ℕ}
    (last : stop = ad2 + us.length) :
    (((ed.reverse ad1 ad2).reverse ad2 stop).reverse ad1 stop).Holds (as ++ (us ++ xs) ++ bs) := by
  have size := holds.fits
  simp only [List.length_append] at size
  have lines := holds.lines
  rw [List.map_append, List.map_append, liesAt_append, liesAt_append, List.length_map,
    List.length_append, List.length_map, List.length_map, ← start] at lines
  obtain ⟨⟨before, groups⟩, behind⟩ := lines
  rw [List.map_append] at groups
  have turned := turnRound_exchange groups (by rw [middle, List.length_map])
    (by rw [last, List.length_map] : stop = ad2 + (us.map some).length)
  refine ⟨?_, ?_, ?_, ?_⟩
  · have first := holds.toSound.reverse (show ed.zero ≤ ad1 by omega)
      (show ad2 ≤ ed.zero + ed.nlall by omega)
    have second := first.reverse (show ed.zero ≤ ad2 by omega)
      (show stop ≤ ed.zero + ed.nlall by omega)
    exact second.reverse (show ed.zero ≤ ad1 by omega) (show stop ≤ ed.zero + ed.nlall by omega)
  · have dol := holds.dol
    simp only [List.length_append] at dol ⊢
    show ed.dol = ed.zero + _
    omega
  · have same : ∀ p, p < ad1 ∨ stop ≤ p →
        turnRound (turnRound (turnRound ed.view ad1 ad2) ad2 stop) ad1 stop p = ed.view p := by
      intro p out
      rw [turnRound_of_out (by omega), turnRound_of_out (by omega), turnRound_of_out (by omega)]
    rw [view_reverse, view_reverse, view_reverse]
    show LiesAt _ (ed.zero + 1) _
    rw [List.map_append, List.map_append, liesAt_append, liesAt_append, List.length_map,
      List.length_append, List.length_map, List.length_map, List.map_append, List.length_append,
      Nat.add_comm us.length, ← List.length_append]
    refine ⟨⟨before.congr fun p low high => same p (.inl ?_), start ▸ turned⟩,
      behind.congr fun p low high => same p (.inr ?_)⟩
    · rw [List.length_map] at high
      omega
    · rw [List.length_append] at low
      omega
  · simp only [List.length_append] at size ⊢
    show _ < ed.nlall
    omega

/-- Dot plays no part in what the table holds. -/
theorem Holds.withDot (holds : ed.Holds ls) (dot : ℕ) : Holds { ed with dot := dot } ls :=
  ⟨⟨holds.inside, holds.old, holds.even, holds.plain⟩, holds.dol, holds.lines, holds.fits⟩

/-- Lines come up to their destination. -/
theorem exchange_up {as bs : List (List UInt8)} (holds : ed.Holds (as ++ (us ++ xs) ++ bs))
    (target : adt = ed.zero + as.length) (start : ad1 = adt + 1 + us.length)
    (stop : ad2 = ad1 + xs.length) :
    ∃ ed', ed.exchange adt ad1 ad2 = .ok ed' ∧ ed'.Holds (as ++ (xs ++ us) ++ bs) ∧
      ed'.dot = ed'.zero + as.length + xs.length := by
  rw [exchange, if_pos (by omega)]
  split
  next same =>
    obtain rfl := List.length_eq_zero_iff.mp (by omega : us.length = 0)
    rw [List.nil_append] at holds
    refine ⟨_, rfl, ?_, ?_⟩
    · rw [List.append_nil]
      exact holds.withDot _
    · show adt + (ad2 - ad1) = ed.zero + as.length + xs.length
      omega
  next other =>
    refine ⟨_, rfl, (holds.withDot _).exchanged ?_ start stop, ?_⟩
    · show adt + 1 = ed.zero + 1 + as.length
      omega
    · show adt + (ad2 - ad1) = ed.zero + as.length + xs.length
      omega

/-- Lines go down to their destination. -/
theorem exchange_down {as bs : List (List UInt8)} (holds : ed.Holds (as ++ (xs ++ us) ++ bs))
    (start : ad1 = ed.zero + 1 + as.length) (stop : ad2 = ad1 + xs.length) (some' : us ≠ [])
    (target : adt + 1 = ad2 + us.length) :
    ∃ ed', ed.exchange adt ad1 ad2 = .ok ed' ∧ ed'.Holds (as ++ (us ++ xs) ++ bs) ∧
      ed'.dot = ed'.zero + as.length + us.length + xs.length := by
  have more := List.length_pos_iff.mpr some'
  rw [exchange, if_neg (by omega), if_pos (by omega)]
  refine ⟨_, rfl, (holds.withDot adt).exchanged start stop target, ?_⟩
  show adt = ed.zero + as.length + us.length + xs.length
  omega

/-! ## Marks -/

theorem unmark_cases (n ad1 : ℕ) (word : ℕ → Option ℕ) (p : ℕ) :
    unmark n ad1 word p = word p ∨ unmark n ad1 word p = (word p).map fun tl => tl / 2 * 2 := by
  induction n generalizing ad1 word with
  | zero => exact .inl rfl
  | succ n ih =>
      have twice : ∀ w : Option ℕ, (w.map fun tl => tl / 2 * 2).map (fun tl => tl / 2 * 2) =
          w.map fun tl => tl / 2 * 2 := by
        intro w
        rw [Option.map_map]
        congr 1
        funext tl
        show tl / 2 * 2 / 2 * 2 = tl / 2 * 2
        omega
      obtain same | cleared := ih (ad1 + 1) (update word ad1 ((word ad1).map fun tl => tl / 2 * 2))
      · rw [unmark, same, update_apply]
        split
        next here => exact .inr (by rw [here])
        next => exact .inl rfl
      · rw [unmark, cleared, update_apply]
        split
        next here => exact .inr (by rw [twice, here])
        next => exact .inr rfl

/-- Marks do not change the lines. -/
theorem Holds.unmark (holds : ed.Holds ls) (n ad1 : ℕ) :
    Holds { ed with word := Table.unmark n ad1 ed.word } ls where
  inside p some' := by
    refine holds.inside p fun none => some' ?_
    obtain same | cleared := unmark_cases n ad1 ed.word p
    · exact same.trans none
    · exact cleared.trans (by rw [none]; rfl)
  old p tl here := by
    obtain same | cleared := unmark_cases n ad1 ed.word p
    · exact holds.old p tl (same.symm.trans here)
    · obtain ⟨tl', there, rfl⟩ := Option.map_eq_some_iff.mp (cleared.symm.trans here)
      have := holds.old p tl' there
      show tl' / 2 * 2 / 2 * 2 < ed.tline
      omega
  even := holds.even
  plain := holds.plain
  dol := holds.dol
  lines := by
    refine holds.lines.congr fun p _ _ => ?_
    show (Table.unmark n ad1 ed.word p).map ed.text = (ed.word p).map ed.text
    obtain same | cleared := unmark_cases n ad1 ed.word p
    · rw [same]
    · rw [cleared, Option.map_map]
      congr 1
      funext tl
      show ed.file (tl / 2 * 2 / 2 * 2) = ed.file (tl / 2 * 2)
      congr 1
      omega
  fits := holds.fits

/-! ## Lines are put in -/

/-- `putline` keeps the lines that were there. -/
theorem Sound.text_putline (sound : ed.Sound) {p tl : ℕ} (here : ed.word p = some tl) :
    ed.putline.2.text tl = ed.text tl :=
  update_of_ne (Nat.ne_of_lt (sound.old p tl here)) _ _

/-- The line in `linebuf` is found where `putline` has put it. -/
theorem text_putline_self (sound : ed.Sound) (plain : newline ∉ ed.linebuf) :
    ed.putline.2.text ed.tline = ed.linebuf := by
  have whole : ed.linebuf.takeWhile (· ≠ newline) = ed.linebuf :=
    List.takeWhile_eq_self_iff.mpr fun c mem =>
      decide_eq_true fun same => plain (same ▸ mem)
  have even := sound.even
  show update ed.file ed.tline (ed.linebuf.takeWhile (· ≠ newline)) (ed.tline / 2 * 2) = ed.linebuf
  rw [show ed.tline / 2 * 2 = ed.tline by omega, update_self, whole]

/-- A line is put behind the last one. -/
theorem Sound.insert (sound : ed.Sound) (last : ed.dot = ed.dol)
    (room : ed.dol + 1 < ed.zero + ed.nlall) (low : ed.zero ≤ ed.dol)
    (plain : newline ∉ ed.linebuf) :
    ed.insert.Sound ∧ ∀ p, ed.insert.view p = if p = ed.dol + 1 then some ed.linebuf
      else ed.view p := by
  have shifted : shift (ed.dot + 1) (ed.dol + 1) ed.putline.2.word = ed.word :=
    if_neg (by omega)
  have word : ed.insert.word = update (shift (ed.dot + 1) (ed.dol + 1) ed.putline.2.word)
    (ed.dot + 1) (some ed.tline) := rfl
  rw [shifted, last] at word
  refine ⟨⟨fun p some' => ?_, fun p tl here => ?_, ?_, fun tl => ?_⟩, fun p => ?_⟩
  · rw [word, update_apply] at some'
    show ed.zero ≤ p ∧ p < ed.zero + ed.nlall
    split at some'
    · omega
    · exact sound.inside p some'
  · have more : ed.tline < ed.insert.tline :=
      show ed.tline < ed.tline + _ by omega
    rw [word, update_apply] at here
    split at here
    · have even := sound.even
      obtain rfl := Option.some.inj here
      omega
    · exact (sound.old p tl here).trans more
  · have even := sound.even
    show (ed.tline + _ / 2 / 2 * 2) % 2 = 0
    omega
  · show newline ∉ update ed.file ed.tline _ tl
    rw [update_apply]
    split
    · exact fun mem => plain ((List.takeWhile_sublist _).subset mem)
    · exact sound.plain tl
  · rw [view, word, update_apply]
    split
    · exact congrArg some (text_putline_self sound plain)
    · rw [view]
      cases here : ed.word p with
      | none => rfl
      | some tl => exact congrArg some (sound.text_putline here)

/-! ## The temporary file -/

/-- The map of the lines is right for the lines that were put in the file. -/
structure Agrees (ed : Table) (w : World) : Prop where
  tline : ed.tline = w.ed.tline
  file : ∀ tl line, (tl, line) ∈ w.stored → ed.file tl = line

variable {w : World}

/-- A line is read as the map has it. -/
theorem Agrees.getline (agrees : ed.Agrees w) (kept : w.Kept) {tl : ℕ} {line : List UInt8}
    (mem : (tl, line) ∈ w.stored) :
    ∃ after, Ed.getline tl ⟨w.ed, none⟩ = (some (ed.getline tl).linebuf, ⟨after, none⟩) := by
  obtain ⟨even, short, proper⟩ := kept.lines tl line mem
  obtain ⟨chars, after, read, same, -⟩ := (getline_spec even short proper
    fun q d here => ⟨tl, line, mem, here⟩).returns kept.sound
  refine ⟨after, read.trans ?_⟩
  rw [same, Table.getline, show tl / 2 * 2 = tl by omega, agrees.file tl line mem]

/-- A line is put in the file where the map gets it. -/
theorem Agrees.putline (agrees : ed.Agrees w) (kept : w.Kept) (clear : w.Clear) {linebuf : Linebuf}
    (same : ed.linebuf = linebuf.chars) :
    ed.putline.2.Agrees (w.step (.putline linebuf none)) := by
  obtain ⟨addr, after, done, rfl, sound⟩ :=
    (putline_spec linebuf.chars kept.even kept.before).returns ⟨kept.sound, clear⟩
  rw [World.step, done]
  have line : ed.linebuf.takeWhile (· ≠ newline) = linebuf.line := by rw [same]; rfl
  constructor
  · show ed.tline + ((ed.linebuf.takeWhile (· ≠ newline)).length + 4) / 2 / 2 * 2 = after.tline
    rw [sound.tline, same, agrees.tline]
  · intro tl stored mem
    show update ed.file ed.tline (ed.linebuf.takeWhile (· ≠ newline)) tl = stored
    rw [line, agrees.tline]
    obtain new | old := List.mem_cons.mp mem
    · obtain ⟨rfl, rfl⟩ := Prod.mk.inj new
      exact update_self _ _ _
    · have below : tl < w.ed.tline := by
        obtain ⟨d, along⟩ : ∃ d, Along stored (2 * tl) (2 * tl) d := by
          cases stored with
          | nil => exact ⟨0, rfl, rfl⟩
          | cons c _ => exact ⟨c, .inl ⟨rfl, rfl⟩⟩
        have := kept.before _ _ ⟨tl, stored, old, along⟩
        omega
      rw [update_of_ne (Nat.ne_of_lt below), agrees.file tl stored old]

end Table

end UnixV7.Ed
