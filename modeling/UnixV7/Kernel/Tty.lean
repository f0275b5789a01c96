import UnixV7.Kernel.CharLists

/-!
# Terminal input

`ttyinput` and `canon` of `tty.c`, on character lists. A typed character goes to the raw queue, and
behind the last one of a line a delimiter; `canon` edits one line in the buffer `canonb` and puts it
on the canonical queue. Output is left to others: the echo, and the characters that stop and start
the sender.
-/

namespace UnixV7.Terminal

open Function Prim

def TTYHOG : ℕ := 256

def CANBSIZ : ℕ := 256

/-- Modes. -/
def CBREAK : ℕ := 0o2

def LCASE : ℕ := 0o4

def CRMOD : ℕ := 0o20

def RAW : ℕ := 0o40

/-- Internal state bits. -/
def CARR_ON : ℕ := 0o20

def TTSTOP : ℕ := 0o400

/-- `'\\'` -/
def backslash : UInt8 := 0x5c

/-- `'\n'` -/
def newline : UInt8 := 0x0a

/-- The mark behind each line of the raw queue. -/
def mark : UInt8 := 0o377

/-- `maptab[c]` -/
def maptab (c : UInt8) : UInt8 :=
  if c = 0x21 then 0x7c
  else if c = 0x27 then 0x60
  else if c = 0x28 then 0x7b
  else if c = 0x29 then 0x7d
  else if c = 0x5e then 0x7e
  else if 0x61 ≤ c ∧ c ≤ 0x7a then c - 0x20
  else 0

/-- `struct tty`, with the names of its lists. -/
structure Tty (κ : Type) where
  t_rawq : κ
  t_canq : κ
  t_outq : κ
  t_holdq : κ
  t_chan : Bool
  t_flags : ℕ
  t_state : ℕ
  t_delct : UInt8
  t_erase : UInt8
  t_kill : UInt8
  t_intrc : UInt8
  t_quitc : UInt8
  t_startc : UInt8
  t_stopc : UInt8
  t_eofc : UInt8
  t_brkc : UInt8

variable {κ : Type} [DecidableEq κ]

namespace Tty

/-- The modes in which every character is a line: `t_flags&(RAW|CBREAK)`. -/
def Single (tp : Tty κ) : Prop := tp.t_flags &&& (RAW ||| CBREAK) ≠ 0

instance (tp : Tty κ) : Decidable tp.Single := inferInstanceAs (Decidable (_ ≠ _))

end Tty

/-- The character lists, the buffer for erase and kill, and a terminal. -/
structure Line (κ : Type) where
  m : Prim κ
  canonb : ℕ → UInt8
  tp : Tty κ

namespace Line

/-- `while (getc(p) >= 0);` -/
def drain (m : Prim κ) (p : κ) : ℕ → Prim κ
  | 0 => m
  | k + 1 => if (m.getc p).1 < 0 then (m.getc p).2 else drain (m.getc p).2 p k

/-- A list without its characters. -/
def flush (m : Prim κ) (p : κ) : Prim κ := drain m p ((m.clist p).c_cc.toNat + 1)

/-- `flushtty` -/
def flushtty (s : Line κ) : Line κ :=
  { s with
    m := flush (flush (flush (flush s.m s.tp.t_canq) s.tp.t_outq) s.tp.t_rawq) s.tp.t_holdq
    tp := { s.tp with t_state := s.tp.t_state &&& (2 ^ 16 - 1 - TTSTOP), t_delct := 0 } }

/-- The part of `ttyinput` that puts a character on the raw queue. -/
def queue (s : Line κ) (c : UInt8) : Line κ :=
  if (TTYHOG : ℤ) < (s.m.clist s.tp.t_rawq).c_cc then s.flushtty
  else
    let c := if s.tp.t_flags &&& LCASE ≠ 0 ∧ 0x41 ≤ c ∧ c ≤ 0x5a then c + 0x20 else c
    let m := (s.m.putc (c.toBitVec.setWidth 32) s.tp.t_rawq).2
    if ¬s.tp.Single ∧ (c = newline ∨ c = s.tp.t_eofc ∨ c = s.tp.t_brkc) then
      let (r, m) := m.putc 0o377 s.tp.t_rawq
      if r = 0 then
        { s with m := m, tp := { s.tp with t_delct := s.tp.t_delct + 1 } }
      else
        { s with m := m }
    else
      { s with m := m }

/-- The part of `ttyinput` behind the test for stop and start. -/
def cooked (s : Line κ) (c : UInt8) : Line κ :=
  if c = s.tp.t_quitc ∨ c = s.tp.t_intrc then s.flushtty
  else s.queue (if c = 0x0d ∧ s.tp.t_flags &&& CRMOD ≠ 0 then newline else c)

/-- `ttyinput` -/
def ttyinput (s : Line κ) (c : UInt8) : Line κ :=
  if s.tp.t_flags &&& RAW ≠ 0 then s.queue c
  else
    let c := c &&& 0o177
    if s.tp.t_state &&& TTSTOP ≠ 0 then
      if c = s.tp.t_startc then
        { s with tp := { s.tp with t_state := s.tp.t_state &&& (2 ^ 16 - 1 - TTSTOP) } }
      else if c = s.tp.t_stopc then s
      else s.cooked c
    else if c = s.tp.t_stopc then
      { s with tp := { s.tp with t_state := s.tp.t_state ||| TTSTOP } }
    else if c = s.tp.t_startc then s
    else s.cooked c

end Line

/-- Why `canon` gives no line: it sleeps, or it has left the buffer, or its loop has not ended
yet. -/
inductive Stop
  | sleeps
  | outside
  | fuel

/-- The state of the loop of `canon`; `bp` is an index of `canonb`. -/
structure Edit (κ : Type) where
  m : Prim κ
  canonb : ℕ → UInt8
  bp : ℕ
  t_delct : UInt8

namespace Edit

/-- `bp[-k]` -/
def back (e : Edit κ) (k : ℕ) : Except Stop UInt8 :=
  if k ≤ e.bp ∧ e.bp - k < CANBSIZ then .ok (e.canonb (e.bp - k)) else .error .outside

/-- `*bp++ = c`, and whether the buffer is full then. -/
def store (e : Edit κ) (c : UInt8) : Except Stop (Edit κ × Bool) :=
  if e.bp < CANBSIZ then
    .ok ({ e with canonb := update e.canonb e.bp c, bp := e.bp + 1 }, CANBSIZ ≤ e.bp + 1)
  else
    .error .outside

/-- What `canon` does with a character from the raw queue, and whether its loop ends with it. -/
def char (tp : Tty κ) (e : Edit κ) (c : UInt8) : Except Stop (Edit κ × Bool) :=
  if tp.Single then e.store c
  else if c = mark then .ok ({ e with t_delct := e.t_delct - 1 }, true)
  else do
    let last ← e.back 1
    if last ≠ backslash then
      if c = tp.t_erase then .ok ({ e with bp := if 2 < e.bp then e.bp - 1 else e.bp }, false)
      else if c = tp.t_kill then .ok ({ e with bp := 2 }, false)
      else if c = tp.t_eofc then .ok (e, false)
      else e.store c
    else
      let mc := if c = tp.t_erase ∨ c = tp.t_kill then c else maptab c
      if mc ≠ 0 ∧ (mc = c ∨ tp.t_flags &&& LCASE ≠ 0) then do
        let before ← e.back 2
        Edit.store { e with bp := e.bp - 1 } (if before ≠ backslash then mc else c)
      else e.store c

/-- The loop of `canon`. -/
def loop (tp : Tty κ) : ℕ → Edit κ → Except Stop (Edit κ)
  | 0, _ => .error .fuel
  | k + 1, e =>
      let (c, m) := e.m.getc tp.t_rawq
      if c < 0 then .ok { e with m := m }
      else do
        let (e, last) ← char tp { e with m := m } (UInt8.ofNat c.toNat)
        if last then .ok e else loop tp k e

end Edit

/-- `canon`, with the number of characters it has put on the canonical queue. -/
def Line.canon (s : Line κ) : Except Stop (ℕ × Line κ) :=
  if (¬s.tp.Single ∧ s.tp.t_delct = 0) ∨ (s.tp.Single ∧ (s.m.clist s.tp.t_rawq).c_cc = 0) then
    if s.tp.t_state &&& CARR_ON = 0 ∨ s.tp.t_chan then .ok (0, s) else .error .sleeps
  else do
    let e ← Edit.loop s.tp ((s.m.clist s.tp.t_rawq).c_cc.toNat + 1)
      ⟨s.m, s.canonb, 2, s.tp.t_delct⟩
    let m := (e.m.b_to_q (fun i => e.canonb (2 + i)) (e.bp - 2 : ℕ) s.tp.t_canq).2
    .ok (e.bp - 2, ⟨m, e.canonb, { s.tp with t_delct := e.t_delct }⟩)

end UnixV7.Terminal
