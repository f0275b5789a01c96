import UnixV7.Cmd.Fgrep.Entered
import UnixV7.Library.Ring
import UnixV7.Library.Suffixes

/-!
# Failure links

`cfail` of `fgrep.c` goes through the lists of the table in the order of their depth, with a queue
in a ring. Each element gets a link to the place of the longest shorter suffix, which is found
along the links that are there, and a place is marked when that one is.
-/

namespace UnixV7

open Function Suffixes

namespace Fgrep

/-- `QSIZE` -/
def QSIZE : ℕ := MAXSIZ

/-- The variables of `cfail`. -/
structure Search where
  w : ℕ → Words
  queue : ℕ → ℕ
  front : ℕ
  rear : ℕ

/-- `*rear++ = s->nst; if (rear >= &queue[QSIZE - 1]) overflo();` -/
def Search.putFirst (st : Search) (q : ℕ) : Except Stop Search :=
  if QSIZE - 1 ≤ st.rear + 1 then .error .overflo
  else .ok { st with queue := update st.queue st.rear q, rear := st.rear + 1 }

/-- `*rear = q; if (++rear == &queue[QSIZE]) rear = queue; if (rear == front) overflo();` -/
def Search.put (st : Search) (q : ℕ) : Except Stop Search :=
  if Ring.next QSIZE st.rear = st.front then .error .overflo
  else .ok { st with queue := update st.queue st.rear q, rear := Ring.next QSIZE st.rear }

/-- An element of the first list at `init`. -/
def initOne (s : ℕ) (st : Search) : Except Stop Search :=
  if (st.w s).inp ≠ 0 then do
    let q ← follow (st.w s).nst
    st.putFirst q
  else .ok st

/-- The loop at `init`. -/
def init : ℕ → ℕ → Search → Except Stop Search
  | 0, _, _ => .error .stuck
  | fuel + 1, s, st => do
      let st ← initOne s st
      match (st.w s).link with
      | none => .ok st
      | some t => init fuel t st

/-- `for (; t != 0 && t->inp != c; t = t->link)` -/
def find (w : ℕ → Words) (c : UInt8) : ℕ → ℕ → Except Stop (Option ℕ)
  | 0, _ => .error .stuck
  | fuel + 1, t =>
      if (w t).inp = c then .ok (some t)
      else
        match (w t).link with
        | none => .ok none
        | some t => find w c fuel t

/-- `q->fail = b; if (b->out == 1) q->out = 1;` -/
def inheritOne (w : ℕ → Words) (q b : ℕ) : ℕ → Words :=
  update w q { w q with fail := some b, out := (w q).out || (w b).out }

/-- The loop at `qloop`. -/
def inherit (b : ℕ) : ℕ → ℕ → (ℕ → Words) → Except Stop (ℕ → Words)
  | 0, _, _ => .error .stuck
  | fuel + 1, q, w =>
      match (w q).link with
      | none => .ok (inheritOne w q b)
      | some q' => inherit b fuel q' (inheritOne w q b)

/-- The loop at `floop`. -/
def setFail (c : UInt8) (q : ℕ) : ℕ → Option ℕ → (ℕ → Words) → Except Stop (ℕ → Words)
  | 0, _, _ => .error .stuck
  | fuel + 1, state, w => do
      match ← find w c MAXSIZ (state.getD 0) with
      | some t => do
          let b ← follow (w t).nst
          inherit b MAXSIZ q w
      | none =>
          match state with
          | none => .ok w
          | some s => setFail c q fuel (w s).fail w

/-- An element of a list at `cloop`. -/
def visitOne (s : ℕ) (st : Search) : Except Stop Search :=
  if (st.w s).inp ≠ 0 then do
    let q ← follow (st.w s).nst
    let st ← st.put q
    let w ← setFail (st.w s).inp q MAXSIZ (st.w s).fail st.w
    .ok { st with w := w }
  else .ok st

/-- The loop at `cloop`. -/
def visit : ℕ → ℕ → Search → Except Stop Search
  | 0, _, _ => .error .stuck
  | fuel + 1, s, st => do
      let st ← visitOne s st
      match (st.w s).link with
      | none => .ok st
      | some t => visit fuel t st

/-- `while (rear != front)` -/
def breadth : ℕ → Search → Except Stop (ℕ → Words)
  | 0, _ => .error .stuck
  | fuel + 1, st =>
      if st.rear = st.front then .ok st.w
      else do
        let st ← visit MAXSIZ (st.queue st.front) { st with front := Ring.next QSIZE st.front }
        breadth fuel st

/-- `cfail` -/
def cfail (w : ℕ → Words) : Except Stop (ℕ → Words) := do
  let st ← init MAXSIZ 0 ⟨w, fun _ => 0, 0, 0⟩
  breadth MAXSIZ st

end Fgrep

end UnixV7
