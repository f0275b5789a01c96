import UnixV7.Library.Tiling

/-!
# Resource maps

`malloc` and `mfree` of `malloc.c`, which hand out swap space. A map is an array of the holes in
the space, in order, ended by an entry of size 0. The arrays here are lists that begin at the
entry under consideration, and a function that would run past the end of its array has no result.
-/

namespace UnixV7

/-- An entry of a map, or a range that has been handed out. -/
structure Map where
  m_size : ℕ
  m_addr : ℕ
  deriving DecidableEq

/-- The numbers of ranges of swap space in use, one for each process or text, that `swapmap` has
room for. -/
def NPROC : ℕ := 150

def NTEXT : ℕ := 40

def SMAPSIZ : ℕ := 2 * NPROC + NTEXT + 2

def PMAPSIZ : ℕ := NPROC + 2

namespace Map

/-- The loops that move the entries behind the first one, down to the terminator, one place to
the front. -/
def shift : List Map → Option (List Map)
  | _ :: bp :: rest =>
      if bp.m_size = 0 then some (bp :: bp :: rest) else (shift (bp :: rest)).map (bp :: ·)
  | _ => none

/-- `malloc`: the address of the range, or 0, and the map. -/
def malloc (size : ℕ) : List Map → Option (ℕ × List Map)
  | [] => none
  | bp :: rest =>
      if bp.m_size = 0 then
        some (0, bp :: rest)
      else if size ≤ bp.m_size then
        let a := bp.m_addr
        let bp := { m_addr := bp.m_addr + size, m_size := bp.m_size - size }
        if bp.m_size = 0 then (shift (bp :: rest)).map (a, ·) else some (a, bp :: rest)
      else
        (malloc size rest).map fun result => (result.1, bp :: result.2)

/-- The loop of `mfree` that puts an entry in and moves the others, down to the terminator, which
is overwritten. -/
def insert (size a : ℕ) : List Map → Option (List Map)
  | [] => none
  | bp :: rest =>
      if bp.m_size = 0 then some (⟨size, a⟩ :: rest)
      else (insert bp.m_size bp.m_addr rest).map (⟨size, a⟩ :: ·)

/-- The part of `mfree` for a range that is not behind a hole, with `bp` the first entry. -/
def apart (size a : ℕ) : List Map → Option (List Map)
  | [] => none
  | bp :: rest =>
      if a + size = bp.m_addr ∧ bp.m_size ≠ 0 then
        some ({ m_addr := bp.m_addr - size, m_size := bp.m_size + size } :: rest)
      else if size ≠ 0 then
        insert size a (bp :: rest)
      else
        some (bp :: rest)

/-- The part of `mfree` for a range behind the hole `prev`, with `bp` the entry after that. -/
def behind (size a : ℕ) (prev : Map) : List Map → Option (List Map)
  | [] => none
  | bp :: rest =>
      let prev := { prev with m_size := prev.m_size + size }
      if a + size = bp.m_addr then
        let prev := { prev with m_size := prev.m_size + bp.m_size }
        if bp.m_size = 0 then some (prev :: bp :: rest)
        else (shift (bp :: rest)).map (prev :: ·)
      else
        some (prev :: bp :: rest)

/-- `mfree` from the entry after `prev` on, which is not the one to stop at. -/
def mfreeAfter (size a : ℕ) (prev : Map) : List Map → Option (List Map)
  | [] => none
  | bp :: rest =>
      if bp.m_addr ≤ a ∧ bp.m_size ≠ 0 then
        (mfreeAfter size a bp rest).map (prev :: ·)
      else if prev.m_addr + prev.m_size = a then
        behind size a prev (bp :: rest)
      else
        (apart size a (bp :: rest)).map (prev :: ·)

/-- `mfree`. -/
def mfree (size a : ℕ) : List Map → Option (List Map)
  | [] => none
  | bp :: rest =>
      if bp.m_addr ≤ a ∧ bp.m_size ≠ 0 then mfreeAfter size a bp rest
      else apart size a (bp :: rest)

/-- A range, by its address and its size. -/
def range (a n : ℕ) : Map := ⟨n, a⟩

/-- The end of a range. -/
def stop (r : Map) : ℕ := r.m_addr + r.m_size

/-- The units of a range. -/
def Has (r : Map) (u : ℕ) : Prop := r.m_addr ≤ u ∧ u < r.stop

/-- The array and the ranges that have been handed out. -/
structure State where
  mp : List Map
  live : List Map

/-- Calls of `malloc` and `mfree` on an array of `n` entries of zeros, filled by one `mfree` of
`size` units at `a`, with never more than `n - 2` ranges handed out. -/
inductive Run (n size a : ℕ) : State → Prop
  | start {mp : List Map} : 2 ≤ n → 0 < a →
      mfree size a (List.replicate n ⟨0, 0⟩) = some mp → Run n size a ⟨mp, []⟩
  | malloc {s : State} {k b : ℕ} {mp : List Map} : Run n size a s → 0 < k →
      s.live.length + 2 < n → malloc k s.mp = some (b, mp) →
      Run n size a ⟨mp, if b = 0 then s.live else range b k :: s.live⟩
  | mfree {s : State} {r : Map} {mp : List Map} : Run n size a s → r ∈ s.live →
      mfree r.m_size r.m_addr s.mp = some mp → Run n size a ⟨mp, s.live.erase r⟩

/-- The map lists the holes between the ranges that have been handed out. -/
structure Lists (size a : ℕ) (s : State) (holes : List Map) : Prop where
  array : ∃ rest, s.mp = holes ++ rest ∧ rest ≠ [] ∧ ∀ bp ∈ rest, bp.m_size = 0
  pos : ∀ h ∈ holes, 0 < h.m_size
  sorted : holes.Pairwise fun h k => h.stop < k.m_addr
  free : ∀ u, (∃ h ∈ holes, h.Has u) ↔ a ≤ u ∧ u < a + size ∧ ∀ r ∈ s.live, ¬r.Has u
  inside : ∀ r ∈ s.live, 0 < r.m_size ∧ a ≤ r.m_addr ∧ r.stop ≤ a + size
  disjoint : s.live.Pairwise fun r t => ∀ u, r.Has u → ¬t.Has u
  few : holes.length + 1 ≤ s.live.length + 2

/-! ## One call -/

variable {holes rest init : List Map} {ts pre post : List Tile} {h last : Map} {size a n : ℕ}

/-- The entries behind the holes have size 0. -/
def Zero (rest : List Map) : Prop := ∀ bp ∈ rest, bp.m_size = 0

theorem shift_spec (e : Map) (pos : ∀ h ∈ holes, 0 < h.m_size) (zero : Zero rest)
    (some : rest ≠ []) :
    ∃ rest', shift (e :: (holes ++ rest)) = Option.some (holes ++ rest') ∧ Zero rest' ∧
      rest'.length = rest.length + 1 := by
  induction holes generalizing e with
  | nil =>
      obtain ⟨z, rest, rfl⟩ := List.exists_cons_of_ne_nil some
      have end_ := zero z List.mem_cons_self
      refine ⟨z :: z :: rest, by simp [shift, end_], ?_, by simp⟩
      intro bp mem
      rcases List.mem_cons.mp mem with rfl | mem
      · exact end_
      · exact zero bp mem
  | cons h holes ih =>
      obtain ⟨rest', moved, zero', length⟩ := ih h fun k mem => pos k (List.mem_cons_of_mem h mem)
      have there := pos h List.mem_cons_self
      refine ⟨rest', ?_, zero', length⟩
      rw [List.cons_append, shift, if_neg (by omega), moved]
      rfl

theorem insert_spec (pos : ∀ h ∈ holes, 0 < h.m_size) (zero : Zero rest) (some : rest ≠ [])
    (size a : ℕ) :
    ∃ rest', insert size a (holes ++ rest) = Option.some (range a size :: holes ++ rest') ∧
      Zero rest' ∧ rest'.length + 1 = rest.length := by
  induction holes generalizing size a with
  | nil =>
      obtain ⟨z, rest, rfl⟩ := List.exists_cons_of_ne_nil some
      have stop := zero z List.mem_cons_self
      exact ⟨rest, by simp [insert, stop, range],
        fun bp mem => zero bp (List.mem_cons_of_mem z mem), rfl⟩
  | cons h holes ih =>
      obtain ⟨rest', put, zero', length⟩ :=
        ih (fun k mem => pos k (List.mem_cons_of_mem h mem)) h.m_size h.m_addr
      have there := pos h List.mem_cons_self
      refine ⟨rest', ?_, zero', length⟩
      rw [List.cons_append, insert, if_neg (by omega), put]
      rfl

/-- The holes of a tiling. -/
def holesOf (a : ℕ) (ts : List Tile) : List Map := Tile.spans range false a ts

/-- The ranges in use of a tiling. -/
def liveOf (a : ℕ) (ts : List Tile) : List Map := Tile.spans range true a ts

/-- What is left of a hole of size `n` when a range has been taken from its front. -/
def leftover (n size : ℕ) : List Tile := if n = size then [] else [⟨false, n - size⟩]

theorem holesOf_pos (tight : Tight ts) : ∀ h ∈ holesOf a ts, 0 < h.m_size := by
  intro h mem
  obtain ⟨before, after, n, rfl, rfl⟩ := Tile.exists_of_mem_spans mem
  exact tight.pos ⟨false, n⟩ (by simp)

@[simp] theorem holesOf_used (a n : ℕ) (ts : List Tile) :
    holesOf a (⟨true, n⟩ :: ts) = holesOf (a + n) ts :=
  Tile.spans_cons_of_ne range (by simp) a ts

@[simp] theorem holesOf_free (a n : ℕ) (ts : List Tile) :
    holesOf a (⟨false, n⟩ :: ts) = range a n :: holesOf (a + n) ts :=
  Tile.spans_cons range false a n ts

/-- `malloc` takes the front of the first hole that is large enough. -/
theorem malloc_spec (tight : Tight ts) (zero : Zero rest) (some : rest ≠ []) (wanted : 0 < size) :
    ((∀ t ∈ ts, t.used = false → t.size < size) ∧
      malloc size (holesOf a ts ++ rest) = Option.some (0, holesOf a ts ++ rest)) ∨
    ∃ before n after rest', ts = before ++ ⟨false, n⟩ :: after ∧
      (∀ t ∈ before, t.used = false → t.size < size) ∧ size ≤ n ∧
      malloc size (holesOf a ts ++ rest) = Option.some (a + Tile.width before,
        holesOf a (before ++ ⟨true, size⟩ :: (leftover n size ++ after)) ++
            rest') ∧ Zero rest' := by
  induction ts generalizing a with
  | nil =>
      obtain ⟨z, rest, rfl⟩ := List.exists_cons_of_ne_nil some
      have stop := zero z List.mem_cons_self
      exact .inl ⟨by simp, by simp [holesOf, malloc, stop]⟩
  | cons t ts ih =>
      obtain ⟨used, n⟩ := t
      cases used with
      | true =>
          rw [holesOf_used]
          rcases ih (a := a + n) tight.tail with
            ⟨small, none⟩ | ⟨before, k, after, rest', rfl, small, fits, found, zero'⟩
          · refine .inl ⟨fun t mem free => ?_, none⟩
            rcases List.mem_cons.mp mem with rfl | mem
            · simp at free
            · exact small t mem free
          · refine .inr ⟨⟨true, n⟩ :: before, k, after, rest', rfl, fun t mem free => ?_, fits, ?_,
              zero'⟩
            · rcases List.mem_cons.mp mem with rfl | mem
              · simp at free
              · exact small t mem free
            · rw [found, Tile.width_cons, List.cons_append, holesOf_used, Nat.add_assoc]
      | false =>
          have pos := tight.pos ⟨false, n⟩ List.mem_cons_self
          rw [holesOf_free, List.cons_append, malloc]
          rw [if_neg (show ¬(range a n).m_size = 0 from Nat.ne_of_gt pos)]
          by_cases fits : size ≤ n
          · rw [if_pos (show size ≤ (range a n).m_size from fits)]
            by_cases whole : n = size
            · -- the hole is used up, and those behind it move to the front
              subst whole
              obtain ⟨rest', moved, zero', -⟩ := shift_spec ⟨n - n, a + n⟩
                (holesOf_pos (a := a + n) tight.tail) zero some
              refine .inr ⟨[], n, ts, rest', rfl, by simp, Nat.le_refl n, ?_, zero'⟩
              have emptied : (range a n).m_size - n = 0 := Nat.sub_self n
              simp only [emptied, if_true, leftover]
              simp [range] at moved ⊢
              rw [moved]
            · have left : n - size ≠ 0 := by omega
              refine .inr ⟨[], n, ts, rest, rfl, by simp, fits, ?_, zero⟩
              have kept : ¬(range a n).m_size - size = 0 := left
              have same : a + size + (n - size) = a + n := by omega
              simp only [if_neg kept, leftover, if_neg whole]
              simp [range, same]
          · rw [if_neg (show ¬size ≤ (range a n).m_size from fits)]
            rcases ih (a := a + n) tight.tail with
              ⟨small, none⟩ | ⟨before, k, after, rest', rfl, small, large, found, zero'⟩
            · refine .inl ⟨fun t mem free => ?_, by rw [none]; rfl⟩
              rcases List.mem_cons.mp mem with rfl | mem
              · exact Nat.lt_of_not_le fits
              · exact small t mem free
            · refine .inr ⟨⟨false, n⟩ :: before, k, after, rest', rfl, fun t mem free => ?_, large,
                ?_, zero'⟩
              · rcases List.mem_cons.mp mem with rfl | mem
                · exact Nat.lt_of_not_le fits
                · exact small t mem free
              · rw [found, Tile.width_cons, List.cons_append, holesOf_free, Nat.add_assoc]
                rfl

/-- `mfree` passes over the holes that begin at or below the range and looks at the last one. -/
theorem mfreeAfter_spec {mid tail : List Map} {prev bp : Map}
    (pass : ∀ h ∈ mid, h.m_addr ≤ a ∧ h.m_size ≠ 0) (halt : ¬(bp.m_addr ≤ a ∧ bp.m_size ≠ 0))
    (split : prev :: mid = init ++ [last]) :
    mfreeAfter size a prev (mid ++ bp :: tail) =
      (if last.stop = a then behind size a last (bp :: tail)
        else (apart size a (bp :: tail)).map (last :: ·)).map (init ++ ·) := by
  induction mid generalizing prev init with
  | nil =>
      obtain ⟨rfl, rfl⟩ : init = [] ∧ prev = last := by
        cases init with
        | nil => simpa using split
        | cons e init => simp at split
      rw [List.nil_append, mfreeAfter, if_neg halt]
      simp only [List.nil_append, Option.map_id_fun', id]
      rfl
  | cons h mid ih =>
      obtain ⟨init, rfl, later⟩ : ∃ init', init = prev :: init' ∧ h :: mid = init' ++ [last] := by
        cases init with
        | nil => simp at split
        | cons e init =>
            rw [List.cons_append, List.cons.injEq] at split
            exact ⟨init, by rw [split.1], split.2⟩
      have here := pass h List.mem_cons_self
      rw [List.cons_append, mfreeAfter, if_pos here,
        ih (fun k mem => pass k (List.mem_cons_of_mem h mem)) later]
      rw [Option.map_map]
      rfl

theorem mfree_spec (size : ℕ) {before : List Map} {bp : Map} (tail : List Map)
    (pass : ∀ h ∈ before, h.m_addr ≤ a ∧ h.m_size ≠ 0)
    (halt : ¬(bp.m_addr ≤ a ∧ bp.m_size ≠ 0)) :
    (before = [] → mfree size a (before ++ bp :: tail) = apart size a (bp :: tail)) ∧
    ∀ init last, before = init ++ [last] → mfree size a (before ++ bp :: tail) =
      (if last.stop = a then behind size a last (bp :: tail)
        else (apart size a (bp :: tail)).map (last :: ·)).map (init ++ ·) := by
  constructor
  · rintro rfl
    rw [List.nil_append, mfree, if_neg halt]
  · intro init last split
    cases before with
    | nil => simp at split
    | cons prev mid =>
        rw [List.cons_append, mfree, if_pos (pass prev List.mem_cons_self)]
        exact mfreeAfter_spec (fun h mem => pass h (List.mem_cons_of_mem prev mem)) halt split

/-! ### The length of the array -/

theorem shift_length {m m' : List Map} (moved : shift m = some m') : m'.length = m.length := by
  induction m generalizing m' with
  | nil => simp [shift] at moved
  | cons e m ih =>
      cases m with
      | nil => simp [shift] at moved
      | cons bp rest =>
          rw [shift] at moved
          split at moved
          · obtain rfl := Option.some.inj moved
            rfl
          · obtain ⟨m'', onward, rfl⟩ := Option.map_eq_some_iff.mp moved
            simpa using ih onward

theorem malloc_length {m : List Map} {result : ℕ × List Map}
    (found : malloc size m = some result) : result.2.length = m.length := by
  induction m generalizing result with
  | nil => simp [malloc] at found
  | cons bp rest ih =>
      rw [malloc] at found
      split at found
      · obtain rfl := Option.some.inj found
        rfl
      · split at found
        · dsimp only at found
          split at found
          · obtain ⟨m', moved, rfl⟩ := Option.map_eq_some_iff.mp found
            simpa using shift_length moved
          · obtain rfl := Option.some.inj found
            rfl
        · obtain ⟨result', onward, rfl⟩ := Option.map_eq_some_iff.mp found
          simpa using ih onward

theorem insert_length {m m' : List Map} (put : insert size a m = some m') :
    m'.length = m.length := by
  induction m generalizing size a m' with
  | nil => simp [insert] at put
  | cons bp rest ih =>
      rw [insert] at put
      split at put
      · obtain rfl := Option.some.inj put
        rfl
      · obtain ⟨m'', onward, rfl⟩ := Option.map_eq_some_iff.mp put
        simpa using ih onward

theorem apart_length {m m' : List Map} (put : apart size a m = some m') :
    m'.length = m.length := by
  cases m with
  | nil => simp [apart] at put
  | cons bp rest =>
      rw [apart] at put
      split at put
      · obtain rfl := Option.some.inj put
        rfl
      · split at put
        · exact insert_length put
        · obtain rfl := Option.some.inj put
          rfl

theorem behind_length {m m' : List Map} {prev : Map} (put : behind size a prev m = some m') :
    m'.length = m.length + 1 := by
  cases m with
  | nil => simp [behind] at put
  | cons bp rest =>
      rw [behind] at put
      split at put
      · split at put
        · obtain rfl := Option.some.inj put
          rfl
        · obtain ⟨m'', moved, rfl⟩ := Option.map_eq_some_iff.mp put
          simpa using shift_length moved
      · obtain rfl := Option.some.inj put
        rfl

theorem mfreeAfter_length {m m' : List Map} {prev : Map}
    (freed : mfreeAfter size a prev m = some m') : m'.length = m.length + 1 := by
  induction m generalizing prev m' with
  | nil => simp [mfreeAfter] at freed
  | cons bp rest ih =>
      rw [mfreeAfter] at freed
      split at freed
      · obtain ⟨m'', onward, rfl⟩ := Option.map_eq_some_iff.mp freed
        simpa using ih onward
      · split at freed
        · exact behind_length freed
        · obtain ⟨m'', put, rfl⟩ := Option.map_eq_some_iff.mp freed
          simpa using apart_length put

theorem mfree_length {m m' : List Map} (freed : mfree size a m = some m') :
    m'.length = m.length := by
  cases m with
  | nil => simp [mfree] at freed
  | cons bp rest =>
      rw [mfree] at freed
      split at freed
      · exact mfreeAfter_length freed
      · exact apart_length freed

/-! ## The tiling after a range has been freed -/

/-- A free tile in front of others, one with the first of them if that is free. -/
def joined (n : ℕ) : List Tile → List Tile
  | ⟨false, q⟩ :: post => ⟨false, n + q⟩ :: post
  | post => ⟨false, n⟩ :: post

/-- The first tile is used, or the one that is joined. -/
theorem joined_cases (n : ℕ) (post : List Tile) :
    (∃ q post', post = ⟨false, q⟩ :: post' ∧ joined n post = ⟨false, n + q⟩ :: post') ∨
      (∀ y ∈ post.head?, y.used = true) ∧ joined n post = ⟨false, n⟩ :: post := by
  cases post with
  | nil => exact .inr ⟨by simp, rfl⟩
  | cons t post =>
      obtain ⟨used, q⟩ := t
      cases used with
      | false => exact .inl ⟨q, post, rfl, rfl⟩
      | true => exact .inr ⟨by simp, rfl⟩

theorem joined_width (n : ℕ) (post : List Tile) :
    Tile.width (joined n post) = n + Tile.width post := by
  rcases joined_cases n post with ⟨q, post, rfl, whole⟩ | ⟨-, whole⟩
  · rw [whole, Tile.width_cons, Tile.width_cons, Nat.add_assoc]
  · rw [whole, Tile.width_cons]

@[simp] theorem liveOf_free (a n : ℕ) (ts : List Tile) :
    liveOf a (⟨false, n⟩ :: ts) = liveOf (a + n) ts :=
  Tile.spans_cons_of_ne range (by simp) a ts

@[simp] theorem liveOf_used (a n : ℕ) (ts : List Tile) :
    liveOf a (⟨true, n⟩ :: ts) = range a n :: liveOf (a + n) ts :=
  Tile.spans_cons range true a n ts

theorem liveOf_append (a : ℕ) (ts us : List Tile) :
    liveOf a (ts ++ us) = liveOf a ts ++ liveOf (a + Tile.width ts) us :=
  Tile.spans_append range true a ts us

theorem holesOf_append (a : ℕ) (ts us : List Tile) :
    holesOf a (ts ++ us) = holesOf a ts ++ holesOf (a + Tile.width ts) us :=
  Tile.spans_append range false a ts us

theorem liveOf_joined (a n : ℕ) (post : List Tile) :
    liveOf a (joined n post) = liveOf (a + n) post := by
  rcases joined_cases n post with ⟨q, post, rfl, whole⟩ | ⟨-, whole⟩
  · rw [whole, liveOf_free, liveOf_free, Nat.add_assoc]
  · rw [whole, liveOf_free]

theorem joined_tight (before : Tight pre) (last : ∀ x ∈ pre.getLast?, x.used = true)
    (after : Tight post) (pos : 0 < n) : Tight (pre ++ joined n post) := by
  rcases joined_cases n post with ⟨q, post, rfl, whole⟩ | ⟨next, whole⟩
  · have inner := Tight.middle_iff.mp (show Tight ([] ++ _ :: post) from after)
    rw [whole]
    exact Tight.middle_iff.mpr ⟨before, inner.2.1, Nat.add_pos_left pos q,
      fun _ => ⟨last, (inner.2.2.2 rfl).2⟩⟩
  · rw [whole]
    exact Tight.middle_iff.mpr ⟨before, after, pos, fun _ => ⟨last, next⟩⟩

/-- The entry behind those that are passed over: the terminator, or a hole further on. -/
theorem head_spec (b : ℕ) (ts : List Tile) (zero : Zero rest) (some : rest ≠ []) :
    ∃ bp tail, holesOf b ts ++ rest = bp :: tail ∧ (bp.m_size = 0 ∨ b ≤ bp.m_addr) := by
  cases found : holesOf b ts with
  | nil =>
      obtain ⟨z, rest, rfl⟩ := List.exists_cons_of_ne_nil some
      exact ⟨z, rest, rfl, .inl (zero z List.mem_cons_self)⟩
  | cons h hs =>
      have mem : h ∈ holesOf b ts := by simp [found]
      have bounds := Tile.spans_bounds Map.m_addr Map.m_size
        (fun _ _ => rfl) (fun _ _ => rfl) mem
      exact ⟨h, hs ++ rest, rfl, .inr bounds.1⟩

theorem head_used_spec (b : ℕ) (tight : Tight ts) (next : ∀ y ∈ ts.head?, y.used = true)
    (zero : Zero rest) (some : rest ≠ []) :
    ∃ bp tail, holesOf b ts ++ rest = bp :: tail ∧ (bp.m_size = 0 ∨ b < bp.m_addr) := by
  cases ts with
  | nil =>
      obtain ⟨z, rest, rfl⟩ := List.exists_cons_of_ne_nil some
      exact ⟨z, rest, rfl, .inl (zero z List.mem_cons_self)⟩
  | cons t ts =>
      obtain ⟨used, n⟩ := t
      obtain rfl : used = true := by simpa using next
      have pos := tight.pos ⟨true, n⟩ List.mem_cons_self
      obtain ⟨bp, tail, split, here⟩ := head_spec (b + n) ts zero some
      rw [holesOf_used]
      refine ⟨bp, tail, split, here.imp_right fun low => Nat.lt_of_lt_of_le ?_ low⟩
      exact Nat.lt_add_of_pos_right pos

/-- The range becomes a hole, or the hole behind it begins with it. -/
theorem apart_spec (after : Tight post) (zero : Zero rest) (some : rest ≠ []) (pos : 0 < size) :
    ∃ rest', apart size a (holesOf (a + size) post ++ rest) =
      Option.some (holesOf a (joined size post) ++ rest') ∧ Zero rest' := by
  rcases joined_cases size post with ⟨q, post, rfl, whole⟩ | ⟨next, whole⟩
  · have inner := after.pos ⟨false, q⟩ List.mem_cons_self
    refine ⟨rest, ?_, zero⟩
    rw [whole, holesOf_free, holesOf_free, List.cons_append, apart,
      if_pos ⟨rfl, Nat.ne_of_gt inner⟩]
    simp [range, Nat.add_comm q, Nat.add_assoc]
  · obtain ⟨rest', put, zero', -⟩ :=
      insert_spec (holesOf_pos (a := a + size) after) zero some size a
    refine ⟨rest', ?_, zero'⟩
    obtain ⟨bp, tail, split, here⟩ := head_used_spec (a + size) after next zero some
    have distinct : ¬(a + size = bp.m_addr ∧ bp.m_size ≠ 0) := by omega
    rw [whole, holesOf_free, ← put, split, apart, if_neg distinct, if_pos (Nat.ne_of_gt pos)]

/-- The hole in front grows by the range, and by the hole behind it. -/
theorem behind_spec {b p : ℕ} (after : Tight post) (zero : Zero rest) (some : rest ≠ [])
    (front : b + p = a) :
    ∃ rest', behind size a (range b p) (holesOf (a + size) post ++ rest) =
      Option.some (holesOf b (joined (p + size) post) ++ rest') ∧ Zero rest' := by
  subst front
  rcases joined_cases (p + size) post with ⟨q, post, rfl, whole⟩ | ⟨next, whole⟩
  · have pos := after.pos ⟨false, q⟩ List.mem_cons_self
    have real : ¬(range (b + p + size) q).m_size = 0 := Nat.ne_of_gt pos
    obtain ⟨rest', moved, zero', -⟩ :=
      shift_spec (range (b + p + size) q) (holesOf_pos (a := b + p + size + q) after.tail) zero some
    refine ⟨rest', ?_, zero'⟩
    rw [whole, holesOf_free, holesOf_free, List.cons_append, behind,
      if_pos (show b + p + size = (range (b + p + size) q).m_addr from rfl)]
    simp only [if_neg real, moved]
    simp [range, Nat.add_assoc]
  · obtain ⟨bp, tail, split, here⟩ := head_used_spec (b + p + size) after next zero some
    refine ⟨rest, ?_, zero⟩
    rw [whole, holesOf_free, ← Nat.add_assoc b, List.cons_append, split, behind]
    by_cases stale : b + p + size = bp.m_addr
    · -- the address of the terminator is one that was there before
      have stop : bp.m_size = 0 := by omega
      rw [if_pos stale]
      simp [stop, range]
    · rw [if_neg stale]
      rfl

/-- `mfree` of a range in use. -/
theorem free_spec (tight : Tight (pre ++ ⟨true, size⟩ :: post)) (zero : Zero rest)
    (some : rest ≠ []) :
    ∃ us rest', mfree size (a + Tile.width pre) (holesOf a (pre ++ ⟨true, size⟩ :: post) ++ rest) =
        Option.some (holesOf a us ++ rest') ∧ Zero rest' ∧ Tight us ∧
      Tile.width us = Tile.width (pre ++ ⟨true, size⟩ :: post) ∧
      liveOf a us = liveOf a pre ++ liveOf (a + Tile.width pre + size) post := by
  obtain ⟨before, after, pos, -⟩ := Tight.middle_iff.mp tight
  obtain ⟨bp, tail, split, here⟩ := head_spec (a + Tile.width pre + size) post zero some
  have halt : ¬(bp.m_addr ≤ a + Tile.width pre ∧ bp.m_size ≠ 0) := by
    have real : 0 < size := pos
    omega
  have pass : ∀ h ∈ holesOf a pre, h.m_addr ≤ a + Tile.width pre ∧ h.m_size ≠ 0 := by
    intro h mem
    have bounds := Tile.spans_bounds Map.m_addr Map.m_size
      (fun _ _ => rfl) (fun _ _ => rfl) mem
    have real := holesOf_pos before h mem
    omega
  obtain ⟨first, later⟩ := mfree_spec size tail pass halt
  rw [holesOf_append, holesOf_used, List.append_assoc, split]
  rcases List.eq_nil_or_concat' pre with rfl | ⟨init, t, rfl⟩
  · obtain ⟨rest', put, zero'⟩ := apart_spec (a := a) after zero some pos
    refine ⟨joined size post, rest', ?_, zero', joined_tight before (by simp) after pos, ?_, ?_⟩
    · rw [first rfl, ← split]
      exact put
    · rw [joined_width]
      simp
    · rw [liveOf_joined]
      simp [liveOf]
  · obtain ⟨used, p⟩ := t
    cases used with
    | true =>
        obtain ⟨rest', put, zero'⟩ :=
          apart_spec (a := a + Tile.width (init ++ [⟨true, p⟩])) after zero some pos
        refine ⟨(init ++ [⟨true, p⟩]) ++ joined size post, rest', ?_, zero',
          joined_tight before (by simp) after pos, ?_, ?_⟩
        · have same : holesOf a (init ++ [⟨true, p⟩]) = holesOf a init := by
            rw [holesOf_append, holesOf_used]
            simp [holesOf]
          have joins : holesOf a (init ++ [⟨true, p⟩] ++ joined size post) = holesOf a init ++
              holesOf (a + Tile.width (init ++ [⟨true, p⟩])) (joined size post) := by
            rw [holesOf_append, same]
          rw [joins]
          rcases List.eq_nil_or_concat' (holesOf a init) with none | ⟨holes, h, ends⟩
          · rw [first (same.trans none), ← split, none]
            exact put
          · -- the last hole ends before the tile in use
            have mem : h ∈ holesOf a init := by simp [ends]
            have bounds := Tile.spans_bounds Map.m_addr Map.m_size
              (fun _ _ => rfl) (fun _ _ => rfl) mem
            have real : 0 < p := before.pos ⟨true, p⟩ (by simp)
            have wide : Tile.width (init ++ [⟨true, p⟩]) = Tile.width init + p := by simp
            have away : h.stop ≠ a + Tile.width (init ++ [⟨true, p⟩]) := by
              rw [stop]
              omega
            rw [later _ _ (same.trans ends), if_neg away, ← split, put, ends]
            simp
        · rw [Tile.width_append, joined_width]
          simp [Nat.add_assoc]
        · rw [liveOf_append, liveOf_joined]
    | false =>
        obtain ⟨rest', put, zero'⟩ := behind_spec (b := a + Tile.width init) (p := p) after zero
          some (show a + Tile.width init + p = a + Tile.width (init ++ [⟨false, p⟩]) by
            simp [Nat.add_assoc])
        have inner := Tight.middle_iff.mp before
        refine ⟨init ++ joined (p + size) post, rest', ?_, zero',
          joined_tight inner.1 (inner.2.2.2 rfl).1 after (Nat.add_pos_right p pos), ?_, ?_⟩
        · have ends : holesOf a (init ++ [⟨false, p⟩]) =
              holesOf a init ++ [range (a + Tile.width init) p] := by
            rw [holesOf_append, holesOf_free]
            rfl
          have meets : (range (a + Tile.width init) p).stop =
              a + Tile.width (init ++ [⟨false, p⟩]) := by
            simp [range, stop, Nat.add_assoc]
          rw [later _ _ ends, if_pos meets, ← split, put, holesOf_append]
          simp
        · rw [Tile.width_append, joined_width]
          simp [Nat.add_assoc]
        · have same : liveOf a (init ++ [⟨false, p⟩]) = liveOf a init := by
            rw [liveOf_append, liveOf_free]
            simp [liveOf]
          rw [liveOf_append, liveOf_joined, same]
          simp [Nat.add_assoc]

/-! ## Runs -/

/-- The array lists the holes of a tiling whose other tiles are the ranges handed out. -/
structure Tiled (n size a : ℕ) (s : State) (ts : List Tile) : Prop where
  tight : Tight ts
  width : Tile.width ts = size
  array : ∃ rest, s.mp = holesOf a ts ++ rest ∧ Zero rest
  length : s.mp.length = n
  live : s.live.Perm (liveOf a ts)
  room : s.live.length + 2 ≤ n

namespace Tiled

variable {s : State} {mp : List Map} {r : Map} {b k : ℕ}

theorem few (tiled : Tiled n size a s ts) :
    (holesOf a ts).length + 1 ≤ s.live.length + 2 := by
  have most := (tiled.tight.spans_length (f := range) (a := a)).1
  have same := tiled.live.length_eq
  simp only [holesOf, liveOf] at same ⊢
  omega

/-- There is a terminator. -/
theorem ends (tiled : Tiled n size a s ts) :
    ∃ rest, s.mp = holesOf a ts ++ rest ∧ Zero rest ∧ rest ≠ [] := by
  obtain ⟨rest, array, zero⟩ := tiled.array
  refine ⟨rest, array, zero, ?_⟩
  rintro rfl
  have few := tiled.few
  have room := tiled.room
  have length := tiled.length
  rw [array, List.append_nil] at length
  omega

/-- The ranges handed out may be listed in any order. -/
theorem perm {l : List Map} (tiled : Tiled n size a s ts) (same : s.live.Perm l) :
    Tiled n size a ⟨s.mp, l⟩ ts where
  tight := tiled.tight
  width := tiled.width
  array := tiled.array
  length := tiled.length
  live := same.symm.trans tiled.live
  room := same.length_eq ▸ tiled.room

/-- `malloc` does not run past the end of the array. -/
theorem exists_malloc (tiled : Tiled n size a s ts) (wanted : 0 < k) :
    ∃ b mp, Map.malloc k s.mp = some (b, mp) := by
  obtain ⟨rest, array, zero, some⟩ := tiled.ends
  rw [array]
  rcases malloc_spec (a := a) tiled.tight zero some wanted with
    ⟨-, none⟩ | ⟨before, m, after, rest', -, -, -, taken, -⟩
  · exact ⟨0, _, none⟩
  · exact ⟨_, _, taken⟩

/-- The first `mfree` on an array of zeros. -/
theorem start (several : 2 ≤ n) (real : 0 < a)
    (filled : Map.mfree size a (List.replicate n ⟨0, 0⟩) = some mp) :
    ∃ ts, Tiled n size a ⟨mp, []⟩ ts := by
  have length := mfree_length filled
  obtain ⟨n, rfl⟩ : ∃ m, n = m + 1 := ⟨n - 1, by omega⟩
  have distinct : ¬(a + size = 0 ∧ (0 : ℕ) ≠ 0) := by omega
  rw [List.replicate_succ, Map.mfree, if_neg (by simp), apart, if_neg distinct] at filled
  have zero : ∀ k, Zero (List.replicate k ⟨0, 0⟩) := by
    intro k bp mem
    rw [List.eq_of_mem_replicate mem]
  by_cases empty : size = 0
  · subst empty
    rw [if_neg (by simp)] at filled
    obtain rfl := Option.some.inj filled
    exact ⟨[],
      { tight := ⟨by simp, .nil⟩
        width := rfl
        array := ⟨List.replicate (n + 1) ⟨0, 0⟩, rfl, zero _⟩
        length := by rw [length, List.length_replicate]
        live := List.Perm.refl _
        room := several }⟩
  · rw [if_pos empty, insert, if_pos rfl] at filled
    obtain rfl := Option.some.inj filled
    exact ⟨[⟨false, size⟩],
      { tight := ⟨by simp [Nat.pos_of_ne_zero empty], .singleton _⟩
        width := by simp
        array := ⟨List.replicate n ⟨0, 0⟩, by simp [holesOf, range], zero _⟩
        length := by simp
        live := by
          rw [liveOf_free]
          exact List.Perm.refl _
        room := several }⟩

/-- A range is handed out, or there is no hole for it. -/
theorem malloc (tiled : Tiled n size a s ts) (real : 0 < a) (wanted : 0 < k)
    (more : s.live.length + 2 < n) (found : Map.malloc k s.mp = some (b, mp)) :
    ∃ us, Tiled n size a ⟨mp, if b = 0 then s.live else range b k :: s.live⟩ us := by
  obtain ⟨rest, array, zero, some⟩ := tiled.ends
  have length := (malloc_length found).trans tiled.length
  rw [array] at found
  rcases malloc_spec (a := a) tiled.tight zero some wanted with
    ⟨-, none⟩ | ⟨before, m, after, rest', rfl, -, fits, taken, zero'⟩
  · obtain ⟨rfl, rfl⟩ := Prod.mk.inj (Option.some.inj (found.symm.trans none))
    refine ⟨ts, ?_⟩
    rw [← array, if_pos rfl]
    exact tiled
  · obtain ⟨rfl, rfl⟩ := Prod.mk.inj (Option.some.inj (found.symm.trans taken))
    have wide := tiled.width
    have live := tiled.live
    obtain ⟨first, second, pos, beside⟩ := Tight.middle_iff.mp tiled.tight
    rw [liveOf_append, liveOf_free] at live
    rw [Tile.width_append, Tile.width_cons] at wide
    refine ⟨before ++ ⟨true, k⟩ :: (leftover m k ++ after), ?_⟩
    have left : Tight (leftover m k ++ after) ∧ Tile.width (leftover m k ++ after) =
        m - k + Tile.width after ∧ ∀ a, liveOf a (leftover m k ++ after) =
          liveOf (a + (m - k)) after := by
      by_cases whole : m = k
      · simp [leftover, whole, second]
      · have some : 0 < m - k := by omega
        have tight : Tight ([] ++ ⟨false, m - k⟩ :: after) := Tight.middle_iff.mpr
          ⟨⟨by simp, .nil⟩, second, some, fun _ => ⟨by simp, (beside rfl).2⟩⟩
        simpa [leftover, whole] using tight
    rw [if_neg (by omega)]
    exact
      { tight := Tight.middle_iff.mpr ⟨first, left.1, wanted, by simp⟩
        width := by
          rw [Tile.width_append, Tile.width_cons, left.2.1]
          simp only at wide ⊢
          omega
        array := ⟨rest', rfl, zero'⟩
        length := length
        live := by
          have same : a + Tile.width before + k + (m - k) = a + Tile.width before + m := by omega
          rw [liveOf_append, liveOf_used, left.2.2, same]
          exact (live.cons _).trans List.perm_middle.symm
        room := by
          rw [List.length_cons]
          omega }

/-- A range in use is freed. -/
theorem mfree (tiled : Tiled n size a s ts) (mine : r ∈ s.live) :
    ∃ mp us, Map.mfree r.m_size r.m_addr s.mp = some mp ∧
        Tiled n size a ⟨mp, s.live.erase r⟩ us := by
  obtain ⟨rest, array, zero, some⟩ := tiled.ends
  obtain ⟨pre, post, k, rfl, rfl⟩ := Tile.exists_of_mem_spans (tiled.live.mem_iff.mp mine)
  obtain ⟨us, rest', freed, zero', tight, width, live⟩ := free_spec (a := a) tiled.tight zero some
  rw [← array] at freed
  refine ⟨_, us, freed, ?_⟩
  have before := tiled.live
  rw [liveOf_append, liveOf_used] at before
  have room := tiled.room
  have fewer := List.length_erase_of_mem mine
  exact
    { tight := tight
      width := width.trans tiled.width
      array := ⟨rest', rfl, zero'⟩
      length := (mfree_length freed).trans tiled.length
      live := by
        rw [live]
        have moved := (before.trans List.perm_middle).erase (range (a + Tile.width pre) k)
        rwa [List.erase_cons_head] at moved
      room := by
        simp only
        omega }

theorem of_run (run : Run n size a s) : 0 < a ∧ ∃ ts, Tiled n size a s ts := by
  induction run with
  | start several real filled => exact ⟨real, start several real filled⟩
  | malloc _ wanted more found ih =>
      obtain ⟨real, ts, tiled⟩ := ih
      exact ⟨real, tiled.malloc real wanted more found⟩
  | mfree _ mine freed ih =>
      obtain ⟨real, ts, tiled⟩ := ih
      obtain ⟨mp, us, freed', tiled'⟩ := tiled.mfree mine
      obtain rfl := Option.some.inj (freed.symm.trans freed')
      exact ⟨real, us, tiled'⟩

/-- What the tiling says about the map. -/
theorem lists (tiled : Tiled n size a s ts) : Lists size a s (holesOf a ts) where
  array := by
    obtain ⟨rest, array, zero, some⟩ := tiled.ends
    exact ⟨rest, array, some, zero⟩
  pos := holesOf_pos tiled.tight
  sorted := tiled.tight.spans_sorted Map.m_addr Map.m_size (fun _ _ => rfl) fun _ _ => rfl
  free u := by
    rw [← tiled.width]
    constructor
    · rintro ⟨h, mem, here⟩
      have bounds := Tile.spans_bounds Map.m_addr Map.m_size (fun _ _ => rfl) (fun _ _ => rfl) mem
      have inside := here
      rw [Has, stop] at inside
      refine ⟨by omega, by omega, fun r live => ?_⟩
      exact Tile.not_both Map.m_addr Map.m_size (fun _ _ => rfl) (fun _ _ => rfl) mem
        (tiled.live.mem_iff.mp live) here
    · rintro ⟨low, high, unused⟩
      obtain ⟨used, r, mem, here⟩ := Tile.exists_span (f := range) Map.m_addr Map.m_size
        (fun _ _ => rfl) (fun _ _ => rfl) low high
      cases used with
      | true => exact absurd here (unused r (tiled.live.mem_iff.mpr mem))
      | false => exact ⟨r, mem, here⟩
  inside r live := by
    have mem := tiled.live.mem_iff.mp live
    have bounds := Tile.spans_bounds Map.m_addr Map.m_size (fun _ _ => rfl) (fun _ _ => rfl) mem
    obtain ⟨before, after, k, rfl, rfl⟩ := Tile.exists_of_mem_spans mem
    rw [← tiled.width]
    exact ⟨tiled.tight.pos ⟨true, k⟩ (by simp), bounds⟩
  disjoint := by
    have ordered : (liveOf a ts).Pairwise fun r t => r.m_addr + r.m_size ≤ t.m_addr :=
      Tile.spans_ordered Map.m_addr Map.m_size (fun _ _ => rfl) (fun _ _ => rfl) ts
    have symmetric : ∀ {r t : Map}, (∀ u, r.Has u → ¬t.Has u) → ∀ u, t.Has u → ¬r.Has u :=
      fun away u here also => away u also here
    refine (tiled.live.pairwise_iff symmetric).mpr (ordered.imp fun order u here also => ?_)
    rw [Has, stop] at here also
    omega
  few := tiled.few

end Tiled

/-- Whatever has been handed out and freed, the map lists the holes; the next `malloc` finds the
first one that is large enough, and no call runs past the end of the array. -/
theorem lists_of_run {s : State} (run : Run n size a s) :
    ∃ holes, Lists size a s holes ∧
      (∀ k, 0 < k → ∃ b mp, malloc k s.mp = some (b, mp) ∧
        (b = 0 → ∀ h ∈ holes, h.m_size < k) ∧
        (b ≠ 0 → ∃ h ∈ holes, h.m_addr = b ∧ k ≤ h.m_size ∧
          ∀ h' ∈ holes, k ≤ h'.m_size → b ≤ h'.m_addr)) ∧
      (∀ r ∈ s.live, ∃ mp, mfree r.m_size r.m_addr s.mp = some mp) ∧
      (s.live.length < NPROC + NTEXT → s.live.length + 2 < SMAPSIZ) ∧
      (s.live.length < NPROC → s.live.length + 2 < PMAPSIZ) := by
  obtain ⟨real, ts, tiled⟩ := Tiled.of_run run
  obtain ⟨rest, array, zero, some⟩ := tiled.ends
  refine ⟨holesOf a ts, tiled.lists, fun k wanted => ?_, fun r mine => ?_, fun few => ?_,
    fun few => ?_⟩
  · rw [array]
    rcases malloc_spec (a := a) tiled.tight zero some wanted with
      ⟨small, none⟩ | ⟨before, m, after, rest', rfl, small, fits, taken, -⟩
    · refine ⟨0, _, none, fun _ h mem => ?_, fun real => absurd rfl real⟩
      obtain ⟨before, after, m, rfl, rfl⟩ := Tile.exists_of_mem_spans mem
      exact small ⟨false, m⟩ (by simp) rfl
    · refine ⟨_, _, taken, fun none => by omega, fun _ => ?_⟩
      refine ⟨range (a + Tile.width before) m, ?_, rfl, fits, fun h mem large => ?_⟩
      · rw [holesOf_append, holesOf_free]
        simp
      · -- the holes in front are too small, and those behind begin further on
        rw [holesOf_append, holesOf_free, List.mem_append, List.mem_cons] at mem
        rcases mem with mem | rfl | mem
        · obtain ⟨pre, post, j, rfl, rfl⟩ := Tile.exists_of_mem_spans mem
          have less := small ⟨false, j⟩ (by simp) rfl
          exact absurd large (Nat.not_le.mpr less)
        · exact Nat.le_refl _
        · have bounds := Tile.spans_bounds Map.m_addr Map.m_size (fun _ _ => rfl)
            (fun _ _ => rfl) mem
          omega
  · obtain ⟨mp, us, freed, -⟩ := tiled.mfree mine
    exact ⟨mp, freed⟩
  · simp only [SMAPSIZ, NPROC, NTEXT] at few ⊢
    omega
  · simp only [PMAPSIZ, NPROC] at few ⊢
    omega

/-- Of ten units from 1 on, three and two are handed out and the three are freed again. -/
theorem lists_two_holes :
    ∃ s, Run 5 10 1 s ∧ s.live = [range 4 2] ∧
      ∃ holes, Lists 10 1 s holes ∧ ∀ r ∈ s.live, ∃ mp, mfree r.m_size r.m_addr s.mp = some mp := by
  have start : Run 5 10 1 ⟨[⟨10, 1⟩, ⟨0, 0⟩, ⟨0, 0⟩, ⟨0, 0⟩, ⟨0, 0⟩], []⟩ :=
    .start (by decide) (by decide) rfl
  have three := start.malloc (k := 3) (by decide) (by decide) rfl
  have two := three.malloc (k := 2) (by decide) (by decide) rfl
  have run := two.mfree (r := range 1 3) (by decide) rfl
  obtain ⟨holes, lists, -, frees, -⟩ := lists_of_run run
  exact ⟨_, run, rfl, holes, lists, frees⟩

end Map

end UnixV7
