import UnixV7.Library.Interleaving
import UnixV7.Kernel.Holdings

/-!
# Swapping in

`swapin` of `slp.c`. It tests that there is core for the process and its text, and allocates the
text; when the text has to be read from the swap area it sleeps in `xread`, and only then takes
the pages of the process. Other parties take pages in the meantime.
-/

namespace UnixV7

open Function

namespace Swapin

/-- The fields of `struct text` which `swapin` uses; `x_load` is the flag `XLOAD`. -/
structure Text where
  x_size : ℕ
  x_ccount : ℕ
  x_load : Bool
  x_map : Pg

/-- The core, the process to be swapped in with its text, and what everybody else holds. -/
structure State (ι : Type*) where
  core : Core
  p_size : ℕ
  p_addr : Pg
  p_map : Pg
  loaded : Bool
  text : Option Text
  others : ι → Holding
  /-- What the calls of `pgalloc` and `mapalloc` in `swapin` returned, the last one first. -/
  answers : List Bool

/-- Where `swapin` is suspended or has ended. Other parties stay at `before`. -/
inductive Place
  | before | refused | reading | filling | returned
  deriving DecidableEq

/-- The moves of `swapin` and the calls by which others take and return core. -/
inductive Event
  /-- `swapin` has locked the text, and goes on until it sleeps or returns. -/
  | test
  /-- The text has been read. -/
  | read
  /-- The image has been read. -/
  | filled
  | pgalloc
  | pgfree (pg : Pg)
  | mapalloc (n : ℕ)
  | mapfree (n : ℕ)

namespace State

variable {ι : Type*}

/-- The core that `swapin` asks for. -/
def need (s : State ι) : ℕ :=
  USIZE + Core.mapneed 0 (s.p_size - USIZE) +
    match s.text with
    | some xp => if xp.x_ccount = 0 then Core.mapneed 0 xp.x_size else 0
    | none => 0

/-- The part of `swapin` behind the text: the pages of the process are taken. -/
def fill (s : State ι) : State ι :=
  let (addr, core) := s.core.pgalloc
  let (ok, map, core) := core.mapalloc s.p_map 0 (s.p_size - USIZE)
  { s with
    core := core
    p_addr := addr
    p_map := map
    text := s.text.map fun xp => { xp with x_ccount := xp.x_ccount + 1 }
    answers := ok :: decide (addr ≠ 0) :: s.answers }

/-- The core for the text is taken. -/
def expandText (s : State ι) (xp : Text) : State ι :=
  let (ok, map, core) := s.core.mapalloc xp.x_map 0 xp.x_size
  { s with
    core := core
    text := some { xp with x_map := map }
    answers := ok :: s.answers }

end State

/-- The swapper `none` at work for one process, and the parties that take and return core. -/
def system (ι : Type*) [DecidableEq ι] : System (Option ι) Event (State ι) Place where
  start := .before
  next p e s l :=
    match p, e, l with
    | none, .test, .before =>
        if s.core.npgfree < s.need then
          some (s, .refused)
        else
          match s.text with
          | none => some (s.fill, .filling)
          | some xp =>
              if xp.x_ccount ≠ 0 then
                some (s.fill, .filling)
              else if xp.x_load then
                some ((s.expandText xp).fill, .filling)
              else
                some (s.expandText xp, .reading)
    | none, .read, .reading => some (s.fill, .filling)
    | none, .filled, .filling => some ({ s with loaded := true }, .returned)
    | some q, .pgalloc, l =>
        if s.core.npgfree = 0 then
          none
        else
          let (pg, core) := s.core.pgalloc
          let h := s.others q
          some ({ s with
            core := core
            others := update s.others q { h with pages := pg :: h.pages } }, l)
    | some q, .pgfree pg, l =>
        let h := s.others q
        if pg ∈ h.pages then
          some ({ s with
            core := s.core.pgfree pg
            others := update s.others q { h with pages := h.pages.erase pg } }, l)
        else
          none
    | some q, .mapalloc n, l =>
        let h := s.others q
        if n < h.size then
          none
        else
          match s.core.mapalloc h.map h.size n with
          | (true, map, core) =>
              some ({ s with
                core := core
                others := update s.others q { h with map := map, size := n } }, l)
          | (false, _, _) => some (s, l)
    | some q, .mapfree n, l =>
        let h := s.others q
        if h.size < n then
          none
        else
          let (map, core) := s.core.mapfree h.map n h.size
          some ({ s with
            core := core
            others := update s.others q { h with map := map, size := n } }, l)
    | _, _, _ => none

/-- Everybody who holds core. -/
inductive Party (ι : Type*)
  | image | text | other (q : ι)

/-- What each party holds when `swapin` is at a place. -/
def holding {ι : Type*} (s : State ι) (l : Place) : Party ι → Holding
  | .image =>
      if l = .filling ∨ l = .returned then
        ⟨[s.p_addr], s.p_map, s.p_size - USIZE⟩
      else
        ⟨[], s.p_map, 0⟩
  | .text =>
      match s.text with
      | none => ⟨[], 0, 0⟩
      | some xp => ⟨[], xp.x_map, if xp.x_ccount ≠ 0 ∨ l = .reading then xp.x_size else 0⟩
  | .other q => s.others q

/-- Nothing has been allocated yet, and every page is in one place. -/
structure Initial {ι : Type*} (s : State ι) : Prop where
  none_asked : s.answers = []
  held : Held (holding s .before) s.core

/-- Every allocation of `swapin` has succeeded, and the pages of the process are its own. -/
structure InCore {ι : Type*} (s : State ι) (l : Place) : Prop where
  granted : ∀ answer ∈ s.answers, answer = true
  own : ∀ pg, pg = s.p_addr ∨ (∃ i, i < s.p_size - USIZE ∧ pg = s.core.mapent s.p_map i) →
    pg ∉ s.core.pgstk ∧ ∀ x, x ≠ .image → pg ∉ (holding s l x).all s.core

/-- The pages that `swapin` still has to take are there when it comes back from reading the
text. -/
def Enough {ι : Type*} (w : World (Option ι) (State ι) Place) (_ : Option ι) (e : Event) : Prop :=
  e = .read → USIZE + Core.mapneed 0 (w.shared.p_size - USIZE) ≤ w.shared.core.npgfree

/-! ## The moves -/

variable {ι : Type*} {s s' : State ι} {l : Place} {xp : Text}

/-- The invariant of `swapin`. -/
structure Sound (s : State ι) (l : Place) : Prop where
  held : Held (holding s l) s.core
  granted : ∀ answer ∈ s.answers, answer = true

/-- Once the image is there its pages are its own. -/
theorem Sound.inCore (sound : Sound s l) (there : l = .filling ∨ l = .returned) : InCore s l := by
  refine ⟨sound.granted, fun pg member => sound.held.exclusive ?_⟩
  simp only [holding, if_pos there, Holding.all]
  rcases member with rfl | ⟨i, below, rfl⟩
  · simp
  · have entry : s.core.mapent s.p_map i ∈ s.core.entries s.p_map (s.p_size - USIZE) :=
      List.mem_map.mpr ⟨i, List.mem_range.mpr below, rfl⟩
    rw [Core.mappages_of_ne (by omega), Core.rooted]
    simp [entry]

/-- The text gets its core, and enough is left for the process. -/
theorem Sound.expandText (sound : Sound s .before) (has : s.text = some xp)
    (out : xp.x_ccount = 0) (enough : s.need ≤ s.core.npgfree) :
    Sound (s.expandText xp) .reading ∧
      USIZE + Core.mapneed 0 (s.p_size - USIZE) ≤ (s.expandText xp).core.npgfree := by
  simp only [State.need, has, out, if_true] at enough
  obtain ⟨root, core, result, exchanged⟩ := Core.mapalloc_exchanged xp.x_map
    (Nat.zero_le xp.x_size) (by simpa using sound.held.apart.free)
    (show Core.mapneed 0 xp.x_size ≤ s.core.npgfree by omega)
  have length := exchanged.length
  rw [Core.mappages_length, Core.mappages_length] at length
  have sizes := Core.mapsize_add_mapneed (Nat.zero_le xp.x_size)
  have state : s.expandText xp = { s with
      core := core
      text := some { xp with x_map := root }
      answers := true :: s.answers } := by
    simp [State.expandText, result]
  rw [state]
  refine ⟨⟨?_, by simpa using sound.granted⟩, by simp only; omega⟩
  refine sound.held.trade .text ?_ ?_
  · simpa [holding, has, out, Holding.all] using exchanged
  · rintro (_ | _ | q) other
    · rfl
    · exact absurd rfl other
    · rfl

/-- The process gets its core. -/
theorem Sound.fill (sound : Sound s l) (early : l = .before ∨ l = .reading)
    (ready : ∀ xp, s.text = some xp → xp.x_ccount ≠ 0 ∨ l = .reading)
    (enough : USIZE + Core.mapneed 0 (s.p_size - USIZE) ≤ s.core.npgfree) :
    Sound s.fill .filling := by
  have outside : ¬(l = .filling ∨ l = .returned) := by
    rcases early with rfl | rfl <;> simp
  have some_left : 0 < s.core.npgfree := by
    simp only [USIZE] at enough
    omega
  obtain ⟨free, first⟩ := Core.pgalloc_exchanged some_left []
  have left := Core.pgalloc_npgfree some_left
  have distinct : s.core.pgalloc.2.pgstk.Nodup := by
    have pair := first.nodup (by simpa using sound.held.apart.free)
    exact (List.nodup_append.mp pair).2.1
  obtain ⟨root, core, result, second⟩ := Core.mapalloc_exchanged s.p_map
    (Nat.zero_le (s.p_size - USIZE)) (by simpa using distinct)
    (show Core.mapneed 0 (s.p_size - USIZE) ≤ s.core.pgalloc.2.npgfree by
      simp only [USIZE] at enough ⊢
      omega)
  have nonzero : s.core.pgalloc.1 ≠ 0 :=
    sound.held.nonzero .image _ (List.mem_append_right _ free)
  have state : s.fill = { s with
      core := core
      p_addr := s.core.pgalloc.1
      p_map := root
      text := s.text.map fun xp => { xp with x_ccount := xp.x_ccount + 1 }
      answers := true :: true :: s.answers } := by
    simp [State.fill, result, nonzero]
  rw [state]
  refine ⟨?_, by simpa using sound.granted⟩
  refine sound.held.trade .image ?_ ?_
  · have both := first.trans (second.append_left [s.core.pgalloc.1])
    simpa [holding, outside, Holding.all] using both
  · rintro (_ | _ | q) other
    · exact absurd rfl other
    · cases has : s.text with
      | none => simp [holding, has]
      | some xp => simp [holding, has, ready xp has]
    · rfl

/-- A call of another party trades its own pages with the stack. -/
theorem Sound.other [DecidableEq ι] {q : ι} {h : Holding} {core : Core} (sound : Sound s l)
    (exchanged : Core.Exchanged s.core core ((s.others q).all s.core) (h.all core)) :
    Sound { s with core := core, others := update s.others q h } l := by
  refine ⟨?_, sound.granted⟩
  refine sound.held.trade (.other q) ?_ ?_
  · simpa [holding] using exchanged
  · rintro (_ | _ | r) other
    · rfl
    · rfl
    · have away : r ≠ q := fun same => other (same ▸ rfl)
      simp [holding, away]

/-- Giving up changes nothing that is held. -/
theorem Sound.refused (sound : Sound s .before) : Sound s .refused := by
  have same : holding s .refused = holding s .before := by
    funext x
    cases x <;> simp [holding]
  exact ⟨same ▸ sound.held, sound.granted⟩

/-- Nor does the end of the reading. -/
theorem Sound.filled (sound : Sound s .filling) : Sound { s with loaded := true } .returned := by
  have same : holding { s with loaded := true } .returned = holding s .filling := by
    funext x
    cases x <;> simp [holding]
  exact ⟨same ▸ sound.held, sound.granted⟩

/-- The calls of the other parties keep the invariant. -/
theorem Sound.step_other [DecidableEq ι] {place place' : Place} {q : ι} {e : Event}
    (sound : Sound s l) (moved : (system ι).next (some q) e s place = some (s', place')) :
    Sound s' l := by
  cases e with
  | test | read | filled => simp [system] at moved
  | pgalloc =>
      simp only [system] at moved
      split at moved
      · simp at moved
      · next some_left =>
          obtain ⟨rfl, -⟩ := Prod.mk.inj (Option.some.inj moved)
          exact sound.other ((s.others q).pgalloc_exchanged (Nat.pos_of_ne_zero some_left))
  | pgfree pg =>
      simp only [system] at moved
      split at moved
      · next mine =>
          obtain ⟨rfl, -⟩ := Prod.mk.inj (Option.some.inj moved)
          exact sound.other ((s.others q).pgfree_exchanged mine)
      · simp at moved
  | mapalloc n =>
      simp only [system] at moved
      split at moved
      · simp at moved
      · next grows =>
          split at moved
          · next root core result =>
              obtain ⟨rfl, -⟩ := Prod.mk.inj (Option.some.inj moved)
              refine sound.other
                ((s.others q).mapalloc_exchanged (Nat.le_of_not_lt grows) ?_ result)
              exact sound.held.apart.own (.other q)
          · obtain ⟨rfl, -⟩ := Prod.mk.inj (Option.some.inj moved)
            exact sound
  | mapfree n =>
      simp only [system] at moved
      split at moved
      · simp at moved
      · next shrinks =>
          obtain ⟨rfl, -⟩ := Prod.mk.inj (Option.some.inj moved)
          exact sound.other ((s.others q).mapfree_exchanged (Nat.le_of_not_lt shrinks))

/-- The moves of `swapin` keep the invariant, `xread` being left with enough core. -/
theorem Sound.step_swapin [DecidableEq ι] {place : Place} {e : Event} (sound : Sound s l)
    (may : e = .read → USIZE + Core.mapneed 0 (s.p_size - USIZE) ≤ s.core.npgfree)
    (moved : (system ι).next none e s l = some (s', place)) : Sound s' place := by
  cases e with
  | test =>
      cases l with
      | before =>
          simp only [system] at moved
          split at moved
          · obtain ⟨rfl, rfl⟩ := Prod.mk.inj (Option.some.inj moved)
            exact sound.refused
          · next enough =>
              split at moved
              · next has =>
                  obtain ⟨rfl, rfl⟩ := Prod.mk.inj (Option.some.inj moved)
                  refine sound.fill (.inl rfl) (by simp [has]) ?_
                  simp only [State.need, has] at enough
                  omega
              · next xp has =>
                  split at moved
                  · next shared =>
                      obtain ⟨rfl, rfl⟩ := Prod.mk.inj (Option.some.inj moved)
                      refine sound.fill (.inl rfl) ?_ ?_
                      · rintro xp' has'
                        obtain rfl : xp = xp' := by simpa [has] using has'
                        exact .inl shared
                      · simp only [State.need, has, if_neg shared] at enough
                        omega
                  · next out =>
                      obtain ⟨expanded, left⟩ := sound.expandText has (not_not.mp out) (by omega)
                      split at moved
                      · obtain ⟨rfl, rfl⟩ := Prod.mk.inj (Option.some.inj moved)
                        exact expanded.fill (.inr rfl) (fun _ _ => .inr rfl) left
                      · obtain ⟨rfl, rfl⟩ := Prod.mk.inj (Option.some.inj moved)
                        exact expanded
      | refused | reading | filling | returned => simp [system] at moved
  | read =>
      cases l with
      | reading =>
          obtain ⟨rfl, rfl⟩ := Prod.mk.inj (Option.some.inj moved)
          exact sound.fill (.inr rfl) (fun _ _ => .inr rfl) (may rfl)
      | before | refused | filling | returned => simp [system] at moved
  | filled =>
      cases l with
      | filling =>
          obtain ⟨rfl, rfl⟩ := Prod.mk.inj (Option.some.inj moved)
          exact sound.filled
      | before | refused | reading | returned => simp [system] at moved
  | pgalloc | pgfree | mapalloc | mapfree => simp [system] at moved

/-- Every move keeps the invariant. -/
theorem Sound.step [DecidableEq ι] {w : World (Option ι) (State ι) Place} {p : Option ι}
    {e : Event} (sound : Sound w.shared (w.loc none)) (may : Enough w p e)
    (moved : (system ι).next p e w.shared (w.loc p) = some (s, l)) :
    Sound s (update w.loc p l none) := by
  cases p with
  | none =>
      rw [update_self]
      exact sound.step_swapin may moved
  | some q =>
      rw [update_of_ne (by simp)]
      exact sound.step_other moved

/-- In every run in which `xread` leaves enough core for the process, whatever the others take in
the meantime, `swapin` gets all it asks for and the pages of the process are its own. -/
theorem inCore_of_run [DecidableEq ι] {w : World (Option ι) (State ι) Place}
    (run : (system ι).Run Initial Enough w) :
    (∀ answer ∈ w.shared.answers, answer = true) ∧
      (w.loc none = .filling ∨ w.loc none = .returned → InCore w.shared (w.loc none)) := by
  have sound : Sound w.shared (w.loc none) := by
    refine run.invariant (fun w => Sound w.shared (w.loc none)) (fun s fresh => ?_)
      fun w p e s l sound may moved => sound.step may moved
    exact ⟨fresh.held, by simp [fresh.none_asked]⟩
  exact ⟨sound.granted, sound.inCore⟩

/-! ## A page short -/

/-- Seven free pages, just what a process of two pages with a text of one page takes when the
text is to be read. -/
def sevenFree : State ℕ where
  core := ⟨[1, 2, 3, 4, 5, 6, 7], fun _ _ => 0⟩
  p_size := 2
  p_addr := 100
  p_map := 0
  loaded := false
  text := some ⟨1, 0, false, 0⟩
  others _ := ⟨[], 0, 0⟩
  answers := []

theorem sevenFree_initial : Initial sevenFree := by
  have none_held : ∀ x : Party ℕ, (holding sevenFree .before x).all sevenFree.core = [] := by
    rintro (_ | _ | q) <;> rfl
  refine ⟨rfl, ⟨by decide, fun x => ?_, fun x y _ => ?_⟩, fun x => ?_⟩
  · rw [none_held]
    decide
  · simp [none_held]
  · rw [none_held]
    decide

theorem inCore_sevenFree :
    ∃ w, (system ℕ).Run Initial Enough w ∧ w.loc none = .returned ∧
      (∀ answer ∈ w.shared.answers, answer = true) ∧
      (w.loc none = .filling ∨ w.loc none = .returned → InCore w.shared (w.loc none)) := by
  have start : (system ℕ).Run Initial Enough _ := .start sevenFree_initial
  have tested := start.next (p := none) (e := .test) (by simp [Enough]) rfl
  have read := tested.next (p := none) (e := .read) (fun _ => by decide) rfl
  have run := read.next (p := none) (e := .filled) (by simp [Enough]) rfl
  exact ⟨_, run, rfl, inCore_of_run run⟩

/-- While `swapin` reads the text another party takes one page, as it may: `mapalloc` fails for
the process. -/
theorem not_forall_reachable_granted :
    ¬∀ w, (system ℕ).Reachable Initial w → ∀ answer ∈ w.shared.answers, answer = true := by
  intro all
  have granted := all _ (System.reachable_of_exec
    [(none, .test), (some 0, .pgalloc), (none, .read)] sevenFree_initial rfl)
  exact absurd granted (by decide)

end Swapin

end UnixV7
