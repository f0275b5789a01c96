import Mathlib.Data.Set.Insert
import Mathlib.Data.List.Infix
import Mathlib.Data.List.Perm.Subperm
import Mathlib.Tactic.Common
import UnixV7.Cmd.Fgrep.Cgotofn

/-!
# The table as a trie

Each beginning of a word has its own list of elements in the table. The edits of `cgotofn` keep
this: an element is linked behind the last one of a list, an element without a character gets one
and a list behind it, and the first element of a list is marked.
-/

namespace UnixV7

open Function

namespace Fgrep

/-- The elements are linked each to the next one, the last to none. -/
def Linked (w : ℕ → Words) : List ℕ → Prop
  | [] => True
  | x :: xs => (w x).link = xs.head? ∧ Linked w xs

/-- The table holds a trie: `kids u` are the elements for the characters that follow `u`, and the
words of `D` are marked. -/
structure Trie (t : Table) (kids : List UInt8 → List ℕ) (D : Set (List UInt8)) : Prop where
  small : t.smax < MAXSIZ
  root : (kids []).head? = some 0
  linked : ∀ u, Linked t.w (kids u)
  apart : ∀ ⦃u v x⦄, x ∈ kids u → x ∈ kids v → u = v
  nodup : ∀ u, (kids u).Nodup
  below : ∀ ⦃u x⦄, x ∈ kids u → x ≤ t.smax
  fresh : ∀ x, t.smax < x → t.w x = blank
  next : ∀ ⦃u x⦄, x ∈ kids u → (t.w x).inp ≠ 0 →
    (t.w x).nst = (kids (u ++ [(t.w x).inp])).head? ∧ kids (u ++ [(t.w x).inp]) ≠ []
  letters : ∀ ⦃u x y⦄, x ∈ kids u → y ∈ kids u → (t.w x).inp = (t.w y).inp → (t.w x).inp ≠ 0 → x = y
  known : ∀ ⦃u c⦄, kids (u ++ [c]) ≠ [] → c ≠ 0 ∧ ∃ x ∈ kids u, (t.w x).inp = c
  closed : ∀ ⦃u x⦄, x ∈ kids u → (t.w x).link ≠ none → (t.w x).inp ≠ 0
  marks : ∀ ⦃u x⦄, x ∈ kids u → ((t.w x).out = true ↔ (kids u).head? = some x ∧ u ∈ D)
  dict : ∀ ⦃u⦄, u ∈ D → kids u ≠ []
  fails : ∀ x, (t.w x).fail = none

section

variable {t t' : Table} {w w' : ℕ → Words} {kids : List UInt8 → List ℕ} {D : Set (List UInt8)}
  {u v : List UInt8} {c : UInt8} {x y s : ℕ} {xs : List ℕ}

theorem Linked.congr (same : ∀ y ∈ xs, (w' y).link = (w y).link) (linked : Linked w xs) :
    Linked w' xs := by
  induction xs with
  | nil => trivial
  | cons x xs ih =>
      obtain ⟨here, rest⟩ := List.forall_mem_cons.mp same
      exact ⟨here.trans linked.1, ih rest linked.2⟩

/-- The last element of a list is the one that is linked to none. -/
theorem Linked.eq_append (linked : Linked w xs) (mem : x ∈ xs) (last : (w x).link = none) :
    ∃ front, xs = front ++ [x] := by
  induction xs with
  | nil => exact absurd mem List.not_mem_nil
  | cons y xs ih =>
      obtain ⟨here, rest⟩ := linked
      rcases List.mem_cons.mp mem with rfl | mem
      · rw [last] at here
        rw [List.head?_eq_none_iff.mp here.symm]
        exact ⟨[], rfl⟩
      · obtain ⟨front, rfl⟩ := ih rest mem
        exact ⟨y :: front, rfl⟩

/-- An element is linked behind the last one. -/
theorem Linked.append {front : List ℕ} (linked : Linked w (front ++ [x]))
    (free : x ∉ front) (same : ∀ z ∈ front, (w' z).link = (w z).link)
    (link : (w' x).link = some y) (last : (w' y).link = none) :
    Linked w' (front ++ [x] ++ [y]) := by
  induction front with
  | nil => exact ⟨link, last, trivial⟩
  | cons z front ih =>
      obtain ⟨here, rest⟩ := List.forall_mem_cons.mp same
      refine ⟨here.trans ?_, ih linked.2 (fun mem => free (List.mem_cons_of_mem z mem)) rest⟩
      rw [linked.1]
      cases front with
      | nil => rfl
      | cons _ _ => rfl

/-- What the loop over a list finds. -/
theorem loop_spec {fuel : ℕ} (linked : Linked w (x :: xs))
    (closed : ∀ z ∈ x :: xs, (w z).link ≠ none → (w z).inp ≠ 0) (enough : xs.length < fuel) :
    (∃ y ∈ x :: xs, loop w c fuel x = .ok (.same y) ∧ (w y).inp = c) ∨
    (∃ y ∈ x :: xs, loop w c fuel x = .ok (.empty y) ∧ (w y).inp = 0 ∧
      ∀ z ∈ x :: xs, (w z).inp ≠ c) ∨
    (∃ y ∈ x :: xs, loop w c fuel x = .ok (.last y) ∧ (w y).link = none ∧
      ∀ z ∈ x :: xs, (w z).inp ≠ c ∧ (w z).inp ≠ 0) := by
  induction xs generalizing x fuel with
  | nil =>
      obtain ⟨fuel, rfl⟩ : ∃ n, fuel = n + 1 := ⟨fuel - 1, by simp at enough; omega⟩
      have last : (w x).link = none := linked.1
      rw [loop]
      split
      next same => exact Or.inl ⟨x, by simp, rfl, same⟩
      next other =>
        split
        next empty => exact Or.inr (Or.inl ⟨x, by simp, rfl, empty, by simpa using other⟩)
        next used =>
          refine Or.inr (Or.inr ⟨x, by simp, ?_, last, by simpa using ⟨other, used⟩⟩)
          rw [last]
  | cons y xs ih =>
      obtain ⟨fuel, rfl⟩ : ∃ n, fuel = n + 1 := ⟨fuel - 1, by simp at enough; omega⟩
      have link : (w x).link = some y := linked.1
      have used : (w x).inp ≠ 0 := closed x List.mem_cons_self (by simp [link])
      rw [loop]
      split
      next same => exact Or.inl ⟨x, by simp, rfl, same⟩
      next other =>
        rw [link]
        have tail := ih linked.2 (fun z mem => closed z (List.mem_cons_of_mem x mem))
          (by simpa using enough)
        rcases tail with ⟨z, mem, eq, same⟩ | ⟨z, mem, eq, empty, others⟩ |
          ⟨z, mem, eq, last, others⟩
        · exact Or.inl ⟨z, List.mem_cons_of_mem x mem, eq, same⟩
        · exact Or.inr (Or.inl ⟨z, List.mem_cons_of_mem x mem, eq, empty,
            List.forall_mem_cons.mpr ⟨other, others⟩⟩)
        · exact Or.inr (Or.inr ⟨z, List.mem_cons_of_mem x mem, eq, last,
            List.forall_mem_cons.mpr ⟨⟨other, used⟩, others⟩⟩)

/-- What `s->link = ++smax` changes. -/
theorem Table.addLink_fields (h : t.addLink y = .ok t') :
    t'.smax = t.smax + 1 ∧ t.smax + 1 < MAXSIZ ∧ (∀ z, z ≠ y → t'.w z = t.w z) ∧
      (t'.w y).inp = (t.w y).inp ∧ (t'.w y).nst = (t.w y).nst ∧ (t'.w y).out = (t.w y).out ∧
      (t'.w y).link = some (t.smax + 1) ∧ (t'.w y).fail = (t.w y).fail := by
  unfold Table.addLink at h
  split at h
  next => cases h
  next room =>
    cases h
    dsimp only
    rw [update_self]
    exact ⟨rfl, by omega, fun z ne => update_of_ne ne _ _, rfl, rfl, rfl, rfl, rfl⟩

/-- What `s->inp = c; s->nst = ++smax` changes. -/
theorem Table.addChild_fields (h : t.addChild y c = .ok t') :
    t'.smax = t.smax + 1 ∧ t.smax + 1 < MAXSIZ ∧ (∀ z, z ≠ y → t'.w z = t.w z) ∧
      (t'.w y).inp = c ∧ (t'.w y).nst = some (t.smax + 1) ∧ (t'.w y).out = (t.w y).out ∧
      (t'.w y).link = (t.w y).link ∧ (t'.w y).fail = (t.w y).fail := by
  unfold Table.addChild at h
  split at h
  next => cases h
  next room =>
    cases h
    dsimp only
    rw [update_self]
    exact ⟨rfl, by omega, fun z ne => update_of_ne ne _ _, rfl, rfl, rfl, rfl, rfl⟩

/-- A field that an edit of one element keeps. -/
theorem changed {α : Type*} {f : Words → α} (others : ∀ z, z ≠ y → w' z = w z)
    (here : f (w' y) = f (w y)) (z : ℕ) : f (w' z) = f (w z) := by
  rcases eq_or_ne z y with rfl | ne
  · exact here
  · rw [others z ne]

namespace Trie

theorem length_lt (trie : Trie t kids D) : (kids u).length ≤ MAXSIZ := by
  have sub : kids u ⊆ List.range MAXSIZ := by
    intro x mem
    have := trie.below mem
    have := trie.small
    exact List.mem_range.mpr (by omega)
  have le := (List.Nodup.subperm (trie.nodup u) sub).length_le
  rwa [List.length_range] at le

theorem fresh_notMem (trie : Trie t kids D) : t.smax + 1 ∉ kids u := by
  intro mem
  have := trie.below mem
  omega

theorem fresh_blank (trie : Trie t kids D) : t.w (t.smax + 1) = blank :=
  trie.fresh _ (Nat.lt_succ_self _)

/-- The loop over the list of a place of the trie. -/
theorem loop_spec (trie : Trie t kids D) (head : (kids u).head? = some s) :
    (∃ y ∈ kids u, loop t.w c MAXSIZ s = .ok (.same y) ∧ (t.w y).inp = c) ∨
    (∃ y ∈ kids u, loop t.w c MAXSIZ s = .ok (.empty y) ∧ (t.w y).inp = 0 ∧
      ∀ z ∈ kids u, (t.w z).inp ≠ c) ∨
    (∃ y ∈ kids u, loop t.w c MAXSIZ s = .ok (.last y) ∧ (t.w y).link = none ∧
      ∀ z ∈ kids u, (t.w z).inp ≠ c ∧ (t.w z).inp ≠ 0) := by
  have linked := trie.linked u
  have closed := @(trie.closed (u := u))
  have short := trie.length_lt (u := u)
  obtain ⟨xs, eq⟩ := List.head?_eq_some_iff.mp head
  rw [eq] at linked closed short ⊢
  exact Fgrep.loop_spec linked closed (by rw [List.length_cons] at short; omega)

/-! ### A new element at the end of a list -/

/-- The lists with a new element at the end of that of `v`. -/
def grow (kids : List UInt8 → List ℕ) (v : List UInt8) (s : ℕ) : List UInt8 → List ℕ :=
  update kids v (kids v ++ [s])

theorem mem_grow : x ∈ grow kids v s u ↔ x ∈ kids u ∨ u = v ∧ x = s := by
  rw [grow, update_apply]
  split
  next eq => simp [eq]
  next ne => simp [ne]

theorem apart_grow (trie : Trie t kids D) {u' : List UInt8}
    (hx : x ∈ grow kids v (t.smax + 1) u) (hx' : x ∈ grow kids v (t.smax + 1) u') : u = u' := by
  rw [mem_grow] at hx hx'
  rcases hx with hx | ⟨rfl, rfl⟩
  · rcases hx' with hx' | ⟨rfl, rfl⟩
    · exact trie.apart hx hx'
    · exact absurd hx trie.fresh_notMem
  · rcases hx' with hx' | ⟨rfl, -⟩
    · exact absurd hx' trie.fresh_notMem
    · rfl

theorem nodup_grow (trie : Trie t kids D) : (grow kids v (t.smax + 1) u).Nodup := by
  rw [grow, update_apply]
  split
  next =>
    refine List.nodup_append.mpr ⟨trie.nodup v, by simp, ?_⟩
    rintro z mem z' mem' rfl
    rw [List.mem_singleton.mp mem'] at mem
    exact trie.fresh_notMem mem
  next => exact trie.nodup u

theorem below_grow (trie : Trie t kids D) (hx : x ∈ grow kids v (t.smax + 1) u) :
    x ≤ t.smax + 1 := by
  rw [mem_grow] at hx
  rcases hx with hx | ⟨-, rfl⟩
  · exact Nat.le_succ_of_le (trie.below hx)
  · exact Nat.le_refl _

/-- The element is linked behind the last one of a list. -/
theorem linked_grow (trie : Trie t kids D) (mem : y ∈ kids u) (last : (t.w y).link = none)
    (others : ∀ z, z ≠ y → w' z = t.w z) (link : (w' y).link = some (t.smax + 1))
    (new : (w' (t.smax + 1)).link = none) : Linked w' (grow kids u (t.smax + 1) v) := by
  rw [grow, update_apply]
  split
  next eq =>
    obtain ⟨front, split⟩ := (trie.linked u).eq_append mem last
    have linked := trie.linked u
    have distinct := trie.nodup u
    rw [split] at linked distinct ⊢
    have free : y ∉ front := fun mem =>
      (List.nodup_append.mp distinct).2.2 y mem y (List.mem_singleton.mpr rfl) rfl
    apply linked.append free _ link new
    rintro z mem
    rw [others z (ne_of_mem_of_not_mem mem free)]
  next ne =>
    apply (trie.linked v).congr
    intro z mem'
    rw [others]
    rintro rfl
    exact ne (trie.apart mem' mem)

/-- The first elements of the lists are as before. -/
theorem head?_grow (mem : y ∈ kids u) (v : List UInt8) :
    (grow kids u s v).head? = (kids v).head? := by
  rw [grow, update_apply]
  split
  next eq => rw [eq, List.head?_append_of_ne_nil _ (List.ne_nil_of_mem mem)]
  next => rfl

theorem grow_eq_nil (mem : y ∈ kids u) (v : List UInt8) : grow kids u s v = [] ↔ kids v = [] := by
  rw [← List.head?_eq_none_iff, head?_grow mem, List.head?_eq_none_iff]

/-- An element is linked behind the last one of a list. -/
theorem addLink (trie : Trie t kids D) (mem : y ∈ kids u) (last : (t.w y).link = none)
    (used : ∀ z ∈ kids u, (t.w z).inp ≠ 0) (h : t.addLink y = .ok t') :
    Trie t' (update kids u (kids u ++ [t'.smax])) D ∧ (t'.w t'.smax).inp = 0 ∧
      ∀ z, z ≠ t'.smax → (t'.w z).inp = (t.w z).inp := by
  obtain ⟨smax, room, others, inp_y, nst_y, out_y, link_y, fail_y⟩ := Table.addLink_fields h
  have here := trie.below mem
  have new := trie.fresh_blank
  have inp : ∀ z, (t'.w z).inp = (t.w z).inp := changed others inp_y
  have nst : ∀ z, (t'.w z).nst = (t.w z).nst := changed others nst_y
  have out : ∀ z, (t'.w z).out = (t.w z).out := changed others out_y
  have fail : ∀ z, (t'.w z).fail = (t.w z).fail := changed others fail_y
  have new_inp : (t'.w (t.smax + 1)).inp = 0 := by rw [inp, new]; rfl
  have new_link : (t'.w (t.smax + 1)).link = none := by rw [others _ (by omega), new]; rfl
  rw [smax]
  change Trie t' (grow kids u (t.smax + 1)) D ∧ _
  refine ⟨{
    small := by omega
    root := (head?_grow mem []).trans trie.root
    linked := fun v => trie.linked_grow mem last others link_y new_link
    apart := fun v v' x hx hx' => trie.apart_grow hx hx'
    nodup := fun v => trie.nodup_grow
    below := fun v x hx => smax ▸ trie.below_grow hx
    fresh := ?_
    next := ?_
    letters := ?_
    known := ?_
    closed := ?_
    marks := ?_
    dict := fun v mem' => (not_congr (grow_eq_nil mem v)).mpr (trie.dict mem')
    fails := fun z => (fail z).trans (trie.fails z) }, new_inp, fun z _ => inp z⟩
  · intro x less
    rw [others x (by omega)]
    exact trie.fresh x (by omega)
  · intro v x hx used'
    rw [mem_grow] at hx
    rw [inp] at used' ⊢
    rw [nst, head?_grow mem, Ne, grow_eq_nil mem]
    rcases hx with hx | ⟨-, rfl⟩
    · exact trie.next hx used'
    · exact absurd new_inp (by rwa [inp])
  · intro v x z hx hz same used'
    rw [mem_grow] at hx hz
    rcases hx with hx | ⟨-, rfl⟩
    · rcases hz with hz | ⟨-, rfl⟩
      · rw [inp, inp] at same
        rw [inp] at used'
        exact trie.letters hx hz same used'
      · exact absurd (same.trans new_inp) used'
    · exact absurd new_inp used'
  · intro v c some
    rw [Ne, grow_eq_nil mem] at some
    obtain ⟨proper, x, hx, eq⟩ := trie.known some
    exact ⟨proper, x, mem_grow.mpr (Or.inl hx), (inp x).trans eq⟩
  · intro v x hx linked
    rw [inp]
    rw [mem_grow] at hx
    rcases hx with hx | ⟨rfl, rfl⟩
    · rcases eq_or_ne x y with rfl | ne
      · exact used x mem
      · rw [others x ne] at linked
        exact trie.closed hx linked
    · exact absurd new_link linked
  · intro v x hx
    rw [out, head?_grow mem]
    rw [mem_grow] at hx
    rcases hx with hx | ⟨rfl, rfl⟩
    · exact trie.marks hx
    · rw [new]
      constructor
      · intro marked
        cases marked
      · rintro ⟨first, -⟩
        exact absurd (List.mem_of_mem_head? first) trie.fresh_notMem

/-! ### A character for an element without one -/

/-- An element with a character has the list behind it. -/
theorem next_addChild (trie : Trie t kids D) (mem : y ∈ kids u)
    (unused : ∀ z ∈ kids u, (t.w z).inp ≠ c) (absent : kids (u ++ [c]) = [])
    (others : ∀ z, z ≠ y → w' z = t.w z) (inp_y : (w' y).inp = c)
    (nst_y : (w' y).nst = some (t.smax + 1)) (hx : x ∈ kids v) (used : (w' x).inp ≠ 0) :
    (w' x).nst = (grow kids (u ++ [c]) (t.smax + 1) (v ++ [(w' x).inp])).head? ∧
      grow kids (u ++ [c]) (t.smax + 1) (v ++ [(w' x).inp]) ≠ [] := by
  rcases eq_or_ne x y with rfl | ne
  · obtain rfl := trie.apart hx mem
    rw [inp_y, nst_y, grow, update_self, absent]
    exact ⟨rfl, List.cons_ne_nil _ _⟩
  · rw [others x ne] at used ⊢
    have elsewhere : v ++ [(t.w x).inp] ≠ u ++ [c] := by
      intro eq
      obtain ⟨rfl, letter⟩ := List.append_inj' eq rfl
      exact unused x hx (List.cons_eq_cons.mp letter).1
    rw [grow, update_of_ne elsewhere]
    exact trie.next hx used

/-- No two elements of a list have the same character. -/
theorem letters_addChild (trie : Trie t kids D) (mem : y ∈ kids u)
    (unused : ∀ z ∈ kids u, (t.w z).inp ≠ c) (others : ∀ z, z ≠ y → w' z = t.w z)
    (inp_y : (w' y).inp = c) {z : ℕ} (hx : x ∈ kids v) (hz : z ∈ kids v)
    (same : (w' x).inp = (w' z).inp) (used : (w' x).inp ≠ 0) : x = z := by
  rcases eq_or_ne x y with rfl | ne
  · rcases eq_or_ne z x with rfl | ne'
    · rfl
    · obtain rfl := trie.apart hx mem
      rw [inp_y, others z ne'] at same
      exact absurd same.symm (unused z hz)
  · rcases eq_or_ne z y with rfl | ne'
    · obtain rfl := trie.apart hz mem
      rw [inp_y, others x ne] at same
      exact absurd same (unused x hx)
    · rw [others x ne, others z ne'] at same
      rw [others x ne] at used
      exact trie.letters hx hz same used

/-- An element without a character gets one, and a list behind it. -/
theorem addChild (trie : Trie t kids D) (mem : y ∈ kids u) (empty : (t.w y).inp = 0)
    (proper : c ≠ 0) (unused : ∀ z ∈ kids u, (t.w z).inp ≠ c) (h : t.addChild y c = .ok t') :
    Trie t' (update kids (u ++ [c]) [t'.smax]) D ∧ (t'.w t'.smax).inp = 0 := by
  obtain ⟨smax, room, others, inp_y, nst_y, out_y, link_y, fail_y⟩ := Table.addChild_fields h
  have here := trie.below mem
  have new := trie.fresh_blank
  have link : ∀ z, (t'.w z).link = (t.w z).link := changed others link_y
  have out : ∀ z, (t'.w z).out = (t.w z).out := changed others out_y
  have fail : ∀ z, (t'.w z).fail = (t.w z).fail := changed others fail_y
  have last : (t.w y).link = none := by
    by_contra linked
    exact trie.closed mem linked empty
  have absent : kids (u ++ [c]) = [] := by
    by_contra some
    obtain ⟨-, x, hx, eq⟩ := trie.known some
    exact unused x hx eq
  have new_w : t'.w (t.smax + 1) = blank := by rw [others _ (by omega), new]
  have new_inp : (t'.w (t.smax + 1)).inp = 0 := by rw [new_w]; rfl
  have grown : update kids (u ++ [c]) [t.smax + 1] = grow kids (u ++ [c]) (t.smax + 1) := by
    rw [grow, absent, List.nil_append]
  rw [smax, grown]
  refine ⟨{
    small := by omega
    root := by rw [grow, update_of_ne (by simp)]; exact trie.root
    linked := ?_
    apart := fun v v' x hx hx' => trie.apart_grow hx hx'
    nodup := fun v => trie.nodup_grow
    below := fun v x hx => smax ▸ trie.below_grow hx
    fresh := ?_
    next := ?_
    letters := ?_
    known := ?_
    closed := ?_
    marks := ?_
    dict := ?_
    fails := fun z => (fail z).trans (trie.fails z) }, new_inp⟩
  · intro v
    rw [← grown, update_apply]
    split
    next => exact ⟨by rw [new_w]; rfl, trivial⟩
    next => exact (trie.linked v).congr fun z _ => link z
  · intro x less
    rw [others x (by omega)]
    exact trie.fresh x (by omega)
  · intro v x hx used
    rw [mem_grow] at hx
    rcases hx with hx | ⟨-, rfl⟩
    · exact trie.next_addChild mem unused absent others inp_y nst_y hx used
    · exact absurd new_inp used
  · intro v x z hx hz same used
    rw [mem_grow] at hx hz
    rcases hx with hx | ⟨-, rfl⟩
    · rcases hz with hz | ⟨-, rfl⟩
      · exact trie.letters_addChild mem unused others inp_y hx hz same used
      · exact absurd (same.trans new_inp) used
    · exact absurd new_inp used
  · intro v d some
    rcases eq_or_ne (v ++ [d]) (u ++ [c]) with eq | ne
    · obtain ⟨rfl, letter⟩ := List.append_inj' eq rfl
      obtain rfl := (List.cons_eq_cons.mp letter).1
      exact ⟨proper, y, mem_grow.mpr (Or.inl mem), inp_y⟩
    · rw [grow, update_of_ne ne] at some
      obtain ⟨proper', x, hx, eq⟩ := trie.known some
      refine ⟨proper', x, mem_grow.mpr (Or.inl hx), ?_⟩
      rw [others]
      · exact eq
      · rintro rfl
        exact proper' (eq.symm.trans empty)
  · intro v x hx linked
    rw [link] at linked
    rw [mem_grow] at hx
    rcases hx with hx | ⟨-, rfl⟩
    · have ne : x ≠ y := by
        rintro rfl
        exact linked last
      rw [others x ne]
      exact trie.closed hx linked
    · rw [new] at linked
      exact absurd rfl linked
  · intro v x hx
    rw [out]
    rw [mem_grow] at hx
    rcases hx with hx | ⟨rfl, rfl⟩
    · have ne : v ≠ u ++ [c] := by
        rintro rfl
        rw [absent] at hx
        exact List.not_mem_nil hx
      rw [grow, update_of_ne ne]
      exact trie.marks hx
    · rw [new]
      constructor
      · intro marked
        cases marked
      · rintro ⟨-, known⟩
        exact absurd absent (trie.dict known)
  · intro v known
    rw [← grown, update_apply]
    split
    next => simp
    next => exact trie.dict known

/-! ### A mark -/

/-- The first element of a list is marked. -/
theorem setOut (trie : Trie t kids D) (head : (kids u).head? = some s) :
    Trie (t.setOut s) kids (insert u D) := by
  have mem : s ∈ kids u := List.mem_of_mem_head? head
  have others : ∀ z, z ≠ s → (t.setOut s).w z = t.w z := fun z ne => update_of_ne ne _ _
  have here : (t.setOut s).w s = { t.w s with out := true } := update_self _ _ _
  have inp : ∀ z, ((t.setOut s).w z).inp = (t.w z).inp := changed others (by rw [here])
  have nst : ∀ z, ((t.setOut s).w z).nst = (t.w z).nst := changed others (by rw [here])
  have link : ∀ z, ((t.setOut s).w z).link = (t.w z).link := changed others (by rw [here])
  have fail : ∀ z, ((t.setOut s).w z).fail = (t.w z).fail := changed others (by rw [here])
  refine {
    small := trie.small
    root := trie.root
    linked := fun v => (trie.linked v).congr fun z _ => link z
    apart := trie.apart
    nodup := trie.nodup
    below := trie.below
    fresh := ?_
    next := ?_
    letters := ?_
    known := ?_
    closed := ?_
    marks := ?_
    dict := ?_
    fails := fun z => (fail z).trans (trie.fails z) }
  · intro x less
    have := trie.below mem
    change t.smax < x at less
    rw [others x (by omega)]
    exact trie.fresh x less
  · intro v x hx used
    rw [inp] at used ⊢
    rw [nst]
    exact trie.next hx used
  · intro v x z hx hz same used
    rw [inp, inp] at same
    rw [inp] at used
    exact trie.letters hx hz same used
  · intro v c some
    obtain ⟨proper, x, hx, eq⟩ := trie.known some
    exact ⟨proper, x, hx, (inp x).trans eq⟩
  · intro v x hx linked
    rw [link] at linked
    rw [inp]
    exact trie.closed hx linked
  · intro v x hx
    rcases eq_or_ne x s with rfl | ne
    · obtain rfl := trie.apart hx mem
      rw [here]
      exact ⟨fun _ => ⟨head, Set.mem_insert _ _⟩, fun _ => rfl⟩
    · rw [others x ne, trie.marks hx, Set.mem_insert_iff]
      constructor
      · rintro ⟨first, known⟩
        exact ⟨first, Or.inr known⟩
      · rintro ⟨first, rfl | known⟩
        · exact absurd (Option.some.inj (first.symm.trans head)) ne
        · exact ⟨first, known⟩
  · intro v known
    rcases known with rfl | known
    · exact List.ne_nil_of_mem mem
    · exact trie.dict known

end Trie

end

end Fgrep

end UnixV7
