import UnixV7.Cmd.Tsort.Main
import Mathlib.Data.List.Nodup

/-!
# Reading the pairs

The graph that is read has the items for its nodes, each once and live, and the pairs of different
items for its edges.
-/

namespace UnixV7.Tsort

open Function Fuel

/-- The graph of the pairs read so far, over all items met so far. -/
structure Reads (items : List String) (pairs : List (String × String)) (g : Graph) : Prop where
  nodup : (g.nodes.map Node.name).Nodup
  live : ∀ i, g.live i = if i < g.nodes.length then .LIVE else .DEAD
  names : ∀ x, (∃ i, g.name i = some x) ↔ x ∈ items
  known : ∀ x y, (x, y) ∈ pairs → x ∈ items ∧ y ∈ items
  edges : ∀ i j, i ∈ g.inedges j ↔
    ∃ x y, (x, y) ∈ pairs ∧ x ≠ y ∧ g.name i = some x ∧ g.name j = some y

variable {g : Graph} {items : List String} {pairs : List (String × String)} {i j k : ℕ}
  {s x y : String}

theorem name_eq (g : Graph) (i : ℕ) : g.name i = (g.nodes.map Node.name)[i]? :=
  List.getElem?_map.symm

theorem lt_of_name (named : g.name i = some x) : i < g.nodes.length := by
  rw [name_eq] at named
  have inside := (List.getElem?_eq_some_iff.mp named).1
  rwa [List.length_map] at inside

theorem exists_name (inside : i < g.nodes.length) : ∃ x, g.name i = some x :=
  ⟨_, (name_eq g i).trans (List.getElem?_eq_getElem (by rwa [List.length_map]))⟩

theorem name_inj (nodup : (g.nodes.map Node.name).Nodup) (left : g.name i = some x)
    (right : g.name j = some x) : i = j := by
  have inside := lt_of_name left
  rw [name_eq] at left right
  exact (List.getElem?_inj (by rwa [List.length_map]) nodup).mp (left.trans right.symm)

/-- A node is found for a string, and every other keeps its name and its predecessors. -/
theorem index_cases (g : Graph) (s : String) :
    (∃ i, g.index s = (g, i) ∧ g.name i = some s) ∨
      ((∀ i, g.name i ≠ some s) ∧
        g.index s = (⟨g.nodes ++ [⟨s, []⟩], update g.live g.nodes.length .LIVE⟩,
          g.nodes.length)) := by
  cases found : g.nodes.findIdx? (·.name = s) with
  | some i =>
      left
      refine ⟨i, by rw [Graph.index, found], ?_⟩
      obtain ⟨inside, same, -⟩ := List.findIdx?_eq_some_iff_getElem.mp found
      rw [Graph.name, List.getElem?_eq_getElem inside]
      exact congrArg some (of_decide_eq_true same)
  | none =>
      right
      refine ⟨?_, by rw [Graph.index, found]⟩
      intro i named
      have inside := lt_of_name named
      rw [Graph.name, List.getElem?_eq_getElem inside] at named
      have other := List.findIdx?_eq_none_iff.mp found _ (List.getElem_mem inside)
      exact of_decide_eq_false other (Option.some.inj named)

theorem name_append (g : Graph) (n : Node) (live : ℕ → Live) (i : ℕ) :
    Graph.name ⟨g.nodes ++ [n], live⟩ i =
      if i = g.nodes.length then some n.name else g.name i := by
  rw [Graph.name, Graph.name]
  dsimp only
  split
  next last =>
    rw [last, List.getElem?_concat_length]
    rfl
  next other =>
    obtain inside | outside := Nat.lt_or_ge i g.nodes.length
    · rw [List.getElem?_append_left inside]
    · rw [List.getElem?_eq_none outside, List.getElem?_eq_none]
      rw [List.length_append, List.length_singleton]
      omega

theorem inedges_append (g : Graph) (s : String) (live : ℕ → Live) (i : ℕ) :
    Graph.inedges ⟨g.nodes ++ [⟨s, []⟩], live⟩ i = g.inedges i := by
  rw [Graph.inedges, Graph.inedges]
  dsimp only
  obtain inside | outside := Nat.lt_or_ge i g.nodes.length
  · rw [List.getElem?_append_left inside]
  · rw [List.getElem?_eq_none outside]
    obtain rfl | beyond := Nat.eq_or_lt_of_le outside
    · rw [List.getElem?_concat_length]
      rfl
    · rw [List.getElem?_eq_none]
      rw [List.length_append, List.length_singleton]
      exact beyond

theorem Reads.index (reads : Reads items pairs g) (s : String) :
    Reads (s :: items) pairs (g.index s).1 ∧ (g.index s).1.name (g.index s).2 = some s ∧
      ∀ i x, g.name i = some x → (g.index s).1.name i = some x := by
  obtain ⟨i, index, named⟩ | ⟨fresh, index⟩ := index_cases g s
  · rw [index]
    refine ⟨⟨reads.nodup, reads.live, ?_, ?_, reads.edges⟩, named, fun _ _ => id⟩
    · intro x
      rw [reads.names, List.mem_cons]
      exact ⟨.inr, fun mem => mem.elim (fun same => (reads.names x).mp ⟨i, same ▸ named⟩) id⟩
    · intro x y mem
      obtain ⟨left, right⟩ := reads.known x y mem
      exact ⟨List.mem_cons_of_mem s left, List.mem_cons_of_mem s right⟩
  · rw [index]
    have absent : s ∉ items := by
      intro mem
      obtain ⟨i, named⟩ := (reads.names s).mpr mem
      exact fresh i named
    have old : ∀ i x, g.name i = some x → i ≠ g.nodes.length :=
      fun i x named => Nat.ne_of_lt (lt_of_name named)
    refine ⟨⟨?_, ?_, ?_, ?_, ?_⟩, ?_, ?_⟩
    · rw [List.map_append, List.nodup_append]
      refine ⟨reads.nodup, List.nodup_singleton s, ?_⟩
      intro x mem y last same
      obtain ⟨i, named⟩ := List.mem_iff_getElem?.mp mem
      rw [← name_eq] at named
      have equal : x = s := same.trans (List.mem_singleton.mp last)
      exact fresh i (equal ▸ named)
    · intro i
      dsimp only
      rw [List.length_append, List.length_singleton, update_apply]
      split
      next last => rw [if_pos (by omega)]
      next other =>
        rw [reads.live]
        exact if_congr (by omega) rfl rfl
    · intro x
      rw [List.mem_cons, ← reads.names]
      constructor
      · rintro ⟨i, named⟩
        rw [name_append] at named
        split at named
        · exact .inl (Option.some.inj named).symm
        · exact .inr ⟨i, named⟩
      · rintro (rfl | ⟨i, named⟩)
        · exact ⟨g.nodes.length, by rw [name_append, if_pos rfl]⟩
        · exact ⟨i, by rw [name_append, if_neg (old i x named), named]⟩
    · intro x y mem
      obtain ⟨left, right⟩ := reads.known x y mem
      exact ⟨List.mem_cons_of_mem s left, List.mem_cons_of_mem s right⟩
    · intro i j
      rw [inedges_append, reads.edges]
      have same : ∀ k x, x ∈ items → (Graph.name ⟨g.nodes ++ [⟨s, []⟩],
          update g.live g.nodes.length .LIVE⟩ k = some x ↔ g.name k = some x) := by
        intro k x mem
        rw [name_append]
        split
        next last =>
          constructor
          · intro equal
            obtain rfl : s = x := Option.some.inj equal
            exact absurd mem absent
          · exact fun named => absurd last (old k x named)
        next other => rfl
      constructor
      · rintro ⟨x, y, mem, other, left, right⟩
        obtain ⟨memX, memY⟩ := reads.known x y mem
        exact ⟨x, y, mem, other, (same i x memX).mpr left, (same j y memY).mpr right⟩
      · rintro ⟨x, y, mem, other, left, right⟩
        obtain ⟨memX, memY⟩ := reads.known x y mem
        exact ⟨x, y, mem, other, (same i x memX).mp left, (same j y memY).mp right⟩
    · rw [name_append, if_pos rfl]
    · intro i x named
      rw [name_append, if_neg (old i x named), named]

theorem name_link (g : Graph) (i j k : ℕ) : (g.link i j).name k = g.name k := by
  rw [Graph.name, Graph.name, Graph.link, List.getElem?_modify]
  cases g.nodes[k]? with
  | none => rfl
  | some n =>
      change some (Node.name (if j = k then _ else n)) = some n.name
      split <;> rfl

theorem inedges_link (inside : j < g.nodes.length) (i k : ℕ) :
    (g.link i j).inedges k = if j = k then i :: g.inedges k else g.inedges k := by
  rw [Graph.inedges, Graph.inedges, Graph.link, List.getElem?_modify]
  split
  next same =>
    subst same
    rw [List.getElem?_eq_getElem inside]
    rfl
  next other =>
    rw [id_map']

/-- A pair adds an edge, unless it is there already or would be from a node to itself. -/
theorem Reads.pair (reads : Reads items pairs g) (x y : String) :
    Reads (y :: x :: items) ((x, y) :: pairs) (g.pair x y) := by
  obtain ⟨first, namedX, -⟩ := reads.index x
  rw [Graph.pair]
  generalize g.index x = r at first namedX
  obtain ⟨g₁, i⟩ := r
  obtain ⟨second, namedY, old⟩ := first.index y
  dsimp only at second namedY old ⊢
  generalize g₁.index y = r at second namedY old
  obtain ⟨g₂, j⟩ := r
  dsimp only at second namedY old ⊢
  have namedX' := old i x namedX
  have known : ∀ a b, (a, b) ∈ (x, y) :: pairs → a ∈ y :: x :: items ∧ b ∈ y :: x :: items := by
    intro a b mem
    obtain same | mem := List.mem_cons.mp mem
    · obtain ⟨rfl, rfl⟩ := Prod.mk.inj same
      exact ⟨List.mem_cons_of_mem b List.mem_cons_self, List.mem_cons_self⟩
    · exact second.known a b mem
  have equal : i = j ↔ x = y := by
    constructor
    · rintro rfl
      exact Option.some.inj (namedX'.symm.trans namedY)
    · rintro rfl
      exact name_inj second.nodup namedX' namedY
  have more : ∀ a b, (∃ x' y', (x', y') ∈ (x, y) :: pairs ∧ x' ≠ y' ∧ g₂.name a = some x' ∧
      g₂.name b = some y') ↔ (i ≠ j ∧ a = i ∧ b = j) ∨ a ∈ g₂.inedges b := by
    intro a b
    rw [second.edges]
    constructor
    · rintro ⟨x', y', mem, other, left, right⟩
      obtain same | mem := List.mem_cons.mp mem
      · obtain ⟨rfl, rfl⟩ := Prod.mk.inj same
        exact .inl ⟨fun same => other (equal.mp same), name_inj second.nodup left namedX',
          name_inj second.nodup right namedY⟩
      · exact .inr ⟨x', y', mem, other, left, right⟩
    · rintro (⟨other, rfl, rfl⟩ | ⟨x', y', mem, other, left, right⟩)
      · exact ⟨x, y, List.mem_cons_self, fun same => other (equal.mpr same), namedX', namedY⟩
      · exact ⟨x', y', List.mem_cons_of_mem _ mem, other, left, right⟩
  split
  next known' =>
    refine ⟨second.nodup, second.live, second.names, known, ?_⟩
    intro a b
    rw [more]
    refine ⟨.inr, fun edge => edge.elim ?_ id⟩
    rintro ⟨other, rfl, rfl⟩
    rw [Bool.or_eq_true, decide_eq_true_eq] at known'
    exact known'.elim (fun same => absurd same other) List.contains_iff_mem.mp
  next fresh =>
    rw [Bool.or_eq_true, decide_eq_true_eq, not_or] at fresh
    have inside := lt_of_name namedY
    have names : (g₂.link i j).nodes.map Node.name = g₂.nodes.map Node.name := by
      apply List.ext_getElem?
      intro k
      rw [← name_eq, ← name_eq, name_link]
    refine ⟨names ▸ second.nodup, ?_, ?_, known, ?_⟩
    · intro k
      rw [Graph.link, List.length_modify]
      exact second.live k
    · intro x
      simp only [name_link]
      exact second.names x
    · intro a b
      simp only [name_link]
      rw [more, inedges_link inside]
      split
      next same =>
        subst same
        rw [List.mem_cons]
        exact or_congr_left ⟨fun equal => ⟨fresh.1, equal, rfl⟩, fun edge => edge.2.1⟩
      next other =>
        exact ⟨.inr, fun edge => edge.elim (fun edge => absurd edge.2.2.symm other) id⟩

/-- The pairs read so far and the rest of the input. -/
theorem read_spec (reads : Reads items pairs g) (more : List (String × String)) :
    ∃ g' items' pairs', g.read (more.flatMap fun p => [p.1, p.2]) = .ok g' ∧
      Reads items' pairs' g' ∧ (∀ x, x ∈ items' ↔ x ∈ items ∨ ∃ p ∈ more, x = p.1 ∨ x = p.2) ∧
      ∀ p, p ∈ pairs' ↔ p ∈ pairs ∨ p ∈ more := by
  induction more generalizing g items pairs with
  | nil => exact ⟨g, items, pairs, rfl, reads, by simp, by simp⟩
  | cons p more ih =>
      obtain ⟨g', items', pairs', read, reads', sameItems, samePairs⟩ := ih (reads.pair p.1 p.2)
      refine ⟨g', items', pairs', read, reads', ?_, ?_⟩
      · intro x
        rw [sameItems]
        simp only [List.mem_cons, exists_eq_or_imp]
        rw [← or_assoc, or_comm (b := x ∈ items), or_comm (a := x = p.2), or_assoc]
      · intro q
        rw [samePairs, List.mem_cons, List.mem_cons]
        tauto

theorem Reads.empty : Reads [] [] Graph.empty where
  nodup := List.nodup_nil
  live i := (if_neg (Nat.not_lt_zero i)).symm
  names _ := ⟨fun ⟨_, named⟩ => absurd (lt_of_name named) (Nat.not_lt_zero _),
    fun mem => absurd mem List.not_mem_nil⟩
  known _ _ mem := absurd mem List.not_mem_nil
  edges _ _ := ⟨fun mem => absurd mem List.not_mem_nil,
    fun ⟨_, _, mem, _⟩ => absurd mem List.not_mem_nil⟩

/-- The words of the input. -/
def words (pairs : List (String × String)) : List String := pairs.flatMap fun p => [p.1, p.2]

/-- The graph that is read. -/
theorem read_words (pairs : List (String × String)) :
    ∃ g items pairs', Graph.empty.read (words pairs) = .ok g ∧ Reads items pairs' g ∧
      (∀ x, x ∈ items ↔ x ∈ words pairs) ∧ ∀ p, p ∈ pairs' ↔ p ∈ pairs := by
  obtain ⟨g, items, pairs', read, reads, sameItems, samePairs⟩ := read_spec Reads.empty pairs
  refine ⟨g, items, pairs', read, reads, ?_, ?_⟩
  · intro x
    rw [sameItems, words, List.mem_flatMap]
    simp
  · intro p
    rw [samePairs]
    simp

end UnixV7.Tsort
