import UnixV7.Cmd.Fgrep.Failure

/-!
# The breadth-first search

Each round of `cfail` takes a place from the queue and puts those that grow from it behind all
others. Every place of the table is in the queue once, after all that are less deep, so that the
search ends with the link and the mark of every place.
-/

namespace UnixV7

open Function Suffixes

namespace Fgrep

/-- What there is between two rounds: the places that were visited, and those in the queue. -/
structure Round (kids : List UInt8 → List ℕ) (done Q : List (List UInt8)) : Prop where
  nodup : (done ++ Q).Nodup
  sorted : (done ++ Q).Pairwise fun u v => u.length ≤ v.length
  mem_iff : ∀ v, v ∈ done ++ Q ↔
    v ∈ places kids ∧ v ≠ [] ∧ (v.length = 1 ∨ v.dropLast ∈ done)

section

variable {t : Table} {kids : List UInt8 → List ℕ} {D : Set (List UInt8)} {w : ℕ → Words}
  {u v : List UInt8} {x fuel n : ℕ} {xs : List ℕ} {done Q seen : List (List UInt8)} {st : Search}

theorem follows_nodup (trie : Trie t kids D) (sub : xs ⊆ kids u) (distinct : xs.Nodup) :
    (follows t u xs).Nodup := by
  induction xs with
  | nil => exact List.nodup_nil
  | cons x xs ih =>
      obtain ⟨x_new, distinct⟩ := List.nodup_cons.mp distinct
      have rest := ih (fun z mem => sub (List.mem_cons_of_mem x mem)) distinct
      cases Classical.em ((t.w x).inp = 0) with
      | inl empty => rw [follows_cons_zero empty]; exact rest
      | inr used =>
          rw [follows_cons used, List.nodup_cons]
          refine ⟨?_, rest⟩
          intro mem
          obtain ⟨y, y_mem, -, eq⟩ := mem_follows.mp mem
          have same := (List.cons_eq_cons.mp (List.append_cancel_left eq)).1
          have := trie.letters (sub List.mem_cons_self)
            (sub (List.mem_cons_of_mem x y_mem)) same used
          exact x_new (this ▸ y_mem)

theorem mem_follows_kids (trie : Trie t kids D) :
    v ∈ follows t u (kids u) ↔ v ∈ places kids ∧ v ≠ [] ∧ v.dropLast = u := by
  rw [mem_follows]
  constructor
  · rintro ⟨x, mem, used, rfl⟩
    exact ⟨(trie.next mem used).2, by simp, by simp⟩
  · rintro ⟨place, some, rfl⟩
    have split := (List.dropLast_append_getLast some).symm
    rw [split] at place
    obtain ⟨proper, y, mem, same⟩ := trie.places_append.mp place
    exact ⟨y, mem, by rwa [same], by rw [same]; exact split⟩

/-- What is no deeper than the queue was seen. -/
theorem Round.early (round : Round kids done Q) (trie : Trie t kids D)
    (deep : ∀ v ∈ Q, n ≤ v.length) (place : v ∈ places kids) (some : v ≠ [])
    (le : v.length ≤ n) : v ∈ done ++ Q := by
  obtain ⟨k, eq⟩ : ∃ k, v.length = k := ⟨_, rfl⟩
  induction k generalizing v with
  | zero => exact absurd (List.length_eq_zero_iff.mp eq) some
  | succ k ih =>
      rw [round.mem_iff]
      refine ⟨place, some, ?_⟩
      cases k with
      | zero => exact Or.inl eq
      | succ k =>
          have split := (List.dropLast_append_getLast some).symm
          have length : v.dropLast.length = k + 1 := by rw [List.length_dropLast, eq]; rfl
          have above : v.dropLast ∈ places kids := by
            rw [split] at place
            exact trie.prefixClosed place
          have mem := ih above (by rintro empty; rw [empty] at length; cases length)
            (by omega) length
          rcases List.mem_append.mp mem with mem | mem
          · exact Or.inr mem
          · have := deep _ mem
            omega

/-- A round. -/
theorem Round.next (round : Round kids done (u :: Q)) (trie : Trie t kids D) :
    Round kids (done ++ [u]) (Q ++ follows t u (kids u)) := by
  have u_mem : u ∈ done ++ u :: Q := List.mem_append_right _ List.mem_cons_self
  have u_some : u ≠ [] := ((round.mem_iff u).mp u_mem).2.1
  have u_new : u ∉ done := fun mem =>
    (List.nodup_append.mp round.nodup).2.2 u mem u List.mem_cons_self rfl
  have le_u : ∀ v ∈ done, v.length ≤ u.length := fun v mem =>
    (List.pairwise_append.mp round.sorted).2.2 v mem u List.mem_cons_self
  have length : ∀ v ∈ follows t u (kids u), v.length = u.length + 1 := by
    intro v mem
    obtain ⟨x, -, -, rfl⟩ := mem_follows.mp mem
    simp
  have le : ∀ v ∈ done ++ u :: Q, v.length ≤ u.length + 1 := by
    intro v mem
    obtain ⟨-, some, one | mem⟩ := (round.mem_iff v).mp mem
    · omega
    · have := le_u _ mem
      rw [List.length_dropLast] at this
      omega
  have new : ∀ v ∈ follows t u (kids u), v ∉ done ++ u :: Q := by
    intro v mem old
    obtain ⟨-, -, drop⟩ := (mem_follows_kids trie).mp mem
    obtain ⟨-, -, one | above⟩ := (round.mem_iff v).mp old
    · have := length v mem
      have := List.length_pos_iff.mpr u_some
      omega
    · exact u_new (drop ▸ above)
  have regroup : done ++ [u] ++ (Q ++ follows t u (kids u)) =
      (done ++ u :: Q) ++ follows t u (kids u) := by simp
  refine ⟨?_, ?_, ?_⟩
  · rw [regroup]
    refine List.nodup_append.mpr ⟨round.nodup, follows_nodup trie (fun _ mem => mem)
      (trie.nodup u), ?_⟩
    rintro v mem v' mem' rfl
    exact new v mem' mem
  · rw [regroup]
    refine List.pairwise_append.mpr ⟨round.sorted, ?_, ?_⟩
    · apply List.Pairwise.imp_of_mem _ (follows_nodup trie (fun _ mem => mem) (trie.nodup u))
      intro v v' mem mem' _
      rw [length v mem, length v' mem']
    · intro v mem v' mem'
      rw [length v' mem']
      exact le v mem
  · intro v
    rw [regroup, List.mem_append, round.mem_iff, mem_follows_kids trie, List.mem_append,
      List.mem_singleton]
    constructor
    · rintro (⟨place, some, one | above⟩ | ⟨place, some, drop⟩)
      · exact ⟨place, some, Or.inl one⟩
      · exact ⟨place, some, Or.inr (Or.inl above)⟩
      · exact ⟨place, some, Or.inr (Or.inr drop)⟩
    · rintro ⟨place, some, one | above | drop⟩
      · exact Or.inl ⟨place, some, Or.inl one⟩
      · exact Or.inl ⟨place, some, Or.inr above⟩
      · exact Or.inr ⟨place, some, drop⟩

/-- There are fewer places in a round than elements in the table. -/
theorem Round.length_le (round : Round kids done Q) (trie : Trie t kids D) :
    (done ++ Q).length ≤ t.smax := by
  have distinct : ([] :: (done ++ Q)).Nodup :=
    List.nodup_cons.mpr ⟨fun mem => ((round.mem_iff []).mp mem).2.1 rfl, round.nodup⟩
  have le := trie.length_le distinct <| by
    intro v mem
    rcases List.mem_cons.mp mem with rfl | mem
    · exact trie.nil_mem
    · exact ((round.mem_iff v).mp mem).1
  rw [List.length_cons] at le
  omega

/-- The search ends when every place was seen. -/
theorem breadth_spec (trie : Trie t kids D) (proper : [] ∉ D) (round : Round kids done Q)
    (visiting : Visiting t kids D st (done ++ Q) Q) (enough : t.smax < fuel + done.length) :
    Gives (breadth fuel st) fun w => ∃ seen, Progress t kids D w seen ∧
      ∀ v, v ∈ seen ↔ v ∈ places kids ∧ v ≠ [] := by
  induction fuel generalizing st done Q with
  | zero =>
      have := round.length_le trie
      rw [List.length_append] at this
      omega
  | succ fuel ih =>
      rw [breadth]
      cases Q with
      | nil =>
          rw [if_pos (visiting.ring.eq_iff.mpr rfl)]
          refine ⟨done ++ [], visiting.progress, fun v => ?_⟩
          constructor
          · intro mem
            have known := (round.mem_iff v).mp mem
            exact ⟨known.1, known.2.1⟩
          · rintro ⟨place, some⟩
            exact round.early trie (fun _ mem => absurd mem List.not_mem_nil) place some le_rfl
      | cons u Q =>
          rw [if_neg (fun meet => List.cons_ne_nil _ _ (visiting.ring.eq_iff.mp meet))]
          obtain ⟨cell, ring⟩ := visiting.ring.pop
          have u_mem : u ∈ done ++ u :: Q := List.mem_append_right _ List.mem_cons_self
          obtain ⟨place, some, -⟩ := (round.mem_iff u).mp u_mem
          obtain ⟨x, xs, list⟩ := List.exists_cons_of_ne_nil place
          have linked := trie.linked u
          have short := trie.length_lt (u := u)
          rw [list, List.length_cons] at short
          rw [list] at linked
          have deep : ∀ v ∈ u :: Q, u.length ≤ v.length := by
            intro v mem
            rcases List.mem_cons.mp mem with rfl | mem
            · exact le_rfl
            · exact (List.pairwise_cons.mp (List.pairwise_append.mp round.sorted).2.1).1 v mem
          have next := round.next trie
          have distinct := next.nodup
          have regroup : done ++ [u] ++ (Q ++ follows t u (kids u)) =
              (done ++ u :: Q) ++ follows t u (kids u) := by simp
          rw [regroup] at distinct
          have visited := visit_spec (x := x) (u := u) trie proper
            (⟨visiting.progress, ring⟩ :
              Visiting t kids D { st with front := Ring.next QSIZE st.front }
                (done ++ u :: Q) Q) linked (list ▸ fun _ mem => mem) place some u_mem
            (fun v v_place v_some le => round.early trie deep v_place v_some le)
            (by rw [← list]; exact (List.nodup_append.mp distinct).2.1)
            (by
              rw [← list]
              intro v mem old
              exact (List.nodup_append.mp distinct).2.2 v old v mem rfl)
            (by omega : _ < MAXSIZ)
          have first : st.queue st.front = x := by
            rw [cell]
            change (kids u).headD 0 = x
            rw [list]
            rfl
          rw [first]
          apply visited.bind
          intro st' visiting'
          rw [← list, ← regroup] at visiting'
          apply ih next visiting'
          rw [List.length_append, List.length_singleton]
          omega

/-- What `init` has before it: the queue `Q` from the start of the ring. -/
structure Starting (t : Table) (kids : List UInt8 → List ℕ) (st : Search)
    (Q : List (List UInt8)) : Prop where
  same : st.w = t.w
  front : st.front = 0
  rear : st.rear = Q.length
  ring : Ring.Holds st.queue QSIZE st.front st.rear (heads kids Q)

theorem initOne_spec (trie : Trie t kids D) (starting : Starting t kids st Q) (mem : x ∈ kids u) :
    Gives (initOne x st) fun st' => Starting t kids st' (Q ++ follows t u [x]) := by
  rw [initOne, starting.same]
  split
  next used =>
    rw [follows_cons used]
    change Gives _ fun st' => Starting t kids st' (Q ++ [u ++ [(t.w x).inp]])
    obtain ⟨next, grown⟩ := trie.next mem used
    obtain ⟨q, qs, list⟩ := List.exists_cons_of_ne_nil grown
    have head : (kids (u ++ [(t.w x).inp])).head? = some q := by rw [list]; rfl
    have first : (kids (u ++ [(t.w x).inp])).headD 0 = q := by rw [list]; rfl
    rw [next, head]
    change Gives (st.putFirst q) _
    unfold Search.putFirst
    split
    next => exact rfl
    next free =>
      have wrap : Ring.next QSIZE st.rear = st.rear + 1 := by
        rw [Ring.next, if_neg (by omega)]
      have pushed := starting.ring.push q (by rw [wrap, starting.front]; omega)
      rw [wrap] at pushed
      refine ⟨starting.same, starting.front, ?_, ?_⟩
      · change st.rear + 1 = _
        rw [starting.rear, List.length_append, List.length_singleton]
      · rw [heads, List.map_append, List.map_singleton, first]
        exact pushed
  next empty =>
    rw [not_not] at empty
    rw [follows_cons_zero empty]
    change Starting t kids st (Q ++ [])
    rw [List.append_nil]
    exact starting

/-- The places of one character are put in the queue. -/
theorem init_spec (trie : Trie t kids D) (starting : Starting t kids st Q)
    (linked : Linked t.w (x :: xs)) (sub : x :: xs ⊆ kids u) (enough : xs.length < fuel) :
    Gives (init fuel x st) fun st' => Starting t kids st' (Q ++ follows t u (x :: xs)) := by
  induction xs generalizing x st Q fuel with
  | nil =>
      obtain ⟨fuel, rfl⟩ : ∃ n, fuel = n + 1 := ⟨fuel - 1, by omega⟩
      have last : (t.w x).link = none := linked.1
      rw [init]
      apply (initOne_spec trie starting (sub List.mem_cons_self)).bind
      intro st' starting'
      rw [starting'.same, last]
      exact starting'
  | cons y xs ih =>
      obtain ⟨fuel, rfl⟩ : ∃ n, fuel = n + 1 := ⟨fuel - 1, by simp at enough; omega⟩
      have link : (t.w x).link = some y := linked.1
      have split : follows t u (x :: y :: xs) = follows t u [x] ++ follows t u (y :: xs) := by
        rw [follows, ← List.singleton_append, List.filterMap_append, follows, follows]
      rw [split, init]
      apply (initOne_spec trie starting (sub List.mem_cons_self)).bind
      intro st' starting'
      rw [starting'.same, link, ← List.append_assoc]
      apply ih starting' linked.2 fun z mem => sub (List.mem_cons_of_mem x mem)
      simpa using enough

/-- The places of one character have their links and marks from the start. -/
theorem progress_first (trie : Trie t kids D) (proper : [] ∉ D) {first : List (List UInt8)}
    (distinct : (seen ++ first).Nodup) (single : ∀ v ∈ first, v.length = 1)
    (progress : Progress t kids D t.w seen) : Progress t kids D t.w (seen ++ first) := by
  induction first generalizing seen with
  | nil =>
      rw [List.append_nil]
      exact progress
  | cons v first ih =>
      obtain ⟨one, rest⟩ := List.forall_mem_cons.mp single
      clear single
      obtain ⟨c, rfl⟩ := List.length_eq_one_iff.mp one
      have new : [c] ∉ seen := fun mem =>
        (List.nodup_append.mp distinct).2.2 _ mem _ List.mem_cons_self rfl
      have regroup : seen ++ [c] :: first = seen ++ [[c]] ++ first := by simp
      rw [regroup] at distinct ⊢
      exact ih distinct rest (progress.keep trie proper new (by simp) fallback_single)

/-- `cfail` gives every place its link and its mark, unless the queue overflows. -/
theorem cfail_gives (trie : Trie t kids D) (proper : [] ∉ D) :
    Gives (cfail t.w) fun w => ∃ seen, Progress t kids D w seen ∧
      ∀ v, v ∈ seen ↔ v ∈ places kids ∧ v ≠ [] := by
  obtain ⟨xs, list⟩ := List.head?_eq_some_iff.mp trie.root
  have linked := trie.linked []
  have short := trie.length_lt (u := [])
  rw [list, List.length_cons] at short
  rw [list] at linked
  have empty : Starting t kids ⟨t.w, fun _ => 0, 0, 0⟩ [] :=
    ⟨rfl, rfl, rfl, Ring.Holds.nil (by decide)⟩
  have blank : Progress t kids D t.w [] :=
    ⟨fun _ => rfl, fun _ => rfl, fun _ => rfl, fun _ mem => absurd mem List.not_mem_nil,
      fun _ mem => absurd mem List.not_mem_nil, fun _ _ _ _ => rfl⟩
  unfold cfail
  apply (init_spec (u := []) trie empty linked (list ▸ fun _ mem => mem)
    (by omega)).bind
  intro st starting
  rw [← list, List.nil_append] at starting
  have one : ∀ v ∈ follows t [] (kids []), v.length = 1 := by
    intro v mem
    obtain ⟨x, -, -, rfl⟩ := mem_follows.mp mem
    rfl
  have distinct : (follows t [] (kids [])).Nodup :=
    follows_nodup trie (fun _ mem => mem) (trie.nodup [])
  have round : Round kids [] (follows t [] (kids [])) := by
    refine ⟨distinct, ?_, ?_⟩
    · apply List.Pairwise.imp_of_mem _ distinct
      intro v v' mem mem' _
      rw [one v mem, one v' mem']
    · intro v
      rw [List.nil_append, mem_follows_kids trie]
      constructor
      · rintro ⟨place, some, drop⟩
        have length := congrArg List.length drop
        rw [List.length_dropLast, List.length_nil] at length
        have := List.length_pos_iff.mpr some
        exact ⟨place, some, Or.inl (by omega)⟩
      · rintro ⟨place, some, single | mem⟩
        · obtain ⟨c, rfl⟩ := List.length_eq_one_iff.mp single
          exact ⟨place, some, rfl⟩
        · exact absurd mem List.not_mem_nil
  have visiting : Visiting t kids D st ([] ++ follows t [] (kids [])) (follows t [] (kids [])) := by
    refine ⟨?_, starting.ring⟩
    rw [starting.same]
    exact progress_first trie proper distinct one blank
  exact breadth_spec trie proper round visiting trie.small

end

end Fgrep

end UnixV7
