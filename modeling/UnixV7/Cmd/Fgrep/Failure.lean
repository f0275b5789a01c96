import Mathlib.Data.List.Nodup
import UnixV7.Cmd.Fgrep.Cfail

/-!
# Where the failure links lead

The places are visited in the order of their depth, each behind the place it grows from. So when
a place is visited, every place that is not deeper has its link and its mark, and the links lead
from it through its suffixes in the order of their length.
-/

namespace UnixV7

open Function Suffixes

namespace Fgrep

/-- The places of the table: the words that begin one that was entered. -/
def places (kids : List UInt8 → List ℕ) : Set (List UInt8) := {u | kids u ≠ []}

/-- The first element of a place, with no pointer to the first place of all. -/
def pointer (kids : List UInt8 → List ℕ) (v : List UInt8) : Option ℕ :=
  if v = [] then none else (kids v).head?

/-- The table while `cfail` is at work: the places in `seen` have their links and marks, and the
others are as `cgotofn` left them. -/
structure Progress (t : Table) (kids : List UInt8 → List ℕ) (D : Set (List UInt8))
    (w : ℕ → Words) (seen : List (List UInt8)) : Prop where
  inp : ∀ x, (w x).inp = (t.w x).inp
  nst : ∀ x, (w x).nst = (t.w x).nst
  link : ∀ x, (w x).link = (t.w x).link
  fail : ∀ v ∈ seen, ∀ x ∈ kids v, (w x).fail = pointer kids (fallback (places kids) v)
  out : ∀ v ∈ seen, ∀ x, (kids v).head? = some x → ((w x).out = true ↔ Ends D v)
  rest : ∀ v, v ∉ seen → ∀ x ∈ kids v, w x = t.w x

section

variable {t : Table} {kids : List UInt8 → List ℕ} {D : Set (List UInt8)} {w : ℕ → Words}
  {u v : List UInt8} {c : UInt8} {s x y b fuel : ℕ} {xs : List ℕ} {seen : List (List UInt8)}

theorem Trie.places_append (trie : Trie t kids D) :
    u ++ [c] ∈ places kids ↔ c ≠ 0 ∧ ∃ y ∈ kids u, (t.w y).inp = c := by
  constructor
  · exact fun mem => trie.known mem
  · rintro ⟨proper, y, mem, rfl⟩
    exact (trie.next mem proper).2

theorem Trie.prefixClosed (trie : Trie t kids D) : PrefixClosed (places kids) :=
  fun _ _ mem => trie.prefix_closed mem

theorem Trie.nil_mem (trie : Trie t kids D) : [] ∈ places kids := by
  intro none
  have root := trie.root
  rw [none] at root
  cases root

theorem Trie.dict_subset (trie : Trie t kids D) : D ⊆ places kids := fun _ mem => trie.dict mem

/-- The loop that looks for a character among the elements of a list. -/
theorem find_list (linked : Linked w (x :: xs)) (enough : xs.length < fuel) :
    (∃ y ∈ x :: xs, find w c fuel x = .ok (some y) ∧ (w y).inp = c) ∨
    (find w c fuel x = .ok none ∧ ∀ y ∈ x :: xs, (w y).inp ≠ c) := by
  induction xs generalizing x fuel with
  | nil =>
      obtain ⟨fuel, rfl⟩ : ∃ n, fuel = n + 1 := ⟨fuel - 1, by simp at enough; omega⟩
      have last : (w x).link = none := linked.1
      rw [find]
      split
      next same => exact Or.inl ⟨x, by simp, rfl, same⟩
      next other =>
        rw [last]
        exact Or.inr ⟨rfl, by simpa using other⟩
  | cons y xs ih =>
      obtain ⟨fuel, rfl⟩ : ∃ n, fuel = n + 1 := ⟨fuel - 1, by simp at enough; omega⟩
      have link : (w x).link = some y := linked.1
      rw [find]
      split
      next same => exact Or.inl ⟨x, by simp, rfl, same⟩
      next other =>
        rw [link]
        rcases ih linked.2 (by simpa using enough) with ⟨z, mem, eq, same⟩ | ⟨eq, others⟩
        · exact Or.inl ⟨z, List.mem_cons_of_mem x mem, eq, same⟩
        · exact Or.inr ⟨eq, List.forall_mem_cons.mpr ⟨other, others⟩⟩

/-- The loop that hands a link and a mark to the elements of a list. -/
theorem inherit_list (linked : Linked w (x :: xs)) (distinct : (x :: xs).Nodup)
    (other : b ∉ x :: xs) (enough : xs.length < fuel) :
    ∃ w', inherit b fuel x w = .ok w' ∧
      (∀ z ∈ x :: xs, w' z = { w z with fail := some b, out := (w z).out || (w b).out }) ∧
      ∀ z ∉ x :: xs, w' z = w z := by
  obtain ⟨fuel, rfl⟩ : ∃ n, fuel = n + 1 := ⟨fuel - 1, by omega⟩
  have here : inheritOne w x b x = { w x with fail := some b, out := (w x).out || (w b).out } :=
    update_self _ _ _
  have others : ∀ z, z ≠ x → inheritOne w x b z = w z := fun z ne => update_of_ne ne _ _
  induction xs generalizing x w fuel with
  | nil =>
      have last : (w x).link = none := linked.1
      refine ⟨inheritOne w x b, ?_, ?_, ?_⟩
      · rw [inherit, last]
      · intro z mem
        rw [List.mem_singleton.mp mem, here]
      · intro z mem
        exact others z fun eq => mem (List.mem_singleton.mpr eq)
  | cons y xs ih =>
      obtain ⟨x_new, distinct⟩ := List.nodup_cons.mp distinct
      obtain ⟨ne, other⟩ := not_or.mp ((not_congr List.mem_cons).mp other)
      obtain ⟨fuel, rfl⟩ : ∃ n, fuel = n + 1 := ⟨fuel - 1, by simp at enough; omega⟩
      have link : (w x).link = some y := linked.1
      have linked' : Linked (inheritOne w x b) (y :: xs) := by
        apply linked.2.congr
        intro z mem
        rw [others z (ne_of_mem_of_not_mem mem x_new)]
      obtain ⟨w', eq, inside, outside⟩ := ih linked' distinct other fuel
        (by simpa using enough) (update_self _ _ _) (fun z ne => update_of_ne ne _ _)
      refine ⟨w', ?_, ?_, ?_⟩
      · rw [inherit, link]
        exact eq
      · intro z mem
        rcases List.mem_cons.mp mem with rfl | mem
        · rw [outside z x_new, here]
        · rw [inside z mem, others z (ne_of_mem_of_not_mem mem x_new), others b ne]
      · intro z mem
        obtain ⟨ne', mem⟩ := not_or.mp ((not_congr List.mem_cons).mp mem)
        rw [outside z mem, others z ne']

theorem Progress.linked (progress : Progress t kids D w seen) (trie : Trie t kids D) :
    Linked w (kids u) :=
  (trie.linked u).congr fun z _ => progress.link z

/-- The loop that looks for a character among the elements of a place. -/
theorem Progress.find (progress : Progress t kids D w seen) (trie : Trie t kids D)
    (head : (kids u).head? = some s) :
    (∃ y ∈ kids u, Fgrep.find w c MAXSIZ s = .ok (some y) ∧ (t.w y).inp = c) ∨
    (Fgrep.find w c MAXSIZ s = .ok none ∧ ∀ y ∈ kids u, (t.w y).inp ≠ c) := by
  have linked := progress.linked trie (u := u)
  have short := trie.length_lt (u := u)
  obtain ⟨xs, eq⟩ := List.head?_eq_some_iff.mp head
  rw [eq] at linked short ⊢
  have found := find_list (c := c) linked
    (by rw [List.length_cons] at short; omega : xs.length < MAXSIZ)
  simp only [progress.inp] at found
  exact found

/-- A place is reached by the pointer to it. -/
theorem head_getD_pointer (trie : Trie t kids D) (place : v ∈ places kids) :
    (kids v).head? = some ((pointer kids v).getD 0) := by
  unfold pointer
  split
  next empty => rw [empty]; exact trie.root
  next =>
    obtain ⟨x, xs, list⟩ := List.exists_cons_of_ne_nil place
    rw [list]
    rfl

/-- A place whose fallback is the first one keeps what it has. -/
theorem Progress.keep (progress : Progress t kids D w seen) (trie : Trie t kids D)
    (proper : [] ∉ D) (new : v ∉ seen) (some : v ≠ [])
    (first : fallback (places kids) v = []) : Progress t kids D w (seen ++ [v]) := by
  refine { progress with fail := ?_, out := ?_, rest := ?_ }
  · intro v' mem x hx
    rcases List.mem_append.mp mem with old | mem
    · exact progress.fail v' old x hx
    · obtain rfl := List.mem_singleton.mp mem
      rw [progress.rest v' new x hx, first]
      exact trie.fails x
  · intro v' mem x hx
    rcases List.mem_append.mp mem with old | mem
    · exact progress.out v' old x hx
    · obtain rfl := List.mem_singleton.mp mem
      have hx' := List.mem_of_mem_head? hx
      rw [progress.rest v' new x hx', trie.marks hx', ends_iff trie.dict_subset some, first]
      constructor
      · exact fun marked => Or.inl marked.2
      · rintro (known | ends)
        · exact ⟨hx, known⟩
        · exact absurd ends (not_ends_nil proper)
  · intro v' mem x hx
    exact progress.rest v' (fun old => mem (List.mem_append_left _ old)) x hx

/-- A place gets the link to its fallback, and the mark that has. -/
theorem Progress.link_to (progress : Progress t kids D w seen) (trie : Trie t kids D)
    (new : v ∉ seen) (some : v ≠ []) {f : List UInt8} (falls : fallback (places kids) v = f)
    (deeper : f ≠ []) (known : f ∈ seen) (place : v ∈ places kids) {q : ℕ}
    (head : (kids v).head? = Option.some q) (head_f : (kids f).head? = Option.some b) :
    ∃ w', inherit b MAXSIZ q w = .ok w' ∧ Progress t kids D w' (seen ++ [v]) := by
  have linked := progress.linked trie (u := v)
  have short := trie.length_lt (u := v)
  have distinct := trie.nodup v
  have other : b ∉ kids v := by
    intro mem
    have same := trie.apart mem (List.mem_of_mem_head? head_f)
    have shorter := length_fallback (P := places kids) some
    rw [falls, same] at shorter
    exact Nat.lt_irrefl _ shorter
  obtain ⟨xs, list⟩ := List.head?_eq_some_iff.mp head
  rw [list] at linked short distinct other
  obtain ⟨w', eq, inside, outside⟩ := inherit_list linked distinct other
    (by rw [List.length_cons] at short; omega : xs.length < MAXSIZ)
  rw [← list] at inside outside
  have kept : ∀ v', v' ≠ v → ∀ x ∈ kids v', w' x = w x := by
    intro v' ne x hx
    apply outside
    intro hx'
    exact ne (trie.apart hx hx')
  refine ⟨w', eq, ?_, ?_, ?_, ?_, ?_, ?_⟩
  · intro x
    cases Classical.em (x ∈ kids v) with
    | inl mem => rw [inside x mem]; exact progress.inp x
    | inr mem => rw [outside x mem]; exact progress.inp x
  · intro x
    cases Classical.em (x ∈ kids v) with
    | inl mem => rw [inside x mem]; exact progress.nst x
    | inr mem => rw [outside x mem]; exact progress.nst x
  · intro x
    cases Classical.em (x ∈ kids v) with
    | inl mem => rw [inside x mem]; exact progress.link x
    | inr mem => rw [outside x mem]; exact progress.link x
  · intro v' mem x hx
    rcases List.mem_append.mp mem with old | mem
    · rw [kept v' (ne_of_mem_of_not_mem old new) x hx]
      exact progress.fail v' old x hx
    · obtain rfl := List.mem_singleton.mp mem
      rw [inside x hx, falls, pointer, if_neg deeper, head_f]
  · intro v' mem x hx
    rcases List.mem_append.mp mem with old | mem
    · rw [kept v' (ne_of_mem_of_not_mem old new) x (List.mem_of_mem_head? hx)]
      exact progress.out v' old x hx
    · obtain rfl := List.mem_singleton.mp mem
      have hx' := List.mem_of_mem_head? hx
      rw [inside x hx', Bool.or_eq_true, progress.out f known b head_f,
        progress.rest v' new x hx', trie.marks hx', ends_iff trie.dict_subset some, falls]
      constructor
      · rintro (⟨-, here⟩ | ends)
        · exact Or.inl here
        · exact Or.inr ends
      · rintro (here | ends)
        · exact Or.inl ⟨hx, here⟩
        · exact Or.inr ends
  · intro v' mem x hx
    have mem := not_or.mp ((not_congr List.mem_append).mp mem)
    rw [kept v' (fun eq => mem.2 (List.mem_singleton.mpr eq)) x hx]
    exact progress.rest v' mem.1 x hx

/-- The links are followed from a place to the longest suffix that has the character. -/
theorem setFail_spec (trie : Trie t kids D) (proper : [] ∉ D)
    (progress : Progress t kids D w seen) (place : u ++ [c] ∈ places kids)
    (new : u ++ [c] ∉ seen)
    (shallow : ∀ v ∈ places kids, v ≠ [] → v.length ≤ u.length → v ∈ seen) {q : ℕ}
    (head : (kids (u ++ [c])).head? = some q) (v_place : v ∈ places kids)
    (shorter : v.length < u.length)
    (falls : fallback (places kids) (u ++ [c]) = longest (places kids) (v ++ [c]))
    (enough : v.length < fuel) :
    ∃ w', setFail c q fuel (pointer kids v) w = .ok w' ∧
      Progress t kids D w' (seen ++ [u ++ [c]]) := by
  induction fuel generalizing v with
  | zero => exact absurd enough (Nat.not_lt_zero _)
  | succ fuel ih =>
      have some : u ++ [c] ≠ [] := by simp
      have c_proper := (trie.places_append.mp place).1
      rw [setFail.eq_def]
      dsimp only
      rcases progress.find (c := c) trie (head_getD_pointer trie v_place) with
        ⟨y, mem, eq, same⟩ | ⟨eq, others⟩
      · rw [eq]
        have grown : v ++ [c] ∈ places kids := trie.places_append.mpr ⟨c_proper, y, mem, same⟩
        rw [longest_of_mem grown] at falls
        have next := (trie.next mem (by rw [same]; exact c_proper)).1
        obtain ⟨b, bs, list⟩ := List.exists_cons_of_ne_nil grown
        rw [same, list] at next
        obtain ⟨w', eq', progress'⟩ := progress.link_to trie new some falls (by simp)
          (shallow _ grown (by simp) (by rw [List.length_append]; exact shorter))
          place head
          (by rw [list]; rfl : (kids (v ++ [c])).head? = Option.some b)
        refine ⟨w', ?_, progress'⟩
        change (follow (w y).nst >>= fun b => inherit b MAXSIZ q w) = _
        rw [progress.nst, next]
        exact eq'
      · rw [eq]
        have stuck : v ++ [c] ∉ places kids := by
          intro grown
          obtain ⟨-, y, mem, same⟩ := trie.places_append.mp grown
          exact others y mem same
        cases v with
        | nil =>
            refine ⟨w, rfl, progress.keep trie proper new some ?_⟩
            rw [List.nil_append] at stuck
            rw [falls, List.nil_append, longest, if_neg stuck, longest_nil]
        | cons a v =>
            have deep : a :: v ≠ [] := List.cons_ne_nil a v
            have known := shallow _ v_place deep shorter.le
            have head_v := head_getD_pointer trie v_place
            have goes : pointer kids (a :: v) = Option.some ((pointer kids (a :: v)).getD 0) := by
              rw [← head_v, pointer, if_neg deep]
            have fewer := length_fallback (P := places kids) deep
            rw [goes]
            change ∃ w', setFail c q fuel (w ((pointer kids (a :: v)).getD 0)).fail w = _ ∧ _
            rw [progress.fail _ known _ (List.mem_of_mem_head? head_v)]
            have falls_place : fallback (places kids) (a :: v) ∈ places kids :=
              longest_mem trie.nil_mem
            apply ih falls_place
            · exact fewer.trans shorter
            · rw [falls, longest_fallback trie.prefixClosed stuck deep]
            · omega

/-- The first elements of different places are different elements of the table. -/
theorem Trie.length_le (trie : Trie t kids D) {words : List (List UInt8)} (distinct : words.Nodup)
    (all : ∀ v ∈ words, v ∈ places kids) : words.length ≤ t.smax + 1 := by
  have head : ∀ v ∈ words, (kids v).headD 0 ∈ kids v := by
    intro v mem
    obtain ⟨x, xs, list⟩ := List.exists_cons_of_ne_nil (all v mem)
    rw [list]
    exact List.mem_cons_self
  have distinct' : (words.map fun v => (kids v).headD 0).Nodup := by
    apply List.Nodup.map_on _ distinct
    intro v mem v' mem' same
    exact trie.apart (head v mem) (same ▸ head v' mem')
  have sub : (words.map fun v => (kids v).headD 0) ⊆ List.range (t.smax + 1) := by
    intro x mem
    obtain ⟨v, v_mem, rfl⟩ := List.mem_map.mp mem
    have := trie.below (head v v_mem)
    exact List.mem_range.mpr (by omega)
  have le := (List.Nodup.subperm distinct' sub).length_le
  rwa [List.length_map, List.length_range] at le

/-- No place is deeper than the table is long. -/
theorem Trie.depth_le (trie : Trie t kids D) (place : u ∈ places kids) : u.length ≤ t.smax := by
  have distinct : ((List.range (u.length + 1)).map fun n => u.take n).Nodup := by
    apply List.Nodup.map_on _ List.nodup_range
    intro m hm n hn same
    have := congrArg List.length same
    rw [List.length_take, List.length_take] at this
    have := List.mem_range.mp hm
    have := List.mem_range.mp hn
    omega
  have all : ∀ v ∈ (List.range (u.length + 1)).map fun n => u.take n, v ∈ places kids := by
    intro v mem
    obtain ⟨n, -, rfl⟩ := List.mem_map.mp mem
    apply trie.prefix_closed (v := u.drop n)
    rw [List.take_append_drop]
    exact place
  have le := trie.length_le distinct all
  rw [List.length_map, List.length_range] at le
  omega

/-- The places that grow from a place by the characters of some of its elements. -/
def follows (t : Table) (u : List UInt8) (xs : List ℕ) : List (List UInt8) :=
  xs.filterMap fun x => if (t.w x).inp = 0 then none else some (u ++ [(t.w x).inp])

/-- The pointers to places. -/
def heads (kids : List UInt8 → List ℕ) (words : List (List UInt8)) : List ℕ :=
  words.map fun v => (kids v).headD 0

theorem mem_follows : v ∈ follows t u xs ↔ ∃ x ∈ xs, (t.w x).inp ≠ 0 ∧ v = u ++ [(t.w x).inp] := by
  unfold follows
  rw [List.mem_filterMap]
  constructor
  · rintro ⟨x, mem, eq⟩
    split at eq
    next => cases eq
    next used => exact ⟨x, mem, used, (Option.some.inj eq).symm⟩
  · rintro ⟨x, mem, used, rfl⟩
    exact ⟨x, mem, by rw [if_neg used]⟩

theorem follows_cons_zero (empty : (t.w x).inp = 0) : follows t u (x :: xs) = follows t u xs := by
  rw [follows, List.filterMap_cons, if_pos empty, follows]

theorem follows_cons (used : (t.w x).inp ≠ 0) :
    follows t u (x :: xs) = (u ++ [(t.w x).inp]) :: follows t u xs := by
  rw [follows, List.filterMap_cons, if_neg used, follows]

/-- What `visit` has before it at an element of the place `u`: the queue `Q`, and the links and
marks of the places in `seen`. -/
structure Visiting (t : Table) (kids : List UInt8 → List ℕ) (D : Set (List UInt8)) (st : Search)
    (seen Q : List (List UInt8)) : Prop where
  progress : Progress t kids D st.w seen
  ring : Ring.Holds st.queue QSIZE st.front st.rear (heads kids Q)

/-- One element of a place: the place that grows by its character is put in the queue. -/
theorem visitOne_spec {st : Search} {Q : List (List UInt8)} (trie : Trie t kids D)
    (proper : [] ∉ D) (visiting : Visiting t kids D st seen Q) (mem : x ∈ kids u)
    (place : u ∈ places kids) (some : u ≠ []) (known : u ∈ seen)
    (shallow : ∀ v ∈ places kids, v ≠ [] → v.length ≤ u.length → v ∈ seen)
    (new : ∀ v ∈ follows t u [x], v ∉ seen) :
    Gives (visitOne x st) fun st' =>
      Visiting t kids D st' (seen ++ follows t u [x]) (Q ++ follows t u [x]) := by
  have progress := visiting.progress
  rw [visitOne, progress.inp]
  split
  next used =>
    rw [follows_cons used] at new ⊢
    change Gives _ fun st' => Visiting t kids D st' (seen ++ [u ++ [(t.w x).inp]])
      (Q ++ [u ++ [(t.w x).inp]])
    obtain ⟨next, grown⟩ := trie.next mem used
    obtain ⟨q, qs, list⟩ := List.exists_cons_of_ne_nil grown
    have head : (kids (u ++ [(t.w x).inp])).head? = Option.some q := by rw [list]; rfl
    have first : (kids (u ++ [(t.w x).inp])).headD 0 = q := by rw [list]; rfl
    rw [progress.nst, next, head]
    change Gives (st.put q >>= fun st => _) _
    unfold Search.put
    split
    next => exact rfl
    next free =>
      have falls_place : fallback (places kids) u ∈ places kids := longest_mem trie.nil_mem
      have shorter := length_fallback (P := places kids) some
      have deep := trie.depth_le place
      have small := trie.small
      obtain ⟨w', eq, progress'⟩ := setFail_spec trie proper progress grown
        (new _ List.mem_cons_self) shallow head falls_place shorter
        (fallback_append trie.prefixClosed some) (by omega : _ < MAXSIZ)
      rw [← progress.fail u known x mem, ← progress.inp] at eq
      change Gives (setFail (st.w x).inp q MAXSIZ (st.w x).fail st.w >>= fun w => _) _
      rw [eq]
      refine ⟨progress', ?_⟩
      rw [heads, List.map_append, List.map_singleton, first]
      exact visiting.ring.push q free
  next empty =>
    rw [not_not] at empty
    rw [follows_cons_zero empty]
    change Visiting t kids D st (seen ++ []) (Q ++ [])
    rw [List.append_nil, List.append_nil]
    exact visiting

/-- The places that grow from `u` are put in the queue, with their links and marks. -/
theorem visit_spec {st : Search} {Q : List (List UInt8)} (trie : Trie t kids D)
    (proper : [] ∉ D) (visiting : Visiting t kids D st seen Q) (linked : Linked t.w (x :: xs))
    (sub : x :: xs ⊆ kids u) (place : u ∈ places kids) (some : u ≠ []) (known : u ∈ seen)
    (shallow : ∀ v ∈ places kids, v ≠ [] → v.length ≤ u.length → v ∈ seen)
    (distinct : (follows t u (x :: xs)).Nodup) (new : ∀ v ∈ follows t u (x :: xs), v ∉ seen)
    (enough : xs.length < fuel) :
    Gives (visit fuel x st) fun st' =>
      Visiting t kids D st' (seen ++ follows t u (x :: xs)) (Q ++ follows t u (x :: xs)) := by
  induction xs generalizing x st seen Q fuel with
  | nil =>
      obtain ⟨fuel, rfl⟩ : ∃ n, fuel = n + 1 := ⟨fuel - 1, by omega⟩
      have last : (t.w x).link = none := linked.1
      rw [visit]
      apply (visitOne_spec trie proper visiting (sub List.mem_cons_self) place some known shallow
        new).bind
      intro st' visiting'
      rw [visiting'.progress.link, last]
      exact visiting'
  | cons y xs ih =>
      obtain ⟨fuel, rfl⟩ : ∃ n, fuel = n + 1 := ⟨fuel - 1, by simp at enough; omega⟩
      have link : (t.w x).link = Option.some y := linked.1
      have split : follows t u (x :: y :: xs) = follows t u [x] ++ follows t u (y :: xs) := by
        rw [follows, ← List.singleton_append, List.filterMap_append, follows, follows]
      rw [split] at distinct new ⊢
      rw [visit]
      apply (visitOne_spec trie proper visiting (sub List.mem_cons_self) place some known shallow
        fun v mem => new v (List.mem_append_left _ mem)).bind
      intro st' visiting'
      rw [visiting'.progress.link, link, ← List.append_assoc, ← List.append_assoc]
      apply ih visiting' linked.2 fun z mem => sub (List.mem_cons_of_mem x mem)
      · exact List.mem_append_left _ known
      · intro v place some le
        exact List.mem_append_left _ (shallow v place some le)
      · exact (List.nodup_append.mp distinct).2.1
      · intro v mem mem'
        rcases List.mem_append.mp mem' with old | here
        · exact new v (List.mem_append_right _ mem) old
        · exact (List.nodup_append.mp distinct).2.2 v here v mem rfl
      · simpa using enough

end

end Fgrep

end UnixV7
