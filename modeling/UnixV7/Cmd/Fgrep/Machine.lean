import UnixV7.Cmd.Fgrep.Execute

/-!
# Running the machine

After any characters the machine is at the place of their longest suffix that begins a word, and
has failed when that is not all of them. The place is marked when a word has just ended.
-/

namespace UnixV7

open Function Suffixes

namespace Fgrep

/-- The machine is at the place `u`: its first element, or one of the first list after a failure. -/
def At (kids : List UInt8 → List ℕ) (u : List UInt8) (c : ℕ) (failed : Bool) : Prop :=
  (kids u).head? = some c ∨ u = [] ∧ c ∈ kids [] ∧ failed = true

/-- The table that `cgotofn` and `cfail` leave. -/
structure Machine (kids : List UInt8 → List ℕ) (D : Set (List UInt8)) (w : ℕ → Words) : Prop where
  made : ∃ t seen, Trie t kids D ∧ Progress t kids D w seen ∧
    ∀ v, v ∈ seen ↔ v ∈ places kids ∧ v ≠ []
  proper : [] ∉ D

section

variable {kids : List UInt8 → List ℕ} {D : Set (List UInt8)} {w : ℕ → Words}
  {u : List UInt8} {ch : UInt8} {c x y fuel : ℕ} {xs : List ℕ} {failed : Bool}

/-- The loop over the elements from one on. -/
theorem seek_list (linked : Linked w (x :: xs)) (enough : xs.length < fuel) :
    (∃ y ∈ x :: xs, seek w ch fuel x = .ok (true, y) ∧ (w y).inp = ch ∧ ch ≠ 0) ∨
    (∃ y ∈ x :: xs, seek w ch fuel x = .ok (false, y) ∧
      (ch ≠ 0 → ∀ z ∈ x :: xs, (w z).inp ≠ ch)) := by
  induction xs generalizing x fuel with
  | nil =>
      obtain ⟨fuel, rfl⟩ : ∃ n, fuel = n + 1 := ⟨fuel - 1, by omega⟩
      have last : (w x).link = none := linked.1
      rw [seek]
      split
      next same => exact Or.inl ⟨x, by simp, rfl, same.2, same.1⟩
      next other =>
        rw [last]
        refine Or.inr ⟨x, by simp, rfl, ?_⟩
        intro proper z mem same
        rw [List.mem_singleton.mp mem] at same
        exact other ⟨proper, same⟩
  | cons y xs ih =>
      obtain ⟨fuel, rfl⟩ : ∃ n, fuel = n + 1 := ⟨fuel - 1, by simp at enough; omega⟩
      have link : (w x).link = some y := linked.1
      rw [seek]
      split
      next same => exact Or.inl ⟨x, by simp, rfl, same.2, same.1⟩
      next other =>
        rw [link]
        rcases ih linked.2 (by simpa using enough) with
          ⟨z, mem, eq, same⟩ | ⟨z, mem, eq, others⟩
        · exact Or.inl ⟨z, List.mem_cons_of_mem x mem, eq, same⟩
        · refine Or.inr ⟨z, List.mem_cons_of_mem x mem, eq, ?_⟩
          intro proper
          exact List.forall_mem_cons.mpr ⟨fun same => other ⟨proper, same⟩, others proper⟩

theorem Linked.suffix {ys : List ℕ} (linked : Linked w (ys ++ xs)) : Linked w xs := by
  induction ys with
  | nil => exact linked
  | cons y ys ih => exact ih linked.2

namespace Machine

theorem nil_mem (m : Machine kids D w) : [] ∈ places kids := by
  obtain ⟨t, seen, trie, -, -⟩ := m.made
  exact trie.nil_mem

theorem prefixClosed (m : Machine kids D w) : PrefixClosed (places kids) := by
  obtain ⟨t, seen, trie, -, -⟩ := m.made
  exact trie.prefixClosed

theorem subset (m : Machine kids D w) : D ⊆ places kids := by
  obtain ⟨t, seen, trie, -, -⟩ := m.made
  exact trie.dict_subset

theorem append_iff (m : Machine kids D w) (ch : UInt8) :
    u ++ [ch] ∈ places kids ↔ ch ≠ 0 ∧ ∃ y ∈ kids u, (w y).inp = ch := by
  obtain ⟨t, seen, trie, progress, -⟩ := m.made
  rw [trie.places_append]
  simp only [progress.inp]

theorem next (m : Machine kids D w) (mem : y ∈ kids u) (same : (w y).inp = ch) (proper : ch ≠ 0) :
    ∃ b, (w y).nst = some b ∧ (kids (u ++ [ch])).head? = some b := by
  obtain ⟨t, seen, trie, progress, -⟩ := m.made
  rw [progress.inp] at same
  obtain ⟨next, grown⟩ := trie.next mem (by rw [same]; exact proper)
  rw [same] at next grown
  obtain ⟨b, bs, list⟩ := List.exists_cons_of_ne_nil grown
  refine ⟨b, ?_, by rw [list]; rfl⟩
  rw [progress.nst, next, list]
  rfl

theorem fail_eq (m : Machine kids D w) (mem : y ∈ kids u) :
    (w y).fail = if u = [] then none else pointer kids (fallback (places kids) u) := by
  obtain ⟨t, seen, trie, progress, all⟩ := m.made
  split
  next empty =>
    subst empty
    rw [progress.rest [] (fun mem => ((all []).mp mem).2 rfl) y mem]
    exact trie.fails y
  next some => exact progress.fail u ((all u).mpr ⟨List.ne_nil_of_mem mem, some⟩) y mem

/-- A marked place is one that a word ends. -/
theorem out_iff (m : Machine kids D w) (at_u : At kids u c failed) :
    (w c).out = true ↔ Ends D u := by
  obtain ⟨t, seen, trie, progress, all⟩ := m.made
  cases Classical.em (u = []) with
  | inl empty =>
      subst empty
      have mem : c ∈ kids [] := by
        rcases at_u with head | ⟨-, mem, -⟩
        · exact List.mem_of_mem_head? head
        · exact mem
      rw [progress.rest [] (fun mem => ((all []).mp mem).2 rfl) c mem, trie.marks mem]
      constructor
      · exact fun marked => absurd marked.2 m.proper
      · exact fun ends => absurd ends (not_ends_nil m.proper)
  | inr some =>
      have head := at_u.resolve_right fun other => some other.1
      exact progress.out u ((all u).mpr ⟨List.ne_nil_of_mem (List.mem_of_mem_head? head), some⟩)
        c head

/-- The loop over a list of the machine. -/
theorem seek_spec (m : Machine kids D w) (mem : c ∈ kids u) :
    (∃ y ∈ kids u, seek w ch MAXSIZ c = .ok (true, y) ∧ (w y).inp = ch ∧ ch ≠ 0) ∨
    (∃ y ∈ kids u, seek w ch MAXSIZ c = .ok (false, y) ∧
      ((kids u).head? = some c → u ++ [ch] ∉ places kids)) := by
  have append_iff := m.append_iff (u := u) ch
  obtain ⟨t, seen, trie, progress, all⟩ := m.made
  have linked := progress.linked trie (u := u)
  have short := trie.length_lt (u := u)
  obtain ⟨front, back, split⟩ := List.append_of_mem mem
  rw [split, List.length_append, List.length_cons] at short
  rw [split] at linked
  rcases seek_list linked.suffix (by omega : back.length < MAXSIZ) with
    ⟨y, y_mem, eq, same, proper⟩ | ⟨y, y_mem, eq, others⟩
  · exact Or.inl ⟨y, split ▸ List.mem_append_right front y_mem, eq, same, proper⟩
  · refine Or.inr ⟨y, split ▸ List.mem_append_right front y_mem, eq, ?_⟩
    intro head place
    obtain ⟨proper, z, z_mem, same⟩ := append_iff.mp place
    have whole : kids u = c :: back := by
      rw [split] at head ⊢
      cases front with
      | nil => rfl
      | cons d front =>
          cases head
          have distinct := trie.nodup u
          rw [split, List.cons_append, List.nodup_cons] at distinct
          exact absurd (List.mem_append_right front List.mem_cons_self) distinct.1
    rw [whole] at z_mem
    exact others proper z z_mem same

/-- The machine starts again at its first place. -/
theorem istate_spec (m : Machine kids D w) : ∃ c', istate w ch = .ok (c', true) ∧
    At kids (longest (places kids) [ch]) c' true := by
  have root : (kids []).head? = some 0 := by
    obtain ⟨t, seen, trie, -, -⟩ := m.made
    exact trie.root
  unfold istate
  rcases m.seek_spec (List.mem_of_mem_head? root) with
    ⟨y, mem, eq, same, proper⟩ | ⟨y, mem, eq, others⟩
  · obtain ⟨b, next, head⟩ := m.next mem same proper
    refine ⟨b, ?_, ?_⟩
    · rw [eq]
      change (follow (w y).nst >>= fun c => _) = _
      rw [next]
      rfl
    · have place : [ch] ∈ places kids := (m.append_iff _).mpr ⟨proper, y, mem, same⟩
      rw [longest_of_mem place]
      exact Or.inl head
  · refine ⟨y, ?_, ?_⟩
    · rw [eq]
      rfl
    · have stuck : [ch] ∉ places kids := others root
      rw [longest, if_neg stuck]
      exact Or.inr ⟨rfl, mem, rfl⟩

/-- A character takes the machine to the longest suffix, and has it fail where that is shorter. -/
theorem nstate_spec (m : Machine kids D w) (at_u : At kids u c failed) (place : u ∈ places kids)
    (enough : u.length < fuel) :
    ∃ c' failed', nstate w ch fuel c failed = .ok (c', failed') ∧
      At kids (longest (places kids) (u ++ [ch])) c' failed' ∧
      (failed' = true ↔ failed = true ∨ u ++ [ch] ∉ places kids) := by
  induction fuel generalizing u c failed with
  | zero => exact absurd enough (Nat.not_lt_zero _)
  | succ fuel ih =>
      have mem : c ∈ kids u := by
        rcases at_u with head | ⟨rfl, mem, -⟩
        · exact List.mem_of_mem_head? head
        · exact mem
      rw [nstate]
      rcases m.seek_spec mem with ⟨y, y_mem, eq, same, proper⟩ | ⟨y, y_mem, eq, others⟩
      · obtain ⟨b, next, head⟩ := m.next y_mem same proper
        have grown : u ++ [ch] ∈ places kids := (m.append_iff _).mpr ⟨proper, y, y_mem, same⟩
        refine ⟨b, failed, ?_, ?_, by simp [grown]⟩
        · rw [eq]
          change (follow (w y).nst >>= fun c => _) = _
          rw [next]
          rfl
        · rw [longest_of_mem grown]
          exact Or.inl head
      · rw [eq]
        have fails : failed = true ∨ u ++ [ch] ∉ places kids := by
          rcases at_u with head | ⟨-, -, failed⟩
          · exact Or.inr (others head)
          · exact Or.inl failed
        have fail := m.fail_eq y_mem
        simp only [bind, Except.bind]
        rw [fail]
        cases u with
        | nil =>
            obtain ⟨c', eq', at'⟩ := m.istate_spec
            exact ⟨c', true, eq', at', iff_of_true rfl fails⟩
        | cons a u =>
            have deep : a :: u ≠ [] := List.cons_ne_nil a u
            have head := at_u.resolve_right fun other => deep other.1
            have falls_place : fallback (places kids) (a :: u) ∈ places kids :=
              longest_mem m.nil_mem
            rw [if_neg deep, longest_fallback m.prefixClosed (others head) deep]
            cases first : fallback (places kids) (a :: u) with
            | nil =>
                obtain ⟨c', eq', at'⟩ := m.istate_spec
                exact ⟨c', true, eq', at', iff_of_true rfl fails⟩
            | cons d v =>
                rw [first] at falls_place
                obtain ⟨f, fs, list⟩ := List.exists_cons_of_ne_nil falls_place
                have shorter := length_fallback (P := places kids) deep
                rw [first] at shorter
                have pointed : pointer kids (d :: v) = some f := by
                  rw [pointer, if_neg (List.cons_ne_nil d v), list]
                  rfl
                rw [pointed]
                obtain ⟨c', failed', eq', at', failed_iff⟩ := ih (c := f)
                  (Or.inl (by rw [list]; rfl)) falls_place (by omega)
                refine ⟨c', failed', eq', at', ?_⟩
                rw [failed_iff]
                exact iff_of_true (Or.inl rfl) fails

end Machine

end

end Fgrep

end UnixV7
