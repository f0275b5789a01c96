import UnixV7.Cmd.Mkfs.Bflist
import Mathlib.Data.Finset.Card
import Mathlib.Data.List.Perm.Basic
import Mathlib.Data.List.Range
import Mathlib.Tactic.Ring

/-!
# The order of the blocks

The steps through a group meet each of its blocks once, whatever the step: a block that was met
already is passed over. So the groups together have the blocks below the end of the first one.
-/

namespace UnixV7.Mkfs

open Function

variable {n m i j k fuel d : ℕ} {flg : ℕ → Bool} {adr : List ℕ} {σ : Type} {visit : σ → Daddr → σ}
  {s : σ}

/-- The search for a block that was not met ends. -/
theorem skip_spec (inside : i < n) (k : ℕ) (free : flg ((i + k) % n) = false)
    (enough : k < fuel) : ∃ i', skip n flg fuel i = some i' ∧ i' < n ∧ flg i' = false := by
  induction fuel generalizing i k with
  | zero => omega
  | succ fuel ih =>
      rw [skip]
      cases here : flg i with
      | false => exact ⟨i, rfl, inside, here⟩
      | true =>
          cases k with
          | zero =>
              rw [Nat.add_zero, Nat.mod_eq_of_lt inside, here] at free
              cases free
          | succ k =>
              apply ih (Nat.mod_lt _ (Nat.zero_lt_of_lt inside)) k _ (by omega)
              rw [Nat.mod_add_mod, show i + 1 + k = i + (k + 1) by omega]
              exact free

/-- The blocks of a group that were not met. -/
def unmet (n : ℕ) (flg : ℕ → Bool) : Finset ℕ := (Finset.range n).filter fun k => flg k = false

theorem mem_unmet : k ∈ unmet n flg ↔ k < n ∧ flg k = false := by
  simp [unmet]

theorem unmet_update : unmet n (update flg i true) = (unmet n flg).erase i := by
  ext k
  rw [Finset.mem_erase, mem_unmet, mem_unmet]
  by_cases same : k = i
  · simp [same]
  · simp [same]

/-- Every block that was not met is met once. -/
theorem adrs_spec (inside : i < n) (left : (unmet n flg).card = j) :
    ∃ adr, adrs n m j i flg = some adr ∧ adr.Nodup ∧
      ∀ a, a ∈ adr ↔ ∃ k ∈ unmet n flg, a = k + 1 := by
  induction j generalizing i flg with
  | zero =>
      refine ⟨[], rfl, List.nodup_nil, fun a => ?_⟩
      simp [Finset.card_eq_zero.mp left]
  | succ j ih =>
      obtain ⟨k, mem⟩ : (unmet n flg).Nonempty := Finset.card_pos.mp (by omega)
      obtain ⟨below, free⟩ := mem_unmet.mp mem
      have around : (i + (k + n - i) % n) % n = k := by
        rw [Nat.add_mod_mod, show i + (k + n - i) = k + n by omega, Nat.add_mod_right,
          Nat.mod_eq_of_lt below]
      have reached : flg ((i + (k + n - i) % n) % n) = false := by rw [around, free]
      obtain ⟨i', found, inside', free'⟩ := skip_spec inside _ reached
        (Nat.mod_lt _ (Nat.zero_lt_of_lt inside))
      have mem' : i' ∈ unmet n flg := mem_unmet.mpr ⟨inside', free'⟩
      have fewer : (unmet n (update flg i' true)).card = j := by
        rw [unmet_update, Finset.card_erase_of_mem mem', left]
        rfl
      obtain ⟨adr, rest, distinct, all⟩ := ih (i := (i' + m) % n)
        (Nat.mod_lt _ (Nat.zero_lt_of_lt inside)) fewer
      rw [unmet_update] at all
      refine ⟨(i' + 1) :: adr, ?_, ?_, fun a => ?_⟩
      · simp only [adrs, found, rest, Option.bind_eq_bind, Option.bind_some]
      · rw [List.nodup_cons]
        refine ⟨fun again => ?_, distinct⟩
        obtain ⟨k, mem, same⟩ := (all _).mp again
        exact Finset.ne_of_mem_erase mem (by omega)
      · rw [List.mem_cons, all]
        constructor
        · rintro (rfl | ⟨k, mem, rfl⟩)
          · exact ⟨i', mem', rfl⟩
          · exact ⟨k, Finset.mem_of_mem_erase mem, rfl⟩
        · rintro ⟨k, mem, rfl⟩
          by_cases same : k = i'
          · exact .inl (by rw [same])
          · exact .inr ⟨k, Finset.mem_erase.mpr ⟨same, mem⟩, rfl⟩

/-- The order of a group has every block of it once. -/
theorem adrs_perm (pos : 0 < n) (m : ℕ) :
    ∃ adr, adrs n m n 0 (fun _ => false) = some adr ∧ adr.Perm (List.range' 1 n) := by
  have whole : (unmet n fun _ => false).card = n := by simp [unmet]
  obtain ⟨adr, found, distinct, all⟩ := adrs_spec (m := m) pos whole
  refine ⟨adr, found, (List.perm_ext_iff_of_nodup distinct List.nodup_range').mpr fun a => ?_⟩
  rw [all, List.mem_range'_1]
  constructor
  · rintro ⟨k, mem, rfl⟩
    have := (mem_unmet.mp mem).1
    omega
  · intro ⟨low, high⟩
    exact ⟨a - 1, mem_unmet.mpr ⟨by omega, rfl⟩, by omega⟩

/-- The end of the first group is the next multiple. -/
theorem roundUp_spec (gap : (d + k) % n = 0) (few : k < fuel) :
    ∃ q, roundUp n fuel d = some (n * q) ∧ d ≤ n * q ∧ n * q ≤ d + k := by
  induction fuel generalizing d k with
  | zero => omega
  | succ fuel ih =>
      rw [roundUp]
      split
      next more =>
        cases k with
        | zero => exact absurd gap more
        | succ k =>
            obtain ⟨q, found, low, high⟩ := ih (d := d + 1) (k := k)
              (by rwa [show d + 1 + k = d + (k + 1) by omega]) (by omega)
            exact ⟨q, found, by omega, by omega⟩
      next stop =>
        obtain ⟨q, rfl⟩ := Nat.dvd_of_mod_eq_zero (not_not.mp stop)
        exact ⟨q, rfl, Nat.le_refl _, Nat.le_add_right _ _⟩

/-- The blocks of the lowest `q` groups in the order in which they are visited. -/
def blocks (n : ℕ) (adr : List ℕ) : ℕ → List Daddr
  | 0 => []
  | q + 1 => adr.map (n * (q + 1) - ·) ++ blocks n adr q

theorem lay_spec (pos : 0 < n) (q : ℕ) (enough : n * q < fuel) :
    lay visit n adr fuel (n * q) s = some ((blocks n adr q).foldl visit s) := by
  induction q generalizing fuel s with
  | zero =>
      obtain ⟨fuel, rfl⟩ : ∃ k, fuel = k + 1 := ⟨fuel - 1, by omega⟩
      rfl
  | succ q ih =>
      obtain ⟨fuel, rfl⟩ : ∃ k, fuel = k + 1 := ⟨fuel - 1, by omega⟩
      have size : n * (q + 1) = n * q + n := Nat.mul_succ n q
      rw [lay, if_pos (by omega), blocks, List.foldl_append, List.foldl_map,
        show n * (q + 1) - n = n * q by omega]
      exact ih (by omega)

/-- The groups have the blocks below the end of the first one, each once. -/
theorem blocks_perm (order : adr.Perm (List.range' 1 n)) (q : ℕ) :
    (blocks n adr q).Perm (List.range (n * q)) := by
  induction q with
  | zero => exact List.Perm.refl _
  | succ q ih =>
      have group : (adr.map (n * (q + 1) - ·)).Perm ((List.range n).map (n * q + ·)) := by
        apply (order.map _).trans
        apply (List.perm_ext_iff_of_nodup _ _).mpr
        · intro f
          simp only [List.mem_map, List.mem_range'_1, List.mem_range]
          constructor
          · rintro ⟨a, ⟨low, high⟩, rfl⟩
            exact ⟨n - a, by omega, by rw [Nat.mul_succ]; omega⟩
          · rintro ⟨k, below, rfl⟩
            exact ⟨n - k, by omega, by rw [Nat.mul_succ]; omega⟩
        · apply List.Nodup.map_on
          · intro a mem b mem' same
            rw [List.mem_range'_1] at mem mem'
            have size : n * (q + 1) = n * q + n := Nat.mul_succ n q
            omega
          · exact List.nodup_range'
        · exact List.nodup_range.map fun a b same => Nat.add_left_cancel same
      rw [blocks, Nat.mul_succ, List.range_add]
      exact (group.append ih).trans List.perm_append_comm

end UnixV7.Mkfs
