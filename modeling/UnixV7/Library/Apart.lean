import Mathlib.Data.List.Basic
import Mathlib.Data.List.Nodup
import Mathlib.Data.List.Count
import Mathlib.Tactic.Common

/-!
# Holdings drawn from one stock

Owners hold things taken from a common stock. As long as each trade only moves things between
one owner and the stock, nothing is ever in two places.
-/

namespace UnixV7

variable {κ α : Type*} {places places' : κ → List α} {stock stock' : List α} {x y : κ} {a : α}

/-- Nothing is held twice, neither by two owners nor by an owner and the stock. -/
structure Apart (places : κ → List α) (stock : List α) : Prop where
  free : stock.Nodup
  own : ∀ x, (places x ++ stock).Nodup
  disjoint : ∀ x y, x ≠ y → (places x).Disjoint (places y)

/-- A trade between one owner and the stock leaves the same things in all places together. -/
theorem mem_iff_of_trade (traded : (places' x ++ stock').Perm (places x ++ stock))
    (same : ∀ y, y ≠ x → places' y = places y) :
    (a ∈ stock' ∨ ∃ y, a ∈ places' y) ↔ (a ∈ stock ∨ ∃ y, a ∈ places y) := by
  have both : a ∈ places' x ∨ a ∈ stock' ↔ a ∈ places x ∨ a ∈ stock := by
    rw [← List.mem_append, ← List.mem_append]
    exact traded.mem_iff
  constructor
  · rintro (free | ⟨y, held⟩)
    · exact (both.mp (.inr free)).elim (fun held => .inr ⟨x, held⟩) .inl
    · by_cases here : y = x
      · subst here
        exact (both.mp (.inl held)).elim (fun held => .inr ⟨y, held⟩) .inl
      · exact .inr ⟨y, same y here ▸ held⟩
  · rintro (free | ⟨y, held⟩)
    · exact (both.mpr (.inr free)).elim (fun held => .inr ⟨x, held⟩) .inl
    · by_cases here : y = x
      · subst here
        exact (both.mpr (.inl held)).elim (fun held => .inr ⟨y, held⟩) .inl
      · exact .inr ⟨y, (same y here).symm ▸ held⟩

namespace Apart

theorem not_mem_stock (apart : Apart places stock) (held : a ∈ places x) : a ∉ stock :=
  fun free => (List.nodup_append.mp (apart.own x)).2.2 a held a free rfl

theorem not_mem_of_ne (apart : Apart places stock) (held : a ∈ places x) (other : y ≠ x) :
    a ∉ places y :=
  fun also => apart.disjoint x y other.symm held also

theorem nodup (apart : Apart places stock) (x : κ) : (places x).Nodup :=
  (List.nodup_append.mp (apart.own x)).1

/-- What another owner holds is neither held by `x` nor in the stock. -/
theorem not_mem_append (apart : Apart places stock) (held : a ∈ places y) (other : y ≠ x) :
    a ∉ places x ++ stock := by
  intro mem
  rcases List.mem_append.mp mem with also | free
  · exact apart.not_mem_of_ne held other.symm also
  · exact apart.not_mem_stock held free

/-- A trade between one owner and the stock keeps all holdings apart. -/
theorem trade (apart : Apart places stock)
    (traded : (places' x ++ stock').Perm (places x ++ stock))
    (same : ∀ y, y ≠ x → places' y = places y) : Apart places' stock' := by
  have within : ∀ a ∈ places' x ++ stock', a ∈ places x ++ stock :=
    fun a mem => traded.mem_iff.mp mem
  have beside : ∀ y, y ≠ x → ∀ a ∈ places' x ++ stock', a ∉ places y :=
    fun y other a mem held => apart.not_mem_append held other (within a mem)
  have free : stock'.Nodup :=
    (List.nodup_append.mp (traded.nodup_iff.mpr (apart.own x))).2.1
  refine ⟨free, ?_, ?_⟩
  · intro y
    by_cases here : y = x
    · subst here
      exact traded.nodup_iff.mpr (apart.own y)
    · rw [same y here]
      refine List.nodup_append.mpr ⟨apart.nodup y, free, ?_⟩
      rintro a held _ mem rfl
      exact beside y here a (List.mem_append_right _ mem) held
  · intro y z other a held also
    by_cases first : y = x
    · subst first
      rw [same z other.symm] at also
      exact beside z other.symm a (List.mem_append_left _ held) also
    · by_cases second : z = x
      · subst second
        rw [same y first] at held
        exact beside y first a (List.mem_append_left _ also) held
      · rw [same y first] at held
        rw [same z second] at also
        exact apart.disjoint y z other held also

/-- An owner may give something up. -/
theorem shrink (apart : Apart places stock) (fewer : (places' x).Sublist (places x))
    (same : ∀ y, y ≠ x → places' y = places y) : Apart places' stock := by
  have within : ∀ y, (places' y).Sublist (places y) := by
    intro y
    by_cases here : y = x
    · exact here ▸ fewer
    · rw [same y here]
  refine ⟨apart.free, fun y => ((within y).append_right stock).nodup (apart.own y),
    fun y z other a held also => ?_⟩
  exact apart.disjoint y z other ((within y).subset held) ((within z).subset also)

/-- An owner may come by something that is nowhere else. -/
theorem gain (apart : Apart places stock) (off : a ∉ stock) (nobody : ∀ y, a ∉ places y)
    (more : places' x = a :: places x) (same : ∀ y, y ≠ x → places' y = places y) :
    Apart places' stock := by
  have within : ∀ y, ∀ b ∈ places' y, b ∈ places y ∨ (y = x ∧ b = a) := by
    intro y b held
    by_cases here : y = x
    · subst here
      rw [more] at held
      rcases List.mem_cons.mp held with rfl | held
      · exact .inr ⟨rfl, rfl⟩
      · exact .inl held
    · exact .inl (same y here ▸ held)
  refine ⟨apart.free, ?_, ?_⟩
  · intro y
    by_cases here : y = x
    · subst here
      rw [more, List.cons_append]
      refine List.nodup_cons.mpr ⟨fun mem => ?_, apart.own y⟩
      rcases List.mem_append.mp mem with held | free
      · exact nobody y held
      · exact off free
    · rw [same y here]
      exact apart.own y
  · intro y z other b held also
    rcases within y b held with held | ⟨rfl, rfl⟩
    · rcases within z b also with also | ⟨-, rfl⟩
      · exact apart.disjoint y z other held also
      · exact nobody y held
    · rcases within z b also with also | ⟨rfl, -⟩
      · exact nobody z also
      · exact other rfl

end Apart

end UnixV7
