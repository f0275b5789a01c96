import UnixV7.Cmd.Diff.Classes
import Mathlib.Data.List.Perm.Subperm

/-!
# The longest common subsequence

`unravel` of `diff.c`, and the whole way from the values of the lines to the array `J`.
-/

namespace UnixV7

open Function

namespace Diff

/-- `J` before the candidates are followed: the common beginning and end. -/
def borders (len₀ len₁ pref suff i : ℕ) : ℕ :=
  if i ≤ pref then i else if len₀ - suff < i then i + len₁ - len₀ else 0

/-- The loop of `unravel` over the candidates. -/
def follow (clist : ℕ → Cand) (pref : ℕ) : ℕ → ℕ → (ℕ → ℕ) → ℕ → ℕ
  | 0, _, J => J
  | fuel + 1, q, J =>
      if (clist q).y = 0 then J
      else follow clist pref fuel (clist q).pred
        (update J ((clist q).x + pref) ((clist q).y + pref))

/-- From the values to `J`. -/
def matching (us vs : List ℤ) : Option (ℕ → ℕ) :=
  let us' := middle us (pref us vs) (suff us vs)
  let vs' := middle vs (pref us vs) (suff us vs)
  (classes us' vs').bind fun (a, c) =>
    (stone a us'.length c).map fun (s, k) =>
      follow s.clist (pref us vs) (us.length + 1) (s.klist k)
        (borders us.length vs.length (pref us vs) (suff us vs))

/-! ## The common beginning and end -/

variable {us vs : List ℤ} {i j n x y p : ℕ} {clist : ℕ → Cand} {ps : List (ℕ × ℕ)} {J : ℕ → ℕ}

theorem common_le (us vs : List ℤ) : common us vs ≤ us.length ∧ common us vs ≤ vs.length := by
  fun_induction common us vs with
  | case1 u us vs ih => simpa using ih
  | case2 => simp
  | case3 => simp

theorem take_common (us vs : List ℤ) : us.take (common us vs) = vs.take (common us vs) := by
  fun_induction common us vs with
  | case1 u us vs ih => simp [ih]
  | case2 => simp
  | case3 => simp

/-- The common beginning is as long as it can be. -/
theorem le_common (left : n ≤ us.length) (right : n ≤ vs.length) (same : us.take n = vs.take n) :
    n ≤ common us vs := by
  induction n generalizing us vs with
  | zero => exact Nat.zero_le _
  | succ n ih =>
      cases us with
      | nil => simp at left
      | cons u us =>
          cases vs with
          | nil => simp at right
          | cons v vs =>
              rw [List.take_succ_cons, List.take_succ_cons, List.cons.injEq] at same
              rw [common, if_pos same.1]
              exact Nat.succ_le_succ
                (ih (Nat.le_of_succ_le_succ left) (Nat.le_of_succ_le_succ right) same.2)

theorem pref_le (us vs : List ℤ) : pref us vs ≤ us.length ∧ pref us vs ≤ vs.length :=
  common_le us vs

theorem suff_le (us vs : List ℤ) :
    pref us vs + suff us vs ≤ us.length ∧ pref us vs + suff us vs ≤ vs.length := by
  obtain ⟨left, right⟩ := pref_le us vs
  have bound := common_le (us.drop (pref us vs)).reverse (vs.drop (pref us vs)).reverse
  rw [List.length_reverse, List.length_reverse, List.length_drop, List.length_drop] at bound
  rw [suff]
  omega

/-- A common end behind the common beginning is one that `suff` counts. -/
theorem le_suff (left : pref us vs + n ≤ us.length) (right : pref us vs + n ≤ vs.length)
    (same : us.drop (us.length - n) = vs.drop (vs.length - n)) : n ≤ suff us vs := by
  have last : ∀ ws : List ℤ, pref us vs + n ≤ ws.length →
      (ws.drop (pref us vs)).reverse.take n = (ws.drop (ws.length - n)).reverse := by
    intro ws enough
    rw [List.take_reverse, List.length_drop, List.drop_drop]
    congr 2
    omega
  refine le_common ?_ ?_ ?_
  · rw [List.length_reverse, List.length_drop]
    omega
  · rw [List.length_reverse, List.length_drop]
    omega
  · rw [last us left, last vs right, same]

theorem middle_length (us : List ℤ) (p s : ℕ) : (middle us p s).length = us.length - p - s := by
  rw [middle, List.length_take, List.length_drop]
  omega

/-- The lines in between are lines of the files. -/
theorem mate_middle (low : 1 ≤ x ∧ 1 ≤ y) :
    Mate (middle us (pref us vs) (suff us vs)) (middle vs (pref us vs) (suff us vs)) x y ↔
      Mate us vs (x + pref us vs) (y + pref us vs) ∧ x + pref us vs ≤ us.length - suff us vs ∧
        y + pref us vs ≤ vs.length - suff us vs := by
  have shift : ∀ z, 1 ≤ z → pref us vs + (z - 1) = z + pref us vs - 1 := fun z low => by omega
  simp only [Mate, middle, List.getElem?_take, List.getElem?_drop, shift _ low.1, shift _ low.2]
  constructor
  · rintro ⟨-, -, v, left, right⟩
    split_ifs at left right with first second
    exact ⟨⟨by omega, by omega, v, left, right⟩, by omega, by omega⟩
  · rintro ⟨⟨-, -, v, left, right⟩, first, second⟩
    exact ⟨low.1, low.2, v, by rwa [if_pos (by omega)], by rwa [if_pos (by omega)]⟩

/-! ## Following the candidates -/

/-- `unravel` writes the pairs of the candidate, and nothing else. -/
theorem follow_spec {mate : ℕ → ℕ → Prop} (fuel : ℕ) (path : Path clist n i ps)
    (common : Common mate ps) (enough : ps.length ≤ fuel) :
    (∀ q ∈ ps, follow clist p fuel i J (q.1 + p) = q.2 + p) ∧
      ∀ j, (∀ q ∈ ps, j ≠ q.1 + p) → follow clist p fuel i J j = J j := by
  induction path generalizing fuel J with
  | @nil c here zero =>
      have ends : follow clist p fuel c J = J := by
        cases fuel with
        | zero => rfl
        | succ fuel => rw [follow, if_pos zero]
      rw [ends]
      exact ⟨by simp, fun _ _ => rfl⟩
  | @cons c ps here nonzero path ih =>
      obtain ⟨rest, -, below⟩ := Common.cons_iff.mp common
      obtain ⟨fuel, rfl⟩ : ∃ k, fuel = k + 1 :=
        ⟨fuel - 1, by rw [List.length_cons] at enough; omega⟩
      rw [follow, if_neg nonzero]
      obtain ⟨written, kept⟩ := ih fuel rest (by simpa using enough)
        (J := update J ((clist c).x + p) ((clist c).y + p))
      constructor
      · refine List.forall_mem_cons.mpr ⟨?_, written⟩
        rw [kept _ fun q mem => by
          have := (below q mem).1
          simp only at this ⊢
          omega]
        exact update_self _ _ _
      · intro j out
        obtain ⟨other, out⟩ := List.forall_mem_cons.mp out
        rw [kept j out, update_of_ne other]

/-- `J` for a common subsequence of the lines in between. -/
structure Unraveled (us vs : List ℤ) (ps : List (ℕ × ℕ)) (J : ℕ → ℕ) : Prop where
  start : ∀ i ≤ pref us vs, J i = i
  stop : ∀ i, us.length - suff us vs < i → i ≤ us.length → J i + us.length = i + vs.length
  pairs : ∀ q ∈ ps, J (q.1 + pref us vs) = q.2 + pref us vs
  unpaired : ∀ i, pref us vs < i → i ≤ us.length - suff us vs →
    (∀ q ∈ ps, i ≠ q.1 + pref us vs) → J i = 0

/-- The pairs of the lines in between. -/
def Between (us vs : List ℤ) : ℕ → ℕ → Prop :=
  Mate (middle us (pref us vs) (suff us vs)) (middle vs (pref us vs) (suff us vs))

theorem Between.bounds (mated : Between us vs x y) : 1 ≤ x ∧ 1 ≤ y ∧
    x + pref us vs ≤ us.length - suff us vs ∧ y + pref us vs ≤ vs.length - suff us vs := by
  have low : 1 ≤ x ∧ 1 ≤ y := ⟨mated.1, mated.2.1⟩
  exact ⟨low.1, low.2, ((mate_middle low).mp mated).2⟩

/-- `stone` and `unravel` make `J` from a longest common subsequence of the lines in between. -/
theorem matching_spec (us : List ℤ) (nonzero : ∀ v ∈ vs, v ≠ 0) :
    ∃ J ps, matching us vs = some J ∧ Common (Between us vs) ps ∧ Unraveled us vs ps J ∧
      ∀ qs, Common (Between us vs) qs → qs.length ≤ ps.length := by
  have real : ∀ v ∈ middle vs (pref us vs) (suff us vs), v ≠ 0 := fun v mem =>
    nonzero v (List.mem_of_mem_drop (List.mem_of_mem_take mem))
  obtain ⟨a, c, classed, each⟩ := classes_spec (middle us (pref us vs) (suff us vs)) real
  obtain ⟨s, k, done, valid⟩ := stone_spec _ (fun x y (mated : Between us vs x y) =>
    ⟨mated.bounds.1, mated.bounds.2.1⟩) each
  obtain ⟨ps, path, common, length, inside⟩ := valid.good k (Nat.le_refl k)
  have bounds := fun q mem => Between.bounds (common.mates q mem)
  have few : ps.length ≤ us.length + 1 := by
    have := common.length_le_left (j := 0) (i := us.length) (fun q mem => (bounds q mem).1)
      fun q mem => by
        have := (bounds q mem).2.2.1
        omega
    omega
  obtain ⟨written, kept⟩ := follow_spec (p := pref us vs) (us.length + 1) path common few
    (J := borders us.length vs.length (pref us vs) (suff us vs))
  have found : matching us vs = some (follow s.clist (pref us vs) (us.length + 1) (s.klist k)
      (borders us.length vs.length (pref us vs) (suff us vs))) := by
    simp only [matching, classed, Option.bind_some, done, Option.map_some]
  refine ⟨_, ps, found, common,
    ⟨fun i low => ?_, fun i low high => ?_, written, fun i low high out => ?_⟩,
      fun qs common' => ?_⟩
  · rw [kept i fun q mem => ?_, borders, if_pos low]
    have := (bounds q mem).1
    omega
  · have sizes := suff_le us vs
    rw [kept i fun q mem => ?_, borders, if_neg (by omega), if_pos low]
    · omega
    · have := (bounds q mem).2.2.1
      omega
  · rw [kept i out, borders, if_neg (by omega), if_neg (by omega)]
  · rw [length]
    refine ((valid.levels qs.length vs.length).mp ⟨qs, common', rfl, fun q mem => ?_⟩).1
    have := Between.bounds (common'.mates q mem)
    rw [middle_length]
    omega

/-- A common subsequence of the files is no longer than the common beginning, the common end and a
longest common subsequence of the lines in between together. -/
theorem common_le_of_middle (common : Common (Mate us vs) ps) {k : ℕ}
    (longest : ∀ qs, Common (Between us vs) qs → qs.length ≤ k) :
    ps.length ≤ pref us vs + k + suff us vs := by
  have bounds : ∀ q ∈ ps, 1 ≤ q.1 ∧ 1 ≤ q.2 ∧ q.1 ≤ us.length ∧ q.2 ≤ vs.length := fun q mem => by
    obtain ⟨low, low', v, left, right⟩ := common.mates q mem
    obtain ⟨high, -⟩ := List.getElem?_eq_some_iff.mp left
    obtain ⟨high', -⟩ := List.getElem?_eq_some_iff.mp right
    omega
  let early : ℕ × ℕ → Bool := fun q => q.1 ≤ pref us vs ∨ q.2 ≤ pref us vs
  let late : ℕ × ℕ → Bool := fun q => us.length - suff us vs < q.1 ∨ vs.length - suff us vs < q.2
  have first : (ps.filter early).length ≤ pref us vs :=
    (common.sublist List.filter_sublist).length_le_start
      (fun x y mated => ⟨mated.1, mated.2.1⟩) fun q mem => by
        simpa [early] using (List.mem_filter.mp mem).2
  have rest : Common (Mate us vs) (ps.filter fun q => !early q) :=
    common.sublist List.filter_sublist
  have last : ((ps.filter fun q => !early q).filter late).length ≤ suff us vs := by
    refine (rest.sublist List.filter_sublist).length_le_end (i := us.length) (j := vs.length)
      (fun q mem => ?_) fun q mem => ?_
    · have inside := bounds q (List.mem_of_mem_filter (List.mem_of_mem_filter mem))
      exact ⟨inside.2.2.1, inside.2.2.2⟩
    · simpa [late] using (List.mem_filter.mp mem).2
  have shifted : Common (Between us vs)
      (((ps.filter fun q => !early q).filter fun q => !late q).map
        fun q => (q.1 - pref us vs, q.2 - pref us vs)) := by
    have inner := rest.sublist (List.filter_sublist (p := fun q => !late q))
    have inside : ∀ q ∈ (ps.filter fun q => !early q).filter fun q => !late q,
        pref us vs < q.1 ∧ pref us vs < q.2 ∧ q.1 ≤ us.length - suff us vs ∧
          q.2 ≤ vs.length - suff us vs := fun q mem => by
      have notLate := (List.mem_filter.mp mem).2
      have notEarly := (List.mem_filter.mp (List.mem_filter.mp mem).1).2
      simp only [early, late, Bool.not_eq_true', decide_eq_false_iff_not] at notLate notEarly
      omega
    constructor
    · rw [List.pairwise_map]
      refine inner.falling.imp_of_mem fun mem mem' order => ?_
      have := inside _ mem
      have := inside _ mem'
      omega
    · intro p mem
      obtain ⟨q, left, rfl⟩ := List.mem_map.mp mem
      have bound := inside q left
      refine (mate_middle (by simp only; omega)).mpr ?_
      rw [Nat.sub_add_cancel (by omega), Nat.sub_add_cancel (by omega)]
      exact ⟨inner.mates q left, bound.2.2⟩
  have inner := longest _ shifted
  rw [List.length_map] at inner
  have total := List.length_eq_length_filter_add (l := ps) early
  have total' := List.length_eq_length_filter_add (l := ps.filter fun q => !early q) late
  omega

/-- The lines of the first file that have a partner. -/
def paired (J : ℕ → ℕ) (n : ℕ) : List ℕ := (List.range' 1 n).filter fun i => J i ≠ 0

/-- The pairs of the lines in between come to those at the beginning and the end. -/
theorem Unraveled.count (unraveled : Unraveled us vs ps J) (common : Common (Between us vs) ps) :
    pref us vs + ps.length + suff us vs ≤ (paired J us.length).length := by
  have sizes := suff_le us vs
  have bounds := fun q mem => Between.bounds (common.mates q mem)
  let lines := List.range' 1 (pref us vs) ++ ps.map (fun q => q.1 + pref us vs) ++
    List.range' (us.length - suff us vs + 1) (suff us vs)
  have length : lines.length = pref us vs + ps.length + suff us vs := by
    simp only [lines, List.length_append, List.length_range', List.length_map]
  have inside : lines ⊆ paired J us.length := by
    intro i mem
    rw [paired, List.mem_filter, List.mem_range'_1, decide_eq_true_eq]
    rcases List.mem_append.mp mem with mem | mem
    · rcases List.mem_append.mp mem with mem | mem
      · have bound := List.mem_range'_1.mp mem
        rw [unraveled.start i (by omega)]
        omega
      · obtain ⟨q, pair, rfl⟩ := List.mem_map.mp mem
        have bound := bounds q pair
        rw [unraveled.pairs q pair]
        omega
    · have bound := List.mem_range'_1.mp mem
      have here := unraveled.stop i (by omega) (by omega)
      omega
  have distinct : lines.Nodup := by
    refine List.nodup_append.mpr ⟨List.nodup_append.mpr ⟨List.nodup_range', ?_, ?_⟩,
      List.nodup_range', ?_⟩
    · rw [List.Nodup, List.pairwise_map]
      exact common.falling.imp fun order => by omega
    · intro i mem j mem'
      obtain ⟨q, pair, rfl⟩ := List.mem_map.mp mem'
      have := List.mem_range'_1.mp mem
      have := bounds q pair
      omega
    · intro i mem j mem'
      have := List.mem_range'_1.mp mem'
      rcases List.mem_append.mp mem with mem | mem
      · have := List.mem_range'_1.mp mem
        omega
      · obtain ⟨q, pair, rfl⟩ := List.mem_map.mp mem
        have := bounds q pair
        omega
  rw [← length]
  exact (distinct.subperm inside).length_le

/-- Where a line and its partner stand. -/
theorem Unraveled.cases (unraveled : Unraveled us vs ps J) (low : 1 ≤ i) (high : i ≤ us.length)
    (some : J i ≠ 0) : i ≤ pref us vs ∧ J i = i ∨
      (∃ q ∈ ps, i = q.1 + pref us vs ∧ J i = q.2 + pref us vs) ∨
      us.length - suff us vs < i ∧ J i + us.length = i + vs.length := by
  by_cases early : i ≤ pref us vs
  · exact .inl ⟨early, unraveled.start i early⟩
  · by_cases late : us.length - suff us vs < i
    · exact .inr (.inr ⟨late, unraveled.stop i late high⟩)
    · by_cases mem : ∃ q ∈ ps, i = q.1 + pref us vs
      · obtain ⟨q, mem, rfl⟩ := mem
        exact .inr (.inl ⟨q, mem, rfl, unraveled.pairs q mem⟩)
      · exact absurd (unraveled.unpaired i (by omega) (by omega)
          fun q inside here => mem ⟨q, inside, here⟩) some

/-- Lines of the common beginning are equal. -/
theorem mate_pref (low : 1 ≤ i) (high : i ≤ pref us vs) : Mate us vs i i := by
  have bounds := pref_le us vs
  obtain ⟨v, here⟩ : ∃ v, us[i - 1]? = some v := ⟨_, List.getElem?_eq_getElem (by omega)⟩
  have same := congrArg (fun l : List ℤ => l[i - 1]?) (take_common us vs)
  simp only [List.getElem?_take] at same
  rw [if_pos (show i - 1 < common us vs from by rw [pref] at high; omega),
    if_pos (show i - 1 < common us vs from by rw [pref] at high; omega)] at same
  exact ⟨low, low, v, here, same ▸ here⟩

/-- A line counted from the end. -/
theorem getElem?_fromEnd (us : List ℤ) {p r : ℕ} (inside : p + r < us.length) :
    (us.drop p).reverse[r]? = us[us.length - r - 1]? := by
  rw [List.getElem?_reverse (by rw [List.length_drop]; omega), List.getElem?_drop, List.length_drop]
  congr 1
  omega

/-- Lines of the common end are equal. -/
theorem mate_suff (low : us.length - suff us vs < i) (high : i ≤ us.length)
    (here : j + us.length = i + vs.length) : Mate us vs i j := by
  have sizes := suff_le us vs
  obtain ⟨v, line⟩ : ∃ v, us[i - 1]? = some v := ⟨_, List.getElem?_eq_getElem (by omega)⟩
  have same := congrArg (fun l : List ℤ => l[us.length - i]?)
    (take_common (us.drop (pref us vs)).reverse (vs.drop (pref us vs)).reverse)
  have near : us.length - i <
      common (us.drop (pref us vs)).reverse (vs.drop (pref us vs)).reverse := by
    rw [suff] at low sizes
    omega
  simp only [List.getElem?_take, if_pos near] at same
  rw [getElem?_fromEnd us (by omega), getElem?_fromEnd vs (by omega),
    show us.length - (us.length - i) - 1 = i - 1 by omega,
    show vs.length - (us.length - i) - 1 = j - 1 by omega] at same
  exact ⟨by omega, by omega, v, line, same ▸ line⟩

/-- Where two paired lines stand, their partners stand in the same order. -/
theorem Unraveled.rising (unraveled : Unraveled us vs ps J) (common : Common (Between us vs) ps)
    (low : 1 ≤ i) (less : i < j) (high : j ≤ us.length) (some : J i ≠ 0) (some' : J j ≠ 0) :
    J i < J j := by
  have sizes := suff_le us vs
  have bounds := fun q mem => Between.bounds (common.mates q mem)
  rcases unraveled.cases low (Nat.le_trans (Nat.le_of_lt less) high) some with
    ⟨early, here⟩ | ⟨q, mem, here, there⟩ | ⟨late, here⟩
  · rcases unraveled.cases (Nat.le_trans low (Nat.le_of_lt less)) high some' with
      ⟨early', here'⟩ | ⟨q', mem', here', there'⟩ | ⟨late', here'⟩
    · omega
    · have := bounds q' mem'
      omega
    · omega
  · have bound := bounds q mem
    rcases unraveled.cases (Nat.le_trans low (Nat.le_of_lt less)) high some' with
      ⟨early', here'⟩ | ⟨q', mem', here', there'⟩ | ⟨late', here'⟩
    · omega
    · have rising := common.rising mem mem' (by omega)
      omega
    · omega
  · rcases unraveled.cases (Nat.le_trans low (Nat.le_of_lt less)) high some' with
      ⟨early', here'⟩ | ⟨q', mem', here', there'⟩ | ⟨late', here'⟩
    · omega
    · have := bounds q' mem'
      omega
    · omega

/-- The partner of a line is a line of the second file. -/
theorem Unraveled.le_length (unraveled : Unraveled us vs ps J) (common : Common (Between us vs) ps)
    (low : 1 ≤ i) (high : i ≤ us.length) : J i ≤ vs.length := by
  have sizes := suff_le us vs
  rcases Nat.eq_zero_or_pos (J i) with none | some
  · omega
  · rcases unraveled.cases low high (by omega) with
      ⟨early, here⟩ | ⟨q, mem, here, there⟩ | ⟨late, here⟩
    · omega
    · have := Between.bounds (common.mates q mem)
      omega
    · omega

/-- For every two sequences of values, those of the second not 0, `J` is an increasing map that
pairs equal values, contains the common beginning and every common end that lies behind all common
beginnings, and pairs as many lines as any common subsequence. -/
theorem longest_of_values (nonzero : ∀ v ∈ vs, v ≠ 0) :
    ∃ J, matching us vs = some J ∧
      (∀ i, 1 ≤ i → i ≤ us.length → J i ≠ 0 → Mate us vs i (J i)) ∧
      (∀ i j, 1 ≤ i → i < j → j ≤ us.length → J i ≠ 0 → J j ≠ 0 → J i < J j) ∧
      (∀ n ≤ us.length, n ≤ vs.length → us.take n = vs.take n → ∀ i ≤ n, J i = i) ∧
      (∀ n, (∀ m ≤ us.length, m ≤ vs.length → us.take m = vs.take m →
          m + n ≤ us.length ∧ m + n ≤ vs.length) →
        us.drop (us.length - n) = vs.drop (vs.length - n) →
        ∀ i, us.length - n < i → i ≤ us.length → J i + us.length = i + vs.length) ∧
      ∀ ps, Common (Mate us vs) ps → ps.length ≤ (paired J us.length).length := by
  obtain ⟨J, ps, found, common, unraveled, longest⟩ := matching_spec _ nonzero
  have bounds := fun q mem => Between.bounds (common.mates q mem)
  refine ⟨J, found, fun i low high some => ?_, fun i j low less high some some' => ?_,
    fun n left right same i low => ?_, fun n behind same i low high => ?_, fun qs common' => ?_⟩
  · rcases unraveled.cases low high some with ⟨early, here⟩ | ⟨q, mem, here, there⟩ | ⟨late, here⟩
    · rw [here]
      exact mate_pref low early
    · rw [there, here]
      exact ((mate_middle ⟨(bounds q mem).1, (bounds q mem).2.1⟩).mp (common.mates q mem)).1
    · exact mate_suff late high here
  · exact unraveled.rising common low less high some some'
  · exact unraveled.start i (Nat.le_trans low (le_common left right same))
  · have sizes := pref_le us vs
    obtain ⟨left, right⟩ := behind (pref us vs) sizes.1 sizes.2 (take_common us vs)
    have counted := le_suff left right same
    exact unraveled.stop i (by omega) high
  · exact Nat.le_trans (common_le_of_middle common' longest) (unraveled.count common)

/-- Three lines against four. -/
theorem longest_three_lines :
    ∃ J, matching [5, 7, 5] [7, 5, 9, 5] = some J ∧
      (∀ i, 1 ≤ i → i ≤ 3 → J i ≠ 0 → Mate [5, 7, 5] [7, 5, 9, 5] i (J i)) ∧
      ∀ ps, Common (Mate [5, 7, 5] [7, 5, 9, 5]) ps → ps.length ≤ (paired J 3).length := by
  obtain ⟨J, found, mates, -, -, -, longest⟩ :=
    longest_of_values (by decide : ∀ v ∈ ([7, 5, 9, 5] : List ℤ), v ≠ 0)
  exact ⟨J, found, mates, longest⟩

end Diff

end UnixV7
