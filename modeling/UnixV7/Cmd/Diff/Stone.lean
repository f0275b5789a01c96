import Mathlib.Data.Int.Notation
import Mathlib.Logic.Function.Basic
import UnixV7.Library.CommonSub

/-!
# Stone's algorithm

`stone`, `newcand` and `search` of `diff.c`. For each line of the first file the lines of its class
in the second file are tried in increasing order. `klist` holds for each length the candidate which
ends first in the second file; the candidate that a line displaces is remembered in `oldc`, for the
line itself must not precede itself.
-/

namespace UnixV7

open Function

namespace Diff

/-- `struct cand` -/
structure Cand where
  x : ℕ
  y : ℕ
  pred : ℕ

/-- The candidates and, for each length, the place of one. -/
structure Store where
  clist : ℕ → Cand
  clen : ℕ
  klist : ℕ → ℕ

/-- The state of `stone` while it tries the lines of a class. -/
structure Turn where
  s : Store
  k : ℕ
  oldl : ℕ
  oldc : ℕ

namespace Store

/-- The line at which the candidate for length `l` ends. -/
def y (s : Store) (l : ℕ) : ℕ := (s.clist (s.klist l)).y

/-- `newcand`, and its place in `klist`. -/
def newcand (s : Store) (l x y pred : ℕ) : Store where
  clist := update s.clist s.clen ⟨x, y, pred⟩
  clen := s.clen + 1
  klist := update s.klist l s.clen

end Store

/-- The loop of `search`. -/
def bisect (end_ : ℕ → ℕ) (y : ℕ) : ℕ → ℕ → ℕ → ℕ
  | 0, i, j => (i + j) / 2 + 1
  | fuel + 1, i, j =>
      let l := (i + j) / 2
      if l ≤ i then l + 1
      else if y < end_ l then bisect end_ y fuel i l
      else if end_ l < y then bisect end_ y fuel l j
      else l

/-- `search` -/
def search (s : Store) (k y : ℕ) : ℕ :=
  if s.y k < y then k + 1 else bisect s.y y (k + 1) 0 (k + 1)

/-- Line `i` of the first file is tried with line `y` of the second; the answer is whether the loop
is left. -/
def attempt (i y : ℕ) (t : Turn) : Turn × Bool :=
  if y ≤ (t.s.clist t.oldc).y then
    (t, false)
  else
    let l := search t.s t.k y
    let oldc := if l ≠ t.oldl + 1 then t.s.klist (l - 1) else t.oldc
    if l ≤ t.k then
      if t.s.y l ≤ y then
        ({ t with oldc := oldc }, false)
      else
        (⟨t.s.newcand l i y oldc, t.k, l, t.s.klist l⟩, false)
    else
      (⟨t.s.newcand l i y oldc, t.k + 1, t.oldl, oldc⟩, true)

/-- Line `i` is tried with `y` and the lines behind it in `member`, as long as these are positive;
`none` is a class that does not end. -/
def tryClass (i : ℕ) (t : Turn) (y : ℕ) : List ℤ → Option Turn
  | [] => if (attempt i y t).2 then some (attempt i y t).1 else none
  | b :: rest =>
      if (attempt i y t).2 then some (attempt i y t).1
      else if 0 < b then tryClass i (attempt i y t).1 b.toNat rest
      else some (attempt i y t).1

/-- The loop of `stone` over `n` lines from line `i` on; `a` is `class` and `b` is `member`, which
begins at 1. -/
def stoneFrom (a : ℕ → ℤ) (b : List ℤ) : ℕ → ℕ → Store × ℕ → Option (Store × ℕ)
  | 0, _, sk => some sk
  | n + 1, i, (s, k) =>
      if a i = 0 then
        stoneFrom a b n (i + 1) (s, k)
      else
        match b.drop ((a i).toNat - 1) with
        | [] => none
        | first :: rest =>
            (tryClass i ⟨s, k, 0, s.klist 0⟩ (-first).toNat rest).bind fun t =>
              stoneFrom a b n (i + 1) (t.s, t.k)

/-- One candidate, for the length 0. -/
def Store.empty : Store := ⟨fun _ => ⟨0, 0, 0⟩, 1, fun _ => 0⟩

/-- `stone` -/
def stone (a : ℕ → ℤ) (n : ℕ) (b : List ℤ) : Option (Store × ℕ) :=
  stoneFrom a b n 1 (Store.empty, 0)

/-! ## Searching -/

variable {mate : ℕ → ℕ → Prop} {i j k l x y last : ℕ} {s s₀ : Store} {t : Turn} {end_ : ℕ → ℕ}
  {ps : List (ℕ × ℕ)} {c c' n n' : ℕ} {clist clist' : ℕ → Cand}

/-- The search ends at the first candidate that is not before `y`. -/
theorem bisect_spec (mono : ∀ j l, j < l → l ≤ k → end_ j < end_ l) (fuel : ℕ) (low : end_ i < y)
    (high : j ≤ k → y < end_ j) (less : i < j) (bound : j ≤ k + 1) (enough : j - i ≤ fuel) :
    1 ≤ bisect end_ y fuel i j ∧ bisect end_ y fuel i j ≤ k + 1 ∧
      end_ (bisect end_ y fuel i j - 1) < y ∧
      (bisect end_ y fuel i j ≤ k → y ≤ end_ (bisect end_ y fuel i j)) := by
  induction fuel generalizing i j with
  | zero => omega
  | succ fuel ih =>
      rw [bisect]
      split_ifs with last before behind
      · have here : (i + j) / 2 + 1 = i + 1 := by omega
        obtain rfl : j = i + 1 := by omega
        rw [here, Nat.add_sub_cancel]
        exact ⟨by omega, bound, low, fun inside => Nat.le_of_lt (high inside)⟩
      · exact ih low (fun _ => before) (by omega) (by omega) (by omega)
      · exact ih behind high (by omega) bound (by omega)
      · have inside : (i + j) / 2 ≤ k := by omega
        have step := mono ((i + j) / 2 - 1) ((i + j) / 2) (by omega) inside
        exact ⟨by omega, by omega, by omega, fun _ => by omega⟩

theorem search_spec (mono : ∀ j l, j < l → l ≤ k → s.y j < s.y l) (low : s.y 0 < y) :
    1 ≤ search s k y ∧ search s k y ≤ k + 1 ∧ s.y (search s k y - 1) < y ∧
      (search s k y ≤ k → y ≤ s.y (search s k y)) := by
  rw [search]
  split_ifs with behind
  · exact ⟨by omega, Nat.le_refl _, behind, fun inside => by omega⟩
  · exact bisect_spec mono (k + 1) low (fun inside => by omega) (by omega) (Nat.le_refl _)
      (by omega)

/-! ## Candidates -/

/-- The pairs that a candidate stands for: those that `unravel` finds along `pred`. -/
inductive Path (clist : ℕ → Cand) (n : ℕ) : ℕ → List (ℕ × ℕ) → Prop
  | nil {c : ℕ} : c < n → (clist c).y = 0 → Path clist n c []
  | cons {c : ℕ} {ps : List (ℕ × ℕ)} : c < n → (clist c).y ≠ 0 → Path clist n (clist c).pred ps →
      Path clist n c (((clist c).x, (clist c).y) :: ps)

/-- More candidates do not change the old ones. -/
theorem Path.mono (path : Path clist n c ps) (same : ∀ c < n, clist' c = clist c) (more : n ≤ n') :
    Path clist' n' c ps := by
  induction path with
  | nil here zero => exact .nil (Nat.lt_of_lt_of_le here more) (by rw [same _ here, zero])
  | @cons c ps here nonzero path ih =>
      rw [← same c here] at ih nonzero ⊢
      exact .cons (Nat.lt_of_lt_of_le here more) nonzero ih

theorem Path.lt (path : Path clist n c ps) : c < n := by
  cases path with
  | nil here => exact here
  | cons here => exact here

/-- A candidate stands for a common subsequence of length `l` of the first `i` lines and the lines
up to its own. -/
def Good (mate : ℕ → ℕ → Prop) (clist : ℕ → Cand) (n i l c : ℕ) : Prop :=
  ∃ ps, Path clist n c ps ∧ Common mate ps ∧ ps.length = l ∧
    ∀ p ∈ ps, p.1 ≤ i ∧ p.2 ≤ (clist c).y

theorem Good.lt (good : Good mate clist n i l c) : c < n := by
  obtain ⟨ps, path, -⟩ := good
  exact path.lt

theorem Good.mono (good : Good mate clist n i l c) (same : ∀ c < n, clist' c = clist c)
    (more : n ≤ n') (places : i ≤ j) : Good mate clist' n' j l c := by
  have here := good.lt
  obtain ⟨ps, path, common, length, inside⟩ := good
  refine ⟨ps, path.mono same more, common, length, fun p mem => ?_⟩
  rw [same c here]
  exact ⟨Nat.le_trans (inside p mem).1 places, (inside p mem).2⟩

/-- A line of a class extends a candidate that ends before it. -/
theorem Good.extend (good : Good mate clist n i l c) (mated : mate (i + 1) y)
    (behind : (clist c).y < y) (here : clist' n = ⟨i + 1, y, c⟩)
    (same : ∀ c < n, clist' c = clist c) : Good mate clist' (n + 1) (i + 1) (l + 1) n := by
  obtain ⟨ps, path, common, length, inside⟩ := good
  have old := path.mono same (Nat.le_succ n)
  have new : Path clist' (n + 1) n ((i + 1, y) :: ps) := by
    have whole : ((clist' n).x, (clist' n).y) = (i + 1, y) := by rw [here]
    rw [← whole]
    refine .cons (Nat.lt_succ_self n) ?_ (by rwa [here])
    rw [here]
    exact Nat.ne_of_gt (Nat.lt_of_le_of_lt (Nat.zero_le _) behind)
  have before : ∀ q ∈ ps, q.1 < i + 1 ∧ q.2 < y := fun q mem => by
    have := inside q mem
    omega
  refine ⟨_, new, Common.cons_iff.mpr ⟨common, mated, before⟩, by rw [List.length_cons, length], ?_⟩
  rw [here]
  refine List.forall_mem_cons.mpr ⟨⟨Nat.le_refl _, Nat.le_refl _⟩, fun q mem => ?_⟩
  have := before q mem
  exact ⟨by omega, by simp only; omega⟩

/-- After `i` lines the candidates of `klist` end as early as possible, and there is none for a
length that cannot be reached. -/
structure Valid (mate : ℕ → ℕ → Prop) (i : ℕ) (s : Store) (k : ℕ) : Prop where
  good : ∀ l ≤ k, Good mate s.clist s.clen i l (s.klist l)
  levels : Thresholds mate i k s.y

/-! ## One line -/

/-- Of the lines of the class of line `i + 1` those up to `last` have been tried. -/
structure Tried (mate : ℕ → ℕ → Prop) (i : ℕ) (s₀ : Store) (k : ℕ) (last : ℕ) (t : Turn) :
    Prop where
  length : t.k = k
  oldl : t.oldl ≤ k
  grown : s₀.clen ≤ t.s.clen
  clist : ∀ c < s₀.clen, t.s.clist c = s₀.clist c
  good : ∀ l ≤ k, Good mate t.s.clist t.s.clen (i + 1) l (t.s.klist l)
  /-- Lengths above `oldl` have kept their candidates. -/
  kept : ∀ l ≤ k, t.oldl < l → t.s.klist l = s₀.klist l
  early : t.s.y t.oldl ≤ last
  mono : ∀ j l, j < l → l ≤ k → t.s.y j < t.s.y l
  zero : t.s.y 0 = 0
  le : ∀ l ≤ k, t.s.y l ≤ s₀.y l
  source : ∀ l, l + 1 ≤ k → t.s.y (l + 1) = s₀.y (l + 1) ∨
    mate (i + 1) (t.s.y (l + 1)) ∧ s₀.y l < t.s.y (l + 1)
  /-- A line tried is no better than the candidates. -/
  done : ∀ z ≤ last, mate (i + 1) z → ∀ l ≤ k, s₀.y l < z → l + 1 ≤ k ∧ t.s.y (l + 1) ≤ z
  /-- `oldc` is the candidate displaced last, or the next line goes to a length further up. -/
  oldc : t.oldc = s₀.klist t.oldl ∨
    (t.s.clist t.oldc).y < last ∧ t.oldl + 1 ≤ k ∧ t.s.y (t.oldl + 1) ≤ last

theorem Valid.good_old (valid : Valid mate i s₀ k) (tried : Tried mate i s₀ k last t)
    (low : l ≤ k) :
    Good mate t.s.clist t.s.clen i l (s₀.klist l) ∧ (t.s.clist (s₀.klist l)).y = s₀.y l := by
  have old := valid.good l low
  exact ⟨old.mono tried.clist tried.grown (Nat.le_refl i), by rw [tried.clist _ old.lt, Store.y]⟩

/-- At the beginning of a line. -/
theorem Valid.tried (start : ∀ x y, mate x y → 1 ≤ y) (valid : Valid mate i s k) :
    Tried mate i s k 0 ⟨s, k, 0, s.klist 0⟩ where
  length := rfl
  oldl := Nat.zero_le _
  grown := Nat.le_refl _
  clist := fun _ _ => rfl
  good := fun l low => (valid.good l low).mono (fun _ _ => rfl) (Nat.le_refl _) (Nat.le_succ i)
  kept := fun _ _ _ => rfl
  early := Nat.le_of_eq valid.levels.zero
  mono := fun _ _ less low => valid.levels.strictMono start less low
  zero := valid.levels.zero
  le := fun _ _ => Nat.le_refl _
  source := fun _ _ => .inl rfl
  done := fun z none mated => by
    have := start _ _ mated
    omega
  oldc := .inl rfl

/-- The length to which a line belongs, and the candidate before it. -/
theorem Tried.place (tried : Tried mate i s₀ k last t) (valid : Valid mate i s₀ k) (next : last < y)
    (behind : (t.s.clist t.oldc).y < y) :
    t.oldl < search t.s t.k y ∧ search t.s t.k y ≤ k + 1 ∧
      (if search t.s t.k y ≠ t.oldl + 1 then t.s.klist (search t.s t.k y - 1) else t.oldc) =
        s₀.klist (search t.s t.k y - 1) ∧ s₀.y (search t.s t.k y - 1) < y ∧
      (search t.s t.k y ≤ k → y ≤ t.s.y (search t.s t.k y)) := by
  have low : t.s.y 0 < y := by
    rw [tried.zero]
    omega
  obtain ⟨first, bound, before, after⟩ := search_spec tried.mono low
  rw [tried.length]
  generalize search t.s k y = l at first bound before after ⊢
  have up : t.oldl < l := by
    by_contra down
    rcases Nat.lt_or_eq_of_le (Nat.not_lt.mp down) with less | same
    · have := tried.mono l t.oldl less tried.oldl
      have := tried.early
      have := after (Nat.le_trans (Nat.le_of_lt less) tried.oldl)
      omega
    · have := tried.early
      have := after (same ▸ tried.oldl)
      rw [same] at this
      omega
  refine ⟨up, bound, ?_, ?_, after⟩
  · split_ifs with other
    · exact tried.kept _ (by omega) (by omega)
    · rcases tried.oldc with same | ⟨-, inside, near⟩
      · rw [same]
        congr 1
        omega
      · have := after (by omega)
        have here : l = t.oldl + 1 := by omega
        rw [here] at this
        omega
  · by_cases other : l = t.oldl + 1
    · rcases tried.oldc with same | ⟨-, inside, near⟩
      · have here : l - 1 = t.oldl := by omega
        rw [same, (valid.good_old tried tried.oldl).2] at behind
        rwa [here]
      · have := after (by omega)
        rw [other] at this
        omega
    · have same := tried.kept (l - 1) (by omega) (by omega)
      have kept : t.s.y (l - 1) = s₀.y (l - 1) := by
        rw [Store.y, same, (valid.good_old tried (by omega)).2]
      rwa [← kept]

namespace Store

variable {pred : ℕ}

theorem newcand_clist (here : c < s.clen) : (s.newcand l x y pred).clist c = s.clist c :=
  update_of_ne (Nat.ne_of_lt here) _ _

theorem newcand_y_self : (s.newcand l x y pred).y l = y := by
  simp [newcand, Store.y]

theorem newcand_y_of_ne (other : j ≠ l) (old : s.klist j < s.clen) :
    (s.newcand l x y pred).y j = s.y j := by
  have same : (s.newcand l x y pred).klist j = s.klist j := update_of_ne other _ _
  rw [Store.y, same, newcand_clist old, Store.y]

end Store

/-- The candidates after a new one has been put in for the length `l + 1`. -/
theorem Tried.good_newcand (tried : Tried mate i s₀ k last t) (valid : Valid mate i s₀ k)
    (low : l ≤ k) (mated : mate (i + 1) y) (behind : s₀.y l < y) {m : ℕ}
    (length : m ≤ k ∨ m = l + 1) :
    Good mate (t.s.newcand (l + 1) (i + 1) y (s₀.klist l)).clist (t.s.clen + 1) (i + 1) m
      ((t.s.newcand (l + 1) (i + 1) y (s₀.klist l)).klist m) := by
  by_cases new : m = l + 1
  · subst new
    obtain ⟨old, here⟩ := valid.good_old tried low
    have new : (t.s.newcand (l + 1) (i + 1) y (s₀.klist l)).klist (l + 1) = t.s.clen :=
      update_self _ _ _
    rw [new]
    exact old.extend mated (here ▸ behind) (update_self _ _ _) fun c inside =>
      Store.newcand_clist inside
  · have old := tried.good m (length.resolve_right new)
    have same : (t.s.newcand (l + 1) (i + 1) y (s₀.klist l)).klist m = t.s.klist m :=
      update_of_ne new _ _
    rw [same]
    exact old.mono (fun c inside => Store.newcand_clist inside) (Nat.le_succ _) (Nat.le_refl _)

/-- The new candidate ends before the one it displaces. -/
theorem Tried.displace (tried : Tried mate i s₀ k last t) (valid : Valid mate i s₀ k)
    (start : ∀ x y, mate x y → 1 ≤ y) (next : last < y) (mated : mate (i + 1) y)
    (between : ∀ z, mate (i + 1) z → z ≤ y → z ≤ last ∨ z = y) (up : t.oldl < l + 1)
    (low : l + 1 ≤ k) (behind : s₀.y l < y) (before : y < t.s.y (l + 1)) :
    Tried mate i s₀ k y
      ⟨t.s.newcand (l + 1) (i + 1) y (s₀.klist l), k, l + 1, t.s.klist (l + 1)⟩ := by
  have same : t.s.klist (l + 1) = s₀.klist (l + 1) := tried.kept _ low up
  have here : (t.s.newcand (l + 1) (i + 1) y (s₀.klist l)).y (l + 1) = y := Store.newcand_y_self
  have other : ∀ m ≤ k, m ≠ l + 1 →
      (t.s.newcand (l + 1) (i + 1) y (s₀.klist l)).y m = t.s.y m := fun m inside ne =>
    Store.newcand_y_of_ne ne (tried.good m inside).lt
  have old : t.s.y (l + 1) = s₀.y (l + 1) := by
    rw [Store.y, same, (valid.good_old tried low).2]
  have below : t.s.y l < y := Nat.lt_of_le_of_lt (tried.le l (by omega)) behind
  exact {
    length := rfl
    oldl := low
    grown := Nat.le_succ_of_le tried.grown
    clist := fun c inside => (Store.newcand_clist (Nat.lt_of_lt_of_le inside tried.grown)).trans
      (tried.clist c inside)
    good := fun m inside => tried.good_newcand valid (by omega) mated behind (.inl inside)
    kept := fun m inside above => (update_of_ne (Nat.ne_of_gt above) _ _).trans
      (tried.kept m inside (Nat.lt_trans up above))
    early := Nat.le_of_eq here
    mono := by
      intro j m less inside
      by_cases first : m = l + 1
      · subst first
        rw [here, other j (by omega) (by omega)]
        rcases Nat.lt_or_eq_of_le (Nat.le_of_lt_succ less) with lower | rfl
        · exact Nat.lt_trans (tried.mono j l lower (by omega)) below
        · exact below
      · rw [other m inside first]
        by_cases second : j = l + 1
        · subst second
          rw [here]
          exact Nat.lt_trans before (tried.mono _ _ less inside)
        · rw [other j (by omega) second]
          exact tried.mono j m less inside
    zero := (other 0 (Nat.zero_le _) (by omega)).trans tried.zero
    le := by
      intro m inside
      by_cases first : m = l + 1
      · subst first
        rw [here, ← old]
        exact Nat.le_of_lt before
      · rw [other m inside first]
        exact tried.le m inside
    source := by
      intro m inside
      by_cases first : m = l
      · subst first
        rw [here]
        exact .inr ⟨mated, behind⟩
      · rw [other (m + 1) inside (by omega)]
        exact tried.source m inside
    done := by
      intro z near mated' m inside less
      rcases between z mated' near with tried' | rfl
      · obtain ⟨fits, bound⟩ := tried.done z tried' mated' m inside less
        refine ⟨fits, ?_⟩
        by_cases first : m + 1 = l + 1
        · rw [first] at bound
          omega
        · rwa [other (m + 1) fits first]
      · have lower : m < l + 1 := by
          by_contra above
          rcases Nat.lt_or_eq_of_le (Nat.not_lt.mp above) with more | rfl
          · have := valid.levels.strictMono start more inside
            omega
          · omega
        refine ⟨by omega, ?_⟩
        rcases Nat.lt_or_eq_of_le (Nat.le_of_lt_succ lower) with less' | rfl
        · rw [other (m + 1) (by omega) (by omega)]
          rcases Nat.lt_or_eq_of_le (show m + 1 ≤ l by omega) with much | rfl
          · exact Nat.le_of_lt (Nat.lt_trans (tried.mono _ l much (by omega)) below)
          · exact Nat.le_of_lt below
        · exact Nat.le_of_eq here
    oldc := .inl same }

/-- A line behind all candidates makes a longer subsequence, and the line is done. -/
theorem Tried.lengthen (tried : Tried mate i s₀ k last t) (valid : Valid mate i s₀ k)
    (start : ∀ x y, mate x y → 1 ≤ y) (mated : mate (i + 1) y)
    (between : ∀ z, mate (i + 1) z → z ≤ y → z ≤ last ∨ z = y) (behind : s₀.y k < y) :
    Valid mate (i + 1) (t.s.newcand (k + 1) (i + 1) y (s₀.klist k)) (k + 1) := by
  have here : (t.s.newcand (k + 1) (i + 1) y (s₀.klist k)).y (k + 1) = y := Store.newcand_y_self
  have other : ∀ m ≤ k, (t.s.newcand (k + 1) (i + 1) y (s₀.klist k)).y m = t.s.y m :=
    fun m inside => Store.newcand_y_of_ne (by omega) (tried.good m inside).lt
  have lower : ∀ m ≤ k, t.s.y m < y := fun m inside => by
    rcases Nat.lt_or_eq_of_le inside with less | rfl
    · exact Nat.lt_trans (tried.mono m k less (Nat.le_refl k))
        (Nat.lt_of_le_of_lt (tried.le k (Nat.le_refl k)) behind)
    · exact Nat.lt_of_le_of_lt (tried.le m inside) behind
  refine ⟨fun m inside => ?_, valid.levels.succ start ⟨Nat.le_succ k, Nat.le_refl _⟩ ?_ ?_ ?_ ?_⟩
  · exact tried.good_newcand valid (Nat.le_refl k) mated behind (Nat.le_succ_iff.mp inside)
  · rw [other 0 (Nat.zero_le k), tried.zero]
  · intro m inside
    rw [other m inside]
    exact tried.le m inside
  · intro z mated' m inside less
    refine ⟨by omega, ?_⟩
    by_cases new : z ≤ y
    · rcases between z mated' new with tried' | rfl
      · obtain ⟨fits, bound⟩ := tried.done z tried' mated' m inside less
        rwa [other (m + 1) fits]
      · rcases Nat.lt_or_eq_of_le inside with less' | rfl
        · rw [other (m + 1) less']
          exact Nat.le_of_lt (lower (m + 1) less')
        · exact Nat.le_of_eq here
    · rcases Nat.lt_or_eq_of_le inside with less' | rfl
      · rw [other (m + 1) less']
        have := lower (m + 1) less'
        omega
      · rw [here]
        omega
  · intro m inside
    rcases Nat.lt_or_eq_of_le (Nat.le_of_lt_succ inside) with less | rfl
    · rw [other (m + 1) less]
      rcases tried.source m less with same | new
      · exact .inl ⟨less, same⟩
      · exact .inr ⟨Nat.le_of_lt less, new⟩
    · rw [here]
      exact .inr ⟨Nat.le_refl m, mated, behind⟩

/-- A line that is where a candidate ends, or no further than the one displaced last, changes no
candidate. -/
theorem Tried.keep (oldc : ℕ) (tried : Tried mate i s₀ k last t) (next : last < y)
    (between : ∀ z, mate (i + 1) z → z ≤ y → z ≤ last ∨ z = y)
    (done : ∀ m ≤ k, s₀.y m < y → m + 1 ≤ k ∧ t.s.y (m + 1) ≤ y)
    (displaced : oldc = s₀.klist t.oldl ∨
      (t.s.clist oldc).y < y ∧ t.oldl + 1 ≤ k ∧ t.s.y (t.oldl + 1) ≤ y) :
    Tried mate i s₀ k y { t with oldc := oldc } where
  length := tried.length
  oldl := tried.oldl
  grown := tried.grown
  clist := tried.clist
  good := tried.good
  kept := tried.kept
  early := Nat.le_trans tried.early (Nat.le_of_lt next)
  mono := tried.mono
  zero := tried.zero
  le := tried.le
  source := tried.source
  done := fun z near mated m inside less => by
    rcases between z mated near with tried' | rfl
    · exact tried.done z tried' mated m inside less
    · exact done m inside less
  oldc := displaced

/-- One line of the class. -/
theorem Tried.attempt (tried : Tried mate i s₀ k last t) (valid : Valid mate i s₀ k)
    (start : ∀ x y, mate x y → 1 ≤ y) (next : last < y) (mated : mate (i + 1) y)
    (between : ∀ z, mate (i + 1) z → z ≤ y → z ≤ last ∨ z = y) :
    (Diff.attempt (i + 1) y t).2 = false ∧ Tried mate i s₀ k y (Diff.attempt (i + 1) y t).1 ∨
      (Diff.attempt (i + 1) y t).2 = true ∧
        Valid mate (i + 1) (Diff.attempt (i + 1) y t).1.s (Diff.attempt (i + 1) y t).1.k := by
  have strict : ∀ j l, j < l → l ≤ k → s₀.y j < s₀.y l := fun _ _ => valid.levels.strictMono start
  rw [Diff.attempt]
  by_cases skip : y ≤ (t.s.clist t.oldc).y
  · rw [if_pos skip]
    left
    have same : t.oldc = s₀.klist t.oldl := by
      rcases tried.oldc with same | ⟨less, -⟩
      · exact same
      · omega
    rw [same, (valid.good_old tried tried.oldl).2] at skip
    refine ⟨rfl, tried.keep t.oldc next between (fun m inside less => ?_) (.inl same)⟩
    have lower : m < t.oldl := by
      by_contra above
      rcases Nat.lt_or_eq_of_le (Nat.not_lt.mp above) with more | rfl
      · have := strict _ _ more inside
        omega
      · omega
    refine ⟨Nat.le_trans lower tried.oldl, ?_⟩
    have early := tried.early
    rcases Nat.lt_or_eq_of_le (show m + 1 ≤ t.oldl from lower) with more | same
    · have := tried.mono _ _ more tried.oldl
      omega
    · rw [same]
      omega
  · rw [if_neg skip]
    obtain ⟨up, bound, before, behind, after⟩ := tried.place valid next (Nat.not_le.mp skip)
    rw [tried.length] at up bound before behind after
    simp only [tried.length, before]
    obtain ⟨l, here⟩ : ∃ l, search t.s k y = l + 1 := ⟨search t.s k y - 1, by omega⟩
    rw [here] at up bound behind after ⊢
    rw [Nat.add_sub_cancel] at behind ⊢
    by_cases low : l + 1 ≤ k
    · rw [if_pos low]
      left
      have near := after low
      by_cases ends : t.s.y (l + 1) ≤ y
      · rw [if_pos ends]
        have same : t.s.y (l + 1) = s₀.y (l + 1) := by
          rw [Store.y, tried.kept _ low up, (valid.good_old tried low).2]
        have upTo : ∀ m ≤ l, t.s.y (m + 1) ≤ y := fun m inside => by
          rcases Nat.lt_or_eq_of_le inside with less | rfl
          · exact Nat.le_trans (Nat.le_of_lt (tried.mono (m + 1) (l + 1) (by omega) low)) ends
          · exact ends
        have done : ∀ m ≤ k, s₀.y m < y → m + 1 ≤ k ∧ t.s.y (m + 1) ≤ y := by
          intro m inside less
          have lower : m < l + 1 := by
            by_contra above
            rcases Nat.lt_or_eq_of_le (Nat.not_lt.mp above) with more | rfl
            · have := strict _ _ more inside
              omega
            · omega
          exact ⟨by omega, upTo m (by omega)⟩
        have displaced : s₀.klist l = s₀.klist t.oldl ∨
            (t.s.clist (s₀.klist l)).y < y ∧ t.oldl + 1 ≤ k ∧ t.s.y (t.oldl + 1) ≤ y := by
          by_cases first : l = t.oldl
          · exact .inl (by rw [first])
          · rw [(valid.good_old tried (by omega)).2]
            exact .inr ⟨behind, by omega, upTo _ (by omega)⟩
        have kept := tried.keep _ next between done displaced
        rw [tried.length] at kept
        exact ⟨rfl, kept⟩
      · rw [if_neg ends]
        exact ⟨rfl, tried.displace valid start next mated between up low behind (by omega)⟩
    · rw [if_neg low]
      right
      obtain rfl : l = k := by omega
      exact ⟨rfl, tried.lengthen valid start mated between behind⟩

/-! ## All lines -/

/-- The end of a line that has made nothing longer. -/
theorem Tried.valid (tried : Tried mate i s₀ k last t) (valid : Valid mate i s₀ k)
    (start : ∀ x y, mate x y → 1 ≤ y) (all : ∀ z, mate (i + 1) z → z ≤ last) :
    Valid mate (i + 1) t.s t.k := by
  rw [tried.length]
  refine ⟨tried.good, valid.levels.succ start ⟨Nat.le_refl k, Nat.le_succ k⟩ tried.zero tried.le
    (fun z mated m inside less => tried.done z (all z mated) mated m inside less)
      fun m inside => ?_⟩
  rcases tried.source m inside with same | new
  · exact .inl ⟨inside, same⟩
  · exact .inr ⟨by omega, new⟩

/-- The part of `member` behind a line of a class: the other lines of the class, and something that
is not positive. -/
def Follows (ys : List ℕ) (rest : List ℤ) : Prop :=
  ∃ stop tail, rest = ys.map (fun y : ℕ => (y : ℤ)) ++ stop :: tail ∧ stop ≤ 0

/-- A whole class is tried. -/
theorem tryClass_spec {ys : List ℕ} {rest : List ℤ} (tried : Tried mate i s₀ k last t)
    (valid : Valid mate i s₀ k) (start : ∀ x y, mate x y → 1 ≤ y)
    (rising : (last :: y :: ys).Pairwise (· < ·))
    (all : ∀ z, mate (i + 1) z ↔ z ∈ y :: ys ∨ mate (i + 1) z ∧ z ≤ last)
    (follows : Follows ys rest) :
    ∃ t', tryClass (i + 1) t y rest = some t' ∧ Valid mate (i + 1) t'.s t'.k := by
  induction ys generalizing last t y rest with
  | nil =>
      obtain ⟨stop, tail, rfl, negative⟩ := follows
      have next : last < y := by simpa using rising
      have mated : mate (i + 1) y := (all y).mpr (.inl List.mem_cons_self)
      have between : ∀ z, mate (i + 1) z → z ≤ y → z ≤ last ∨ z = y := fun z here _ => by
        rcases (all z).mp here with mem | ⟨-, old⟩
        · exact .inr (by simpa using mem)
        · exact .inl old
      rw [List.map_nil, List.nil_append, tryClass]
      rcases tried.attempt valid start next mated between with ⟨goes, tried'⟩ | ⟨leaves, valid'⟩
      · rw [goes, if_neg Bool.false_ne_true, if_neg (by omega)]
        refine ⟨_, rfl, tried'.valid valid start fun z here => ?_⟩
        rcases (all z).mp here with mem | ⟨-, old⟩
        · exact Nat.le_of_eq (by simpa using mem)
        · omega
      · rw [leaves, if_pos rfl]
        exact ⟨_, rfl, valid'⟩
  | cons y' ys ih =>
      obtain ⟨stop, tail, rfl, negative⟩ := follows
      obtain ⟨first, rising'⟩ := List.pairwise_cons.mp rising
      obtain ⟨second, -⟩ := List.pairwise_cons.mp rising'
      have next : last < y := first y List.mem_cons_self
      have mated : mate (i + 1) y := (all y).mpr (.inl List.mem_cons_self)
      have between : ∀ z, mate (i + 1) z → z ≤ y → z ≤ last ∨ z = y := fun z here near => by
        rcases (all z).mp here with mem | ⟨-, old⟩
        · rcases List.mem_cons.mp mem with same | later
          · exact .inr same
          · have := second z later
            omega
        · exact .inl old
      rw [List.map_cons, List.cons_append, tryClass]
      rcases tried.attempt valid start next mated between with ⟨goes, tried'⟩ | ⟨leaves, valid'⟩
      · have positive : 0 < (y' : ℤ) := by
          have := second y' List.mem_cons_self
          omega
        rw [goes, if_neg Bool.false_ne_true, if_pos positive, Int.toNat_natCast]
        refine ih tried' rising' (fun z => ?_) ⟨stop, tail, rfl, negative⟩
        constructor
        · intro here
          rcases (all z).mp here with mem | ⟨-, old⟩
          · rcases List.mem_cons.mp mem with same | later
            · exact .inr ⟨here, Nat.le_of_eq same⟩
            · exact .inl later
          · exact .inr ⟨here, by omega⟩
        · rintro (later | ⟨here, -⟩)
          · exact (all z).mpr (.inl (List.mem_cons_of_mem _ later))
          · exact here
      · rw [leaves, if_pos rfl]
        exact ⟨_, rfl, valid'⟩

/-- What `equiv` has made: for each line of the first file the place of its class in `member`, or
0. -/
def Classes (mate : ℕ → ℕ → Prop) (a : ℕ → ℤ) (b : List ℤ) (i : ℕ) : Prop :=
  a i = 0 ∧ (∀ z, ¬mate i z) ∨
    a i ≠ 0 ∧ ∃ (y : ℕ) (ys : List ℕ) (rest : List ℤ), b.drop ((a i).toNat - 1) = -(y : ℤ) :: rest ∧
      Follows ys rest ∧ (y :: ys).Pairwise (· < ·) ∧ ∀ z, mate i z ↔ z ∈ y :: ys

theorem stoneFrom_spec {a : ℕ → ℤ} {b : List ℤ} (n : ℕ) (valid : Valid mate i s k)
    (start : ∀ x y, mate x y → 1 ≤ y)
    (classes : ∀ j, i < j → j ≤ i + n → Classes mate a b j) :
    ∃ s' k', stoneFrom a b n (i + 1) (s, k) = some (s', k') ∧ Valid mate (i + n) s' k' := by
  induction n generalizing i s k with
  | zero => exact ⟨s, k, rfl, valid⟩
  | succ n ih =>
      have more : ∀ j, i + 1 < j → j ≤ i + 1 + n → Classes mate a b j :=
        fun j low high => classes j (by omega) (by omega)
      have total : i + (n + 1) = i + 1 + n := by omega
      rw [stoneFrom, total]
      rcases classes (i + 1) (by omega) (by omega) with ⟨zero, alone⟩ |
        ⟨nonzero, y, ys, rest, here, follows, rising, mates⟩
      · rw [if_pos zero]
        exact ih ((valid.tried start).valid valid start fun z mated => absurd mated (alone z)) more
      · have positive : ∀ z ∈ y :: ys, 0 < z := fun z mem => start _ _ ((mates z).mpr mem)
        have whole : ∀ z, mate (i + 1) z ↔ z ∈ y :: ys ∨ mate (i + 1) z ∧ z ≤ 0 := by
          intro z
          rw [mates]
          constructor
          · exact .inl
          · rintro (mem | ⟨mem, -⟩)
            · exact mem
            · exact mem
        obtain ⟨t, tried, valid'⟩ := tryClass_spec (valid.tried start) valid start
          (List.pairwise_cons.mpr ⟨positive, rising⟩) whole follows
        rw [if_neg nonzero, here]
        simp only [Int.neg_neg, Int.toNat_natCast, tried, Option.bind_some]
        exact ih valid' more

/-- `stone` finds a longest common subsequence. -/
theorem stone_spec {a : ℕ → ℤ} {b : List ℤ} (n : ℕ) (start : ∀ x y, mate x y → 1 ≤ x ∧ 1 ≤ y)
    (classes : ∀ j, 1 ≤ j → j ≤ n → Classes mate a b j) :
    ∃ s k, stone a n b = some (s, k) ∧ Valid mate n s k := by
  have empty : Valid mate 0 Store.empty 0 := by
    refine ⟨fun l low => ?_, .start (fun x y mated => (start x y mated).1) rfl⟩
    obtain rfl := Nat.le_zero.mp low
    exact ⟨[], .nil (Nat.lt_succ_self 0) rfl, .nil, rfl, by simp⟩
  obtain ⟨s, k, done, valid⟩ := stoneFrom_spec n empty (fun x y mated => (start x y mated).2)
    fun j low high => classes j low (by omega)
  rw [Nat.zero_add] at valid
  exact ⟨s, k, done, valid⟩

end Diff

end UnixV7
