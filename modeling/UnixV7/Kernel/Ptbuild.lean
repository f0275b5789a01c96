import Mathlib.Algebra.Group.Nat.Defs
import Mathlib.Data.List.Lattice
import UnixV7.Kernel.Ureg
import UnixV7.Library.Changes

/-!
# The tables that are built

The second loop of `ptbuild` enters pages in the order of their addresses. Every new gigabyte and
every new block takes the next page for a table, so the tables stand in their order of first use,
and what every entry of every table holds follows from that order and the pages entered.
-/

namespace UnixV7

open Function

namespace Ureg

/-! ## Entries -/

theorem shift_gb (pg : ℕ) : pg >>> gbshift = pg / 2 ^ 18 := Nat.shiftRight_eq_div_pow pg 18

theorem shift_blk (pg : ℕ) : pg >>> blkshift = pg / 512 := Nat.shiftRight_eq_div_pow pg 9

theorem and_npte (pg : ℕ) : pg &&& (NPTE - 1) = pg % 512 :=
  Nat.and_two_pow_sub_one_eq_mod pg 9

theorem ptob_or {a b : ℕ} (page : a < 2 ^ 20) (bits : b < 2 ^ 12) :
    ptob a ||| b = a * 4096 + b := by
  have small : a <<< 12 < 2 ^ 32 := by
    rw [Nat.shiftLeft_eq]
    omega
  rw [ptob, Nat.mod_eq_of_lt small, ← Nat.shiftLeft_add_eq_or_of_lt bits, Nat.shiftLeft_eq]

theorem frame_ptob {a b : ℕ} (page : a < 2 ^ 20) (bits : b < 2 ^ 12) :
    frame (ptob a ||| b) = a := by
  rw [ptob_or page bits, frame, Nat.shiftRight_eq_div_pow]
  omega

theorem ptob_mod {a b : ℕ} (page : a < 2 ^ 20) (bits : b < 2 ^ 12) :
    (ptob a ||| b) % 4 = b % 4 := by
  rw [ptob_or page bits]
  omega

theorem ptob_access {a b : ℕ} (page : a < 2 ^ 20) (bits : b < 2 ^ 12) :
    (ptob a ||| b) &&& 0o300 = b &&& 0o300 := by
  have low : ∀ x : ℕ, x &&& 0o300 = x % 4096 &&& 0o300 := by
    intro x
    rw [show x % 4096 = x &&& (2 ^ 12 - 1) from (Nat.and_two_pow_sub_one_eq_mod x 12).symm,
      Nat.and_assoc]
    rfl
  rw [ptob_or page bits, low, low b]
  congr 1
  omega

/-! ## The order of the tables -/

/-- What a table is for: a gigabyte or a block. -/
inductive Table
  | mid (g : ℕ)
  | leaf (b : ℕ)
  deriving DecidableEq

/-- The page of a table. -/
def place (a : ℕ) (ts : List Table) (t : Table) : ℕ := a + ts.idxOf t

variable {l1 a N pg entry : ℕ} {init s : Fill} {ts : List Table} {t : Table}
  {done l : List (ℕ × ℕ)}

theorem place_append (mem : t ∈ ts) (u : Table) : place a (ts ++ [u]) t = place a ts t := by
  rw [place, List.idxOf_append_of_mem mem, place]

theorem place_last (fresh : t ∉ ts) : place a (ts ++ [t]) t = a + ts.length := by
  rw [place, List.idxOf_append_of_notMem fresh]
  simp

/-- What refers to a table, if it has been taken. -/
def refer (a : ℕ) (ts : List Table) (t : Table) (otherwise : ℕ) : ℕ :=
  if t ∈ ts then ptob (place a ts t) ||| PTE_TAB else otherwise

theorem refer_last (fresh : t ∉ ts) (d : ℕ) :
    refer a (ts ++ [t]) t d = ptob (a + ts.length) ||| PTE_TAB := by
  rw [refer, if_pos (by simp), place_last fresh]

theorem refer_append {u : Table} (other : t ≠ u) (d : ℕ) :
    refer a (ts ++ [u]) t d = refer a ts t d := by
  by_cases mem : t ∈ ts
  · rw [refer, refer, if_pos (by simp [mem]), if_pos mem, place_append mem]
  · rw [refer, refer, if_neg (by simp [mem, other]), if_neg mem]

theorem place_lt (mem : t ∈ ts) : a ≤ place a ts t ∧ place a ts t < a + ts.length :=
  ⟨Nat.le_add_right _ _, Nat.add_lt_add_left (List.idxOf_lt_length_iff.mpr mem) a⟩

theorem place_inj {u : Table} (mem : t ∈ ts) (same : place a ts t = place a ts u) : t = u :=
  (List.idxOf_inj mem).mp (Nat.add_left_cancel same)

/-- The tables `ts` have been taken, in this order, and the pages of `done` entered. -/
structure Built (l1 a : ℕ) (init : Fill) (ts : List Table) (done : List (ℕ × ℕ)) (s : Fill) :
    Prop where
  nodup : ts.Nodup
  next : s.a = a + ts.length
  below : ∀ j < l1, s.l1tab j = init.l1tab j
  l1tab : ∀ g, s.l1tab (l1 + g) = refer a ts (.mid g) (init.l1tab (l1 + g))
  mid : ∀ g, .mid g ∈ ts → ∀ i < NPTE,
    s.tab (place a ts (.mid g)) i = refer a ts (.leaf (NPTE * g + i)) 0
  leaf : ∀ b, .leaf b ∈ ts → ∀ i < NPTE,
    s.tab (place a ts (.leaf b)) i = (done.lookup (NPTE * b + i)).getD 0
  outside : ∀ pg, pg < a ∨ a + ts.length ≤ pg → s.tab pg = init.tab pg

/-- The gigabytes and the blocks of pages. -/
def gbs (done : List (ℕ × ℕ)) : List ℕ := done.map fun e => e.1 / 2 ^ 18

def blks (done : List (ℕ × ℕ)) : List ℕ := done.map fun e => e.1 / 512

/-- The tables taken are those that the pages entered need. -/
structure Needed (ts : List Table) (done : List (ℕ × ℕ)) : Prop where
  mid : ∀ g, .mid g ∈ ts ↔ ∃ e ∈ done, e.1 / 2 ^ 18 = g
  leaf : ∀ b, .leaf b ∈ ts ↔ ∃ e ∈ done, e.1 / 512 = b
  length : ts.length = changes nowhere (gbs done) + changes nowhere (blks done)

/-- A second-level table has been added. -/
theorem Built.level2 {g : ℕ} (built : Built l1 a init ts done s) (fresh : .mid g ∉ ts)
    (childless : ∀ i < NPTE, .leaf (NPTE * g + i) ∉ ts)
    (zero : ∀ i < NPTE, init.tab (a + ts.length) i = 0) (gb l2 : ℕ) :
    Built l1 a init (ts ++ [.mid g]) done
      { s with
        gb := gb
        l1tab := update s.l1tab (l1 + g) (ptob s.a ||| PTE_TAB)
        l2 := l2
        a := s.a + 1 } := by
  have new := place_last (a := a) fresh
  refine ⟨by simpa using built.nodup.concat fresh, ?_, fun j low => ?_, fun h => ?_,
    fun h mem i small => ?_, fun b mem i small => ?_, fun pg out => ?_⟩
  · rw [List.length_append, List.length_singleton, built.next, Nat.add_assoc]
  · exact (update_of_ne (by omega) _ _).trans (built.below j low)
  · by_cases same : h = g
    · subst same
      rw [refer_last fresh, ← built.next]
      exact update_self _ _ _
    · have other : l1 + h ≠ l1 + g := by omega
      rw [refer_append (by simpa using same)]
      exact (update_of_ne other _ _).trans (built.l1tab h)
  · rw [refer_append (by simp)]
    by_cases same : h = g
    · subst same
      rw [refer, if_neg (childless i small), new]
      exact (congrFun (built.outside _ (.inr (Nat.le_refl _))) i).trans (zero i small)
    · have old : Table.mid h ∈ ts := by simpa [same] using mem
      rw [place_append old]
      exact built.mid h old i small
  · have old : Table.leaf b ∈ ts := by simpa using mem
    rw [place_append old]
    exact built.leaf b old i small
  · rw [List.length_append, List.length_singleton] at out
    exact built.outside pg (by omega)

/-- A third-level table has been added. -/
theorem Built.level3 {b : ℕ} (built : Built l1 a init ts done s) (fresh : .leaf b ∉ ts)
    (parent : .mid (b / 512) ∈ ts) (l2 : s.l2 = place a ts (.mid (b / 512)))
    (empty : ∀ i < NPTE, done.lookup (NPTE * b + i) = none)
    (zero : ∀ i < NPTE, init.tab (a + ts.length) i = 0) (blk l3 : ℕ) :
    Built l1 a init (ts ++ [.leaf b]) done
      { s with
        blk := blk
        tab := update s.tab s.l2 (update (s.tab s.l2) (b % 512) (ptob s.a ||| PTE_TAB))
        l3 := l3
        a := s.a + 1 } := by
  have new := place_last (a := a) fresh
  have inside := place_lt (a := a) parent
  refine ⟨by simpa using built.nodup.concat fresh, ?_, built.below, fun h => ?_,
    fun h mem i small => ?_, fun c mem i small => ?_, fun pg out => ?_⟩
  · rw [List.length_append, List.length_singleton, built.next, Nat.add_assoc]
  · rw [refer_append (by simp)]
    exact built.l1tab h
  · have old : Table.mid h ∈ ts := by simpa using mem
    have before := built.mid h old i small
    rw [place_append old]
    by_cases mine : h = b / 512
    · subst mine
      rw [← l2] at before ⊢
      refine (congrFun (update_self _ _ _) i).trans ?_
      by_cases here : i = b % 512
      · have whole : NPTE * (b / 512) + i = b := by
          rw [here, NPTE]
          omega
        rw [whole, refer_last fresh, ← built.next, here]
        exact update_self _ _ _
      · have other : NPTE * (b / 512) + i ≠ b := by
          rw [NPTE] at small ⊢
          omega
        rw [refer_append (by simpa using other)]
        exact (update_of_ne here _ _).trans before
    · have away : place a ts (.mid h) ≠ s.l2 := by
        rw [l2]
        intro same
        exact mine (Table.mid.inj (place_inj old same))
      have other : NPTE * h + i ≠ b := by
        rw [NPTE] at small ⊢
        omega
      rw [refer_append (by simpa using other)]
      exact (congrFun (update_of_ne away _ _) i).trans before
  · by_cases same : c = b
    · subst same
      have away : a + ts.length ≠ s.l2 := by omega
      rw [new, empty i small]
      refine (congrFun (update_of_ne away _ _) i).trans ?_
      exact (congrFun (built.outside _ (.inr (Nat.le_refl _))) i).trans (zero i small)
    · have old : Table.leaf c ∈ ts := by simpa [same] using mem
      have away : place a ts (.leaf c) ≠ s.l2 := by
        rw [l2]
        intro here
        cases place_inj old here
      rw [place_append old]
      exact (congrFun (update_of_ne away _ _) i).trans (built.leaf c old i small)
  · rw [List.length_append, List.length_singleton] at out
    exact (update_of_ne (by omega) _ _).trans (built.outside pg (by omega))

theorem lookup_append_of_ne {v : ℕ} (other : v ≠ pg) :
    (done ++ [(pg, entry)]).lookup v = done.lookup v := by
  have none : List.lookup v [(pg, entry)] = none := by
    rw [List.lookup_cons, beq_eq_false_iff_ne.mpr other]
    rfl
  rw [List.lookup_append, none, Option.or_none]

/-- A page has been entered. -/
theorem Built.enter (built : Built l1 a init ts done s) (mem : .leaf (pg / 512) ∈ ts)
    (l3 : s.l3 = place a ts (.leaf (pg / 512))) (fresh : done.lookup pg = none) :
    Built l1 a init ts (done ++ [(pg, entry)])
      { s with tab := update s.tab s.l3 (update (s.tab s.l3) (pg % 512) entry) } := by
  have inside := place_lt (a := a) mem
  refine ⟨built.nodup, built.next, built.below, built.l1tab, fun h old i small => ?_,
    fun b old i small => ?_,
      fun pg out => (update_of_ne (by omega) _ _).trans (built.outside pg out)⟩
  · have away : place a ts (.mid h) ≠ s.l3 := by
      rw [l3]
      intro here
      cases place_inj old here
    exact (congrFun (update_of_ne away _ _) i).trans (built.mid h old i small)
  · have before := built.leaf b old i small
    by_cases mine : b = pg / 512
    · subst mine
      rw [← l3] at before ⊢
      refine (congrFun (update_self _ _ _) i).trans ?_
      by_cases here : i = pg % 512
      · have whole : NPTE * (pg / 512) + i = pg := by
          rw [here, NPTE]
          omega
        rw [whole, List.lookup_append, fresh, here]
        refine (update_self _ _ _).trans ?_
        simp
      · have other : NPTE * (pg / 512) + i ≠ pg := by
          rw [NPTE] at small ⊢
          omega
        rw [lookup_append_of_ne other]
        exact (update_of_ne here _ _).trans before
    · have away : place a ts (.leaf b) ≠ s.l3 := by
        rw [l3]
        intro here
        exact mine (Table.leaf.inj (place_inj old here))
      have other : NPTE * b + i ≠ pg := by
        rw [NPTE] at small ⊢
        omega
      rw [lookup_append_of_ne other]
      exact (congrFun (update_of_ne away _ _) i).trans before

/-! ## One page -/

/-- The pages of `done` have been entered in order, and the variables of the loop are those of the
last one. -/
structure Filled (l1 a : ℕ) (init : Fill) (ts : List Table) (done : List (ℕ × ℕ)) (s : Fill) :
    Prop where
  built : Built l1 a init ts done s
  needed : Needed ts done
  ordered : done.Pairwise fun e f => e.1 < f.1
  gb : s.gb = (gbs done).getLastD nowhere
  blk : s.blk = (blks done).getLastD nowhere
  cursor : ∀ e ∈ done.getLast?, s.l2 = place a ts (.mid (e.1 / 2 ^ 18)) ∧
    s.l3 = place a ts (.leaf (e.1 / 512))

theorem last_cases (f : ℕ × ℕ → ℕ) (ordered : done.Pairwise fun e f => e.1 < f.1) :
    (done = [] ∧ (done.map f).getLastD nowhere = nowhere) ∨
      ∃ e, done.getLast? = some e ∧ (done.map f).getLastD nowhere = f e ∧ e ∈ done ∧
        ∀ d ∈ done, d.1 ≤ e.1 := by
  rcases List.eq_nil_or_concat' done with rfl | ⟨front, e, rfl⟩
  · exact .inl ⟨rfl, rfl⟩
  · refine .inr ⟨e, by simp, by simp, by simp, fun d mem => ?_⟩
    rcases List.mem_append.mp mem with front | here
    · exact Nat.le_of_lt ((List.pairwise_append.mp ordered).2.2 d front e (by simp))
    · rw [List.mem_singleton.mp here]

theorem changes_concat (last b : ℕ) (l : List ℕ) :
    changes last (l ++ [b]) = changes last l + if b = l.getLastD last then 0 else 1 := by
  rw [changes_append, changes_cons, changes_nil, Nat.add_zero]

namespace Filled

/-- The table of the gigabyte of the next page is the one in use, or it has yet to be taken. -/
theorem next_gb (filled : Filled l1 a init ts done s) (above : ∀ e ∈ done, e.1 < pg)
    (user : pg < 2 ^ 20) :
    (pg / 2 ^ 18 = s.gb ∧ .mid (pg / 2 ^ 18) ∈ ts ∧ s.l2 = place a ts (.mid (pg / 2 ^ 18))) ∨
      (pg / 2 ^ 18 ≠ s.gb ∧ .mid (pg / 2 ^ 18) ∉ ts) := by
  rw [filled.gb, gbs]
  rcases last_cases (fun e => e.1 / 2 ^ 18) filled.ordered with
    ⟨rfl, none⟩ | ⟨e, last, value, mem, most⟩
  · right
    rw [none, nowhere]
    refine ⟨by omega, fun mem => ?_⟩
    obtain ⟨e, mem, -⟩ := (filled.needed.mid _).mp mem
    simp at mem
  · rw [value]
    by_cases same : pg / 2 ^ 18 = e.1 / 2 ^ 18
    · rw [same]
      exact .inl ⟨rfl, (filled.needed.mid _).mpr ⟨e, mem, rfl⟩, (filled.cursor e last).1⟩
    · refine .inr ⟨same, fun mem' => ?_⟩
      obtain ⟨d, mem', here⟩ := (filled.needed.mid _).mp mem'
      have before := most d mem'
      have after := above e mem
      omega

/-- So is the table of its block. -/
theorem next_blk (filled : Filled l1 a init ts done s) (above : ∀ e ∈ done, e.1 < pg)
    (user : pg < 2 ^ 20) :
    (pg / 512 = s.blk ∧ pg / 2 ^ 18 = s.gb ∧ .leaf (pg / 512) ∈ ts ∧
        s.l3 = place a ts (.leaf (pg / 512))) ∨
      (pg / 512 ≠ s.blk ∧ .leaf (pg / 512) ∉ ts) := by
  rw [filled.blk, filled.gb, blks, gbs]
  rcases last_cases (fun e => e.1 / 512) filled.ordered with
    ⟨rfl, none⟩ | ⟨e, last, value, mem, most⟩
  · right
    rw [none, nowhere]
    refine ⟨by omega, fun mem => ?_⟩
    obtain ⟨e, mem, -⟩ := (filled.needed.leaf _).mp mem
    simp at mem
  · rw [value]
    by_cases same : pg / 512 = e.1 / 512
    · have gb : (done.map fun e => e.1 / 2 ^ 18).getLastD nowhere = e.1 / 2 ^ 18 := by
        rw [List.getLastD_eq_getLast?, List.getLast?_map, last]
        rfl
      rw [gb, same]
      exact .inl ⟨rfl, by omega, (filled.needed.leaf _).mpr ⟨e, mem, rfl⟩,
        (filled.cursor e last).2⟩
    · refine .inr ⟨same, fun mem' => ?_⟩
      obtain ⟨d, mem', here⟩ := (filled.needed.leaf _).mp mem'
      have before := most d mem'
      have after := above e mem
      omega

/-- The second-level table for the next page. -/
theorem level2 (filled : Filled l1 a init ts done s) (above : ∀ e ∈ done, e.1 < pg)
    (user : pg < 2 ^ 20)
    (room : changes nowhere (gbs (done ++ [(pg, entry)])) +
      changes nowhere (blks (done ++ [(pg, entry)])) ≤ N)
    (zero : ∀ t, a ≤ t → t < a + N → ∀ i < NPTE, init.tab t i = 0) :
    ∃ us, Built l1 a init us done (s.level2 l1 pg) ∧
      (∀ t, t ∈ us ↔ t ∈ ts ∨ t = .mid (pg / 2 ^ 18)) ∧ (∀ t ∈ ts, place a us t = place a ts t) ∧
      (s.level2 l1 pg).l2 = place a us (.mid (pg / 2 ^ 18)) ∧
      (s.level2 l1 pg).gb = pg / 2 ^ 18 ∧ (s.level2 l1 pg).blk = s.blk ∧
      (s.level2 l1 pg).l3 = s.l3 ∧
      us.length = changes nowhere (gbs (done ++ [(pg, entry)])) + changes nowhere (blks done) := by
  have total := filled.needed.length
  have counted : changes nowhere (gbs (done ++ [(pg, entry)])) =
      changes nowhere (gbs done) + if pg / 2 ^ 18 = s.gb then 0 else 1 := by
    rw [filled.gb, ← changes_concat, gbs, gbs, List.map_append]
    rfl
  rw [counted] at room ⊢
  rcases filled.next_gb above user with ⟨same, mem, l2⟩ | ⟨other, fresh⟩
  · have stay : s.level2 l1 pg = s := by
      rw [Fill.level2, shift_gb, if_neg (not_not.mpr same)]
    rw [stay, if_pos same]
    refine ⟨ts, filled.built, fun t => ?_, fun _ _ => rfl, l2, same.symm, rfl, rfl, by omega⟩
    constructor
    · exact .inl
    · rintro (old | rfl)
      · exact old
      · exact mem
  · rw [if_neg other] at room ⊢
    have childless : ∀ i < NPTE, .leaf (NPTE * (pg / 2 ^ 18) + i) ∉ ts := by
      intro i small mem
      obtain ⟨e, mem, here⟩ := (filled.needed.leaf _).mp mem
      refine fresh ((filled.needed.mid _).mpr ⟨e, mem, ?_⟩)
      rw [NPTE] at here small
      omega
    have less : changes nowhere (blks done) ≤ changes nowhere (blks (done ++ [(pg, entry)])) := by
      rw [blks, blks, List.map_append]
      exact changes_sublist _ (List.sublist_append_left _ _)
    have step := filled.built.level2 fresh childless
      (zero _ (by omega) (by omega)) (pg / 2 ^ 18) s.a
    rw [Fill.level2, shift_gb, if_pos other]
    refine ⟨ts ++ [.mid (pg / 2 ^ 18)], step, by simp,
      fun t mem => place_append mem _, ?_, rfl, rfl, rfl, ?_⟩
    · rw [place_last fresh]
      exact filled.built.next
    · rw [List.length_append, List.length_singleton]
      omega

/-- The next page is entered. -/
theorem page (filled : Filled l1 a init ts done s) (above : ∀ e ∈ done, e.1 < pg)
    (user : pg < 2 ^ 20)
    (room : changes nowhere (gbs (done ++ [(pg, entry)])) +
      changes nowhere (blks (done ++ [(pg, entry)])) ≤ N)
    (zero : ∀ t, a ≤ t → t < a + N → ∀ i < NPTE, init.tab t i = 0) :
    ∃ us, Filled l1 a init us (done ++ [(pg, entry)]) (s.page l1 pg entry) := by
  obtain ⟨us, built, tables, places, l2, gb, blk, l3, length⟩ :=
    filled.level2 above user room zero
  have counted : changes nowhere (blks (done ++ [(pg, entry)])) =
      changes nowhere (blks done) + if pg / 512 = s.blk then 0 else 1 := by
    rw [filled.blk, ← changes_concat, blks, blks, List.map_append]
    rfl
  have unmet : done.lookup pg = none := by
    rw [List.lookup_eq_none_iff]
    intro e mem
    have below := above e mem
    simpa using Nat.ne_of_gt below
  have ordered : (done ++ [(pg, entry)]).Pairwise fun e f => e.1 < f.1 := by
    refine List.pairwise_append.mpr ⟨filled.ordered, List.pairwise_singleton _ _, ?_⟩
    intro e mem f here
    rw [List.mem_singleton.mp here]
    exact above e mem
  have mid : .mid (pg / 2 ^ 18) ∈ us := (tables _).mpr (.inr rfl)
  -- what is left to show once the third-level table is there
  have finish : ∀ vs s', Built l1 a init vs done s' → s'.gb = pg / 2 ^ 18 → s'.blk = pg / 512 →
      s'.l2 = place a vs (.mid (pg / 2 ^ 18)) → s'.l3 = place a vs (.leaf (pg / 512)) →
      (∀ t, t ∈ vs ↔ t ∈ us ∨ t = .leaf (pg / 512)) →
      vs.length = changes nowhere (gbs (done ++ [(pg, entry)])) +
        changes nowhere (blks (done ++ [(pg, entry)])) →
      Filled l1 a init vs (done ++ [(pg, entry)]) (s'.enter pg entry) := by
    intro vs s' built gb blk l2 l3 all total
    have leaf : .leaf (pg / 512) ∈ vs := (all _).mpr (.inr rfl)
    rw [Fill.enter, and_npte]
    refine ⟨built.enter leaf l3 unmet, ⟨fun g => ?_, fun b => ?_, total⟩, ordered, ?_, ?_, ?_⟩
    · rw [all, tables, filled.needed.mid]
      simp [eq_comm]
    · rw [all, tables, filled.needed.leaf]
      simp [eq_comm]
    · rw [gbs, List.map_append]
      simpa using gb
    · rw [blks, List.map_append]
      simpa using blk
    · intro e last
      obtain rfl : (pg, entry) = e := by simpa using last
      exact ⟨l2, l3⟩
  rw [Fill.page]
  rcases filled.next_blk above user with ⟨same, sameGb, mem, here⟩ | ⟨other, fresh⟩
  · have stay : (s.level2 l1 pg).level3 pg = s.level2 l1 pg := by
      rw [Fill.level3, shift_blk, blk, if_neg (not_not.mpr same)]
    rw [stay]
    refine ⟨us, finish us _ built gb (by rw [blk, same]) l2 ?_ (fun t => ?_) ?_⟩
    · rw [l3, places _ mem, here]
    · constructor
      · exact .inl
      · rintro (old | rfl)
        · exact old
        · exact (tables _).mpr (.inl mem)
    · rw [length, counted, if_pos same, Nat.add_zero]
  · have fresh' : .leaf (pg / 512) ∉ us := by
      rw [tables]
      simp [fresh]
    have parent : pg / 512 / 512 = pg / 2 ^ 18 := by omega
    have empty : ∀ i < NPTE, done.lookup (NPTE * (pg / 512) + i) = none := by
      intro i small
      rw [List.lookup_eq_none_iff]
      intro e mem
      have unlike : e.1 / 512 ≠ pg / 512 := by
        intro same
        exact fresh ((filled.needed.leaf _).mpr ⟨e, mem, same⟩)
      rw [NPTE] at small ⊢
      rw [bne_iff_ne]
      omega
    rw [counted, if_neg other] at room
    have step := built.level3 (b := pg / 512) fresh' (by rwa [parent]) (by rw [l2, parent]) empty
      (zero _ (by omega) (by omega)) (pg / 512) (s.level2 l1 pg).a
    rw [Fill.level3, shift_blk, blk, if_pos other, and_npte]
    refine ⟨us ++ [.leaf (pg / 512)], finish _ _ step gb rfl ?_ ?_ (by simp) ?_⟩
    · exact l2.trans (place_append mid _).symm
    · exact built.next.trans (place_last fresh').symm
    · rw [List.length_append, List.length_singleton, length, counted, if_neg other, Nat.add_assoc]

/-- All pages are entered. -/
theorem pages (l : List (ℕ × ℕ)) (filled : Filled l1 a init ts done s)
    (ordered : (done ++ l).Pairwise fun e f => e.1 < f.1) (user : ∀ e ∈ l, e.1 < 2 ^ 20)
    (room : changes nowhere (gbs (done ++ l)) + changes nowhere (blks (done ++ l)) ≤ N)
    (zero : ∀ t, a ≤ t → t < a + N → ∀ i < NPTE, init.tab t i = 0) :
    ∃ us, Filled l1 a init us (done ++ l) (l.foldl (fun s e => s.page l1 e.1 e.2) s) := by
  induction l generalizing done ts s with
  | nil => exact ⟨ts, by rwa [List.append_nil]⟩
  | cons e l ih =>
      have split : done ++ e :: l = (done ++ [(e.1, e.2)]) ++ l := by simp
      have above : ∀ d ∈ done, d.1 < e.1 := fun d mem =>
        (List.pairwise_append.mp ordered).2.2 d mem e List.mem_cons_self
      rw [split] at room ordered ⊢
      have fewer : changes nowhere (gbs (done ++ [(e.1, e.2)])) +
          changes nowhere (blks (done ++ [(e.1, e.2)])) ≤ N := by
        refine Nat.le_trans (Nat.add_le_add ?_ ?_) room
        · exact changes_sublist _ ((List.sublist_append_left _ l).map _)
        · exact changes_sublist _ ((List.sublist_append_left _ l).map _)
      obtain ⟨us, next⟩ := filled.page above (user e List.mem_cons_self) fewer zero
      exact ih next ordered (fun d mem => user d (List.mem_cons_of_mem e mem)) room

end Filled

/-- Before the second loop nothing has been entered. -/
theorem filled_nil (l1tab : ℕ → ℕ) (tab : ℕ → ℕ → ℕ) (l1 a : ℕ) :
    Filled l1 a ⟨l1tab, tab, a, 0, 0, nowhere, nowhere⟩ [] []
      ⟨l1tab, tab, a, 0, 0, nowhere, nowhere⟩ := by
  refine ⟨⟨.nil, rfl, fun _ _ => rfl, fun g => ?_, ?_, ?_, fun _ _ => rfl⟩, ⟨?_, ?_, rfl⟩, .nil,
    rfl, rfl, ?_⟩
  · simp [refer]
  · simp
  · simp
  · simp
  · simp
  · simp

/-! ## The walk through the tables -/

variable {l1tab : ℕ → ℕ} {tab : ℕ → ℕ → ℕ} {v : ℕ}

theorem entry_place (small : a + ts.length ≤ 2 ^ 20) (mem : t ∈ ts) :
    (ptob (place a ts t) ||| PTE_TAB) % 4 = 3 ∧
        frame (ptob (place a ts t) ||| PTE_TAB) = place a ts t := by
  have inside := place_lt (a := a) mem
  have page : place a ts t < 2 ^ 20 := by omega
  exact ⟨ptob_mod page (by decide), frame_ptob page (by decide)⟩

/-- In tables that agree with those built, the processor finds the pages that have been entered and
no others. -/
theorem Filled.walk (filled : Filled l1 a init ts done s) (small : a + ts.length ≤ 2 ^ 20)
    (none : init.l1tab (l1 + v / 2 ^ 18) = 0)
    (top : l1tab (l1 + v / 2 ^ 18) = s.l1tab (l1 + v / 2 ^ 18))
    (same : ∀ t, a ≤ t → t < a + ts.length → tab t = s.tab t) :
    Ureg.walk l1tab tab l1 v =
      (done.lookup v).bind
          fun d => if d % 4 ≠ 3 then Option.none else some (frame d, d &&& 0o300) := by
  have inner : ∀ t ∈ ts, tab (place a ts t) = s.tab (place a ts t) := fun t mem =>
    same _ (place_lt mem).1 (place_lt mem).2
  have missing : .leaf (v / 512) ∉ ts → done.lookup v = Option.none := by
    intro absent
    rw [List.lookup_eq_none_iff]
    intro e mem
    rw [bne_iff_ne]
    rintro rfl
    exact absent ((filled.needed.leaf _).mpr ⟨e, mem, rfl⟩)
  have index : NPTE * (v / 2 ^ 18) + v / 512 % NPTE = v / 512 := by
    rw [NPTE]
    omega
  have index' : NPTE * (v / 512) + v % NPTE = v := by
    rw [NPTE]
    omega
  simp only [Ureg.walk, third, second, shift_gb, shift_blk, top, filled.built.l1tab]
  by_cases gb : .mid (v / 2 ^ 18) ∈ ts
  · obtain ⟨valid, there⟩ := entry_place small gb
    rw [refer, if_pos gb, if_neg (not_not.mpr valid), there, inner _ gb,
      filled.built.mid _ gb _ (Nat.mod_lt _ (by decide)), index]
    by_cases blk : .leaf (v / 512) ∈ ts
    · obtain ⟨valid, there⟩ := entry_place small blk
      rw [refer, if_pos blk, if_neg (not_not.mpr valid), there, inner _ blk,
        filled.built.leaf _ blk _ (Nat.mod_lt _ (by decide)), index']
      cases done.lookup v with
      | none => rfl
      | some d => rfl
    · rw [refer, if_neg blk, missing blk]
      rfl
  · have absent : .leaf (v / 512) ∉ ts := by
      intro mem
      obtain ⟨e, mem, here⟩ := (filled.needed.leaf _).mp mem
      exact gb ((filled.needed.mid _).mpr ⟨e, mem, by omega⟩)
    rw [refer, if_neg gb, none, missing absent]
    rfl

/-- The tables on the way to a page that has been entered. -/
theorem Filled.path (l1tab : ℕ → ℕ) (tab : ℕ → ℕ → ℕ) {e : ℕ × ℕ}
    (filled : Filled l1 a init ts done s)
    (small : a + ts.length ≤ 2 ^ 20) (mem : e ∈ done)
    (top : l1tab (l1 + e.1 / 2 ^ 18) = s.l1tab (l1 + e.1 / 2 ^ 18))
    (same : ∀ t, a ≤ t → t < a + ts.length → tab t = s.tab t) :
    (second l1tab l1 e.1).1 = place a ts (.mid (e.1 / 2 ^ 18)) ∧
      (third l1tab tab l1 e.1).1 = place a ts (.leaf (e.1 / 512)) := by
  have gb : .mid (e.1 / 2 ^ 18) ∈ ts := (filled.needed.mid _).mpr ⟨e, mem, rfl⟩
  have blk : .leaf (e.1 / 512) ∈ ts := (filled.needed.leaf _).mpr ⟨e, mem, rfl⟩
  have first : (second l1tab l1 e.1).1 = place a ts (.mid (e.1 / 2 ^ 18)) := by
    rw [second, shift_gb, top, filled.built.l1tab, refer, if_pos gb]
    exact (entry_place small gb).2
  have index : NPTE * (e.1 / 2 ^ 18) + e.1 / 512 % NPTE = e.1 / 512 := by
    rw [NPTE]
    omega
  refine ⟨first, ?_⟩
  rw [third, first, same _ (place_lt gb).1 (place_lt gb).2, second, shift_blk,
    filled.built.mid _ gb _ (Nat.mod_lt _ (by decide)), index, refer, if_pos blk]
  exact (entry_place small blk).2

/-- Every entry of a table that is not 0 is met by the processor on its way to a page that has been
entered. -/
theorem Filled.reached (l1tab : ℕ → ℕ) (tab : ℕ → ℕ → ℕ) {i : ℕ}
    (filled : Filled l1 a init ts done s)
    (small : a + ts.length ≤ 2 ^ 20)
    (top : ∀ e ∈ done, l1tab (l1 + e.1 / 2 ^ 18) = s.l1tab (l1 + e.1 / 2 ^ 18))
    (same : ∀ t, a ≤ t → t < a + ts.length → tab t = s.tab t) {pg : ℕ}
    (low : a ≤ pg) (high : pg < a + ts.length) (index : i < NPTE) (valid : tab pg i ≠ 0) :
    ∃ e ∈ done, (pg, i) = second l1tab l1 e.1 ∨ (pg, i) = third l1tab tab l1 e.1 := by
  rw [same pg low high] at valid
  obtain ⟨t, mem, rfl⟩ : ∃ t ∈ ts, place a ts t = pg := by
    have below : pg - a < ts.length := by omega
    refine ⟨ts[pg - a], List.getElem_mem _, ?_⟩
    rw [place, filled.built.nodup.idxOf_getElem]
    omega
  cases t with
  | mid g =>
      rw [filled.built.mid g mem i index] at valid
      by_cases child : .leaf (NPTE * g + i) ∈ ts
      · obtain ⟨e, inside, here⟩ := (filled.needed.leaf _).mp child
        rw [NPTE] at here index
        have gb : e.1 / 2 ^ 18 = g := by omega
        refine ⟨e, inside, .inl (Prod.ext ?_ ?_)⟩
        · rw [(filled.path _ _ small inside (top e inside) same).1, gb]
        · rw [second, shift_blk, NPTE]
          omega
      · rw [refer, if_neg child] at valid
        exact absurd rfl valid
  | leaf b =>
      rw [filled.built.leaf b mem i index] at valid
      cases found : done.lookup (NPTE * b + i) with
      | none =>
          rw [found] at valid
          exact absurd rfl valid
      | some d =>
          have inside : (NPTE * b + i, d) ∈ done := by
            obtain ⟨front, back, rfl, -⟩ := List.lookup_eq_some_iff.mp found
            simp
          rw [NPTE] at index inside
          have blk : (512 * b + i) / 512 = b := by omega
          refine ⟨_, inside, .inr (Prod.ext ?_ ?_)⟩
          · have last := (filled.path _ _ small inside (top _ inside) same).2
            rw [last, blk]
          · simp only [third, NPTE]
            omega

end Ureg

end UnixV7
