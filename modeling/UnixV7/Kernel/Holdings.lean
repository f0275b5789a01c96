import UnixV7.Kernel.Pages

/-!
# Who holds which page

Every page of core is on the stack of the free pages or held by one party: the image of a
process, a text, a call that took single pages. The page operations are trades of one party with
the stack, so no two parties ever come to hold the same page.
-/

namespace UnixV7

open Function

/-- The core that a party holds: single pages and one page map. -/
structure Holding where
  pages : List Pg
  map : Pg
  size : ℕ

namespace Holding

/-- All pages of a holding. -/
def all (h : Holding) (c : Core) : List Pg := h.pages ++ c.mappages h.map h.size

@[simp] theorem all_empty (c : Core) (map : Pg) : (⟨[], map, 0⟩ : Holding).all c = [] := rfl

end Holding

/-- No page is in two places, and no page has the number 0. -/
structure Held {κ : Type*} (holding : κ → Holding) (c : Core) : Prop where
  apart : Apart (fun x => (holding x).all c) c.pgstk
  nonzero : ∀ x, ∀ pg ∈ (holding x).all c ++ c.pgstk, pg ≠ 0

namespace Core

variable {c c' : Core} {before after : List Pg}

/-- Pages that take no part in a trade may be counted in on both sides. -/
theorem Exchanged.append_left (exchanged : Exchanged c c' before after) (extra : List Pg) :
    Exchanged c c' (extra ++ before) (extra ++ after) := by
  constructor
  · rw [List.append_assoc, List.append_assoc]
    exact exchanged.perm.append_left extra
  · intro pg outside
    refine exchanged.frame pg fun mem => outside ?_
    rw [List.append_assoc]
    exact List.mem_append_right extra mem

/-- `pgalloc` moves a page from the stack to its caller. -/
theorem pgalloc_exchanged (some : 0 < c.npgfree) (extra : List Pg) :
    c.pgalloc.1 ∈ c.pgstk ∧ Exchanged c c.pgalloc.2 extra (c.pgalloc.1 :: extra) := by
  match held : c.pgstk with
  | [] => simp [npgfree, held] at some
  | pg :: rest =>
      simp only [pgalloc, held]
      refine ⟨List.mem_cons_self, ?_, fun _ _ => rfl⟩
      rw [held]
      exact List.perm_middle.symm

theorem pgalloc_npgfree (some : 0 < c.npgfree) : c.pgalloc.2.npgfree + 1 = c.npgfree := by
  match held : c.pgstk with
  | [] => simp [npgfree, held] at some
  | pg :: rest => simp [pgalloc, npgfree, held]

/-- `pgfree` moves a page back. -/
theorem pgfree_exchanged {pg : Pg} (mine : pg ∈ before) :
    Exchanged c (c.pgfree pg) before (before.erase pg) := by
  refine ⟨?_, fun _ _ => rfl⟩
  refine List.perm_middle.trans ?_
  rw [← List.cons_append]
  exact (List.perm_cons_erase mine).symm.append_right c.pgstk

end Core

namespace Holding

variable {c : Core} {pg : Pg}

theorem pgalloc_exchanged (h : Holding) (some : 0 < c.npgfree) :
    Core.Exchanged c c.pgalloc.2 (h.all c)
      (Holding.all { h with pages := c.pgalloc.1 :: h.pages } c.pgalloc.2) := by
  have page : c.pgalloc.2.page = c.page := by
    simp only [Core.pgalloc]
    split <;> rfl
  have same : c.pgalloc.2.mappages h.map h.size = c.mappages h.map h.size :=
    Core.mappages_congr fun pg _ => by rw [page]
  simpa [all, same] using (Core.pgalloc_exchanged some (h.all c)).2

theorem pgfree_exchanged (h : Holding) (mine : pg ∈ h.pages) :
    Core.Exchanged c (c.pgfree pg) (h.all c)
      (Holding.all { h with pages := h.pages.erase pg } (c.pgfree pg)) := by
  have same : (c.pgfree pg).mappages h.map h.size = c.mappages h.map h.size :=
    Core.mappages_congr fun pg _ => rfl
  have traded := Core.pgfree_exchanged (c := c)
    (List.mem_append_left (c.mappages h.map h.size) mine)
  simpa [all, same, List.erase_append_left _ mine] using traded

theorem mapalloc_exchanged {n : ℕ} {root : Pg} {c' : Core} (h : Holding) (grows : h.size ≤ n)
    (distinct : (h.all c ++ c.pgstk).Nodup)
    (result : c.mapalloc h.map h.size n = (true, root, c')) :
    Core.Exchanged c c' (h.all c) (Holding.all { h with map := root, size := n } c') := by
  have enough : Core.mapneed h.size n ≤ c.npgfree := by
    by_contra short
    simp [Core.mapalloc, Nat.lt_of_not_le short] at result
  have inner : (c.mappages h.map h.size ++ c.pgstk).Nodup := by
    rw [all, List.append_assoc] at distinct
    exact (List.nodup_append.mp distinct).2.1
  obtain ⟨root', c'', result', exchanged⟩ := Core.mapalloc_exchanged _ grows inner enough
  obtain ⟨-, rfl, rfl⟩ : true = true ∧ root' = root ∧ c'' = c' := by
    simpa using result'.symm.trans result
  exact exchanged.append_left h.pages

theorem mapfree_exchanged {n : ℕ} (h : Holding) (shrinks : n ≤ h.size) :
    Core.Exchanged c (c.mapfree h.map n h.size).2 (h.all c)
      (Holding.all { h with map := (c.mapfree h.map n h.size).1, size := n }
        (c.mapfree h.map n h.size).2) :=
  (Core.mapfree_exchanged shrinks).append_left h.pages

end Holding

namespace Held

variable {κ : Type*} {holding holding' : κ → Holding} {c c' : Core} {x y : κ} {pg : Pg}

/-- A trade of one party with the stack keeps every page in one place. -/
theorem trade (held : Held holding c) (x : κ)
    (exchanged : Core.Exchanged c c' ((holding x).all c) ((holding' x).all c'))
    (same : ∀ y, y ≠ x → holding' y = holding y) : Held holding' c' := by
  have others : ∀ y, y ≠ x → (holding' y).all c' = (holding y).all c := by
    intro y other
    rw [same y other, Holding.all, Holding.all]
    congr 1
    refine Core.mappages_congr fun pg mem => exchanged.frame pg ?_
    exact held.apart.not_mem_append (List.mem_append_right _ mem) other
  refine ⟨held.apart.trade exchanged.perm others, fun y pg mem => ?_⟩
  by_cases here : y = x
  · subst here
    exact held.nonzero y pg (exchanged.perm.mem_iff.mp mem)
  · rcases List.mem_append.mp mem with mine | free
    · rw [others y here] at mine
      exact held.nonzero y pg (List.mem_append_left _ mine)
    · have before : pg ∈ (holding x).all c ++ c.pgstk :=
        exchanged.perm.mem_iff.mp (List.mem_append_right _ free)
      exact held.nonzero x pg before

/-- A page that a party holds is not free, and nobody else holds it. -/
theorem exclusive (held : Held holding c) (mine : pg ∈ (holding x).all c) :
    pg ∉ c.pgstk ∧ ∀ y, y ≠ x → pg ∉ (holding y).all c :=
  ⟨held.apart.not_mem_stock mine, fun _ other => held.apart.not_mem_of_ne mine other⟩

end Held

end UnixV7
