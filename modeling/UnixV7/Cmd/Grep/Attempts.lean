import UnixV7.Cmd.Grep.Extent

/-!
# What attempts leave alone

An attempt of `advance` that fails leaves the groups that were opened or closed before it as they
were, and a group that is referred to before it is closed is never closed. Nothing depends on what
lies behind the memory that was read.
-/

namespace UnixV7

namespace Grep

section

variable {mem : List UInt8} {items ep : List Item} {item : Item} {x : Extent} {lp k n : ℕ}
  {g g' g'' : Groups} {found : Bool} {takes : UInt8 → Bool} {next : ℕ → Groups → Advanced}
  {R : Groups → Groups → Prop}

/-! ## One item -/

/-- An item without a star takes the next character. -/
theorem advance_one (one : item.piece = some ⟨takes, false⟩) (mem : List UInt8) (lp : ℕ)
    (g : Groups) :
    advance mem (item :: ep) lp g =
      (do let d ← mem[lp]?
          if takes d then advance mem ep (lp + 1) g else some (false, g)) := by
  cases item with
  | cchr c star =>
      obtain ⟨rfl, rfl⟩ : (fun d => decide (d = c)) = takes ∧ star = false := by
        simpa [Item.piece] using one
      simp only [advance, decide_eq_true_eq, @eq_comm _ c]
  | cdot star =>
      obtain ⟨rfl, rfl⟩ : (fun d => decide (d ≠ 0)) = takes ∧ star = false := by
        simpa [Item.piece] using one
      simp only [advance, decide_eq_true_eq]
  | ccl table star =>
      obtain ⟨rfl, rfl⟩ : inClass table = takes ∧ star = false := by
        simpa [Item.piece] using one
      rw [advance]
  | _ => cases one

/-- An item with a star is run forward. -/
theorem advance_star (starred : item.piece = some ⟨takes, true⟩) (mem : List UInt8) (lp : ℕ)
    (g : Groups) :
    advance mem (item :: ep) lp g =
      (do let k ← run takes (mem.drop lp)
          star mem ep (advance mem ep) lp g k) := by
  cases item with
  | cchr c star =>
      obtain ⟨rfl, rfl⟩ : (fun d => decide (d = c)) = takes ∧ star = true := by
        simpa [Item.piece] using starred
      rw [advance]
  | cdot star =>
      obtain ⟨rfl, rfl⟩ : (fun d => decide (d ≠ 0)) = takes ∧ star = true := by
        simpa [Item.piece] using starred
      rw [advance]
  | ccl table star =>
      obtain ⟨rfl, rfl⟩ : inClass table = takes ∧ star = true := by
        simpa [Item.piece] using starred
      rw [advance]
  | _ => cases starred

/-- The items are the pieces of the pattern, the brackets, the references and the dollar. -/
theorem Item.kinds (item : Item) :
    (∃ takes, item.piece = some ⟨takes, false⟩) ∨ (∃ takes, item.piece = some ⟨takes, true⟩) ∨
      (∃ n, item = .cbra n) ∨ (∃ n, item = .cket n) ∨ (∃ n star, item = .cback n star) ∨
        item = .cdol := by
  cases item with
  | cchr c star => cases star <;> simp [piece]
  | cdot star => cases star <;> simp [piece]
  | ccl table star => cases star <;> simp [piece]
  | _ => simp

/-- The first character is checked if it is plain. -/
theorem fastCheck_cases (ep : List Item) :
    (∃ c tail, ep = .cchr c false :: tail) ∨
      ∀ mem next lp g, fastCheck mem ep next lp g = next lp g := by
  cases ep with
  | nil => exact Or.inr fun _ _ _ _ => rfl
  | cons item tail =>
      cases item with
      | cchr c star => cases star with
        | false => exact Or.inl ⟨c, tail, rfl⟩
        | true => exact Or.inr fun _ _ _ _ => rfl
      | _ => exact Or.inr fun _ _ _ _ => rfl

/-! ## What is left alone -/

/-- An attempt leaves the groups in the relation. -/
def Keeps (R : Groups → Groups → Prop) (next : ℕ → Groups → Advanced) : Prop :=
  ∀ lp g found g', next lp g = some (found, g') → R g g'

theorem backUp_keeps (trans : ∀ {g g' g''}, R g g' → R g' g'' → R g g'') (keeps : Keeps R next)
    {curlp size : ℕ} (h : backUp next curlp size k g = some (found, g')) : R g g' := by
  induction k generalizing g with
  | zero => exact keeps _ _ _ _ h
  | succ k ih =>
      rw [backUp] at h
      obtain ⟨⟨hit, g₁⟩, first, rest⟩ := Option.bind_eq_some_iff.mp h
      have once := keeps _ _ _ _ first
      cases hit with
      | true =>
          obtain ⟨-, rfl⟩ := Prod.mk.inj (Option.some.inj rest)
          exact once
      | false => exact trans once (ih rest)

theorem fastCheck_keeps (refl : ∀ g, R g g) (keeps : Keeps R next) :
    Keeps R (fastCheck mem ep next) := by
  intro lp g found g' h
  rcases fastCheck_cases ep with ⟨c, tail, rfl⟩ | other
  · obtain ⟨d, -, h⟩ := Option.bind_eq_some_iff.mp h
    split at h
    · obtain ⟨-, rfl⟩ := Prod.mk.inj (Option.some.inj h)
      exact refl g
    · exact keeps _ _ _ _ h
  · rw [other] at h
    exact keeps _ _ _ _ h

theorem star_keeps (refl : ∀ g, R g g) (trans : ∀ {g g' g''}, R g g' → R g' g'' → R g g'')
    (keeps : Keeps R next) (h : star mem ep next lp g k = some (found, g')) : R g g' := by
  unfold star at h
  split at h
  · exact keeps _ _ _ _ h
  · exact backUp_keeps trans (fastCheck_keeps refl keeps) h

/-- Of the groups an item changes at most the one that it opens or closes. -/
theorem advance_keeps (refl : ∀ g, R g g) (trans : ∀ {g g' g''}, R g g' → R g' g'' → R g g'')
    (keeps : Keeps R (advance mem ep))
    (opens : ∀ n lp g g', item = .cbra n → R (g.opening n lp) g' → R g g')
    (closes : ∀ n lp g g', item = .cket n → R (g.closing n lp) g' → R g g') :
    Keeps R (advance mem (item :: ep)) := by
  intro lp g found g' h
  have stop : ∀ {hit : Bool}, some (hit, g) = some (found, g') → R g g' := by
    intro hit h
    obtain ⟨-, rfl⟩ := Prod.mk.inj (Option.some.inj h)
    exact refl g
  have one : ∀ {takes : UInt8 → Prop} [DecidablePred takes] {place : ℕ},
      (do let d ← mem[lp]?
          if takes d then advance mem ep place g else some (false, g)) = some (found, g') →
        R g g' := by
    intro takes _ place h
    obtain ⟨d, -, h⟩ := Option.bind_eq_some_iff.mp h
    split at h
    · exact keeps _ _ _ _ h
    · exact stop h
  rcases item.kinds with ⟨takes, piece⟩ | ⟨takes, piece⟩ | ⟨n, rfl⟩ | ⟨n, rfl⟩ |
    ⟨n, star, rfl⟩ | rfl
  · rw [advance_one piece] at h
    exact one h
  · rw [advance_star piece] at h
    obtain ⟨k, -, h⟩ := Option.bind_eq_some_iff.mp h
    exact star_keeps refl trans keeps h
  · exact opens n lp g g' rfl (keeps _ _ _ _ h)
  · exact closes n lp g g' rfl (keeps _ _ _ _ h)
  · cases star with
    | false =>
        rw [advance] at h
        split at h
        · exact stop h
        · cases h
        · obtain ⟨same, -, h⟩ := Option.bind_eq_some_iff.mp h
          split at h
          · exact keeps _ _ _ _ h
          · exact stop h
    | true =>
        rw [advance] at h
        split at h
        · exact stop h
        · cases h
        · obtain ⟨k, -, h⟩ := Option.bind_eq_some_iff.mp h
          exact backUp_keeps trans keeps h
  · exact one h

/-- The groups that were opened are where they were, and those that were closed end there. -/
def Kept (x : Extent) (g g' : Groups) : Prop :=
  ∀ n, (x.groups.braslist n ≠ none → g'.braslist n = g.braslist n) ∧
    (x.groups.braelist n ≠ none → g'.braelist n = g.braelist n)

theorem Kept.refl (x : Extent) (g : Groups) : Kept x g g := fun _ => ⟨fun _ => rfl, fun _ => rfl⟩

theorem Kept.trans (kept : Kept x g g') (kept' : Kept x g' g'') : Kept x g g'' := fun n =>
  ⟨fun known => ((kept' n).1 known).trans ((kept n).1 known),
    fun known => ((kept' n).2 known).trans ((kept n).2 known)⟩

/-- The groups that are known stay known. -/
theorem Kept.of_step (proper : Proper (item :: ep) x) (kept : Kept (x.step item) g g') :
    Kept x g g' := by
  cases item with
  | cbra n =>
      intro m
      refine ⟨fun known => (kept m).1 ?_, (kept m).2⟩
      have other : m ≠ n := by
        rintro rfl
        exact known proper.1.1
      rwa [show (x.step (.cbra n)).groups.braslist m = x.groups.braslist m from if_neg other]
  | cket n =>
      intro m
      refine ⟨(kept m).1, fun known => (kept m).2 ?_⟩
      have other : m ≠ n := by
        rintro rfl
        exact known proper.1.2
      rwa [show (x.step (.cket n)).groups.braelist m = x.groups.braelist m from if_neg other]
  | _ => exact kept

theorem advance_kept (proper : Proper items x) : Keeps (Kept x) (advance mem items) := by
  induction items generalizing x with
  | nil =>
      intro lp g found g' h
      obtain ⟨-, rfl⟩ := Prod.mk.inj (Option.some.inj h)
      exact Kept.refl x g
  | cons item ep ih =>
      refine advance_keeps (Kept.refl x) Kept.trans ?_ ?_ ?_
      · exact fun lp g found g' h => (ih proper.2 lp g found g' h).of_step proper
      · rintro n lp g g' rfl kept m
        refine ⟨fun known => ?_, (kept m).2⟩
        have other : m ≠ n := by
          rintro rfl
          exact known proper.1.1
        rw [(kept m).1 known]
        exact if_neg other
      · rintro n lp g g' rfl kept m
        refine ⟨(kept m).1, fun known => ?_⟩
        have other : m ≠ n := by
          rintro rfl
          exact known proper.1.2
        rw [(kept m).2 known]
        exact if_neg other

/-- A group with a reference in it is never closed. -/
theorem advance_early (before : refersWithin n items = true) :
    Keeps (fun g g' => g.braelist n = none → g'.braelist n = none) (advance mem items) := by
  induction items with
  | nil => cases before
  | cons item ep ih =>
      have step : refersWithin n ep = true → (∀ m, item = .cket m → m ≠ n) →
          Keeps (fun g g' => g.braelist n = none → g'.braelist n = none)
            (advance mem (item :: ep)) := by
        intro before other
        refine advance_keeps (fun _ => id) (fun first rest => rest ∘ first) (ih before) ?_ ?_
        · exact fun m lp g g' _ kept => kept
        · intro m lp g g' eq kept none
          exact kept ((if_neg (other m eq).symm).trans none)
      cases item with
      | cket m =>
          obtain ⟨other, before⟩ := Bool.and_eq_true_iff.mp before
          refine step before ?_
          rintro m' ⟨⟩
          exact of_decide_eq_true other
      | cback m star =>
          rcases Bool.or_eq_true_iff.mp before with here | before
          · obtain rfl : m = n := of_decide_eq_true here
            intro lp g found g' h none
            have stop : advance mem (.cback m star :: ep) lp g = some (false, g) := by
              cases star <;> rw [advance, none]
            rw [stop] at h
            obtain ⟨-, rfl⟩ := Prod.mk.inj (Option.some.inj h)
            exact none
          · exact step before (by simp)
      | _ => exact step before (by simp)

end

/-! ## Memory behind the line -/

section

variable {mem more l l' : List UInt8} {items ep : List Item} {lp k : ℕ} {g : Groups}
  {r : Bool × Groups} {next next' : ℕ → Groups → Advanced}

/-- What is answered here is answered there. -/
def Agrees (next next' : ℕ → Groups → Advanced) : Prop :=
  ∀ lp g r, next lp g = some r → next' lp g = some r

theorem getElem?_append_some {c : UInt8} (h : mem[lp]? = some c) : (mem ++ more)[lp]? = some c := by
  obtain ⟨less, -⟩ := List.getElem?_eq_some_iff.mp h
  rwa [List.getElem?_append_left less]

theorem ecmp_append {turns turns' a b : ℕ} {count : ℤ} {same : Bool}
    (h : ecmp mem turns a b count = some same) (le : turns ≤ turns') :
    ecmp (mem ++ more) turns' a b count = some same := by
  induction turns generalizing turns' a b count with
  | zero => cases h
  | succ turns ih =>
      obtain ⟨turns', rfl⟩ := Nat.exists_eq_succ_of_ne_zero (Nat.ne_zero_of_lt le)
      rw [ecmp] at h ⊢
      split
      next zero => rwa [if_pos zero] at h
      next nonzero =>
        rw [if_neg nonzero] at h
        cases first : mem[a]? with
        | none =>
            rw [first] at h
            cases h
        | some x =>
            cases second : mem[b]? with
            | none =>
                rw [first, second] at h
                cases h
            | some y =>
                rw [first, second] at h
                rw [getElem?_append_some first, getElem?_append_some second]
                dsimp only at h ⊢
                split at h
                next differs =>
                  rw [if_pos differs]
                  exact h
                next equal =>
                  rw [if_neg equal]
                  exact ih h (Nat.le_of_succ_le_succ le)

theorem repeats_append {turns turns' a : ℕ} {ct : ℤ}
    (h : repeats mem a ct turns lp = some k) (le : turns ≤ turns') :
    repeats (mem ++ more) a ct turns' lp = some k := by
  induction turns generalizing turns' lp k with
  | zero => cases h
  | succ turns ih =>
      obtain ⟨turns', rfl⟩ := Nat.exists_eq_succ_of_ne_zero (Nat.ne_zero_of_lt le)
      rw [repeats] at h ⊢
      cases compared : ecmp mem (mem.length + 1) a lp ct with
      | none =>
          rw [compared] at h
          cases h
      | some same =>
          have compared' : ecmp (mem ++ more) ((mem ++ more).length + 1) a lp ct = some same :=
            ecmp_append compared (by simp)
          rw [compared] at h
          rw [compared']
          cases same with
          | false => exact h
          | true =>
              obtain ⟨j, rest, rfl⟩ := Option.map_eq_some_iff.mp h
              dsimp only
              rw [ih rest (Nat.le_of_succ_le_succ le)]
              rfl

theorem run_append {takes : UInt8 → Bool} (h : run takes l = some k) :
    run takes (l ++ l') = some k := by
  induction l generalizing k with
  | nil => cases h
  | cons c l ih =>
      rw [run] at h
      rw [List.cons_append, run]
      split at h
      next taken =>
        obtain ⟨j, rest, rfl⟩ := Option.map_eq_some_iff.mp h
        rw [if_pos taken, ih rest]
        rfl
      next other =>
        rw [if_neg other]
        exact h

theorem run_drop_append {takes : UInt8 → Bool} (h : run takes (mem.drop lp) = some k) :
    run takes ((mem ++ more).drop lp) = some k := by
  rw [List.drop_append]
  exact run_append h

theorem backUp_agrees (agrees : Agrees next next') {curlp size : ℕ}
    (h : backUp next curlp size k g = some r) : backUp next' curlp size k g = some r := by
  induction k generalizing g with
  | zero => exact agrees _ _ _ h
  | succ k ih =>
      rw [backUp] at h ⊢
      obtain ⟨⟨hit, g₁⟩, first, rest⟩ := Option.bind_eq_some_iff.mp h
      rw [agrees _ _ _ first]
      cases hit with
      | true => exact rest
      | false => exact ih rest

theorem fastCheck_agrees (agrees : Agrees next next') :
    Agrees (fastCheck mem ep next) (fastCheck (mem ++ more) ep next') := by
  intro lp g r h
  rcases fastCheck_cases ep with ⟨c, tail, rfl⟩ | other
  · rw [fastCheck] at h ⊢
    obtain ⟨d, read, h⟩ := Option.bind_eq_some_iff.mp h
    rw [getElem?_append_some read]
    change (if d ≠ c then some (false, g) else next' lp g) = some r
    split
    next differs => rwa [if_pos differs] at h
    next same =>
      rw [if_neg same] at h
      exact agrees _ _ _ h
  · rw [other] at h ⊢
    exact agrees _ _ _ h

theorem star_agrees (agrees : Agrees next next') (h : star mem ep next lp g k = some r) :
    star (mem ++ more) ep next' lp g k = some r := by
  unfold star at h ⊢
  split
  next zero =>
    rw [if_pos zero] at h
    exact agrees _ _ _ h
  next nonzero =>
    rw [if_neg nonzero] at h
    exact backUp_agrees (fastCheck_agrees agrees) h

/-- What lies behind the memory that is read makes no difference. -/
theorem advance_append : Agrees (advance mem items) (advance (mem ++ more) items) := by
  induction items with
  | nil => exact fun _ _ _ => id
  | cons item ep ih =>
      intro lp g r h
      have one : ∀ {takes : UInt8 → Prop} [DecidablePred takes] {place : ℕ},
          (do let d ← mem[lp]?
              if takes d then advance mem ep place g else some (false, g)) = some r →
          (do let d ← (mem ++ more)[lp]?
              if takes d then advance (mem ++ more) ep place g else some (false, g)) = some r := by
        intro takes _ place h
        obtain ⟨d, read, h⟩ := Option.bind_eq_some_iff.mp h
        rw [getElem?_append_some read]
        change (if takes d then advance (mem ++ more) ep place g else some (false, g)) = some r
        split
        next taken =>
          rw [if_pos taken] at h
          exact ih _ _ _ h
        next other => rwa [if_neg other] at h
      rcases item.kinds with ⟨takes, piece⟩ | ⟨takes, piece⟩ | ⟨n, rfl⟩ | ⟨n, rfl⟩ |
        ⟨n, star, rfl⟩ | rfl
      · rw [advance_one piece] at h ⊢
        exact one h
      · rw [advance_star piece] at h ⊢
        obtain ⟨k, passed, h⟩ := Option.bind_eq_some_iff.mp h
        rw [run_drop_append passed]
        exact star_agrees ih h
      · exact ih _ _ _ h
      · exact ih _ _ _ h
      · cases stop : g.braelist n with
        | none => cases star <;> (rw [advance, stop] at h ⊢; exact h)
        | some bend =>
            cases start : g.braslist n with
            | none => cases star <;> (rw [advance, start, stop] at h; cases h)
            | some bbeg => cases star with
              | false =>
                  rw [advance, start, stop] at h ⊢
                  obtain ⟨same, compared, h⟩ := Option.bind_eq_some_iff.mp h
                  dsimp only
                  rw [ecmp_append compared (by simp)]
                  change (if same then advance (mem ++ more) ep _ g else some (false, g)) = some r
                  split
                  next yes =>
                    rw [if_pos yes] at h
                    exact ih _ _ _ h
                  next no => rwa [if_neg no] at h
              | true =>
                  rw [advance, start, stop] at h ⊢
                  obtain ⟨k, met, h⟩ := Option.bind_eq_some_iff.mp h
                  dsimp only
                  rw [repeats_append met (by simp)]
                  exact backUp_agrees ih h
      · exact one h

theorem search_agrees (agrees : Agrees next next') (h : search next l lp g = some r) :
    search next' (l ++ l') lp g = some r := by
  induction l generalizing lp g with
  | nil => cases h
  | cons c l ih =>
      rw [search] at h
      obtain ⟨⟨hit, g₁⟩, first, rest⟩ := Option.bind_eq_some_iff.mp h
      dsimp only at rest
      rw [List.cons_append, search, agrees _ _ _ first]
      change (if hit then some (true, g₁) else if c = 0 then some (false, g₁)
        else search next' (l ++ l') (lp + 1) g₁) = some r
      split
      next yes => rwa [if_pos yes] at rest
      next no =>
        rw [if_neg no] at rest
        split
        next last => rwa [if_pos last] at rest
        next inside =>
          rw [if_neg inside] at rest
          exact ih rest

theorem matchLine_append {circf : Bool} (h : matchLine items circf mem g = some r) :
    matchLine items circf (mem ++ more) g = some r := by
  unfold matchLine at h ⊢
  split
  next start =>
    rw [if_pos start] at h
    exact advance_append _ _ _ h
  next anywhere =>
    rw [if_neg anywhere] at h
    exact search_agrees (fastCheck_agrees advance_append) h

end

end Grep

end UnixV7
