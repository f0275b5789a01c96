import Mathlib.Algebra.GroupWithZero.Nat
import Mathlib.Data.List.Forall2
import Mathlib.Data.List.Infix
import Mathlib.Tactic.Common

/-!
# File name matching of the shell

`gmatch` of `expand.c`, and what it should be: a name matches a pattern when it falls into pieces
that match the items of the pattern. A string is the list of its bytes before the null, and reading
behind the null gives nothing.
-/

namespace UnixV7.Sh

/-- A character without its quote. -/
def strip (c : UInt8) : ℕ := (c &&& 0o177).toNat

/-- `scc`: the first character of the name. -/
def first : List UInt8 → ℕ
  | [] => 0
  | c :: _ => if strip c = 0 then 0o200 else strip c

/-- The characters of a class up to the closing bracket, with `lc` and `ok`: in the end `ok` and
what is behind. Without a bracket nothing matches. -/
def members (scc : ℕ) : ℕ → UInt8 → List UInt8 → Option (UInt8 × List UInt8)
  | _, _, [] => some (0, [])
  | lc, ok, c :: p =>
      if c = ']'.toUInt8 then some (ok, p)
      else if c = '-'.toUInt8 then
        if lc ≤ scc then
          match p with
          | [] => none
          | high :: p => members scc lc (if scc ≤ strip high then ok + 1 else ok) p
        else members scc lc ok p
      else members scc (strip c) (if scc = strip c then ok + 1 else ok) p

/-- The loop over the ends of the name that are not empty. -/
def ends (rest : List UInt8 → Option Bool) : List UInt8 → Option Bool
  | [] => some false
  | c :: s => rest (c :: s) >>= fun found => if found then some true else ends rest s

theorem members_length {scc lc : ℕ} {ok ok' : UInt8} {p rest : List UInt8}
    (found : members scc lc ok p = some (ok', rest)) : rest.length ≤ p.length := by
  fun_induction members with
  | case1 lc ok =>
      obtain ⟨-, rfl⟩ := Prod.mk.inj (Option.some.inj found)
      exact le_rfl
  | case2 lc ok p =>
      obtain ⟨-, rfl⟩ := Prod.mk.inj (Option.some.inj found)
      exact Nat.le_succ _
  | case3 lc ok close low => cases found
  | case4 lc ok low high p close ih =>
      exact (ih found).trans ((Nat.le_succ _).trans (Nat.le_succ _))
  | case5 lc ok p close low ih => exact (ih found).trans (Nat.le_succ _)
  | case6 lc ok c p close hyphen ih => exact (ih found).trans (Nat.le_succ _)

/-- `gmatch` -/
def gmatch (s p : List UInt8) : Option Bool :=
  let scc := first s
  match p with
  | [] => some (scc = 0)
  | c :: p =>
      if c = '['.toUInt8 then
        match _found : members scc 0o77777 0 p with
        | none => none
        | some (ok, rest) =>
            if ok = 0 then some false else if scc = 0 then none else gmatch s.tail rest
      else if c = '*'.toUInt8 then
        if p = [] then some true else ends (fun t => gmatch t p) s
      else if c ≠ '?'.toUInt8 ∧ strip c ≠ scc then some false
      else if scc = 0 then some false else gmatch s.tail p
termination_by p.length
decreasing_by
  · exact Nat.lt_succ_of_le (members_length _found)
  · exact Nat.lt_succ_self _
  · exact Nat.lt_succ_self _

/-! ## Patterns -/

/-- What a class lists: a character, or those from one to another. -/
inductive Member
  | single (c : UInt8)
  | range (low high : UInt8)

/-- An item of a pattern: a character, `?`, a class, or `*`. -/
inductive Item
  | char (c : UInt8)
  | any
  | cls (members : List Member)
  | star

namespace Member

/-- The characters in the pattern. -/
def text : Member → List UInt8
  | single c => [c]
  | range low high => [low, '-'.toUInt8, high]

/-- A character that a class can list: a hyphen or a closing bracket must be quoted. -/
def Listed (c : UInt8) : Prop := strip c ≠ 0 ∧ c ≠ ']'.toUInt8 ∧ c ≠ '-'.toUInt8

/-- A range may end in a hyphen. -/
def Proper : Member → Prop
  | single c => Listed c
  | range low high => Listed low ∧ high ≠ ']'.toUInt8 ∧ strip low ≤ strip high

/-- The member lists the character. -/
def Lists (c : ℕ) : Member → Prop
  | single x => c = strip x
  | range low high => strip low ≤ c ∧ c ≤ strip high

/-- How often the character is found in the member: the low end of a range is found twice. -/
def hits (c : ℕ) : Member → ℕ
  | single x => if c = strip x then 1 else 0
  | range low high =>
      (if c = strip low then 1 else 0) + if strip low ≤ c ∧ c ≤ strip high then 1 else 0

end Member

namespace Item

/-- The characters in the pattern. -/
def text : Item → List UInt8
  | char c => [c]
  | any => ['?'.toUInt8]
  | cls members => '['.toUInt8 :: members.flatMap Member.text ++ [']'.toUInt8]
  | star => ['*'.toUInt8]

/-- A character without a quote is an ordinary one. -/
def Proper : Item → Prop
  | char c => strip c ≠ 0 ∧ c ≠ '['.toUInt8 ∧ c ≠ '?'.toUInt8 ∧ c ≠ '*'.toUInt8
  | cls members => ∀ m ∈ members, m.Proper
  | _ => True

/-- The pieces of a name that an item matches. -/
def Takes : Item → List UInt8 → Prop
  | char c, piece => ∃ x, piece = [x] ∧ strip x = strip c
  | any, piece => ∃ x, piece = [x]
  | cls members, piece => ∃ x, piece = [x] ∧ ∃ m ∈ members, m.Lists (strip x)
  | star, _ => True

/-- How often a character is found in a class. -/
def hits (members : List Member) (c : ℕ) : ℕ := (members.map (Member.hits c)).sum

/-- The pieces that an item matches without `ok` running over. -/
def Safely : Item → List UInt8 → Prop
  | cls members, piece => ∃ x, piece = [x] ∧ hits members (strip x) % 256 ≠ 0
  | item, piece => item.Takes piece

end Item

/-- The characters of a pattern. -/
def text (p : List Item) : List UInt8 := p.flatMap Item.text

/-- The name falls into pieces that match the items of the pattern. -/
def Matches (s : List UInt8) (p : List Item) : Prop :=
  ∃ pieces, List.Forall₂ Item.Takes p pieces ∧ pieces.flatten = s

/-- It does so with no class listing one of its characters 256 times, or a multiple of it, and
with something for the last of several stars at the end. -/
def Safely (s : List UInt8) (p : List Item) : Prop :=
  ∃ pieces, List.Forall₂ Item.Safely p pieces ∧ pieces.flatten = s ∧
    ([.star, .star] <:+ p → pieces.getLast? ≠ some [])

/-- What `gmatch` makes of the items, one by one. -/
def Steps : List Item → List UInt8 → Prop
  | [], s => s = []
  | .star :: p, s => p = [] ∨ ∃ u t, s = u ++ t ∧ t ≠ [] ∧ Steps p t
  | item :: p, s => ∃ x t, s = x :: t ∧ item.Safely [x] ∧ Steps p t

variable {s t rest : List UInt8} {p : List Item} {ms : List Member} {c : UInt8} {scc : ℕ}

/-! ## One call -/

theorem members_close (scc lc : ℕ) (ok : UInt8) (rest : List UInt8) :
    members scc lc ok (']'.toUInt8 :: rest) = some (ok, rest) := by
  rw [members.eq_def]
  exact if_pos rfl

theorem members_single (close : c ≠ ']'.toUInt8) (hyphen : c ≠ '-'.toUInt8) (scc lc : ℕ)
    (ok : UInt8) (rest : List UInt8) :
    members scc lc ok (c :: rest) =
      members scc (strip c) (if scc = strip c then ok + 1 else ok) rest := by
  rw [members.eq_def]
  exact (if_neg close).trans (if_neg hyphen)

theorem members_hyphen {lc : ℕ} (below : lc ≤ scc) (ok high : UInt8) (rest : List UInt8) :
    members scc lc ok ('-'.toUInt8 :: high :: rest) =
      members scc lc (if scc ≤ strip high then ok + 1 else ok) rest := by
  rw [members.eq_def]
  exact (if_neg (by decide)).trans ((if_pos rfl).trans (if_pos below))

/-- In front of a range that starts behind the character the hyphen is skipped. -/
theorem members_skip {lc : ℕ} (above : ¬ lc ≤ scc) (ok : UInt8) (rest : List UInt8) :
    members scc lc ok ('-'.toUInt8 :: rest) = members scc lc ok rest := by
  rw [members.eq_def]
  exact (if_neg (by decide)).trans ((if_pos rfl).trans (if_neg above))

/-- A class is read up to its bracket, and `ok` counts the hits. -/
theorem members_text (rest : List UInt8) (proper : ∀ m ∈ ms, m.Proper) (scc lc : ℕ)
    (ok : UInt8) :
    members scc lc ok (ms.flatMap Member.text ++ ']'.toUInt8 :: rest) =
      some (ok + .ofNat (Item.hits ms scc), rest) := by
  induction ms generalizing lc ok with
  | nil =>
      rw [List.flatMap_nil, List.nil_append, members_close]
      exact congrArg (fun n => some (n, rest)) (UInt8.add_zero ok).symm
  | cons m ms ih =>
      obtain ⟨proper, others⟩ := List.forall_mem_cons.mp proper
      have count : Item.hits (m :: ms) scc = m.hits scc + Item.hits ms scc := by
        rw [Item.hits, List.map_cons, List.sum_cons, Item.hits]
      have next : ∀ (lc : ℕ) (ok' : UInt8), ok' = ok + .ofNat (m.hits scc) →
          members scc lc ok' (ms.flatMap Member.text ++ ']'.toUInt8 :: rest) =
            some (ok + .ofNat (Item.hits (m :: ms) scc), rest) := by
        intro lc ok' same
        rw [ih others, same, count, UInt8.ofNat_add, UInt8.add_assoc]
      rw [List.flatMap_cons, List.append_assoc]
      cases m with
      | single x =>
          rw [Member.text, List.singleton_append, members_single proper.2.1 proper.2.2]
          apply next
          rw [Member.hits]
          split
          · rfl
          · exact (UInt8.add_zero ok).symm
      | range low high =>
          obtain ⟨listed, close, order⟩ := proper
          rw [Member.text, List.cons_append, List.cons_append, List.singleton_append,
            members_single listed.2.1 listed.2.2]
          obtain below | above := em (strip low ≤ scc)
          · rw [members_hyphen below]
            apply next
            simp only [Member.hits, and_iff_right below]
            obtain equal | other := eq_or_ne scc (strip low)
            · rw [if_pos equal, if_pos equal, if_pos (equal ▸ order), if_pos (equal ▸ order),
                UInt8.add_assoc]
              rfl
            · rw [if_neg other, if_neg other, Nat.zero_add]
              split
              · rfl
              · exact (UInt8.add_zero ok).symm
          · have notLow : scc ≠ strip low := fun same => above same.ge
            have notHigh : scc ≠ strip high := fun same => above (same ▸ order)
            have count' : ok = ok + .ofNat ((Member.range low high).hits scc) := by
              rw [Member.hits, if_neg notLow, if_neg fun both => above both.1]
              exact (UInt8.add_zero ok).symm
            rw [members_skip above, if_neg notLow]
            -- the high end is read once more, as a character or as a hyphen
            obtain rfl | hyphen := eq_or_ne high '-'.toUInt8
            · rw [members_skip above]
              exact next _ _ count'
            · rw [members_single close hyphen, if_neg notHigh]
              exact next _ _ count'

/-- A class is read in one go. -/
theorem gmatch_cls (proper : ∀ m ∈ ms, m.Proper) (s rest : List UInt8) :
    gmatch s ((Item.cls ms).text ++ rest) =
      if UInt8.ofNat (Item.hits ms (first s)) = 0 then some false
      else if first s = 0 then none else gmatch s.tail rest := by
  have read := members_text rest proper (first s) 0o77777 0
  rw [UInt8.zero_add] at read
  rw [Item.text, List.append_assoc, List.cons_append, List.singleton_append, gmatch, if_pos rfl]
  split
  next failed => exact absurd (read.symm.trans failed) (by simp)
  next ok rest' found =>
    obtain ⟨rfl, rfl⟩ := Prod.mk.inj (Option.some.inj (read.symm.trans found))
    rfl

theorem gmatch_star (s : List UInt8) (p : List UInt8) :
    gmatch s ('*'.toUInt8 :: p) = if p = [] then some true else ends (fun t => gmatch t p) s := by
  rw [gmatch, if_neg (by decide), if_pos rfl]

theorem gmatch_any (s : List UInt8) (p : List UInt8) :
    gmatch s ('?'.toUInt8 :: p) = if first s = 0 then some false else gmatch s.tail p := by
  rw [gmatch, if_neg (by decide), if_neg (by decide), if_neg (fun both => both.1 rfl)]

theorem gmatch_char (proper : (Item.char c).Proper) (s : List UInt8) (p : List UInt8) :
    gmatch s (c :: p) = if strip c ≠ first s then some false else gmatch s.tail p := by
  obtain ⟨some', bracket, query, asterisk⟩ := proper
  rw [gmatch, if_neg bracket, if_neg asterisk]
  split
  next both => rw [if_pos both.2]
  next same =>
    have same' : strip c = first s := by
      by_contra other
      exact same ⟨query, other⟩
    rw [if_neg (not_not.mpr same'), if_neg (same' ▸ some')]

/-- The loop over the ends of the name. -/
theorem ends_spec {next : List UInt8 → Option Bool} {P : List UInt8 → Prop}
    (each : ∀ t, t <:+ s → ∃ b, next t = some b ∧ (b = true ↔ P t)) :
    ∃ b, ends next s = some b ∧ (b = true ↔ ∃ u t, s = u ++ t ∧ t ≠ [] ∧ P t) := by
  induction s with
  | nil =>
      refine ⟨false, rfl, iff_of_false Bool.false_ne_true ?_⟩
      rintro ⟨u, t, same, some', -⟩
      exact some' (List.append_eq_nil_iff.mp same.symm).2
  | cons x s ih =>
      obtain ⟨b, run, found⟩ := each (x :: s) (List.suffix_refl _)
      obtain ⟨b', run', found'⟩ := ih fun t suffix => each t (suffix.trans (List.suffix_cons x s))
      rw [ends, run]
      cases b with
      | true => exact ⟨true, rfl, iff_of_true rfl ⟨[], _, rfl, List.cons_ne_nil x s, found.mp rfl⟩⟩
      | false =>
          refine ⟨b', run', found'.trans ⟨?_, ?_⟩⟩
          · rintro ⟨u, t, rfl, some', holds⟩
            exact ⟨x :: u, t, rfl, some', holds⟩
          · rintro ⟨u, t, same, some', holds⟩
            cases u with
            | nil =>
                rw [List.nil_append] at same
                exact absurd (found.mpr (same ▸ holds)) Bool.false_ne_true
            | cons y u => exact ⟨u, t, (List.cons.inj same).2, some', holds⟩

theorem first_cons (some' : strip c ≠ 0) (s : List UInt8) : first (c :: s) = strip c := if_neg some'

/-- What a class does not list is not found in it. -/
theorem hits_eq_zero {c : ℕ} (proper : ∀ m ∈ ms, m.Proper) (none : ∀ m ∈ ms, ¬ m.Lists c) :
    Item.hits ms c = 0 := by
  induction ms with
  | nil => rfl
  | cons m ms ih =>
      obtain ⟨proper, others⟩ := List.forall_mem_cons.mp proper
      obtain ⟨not, none⟩ := List.forall_mem_cons.mp none
      rw [Item.hits, List.map_cons, List.sum_cons, ← Item.hits, ih others none]
      cases m with
      | single x => exact if_neg not
      | range low high =>
          have notLow : c ≠ strip low := by
            rintro rfl
            exact not ⟨le_rfl, proper.2.2⟩
          rw [Member.hits, if_neg notLow, Nat.zero_add]
          exact if_neg not

theorem hits_zero (proper : ∀ m ∈ ms, m.Proper) : Item.hits ms 0 = 0 := by
  refine hits_eq_zero proper fun m mem lists => ?_
  have proper := proper m mem
  cases m with
  | single x => exact proper.1 lists.symm
  | range low high => exact proper.1.1 (Nat.le_zero.mp lists.1)

theorem ofNat_eq_zero (n : ℕ) : UInt8.ofNat n = 0 ↔ n % 256 = 0 := by
  rw [← UInt8.toNat_inj, UInt8.toNat_ofNat', UInt8.toNat_zero]

theorem text_eq_nil : text p = [] ↔ p = [] := by
  cases p with
  | nil => exact iff_of_true rfl rfl
  | cons item p =>
      refine iff_of_false (fun none => ?_) (List.cons_ne_nil item p)
      have none' := (List.append_eq_nil_iff.mp none).1
      cases item <;> exact List.cons_ne_nil _ _ none'

/-- An item that matches one character. -/
theorem step_spec {item : Item} (names : ∀ x ∈ s, strip x ≠ 0) (proper : item.Proper)
    (one : item ≠ .star)
    (ih : ∀ t, (∀ x ∈ t, strip x ≠ 0) → ∃ b, gmatch t (text p) = some b ∧ (b = true ↔ Steps p t)) :
    ∃ b, gmatch s (item.text ++ text p) = some b ∧
      (b = true ↔ ∃ x t, s = x :: t ∧ item.Safely [x] ∧ Steps p t) := by
  have none : ∀ b, b = false →
      (¬ ∃ x t, s = x :: t ∧ item.Safely [x] ∧ Steps p t) →
      ∃ b', some b = some b' ∧ (b' = true ↔ ∃ x t, s = x :: t ∧ item.Safely [x] ∧ Steps p t) :=
    fun b same not => ⟨b, rfl, iff_of_false (by rw [same]; exact Bool.false_ne_true) not⟩
  cases s with
  | nil =>
      have not : ¬ ∃ x t, [] = x :: t ∧ item.Safely [x] ∧ Steps p t := by
        rintro ⟨x, t, same, -⟩
        cases same
      cases item with
      | star => exact absurd rfl one
      | any =>
          rw [Item.text, List.singleton_append, gmatch_any]
          exact none false rfl not
      | char c =>
          rw [Item.text, List.singleton_append, gmatch_char proper,
            if_pos (show strip c ≠ first [] from proper.1)]
          exact none false rfl not
      | cls ms =>
          rw [gmatch_cls proper, first, hits_zero proper]
          exact none false rfl not
  | cons x t =>
      have some' := names x List.mem_cons_self
      obtain ⟨b, run, found⟩ := ih t fun y mem => names y (List.mem_cons_of_mem x mem)
      have safe : item.Safely [x] →
          (b = true ↔ ∃ y u, x :: t = y :: u ∧ item.Safely [y] ∧ Steps p u) := by
        intro safe
        rw [found]
        refine ⟨fun steps => ⟨x, t, rfl, safe, steps⟩, ?_⟩
        rintro ⟨y, u, same, -, steps⟩
        obtain ⟨rfl, rfl⟩ := List.cons.inj same
        exact steps
      have unsafe' : ¬ item.Safely [x] →
          ¬ ∃ y u, x :: t = y :: u ∧ item.Safely [y] ∧ Steps p u := by
        rintro wrong ⟨y, u, same, safe, -⟩
        obtain ⟨rfl, rfl⟩ := List.cons.inj same
        exact wrong safe
      cases item with
      | star => exact absurd rfl one
      | any =>
          rw [Item.text, List.singleton_append, gmatch_any, first_cons some', if_neg some']
          exact ⟨b, run, safe ⟨x, rfl⟩⟩
      | char c =>
          rw [Item.text, List.singleton_append, gmatch_char proper, first_cons some']
          split
          next other =>
            refine none false rfl (unsafe' ?_)
            rintro ⟨y, same, equal⟩
            obtain ⟨rfl, -⟩ := List.cons.inj same
            exact other equal.symm
          next same => exact ⟨b, run, safe ⟨x, rfl, (not_not.mp same).symm⟩⟩
      | cls ms =>
          rw [gmatch_cls proper, first_cons some']
          split
          next passed =>
            refine none false rfl (unsafe' ?_)
            rintro ⟨y, same, hits⟩
            obtain ⟨rfl, -⟩ := List.cons.inj same
            exact hits ((ofNat_eq_zero _).mp passed)
          next hits =>
            exact ⟨b, run, safe ⟨x, rfl, fun passed => hits ((ofNat_eq_zero _).mpr passed)⟩⟩

/-- What `gmatch` returns, item by item. -/
theorem gmatch_steps (names : ∀ x ∈ s, strip x ≠ 0) (proper : ∀ i ∈ p, i.Proper) :
    ∃ b, gmatch s (text p) = some b ∧ (b = true ↔ Steps p s) := by
  induction p generalizing s with
  | nil =>
      rw [text, List.flatMap_nil, gmatch]
      refine ⟨_, rfl, ?_⟩
      rw [decide_eq_true_eq, Steps]
      cases s with
      | nil => exact iff_of_true rfl rfl
      | cons x s =>
          have some' := names x List.mem_cons_self
          rw [first_cons some']
          exact iff_of_false some' (List.cons_ne_nil x s)
  | cons item p ih =>
      obtain ⟨proper, others⟩ := List.forall_mem_cons.mp proper
      rw [text, List.flatMap_cons, ← text]
      cases item with
      | star =>
          rw [Item.text, List.singleton_append, gmatch_star, Steps]
          split
          next last => exact ⟨true, rfl, iff_of_true rfl (.inl (text_eq_nil.mp last))⟩
          next more =>
            rw [or_iff_right fun none => more (text_eq_nil.mpr none)]
            refine ends_spec fun t suffix => ?_
            exact ih (fun x mem => names x (suffix.subset mem)) others
      | any =>
          exact step_spec names proper (fun same => by cases same) fun t names => ih names others
      | char c =>
          exact step_spec names proper (fun same => by cases same) fun t names => ih names others
      | cls ms =>
          exact step_spec names proper (fun same => by cases same) fun t names => ih names others

/-! ## Pieces -/

theorem Item.Safely.one {item : Item} (one : item ≠ .star) {piece : List UInt8}
    (safe : item.Safely piece) : ∃ x, piece = [x] := by
  cases item with
  | star => exact absurd rfl one
  | any => exact safe
  | char c => exact safe.imp fun x both => both.1
  | cls ms => exact safe.imp fun x both => both.1

theorem suffix_cons {item : Item} (one : item ≠ .star) :
    [.star, .star] <:+ item :: p ↔ [.star, .star] <:+ p := by
  rw [List.suffix_cons_iff]
  exact or_iff_right fun same => one (List.cons.inj same).1.symm

theorem suffix_star : [.star, .star] <:+ Item.star :: p ↔ p = [.star] ∨ [.star, .star] <:+ p := by
  rw [List.suffix_cons_iff]
  exact or_congr_left ⟨fun same => (List.cons.inj same).2.symm, fun same => by rw [same]⟩

theorem getLast_cons {piece : List UInt8} {pieces : List (List UInt8)} (some' : pieces ≠ []) :
    (piece :: pieces).getLast? = pieces.getLast? := by
  cases pieces with
  | nil => exact absurd rfl some'
  | cons piece' pieces => rw [List.getLast?_cons_cons]

theorem pieces_ne_nil {pieces : List (List UInt8)} (takes : List.Forall₂ Item.Safely p pieces)
    (some' : p ≠ []) : pieces ≠ [] := by
  cases takes with
  | nil => exact absurd rfl some'
  | cons _ _ => exact List.cons_ne_nil _ _

/-- Items that match nothing at all are stars. -/
theorem eq_replicate {pieces : List (List UInt8)} (takes : List.Forall₂ Item.Safely p pieces)
    (none : pieces.flatten = []) : ∀ item ∈ p, item = .star := by
  induction takes with
  | nil => exact List.forall_mem_nil _
  | @cons item piece p pieces safe takes ih =>
      obtain ⟨none, none'⟩ := List.append_eq_nil_iff.mp none
      refine List.forall_mem_cons.mpr ⟨?_, ih none'⟩
      by_contra one
      obtain ⟨x, same⟩ := safe.one one
      exact absurd (same.symm.trans none) (List.cons_ne_nil x [])

theorem stars_suffix (some' : p ≠ []) (stars : ∀ item ∈ p, item = .star) :
    [.star, .star] <:+ Item.star :: p := by
  induction p with
  | nil => exact absurd rfl some'
  | cons item p ih =>
      obtain ⟨rfl, others⟩ := List.forall_mem_cons.mp stars
      rw [suffix_star]
      cases p with
      | nil => exact .inl rfl
      | cons item p => exact .inr (ih (List.cons_ne_nil item p) others)

theorem safely_cons {item : Item} (one : item ≠ .star) :
    Safely s (item :: p) ↔ ∃ x t, s = x :: t ∧ item.Safely [x] ∧ Safely t p := by
  constructor
  · rintro ⟨_, all, rfl, last⟩
    obtain ⟨piece, pieces, safe, takes, rfl⟩ := List.forall₂_cons_left_iff.mp all
    obtain ⟨x, rfl⟩ := safe.one one
    refine ⟨x, pieces.flatten, rfl, safe, pieces, takes, rfl, fun stars => ?_⟩
    have some' : p ≠ [] := by
      rintro rfl
      exact absurd (List.suffix_nil.mp stars) (List.cons_ne_nil _ _)
    rw [← getLast_cons (pieces_ne_nil takes some')]
    exact last ((suffix_cons one).mpr stars)
  · rintro ⟨x, t, rfl, safe, pieces, takes, rfl, last⟩
    refine ⟨[x] :: pieces, .cons safe takes, rfl, fun stars => ?_⟩
    have stars' := (suffix_cons one).mp stars
    have some' : p ≠ [] := by
      rintro rfl
      exact absurd (List.suffix_nil.mp stars') (List.cons_ne_nil _ _)
    rw [getLast_cons (pieces_ne_nil takes some')]
    exact last stars'

theorem safely_star (some' : p ≠ []) :
    Safely s (.star :: p) ↔ ∃ u t, s = u ++ t ∧ t ≠ [] ∧ Safely t p := by
  constructor
  · rintro ⟨_, all, rfl, last⟩
    obtain ⟨piece, pieces, -, takes, rfl⟩ := List.forall₂_cons_left_iff.mp all
    have more := pieces_ne_nil takes some'
    rw [getLast_cons more] at last
    refine ⟨piece, pieces.flatten, rfl, fun none => ?_, pieces, takes, rfl,
      fun stars => last (suffix_star.mpr (.inr stars))⟩
    -- the pieces behind the star are all empty, so that stars are all that is left
    have stars := stars_suffix some' (eq_replicate takes none)
    refine last stars ?_
    rw [List.getLast?_eq_getLast_of_ne_nil more]
    exact congrArg some (List.flatten_eq_nil_iff.mp none _ (List.getLast_mem more))
  · rintro ⟨u, t, rfl, some'', pieces, takes, rfl, last⟩
    have more := pieces_ne_nil takes some'
    refine ⟨u :: pieces, .cons trivial takes, rfl, fun stars => ?_⟩
    rw [getLast_cons more]
    obtain rfl | stars := suffix_star.mp stars
    · obtain ⟨piece, _, -, none', rfl⟩ := List.forall₂_cons_left_iff.mp takes
      cases none'
      rw [List.getLast?_singleton]
      intro none
      exact some'' (by rw [Option.some.inj none]; rfl)
    · exact last stars

/-- The pieces are those of the calls. -/
theorem steps_iff (p : List Item) (s : List UInt8) : Steps p s ↔ Safely s p := by
  induction p generalizing s with
  | nil =>
      rw [Steps]
      constructor
      · rintro rfl
        exact ⟨[], .nil, rfl, fun _ same => by cases same⟩
      · rintro ⟨pieces, takes, rfl, -⟩
        cases takes
        rfl
  | cons item p ih =>
      have one' : item ≠ .star →
          ((∃ x t, s = x :: t ∧ item.Safely [x] ∧ Steps p t) ↔ Safely s (item :: p)) := by
        intro one
        rw [safely_cons one]
        simp only [ih]
      cases item with
      | star =>
          rw [Steps]
          obtain rfl | some' := eq_or_ne p []
          · refine iff_of_true (.inl rfl) ⟨[s], .cons trivial .nil, by simp, fun stars => ?_⟩
            obtain same | stars := suffix_star.mp stars
            · cases same
            · exact absurd (List.suffix_nil.mp stars) (List.cons_ne_nil _ _)
          · rw [or_iff_right some', safely_star some']
            simp only [ih]
      | any => exact one' fun same => by cases same
      | char c => exact one' fun same => by cases same
      | cls ms => exact one' fun same => by cases same

/-! ## What the shell matches -/

theorem lists_of_hits {c : ℕ} (proper : ∀ m ∈ ms, m.Proper)
    (some' : Item.hits ms c % 256 ≠ 0) : ∃ m ∈ ms, m.Lists c := by
  by_contra none
  push Not at none
  refine some' ?_
  rw [hits_eq_zero proper none]

theorem Item.Safely.takes {item : Item} {piece : List UInt8} (proper : item.Proper)
    (safe : item.Safely piece) : item.Takes piece := by
  cases item with
  | cls ms =>
      obtain ⟨x, same, hits⟩ := safe
      exact ⟨x, same, lists_of_hits proper hits⟩
  | any => exact safe
  | char c => exact safe
  | star => exact safe

theorem takes_of_safely {pieces : List (List UInt8)} (proper : ∀ i ∈ p, i.Proper)
    (safe : List.Forall₂ Item.Safely p pieces) : List.Forall₂ Item.Takes p pieces := by
  induction safe with
  | nil => exact .nil
  | cons safe _ ih =>
      obtain ⟨proper, others⟩ := List.forall_mem_cons.mp proper
      exact .cons (safe.takes proper) (ih others)

theorem matches_of_safely (proper : ∀ i ∈ p, i.Proper) (safely : Safely s p) : Matches s p := by
  obtain ⟨pieces, safe, flat, -⟩ := safely
  exact ⟨pieces, takes_of_safely proper safe, flat⟩

theorem strip_ne_zero (some' : c ≠ 0) (small : c < 128) : strip c ≠ 0 := by
  have bound : c.toNat < 128 := UInt8.lt_iff_toNat_lt.mp small
  have same : strip c = c.toNat := by
    rw [strip, UInt8.toNat_and, show (0o177 : UInt8).toNat = 2 ^ 7 - 1 from rfl,
      Nat.and_two_pow_sub_one_eq_mod]
    exact Nat.mod_eq_of_lt bound
  rw [same]
  exact fun zero => some' (UInt8.toNat_inj.mp zero)

/-- The shell finds a name to match its pattern exactly when it does, unless it does so only with
nothing for the last of several stars at the end, or with a class that lists a character of the
name a multiple of 256 times. -/
theorem gmatch_iff {s : List UInt8} (names : ∀ c ∈ s, c ≠ 0 ∧ c < 128) {p : List Item}
    (proper : ∀ i ∈ p, i.Proper) :
    (gmatch s (text p) = some true ↔ Matches s p) ↔ (Matches s p → Safely s p) := by
  have names' : ∀ c ∈ s, strip c ≠ 0 := fun c mem => strip_ne_zero (names c mem).1 (names c mem).2
  obtain ⟨b, run, found⟩ := gmatch_steps names' proper
  have found' : gmatch s (text p) = some true ↔ Safely s p := by
    rw [run, Option.some_inj, found, steps_iff]
  rw [found']
  exact ⟨fun same => same.mpr, fun safely => ⟨matches_of_safely proper, safely⟩⟩

/-- The name `ab` and the pattern `a*[a-c]`. -/
theorem gmatch_iff_ab :
    (gmatch [97, 98] (text [.char 97, .star, .cls [.range 97 99]]) = some true ↔
        Matches [97, 98] [.char 97, .star, .cls [.range 97 99]]) ↔
      (Matches [97, 98] [.char 97, .star, .cls [.range 97 99]] →
        Safely [97, 98] [.char 97, .star, .cls [.range 97 99]]) := by
  refine gmatch_iff (fun c mem => ?_) (fun i mem => ?_)
  · obtain rfl | rfl : c = 97 ∨ c = 98 := by simpa using mem
    · decide
    · decide
  · obtain rfl | rfl | rfl : i = .char 97 ∨ i = .star ∨ i = .cls [.range 97 99] := by
      simpa using mem
    · exact ⟨by decide, by decide, by decide, by decide⟩
    · trivial
    · intro m mem
      obtain rfl := List.mem_singleton.mp mem
      exact ⟨⟨by decide, by decide, by decide⟩, by decide, by decide⟩

/-- Two stars match the empty name, but `gmatch` finds that they do not. -/
theorem gmatch_two_stars :
    ¬ (gmatch [] (text [.star, .star]) = some true ↔ Matches [] [.star, .star]) := by
  have fails : gmatch [] (text [.star, .star]) = some false := by
    rw [show text [.star, .star] = ['*'.toUInt8, '*'.toUInt8] from rfl, gmatch_star,
      if_neg (List.cons_ne_nil _ _)]
    rfl
  rw [fails]
  exact fun same => absurd (same.mpr ⟨[[], []], .cons trivial (.cons trivial .nil), rfl⟩)
    (fun wrong => Bool.false_ne_true (Option.some.inj wrong))

end UnixV7.Sh
