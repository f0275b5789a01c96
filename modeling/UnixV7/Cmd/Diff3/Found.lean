import UnixV7.Cmd.Diff3.Regions
import UnixV7.Library.Fuel

/-!
# The regions that are found

The loop of `merge`. Between two regions the changes at the pointers are as they were read; inside
of one they begin at the same line of file 3, and all changes that they are made of are joined.
-/

namespace UnixV7.Diff3

open Function Fuel Lines Touching

variable {flag : Flag} {lines : Which → List (List Char)} {D₁ D₂ done₁ done₂ rem₁ rem₂ : List Diff}
  {group₁ group₂ rest₁ rest₂ d₁ d₂ de : List Diff} {B : ℕ} {k : Which → ℕ} {x y h₁ h₂ : Diff}
  {r : Region}

/-- `edit` takes the region. -/
def Wanted (flag : Flag) (lines : Which → List (List Char)) (r : Region) : Prop :=
  wanted flag (decide (slice (lines .one) r.one = slice (lines .two) r.two)) = true

/-- The change that is printed for a region. -/
def Region.diff (r : Region) : Diff := ⟨r.one, r.three⟩

/-- The ranges of a region are lines of file 1 and file 3. -/
def Region.Inside (lines : Which → List (List Char)) (r : Region) : Prop :=
  r.diff.Inside (lines .one) (lines .three)

/-- Everything before the line `B` of file 3 is done, and what is read of the files is before it. -/
structure Ready (lines : Which → List (List Char)) (D₁ D₂ done₁ rem₁ done₂ rem₂ : List Diff)
    (B : ℕ) (k : Which → ℕ) (de : List Diff) : Prop where
  parts₁ : D₁ = done₁ ++ rem₁
  parts₂ : D₂ = done₂ ++ rem₂
  behind₁ : ∀ z ∈ done₁, z.new.stop < B
  behind₂ : ∀ z ∈ done₂, z.new.stop < B
  ahead₁ : ∀ z ∈ rem₁, B ≤ z.new.start
  ahead₂ : ∀ z ∈ rem₂, B ≤ z.new.start
  read₁ : k .one + newLines done₁ < B + oldLines done₁
  read₂ : k .two + newLines done₂ < B + oldLines done₂
  read₃ : k .three < B
  last : (de.head?.elim 0 fun e => e.new.stop) = offset '\n' (lines .three) (k .three)

/-- The regions from the line `B` on. -/
structure Found (flag : Flag) (lines : Which → List (List Char)) (D₁ D₂ done₁ rem₁ : List Diff)
    (B : ℕ) (rs : List Region) : Prop where
  mem : ∀ r, r ∈ rs ↔ Wanted flag lines r ∧ ∃ x ∈ rem₁, IsRegion D₁ D₂ x r
  apart : rs.Pairwise fun r s => r.three.stop < s.three.start ∧ r.one.stop ≤ s.one.start
  ahead : ∀ r ∈ rs, B ≤ r.three.start ∧ B + oldLines done₁ ≤ r.one.start + newLines done₁
  inside : ∀ r ∈ rs, r.Inside lines
  few : rs.length ≤ rem₁.length

/-- The loop ends with the regions collected. -/
def Finishes (flag : Flag) (lines : Which → List (List Char)) (D₁ D₂ done₁ rem₁ : List Diff)
    (B : ℕ) (d₁ d₂ de : List Diff) (k : Which → ℕ) : Prop :=
  ∃ rs k', Found flag lines D₁ D₂ done₁ rem₁ B rs ∧
    Settles (fun fuel => merge flag fuel d₁ d₂ de (stand lines k))
      (((rs.map Region.diff).reverse.map (entry (lines .three))) ++ de, stand lines k')

/-- A step of the loop that collects nothing. -/
theorem Finishes.step {done rem : List Diff} {B' : ℕ} {e₁ e₂ : List Diff}
    (later : Finishes flag lines D₁ D₂ done rem B' e₁ e₂ de k)
    (found : ∀ rs, Found flag lines D₁ D₂ done rem B' rs →
      Found flag lines D₁ D₂ done₁ rem₁ B rs)
    (same : ∀ fuel, merge flag (fuel + 1) d₁ d₂ de (stand lines k) =
      merge flag fuel e₁ e₂ de (stand lines k)) :
    Finishes flag lines D₁ D₂ done₁ rem₁ B d₁ d₂ de k := by
  obtain ⟨rs, k', all, settled⟩ := later
  exact ⟨rs, k', found rs all, settled.succ same⟩

/-! ## Changes of one file -/

/-- A change that touches none of the other list has no region. -/
theorem not_isRegion (ready : Ready lines D₁ D₂ done₁ (x :: rem₁) done₂ rem₂ B k de)
    (listed₁ : Listed (lines .one) (lines .three) D₁)
    (clear : ∀ y ∈ rem₂, x.new.stop < y.new.start) :
    ¬ IsRegion D₁ D₂ x r := by
  rintro ⟨⟨y, mem, joined⟩, -, -, -⟩
  have inside := listed₁.inside x (by rw [ready.parts₁]; simp)
  obtain ⟨before, sorted⟩ := listed₁.ordered ready.parts₁
  have low := ready.ahead₁ x List.mem_cons_self
  have order := inside.new_order
  have alone : ∀ z ∈ D₂, ¬ Touch (fun x => x.new.start) (fun x : Diff => x.new.stop) x z := by
    intro z mem touch
    have reach : x.new.start ≤ z.new.stop ∧ z.new.start ≤ x.new.stop := touch
    rw [ready.parts₂] at mem
    obtain mem | mem := List.mem_append.mp mem
    · have behind := ready.behind₂ z mem
      omega
    · have ahead := clear z mem
      omega
  have same : y = x := by
    refine joined.mem_of_closed (· = x) rfl ?_
    rintro u v rfl member touch
    have reach : u.new.start ≤ v.new.stop ∧ v.new.start ≤ u.new.stop := touch
    obtain member | member := List.mem_append.mp member
    · rw [ready.parts₁] at member
      obtain member | member := List.mem_append.mp member
      · have behind := ready.behind₁ v member
        omega
      · obtain rfl | member := List.mem_cons.mp member
        · rfl
        · have ahead := List.rel_of_pairwise_cons sorted member
          omega
    · exact absurd touch (alone v member)
  subst same
  exact alone y mem ⟨order, order⟩

theorem Ready.skip₁ (ready : Ready lines D₁ D₂ done₁ (x :: rem₁) done₂ rem₂ B k de)
    (listed₁ : Listed (lines .one) (lines .three) D₁)
    (clear : ∀ y ∈ rem₂, x.new.stop < y.new.start) :
    Ready lines D₁ D₂ (done₁ ++ [x]) rem₁ done₂ rem₂ (x.new.stop + 1) k de := by
  have inside := listed₁.inside x (by rw [ready.parts₁]; simp)
  obtain ⟨before, sorted⟩ := listed₁.ordered ready.parts₁
  have low := ready.ahead₁ x List.mem_cons_self
  have order := inside.new_order
  have order' := inside.old_order
  have read₁ := ready.read₁
  have read₂ := ready.read₂
  have read₃ := ready.read₃
  refine ⟨by rw [ready.parts₁, List.append_assoc]; rfl, ready.parts₂, ?_, ?_, ?_, clear, ?_, ?_,
    ?_, ready.last⟩
  · intro z mem
    obtain mem | mem := List.mem_append.mp mem
    · have behind := ready.behind₁ z mem
      omega
    · obtain rfl := List.mem_singleton.mp mem
      exact Nat.lt_succ_self _
  · intro z mem
    have behind := ready.behind₂ z mem
    omega
  · exact fun z mem => List.rel_of_pairwise_cons sorted mem
  · rw [oldLines_append, newLines_append, oldLines_cons, newLines_cons, oldLines_nil, newLines_nil]
    omega
  · omega
  · omega

theorem Found.skip₁ {rs : List Region}
    (found : Found flag lines D₁ D₂ (done₁ ++ [x]) rem₁ (x.new.stop + 1) rs)
    (inside : x.Inside (lines .one) (lines .three)) (low : B ≤ x.new.start)
    (none : ∀ r, ¬ IsRegion D₁ D₂ x r) : Found flag lines D₁ D₂ done₁ (x :: rem₁) B rs where
  mem r := by
    rw [found.mem, List.exists_mem_cons_iff, or_iff_right (none r)]
  apart := found.apart
  ahead r mem := by
    have order := inside.new_order
    have order' := inside.old_order
    have ahead := found.ahead r mem
    rw [oldLines_append, newLines_append, oldLines_cons, newLines_cons, oldLines_nil,
      newLines_nil] at ahead
    omega
  inside := found.inside
  few := Nat.le_succ_of_le found.few

theorem Ready.skip₂ (ready : Ready lines D₁ D₂ done₁ rem₁ done₂ (y :: rem₂) B k de)
    (listed₂ : Listed (lines .two) (lines .three) D₂)
    (clear : ∀ x ∈ rem₁, y.new.stop < x.new.start) :
    Ready lines D₁ D₂ done₁ rem₁ (done₂ ++ [y]) rem₂ (y.new.stop + 1) k de := by
  have inside := listed₂.inside y (by rw [ready.parts₂]; simp)
  obtain ⟨before, sorted⟩ := listed₂.ordered ready.parts₂
  have low := ready.ahead₂ y List.mem_cons_self
  have order := inside.new_order
  have order' := inside.old_order
  have read₁ := ready.read₁
  have read₂ := ready.read₂
  have read₃ := ready.read₃
  refine ⟨ready.parts₁, by rw [ready.parts₂, List.append_assoc]; rfl, ?_, ?_, clear, ?_, ?_, ?_,
    ?_, ready.last⟩
  · intro z mem
    have behind := ready.behind₁ z mem
    omega
  · intro z mem
    obtain mem | mem := List.mem_append.mp mem
    · have behind := ready.behind₂ z mem
      omega
    · obtain rfl := List.mem_singleton.mp mem
      exact Nat.lt_succ_self _
  · exact fun z mem => List.rel_of_pairwise_cons sorted mem
  · omega
  · rw [oldLines_append, newLines_append, oldLines_cons, newLines_cons, oldLines_nil, newLines_nil]
    omega
  · omega

theorem Found.skip₂ {rs : List Region} {B' : ℕ}
    (found : Found flag lines D₁ D₂ done₁ rem₁ B' rs) (le : B ≤ B') :
    Found flag lines D₁ D₂ done₁ rem₁ B rs where
  mem := found.mem
  apart := found.apart
  ahead r mem := by
    have ahead := found.ahead r mem
    omega
  inside := found.inside
  few := found.few

/-! ## Joined changes -/

theorem together_comm : Together D₁ D₂ = Together D₂ D₁ := by
  have same : (· ∈ D₁ ++ D₂) = (· ∈ D₂ ++ D₁) := by
    funext z
    rw [List.mem_append, List.mem_append, or_comm]
  rw [Together, Together, same]

/-- The heads in a region: all changes of which they are made are joined. -/
structure Met (D₁ D₂ done₁ group₁ rest₁ done₂ group₂ rest₂ : List Diff) (B : ℕ)
    (h₁ h₂ : Diff) : Prop where
  head₁ : Head D₁ done₁ group₁ rest₁ h₁
  head₂ : Head D₂ done₂ group₂ rest₂ h₂
  low₁ : B ≤ h₁.new.start
  low₂ : B ≤ h₂.new.start
  some₁ : group₁ ≠ []
  some₂ : group₂ ≠ []
  joined : ∀ u ∈ group₁ ++ group₂, ∀ v ∈ group₁ ++ group₂, Together D₁ D₂ u v
  first : ∃ u ∈ group₁ ++ group₂, u.new.start = min h₁.new.start h₂.new.start
  last : ∃ v ∈ group₁ ++ group₂, v.new.stop = max h₁.new.stop h₂.new.stop

namespace Met

theorem symm (met : Met D₁ D₂ done₁ group₁ rest₁ done₂ group₂ rest₂ B h₁ h₂) :
    Met D₂ D₁ done₂ group₂ rest₂ done₁ group₁ rest₁ B h₂ h₁ := by
  have swap : ∀ u, u ∈ group₂ ++ group₁ ↔ u ∈ group₁ ++ group₂ := by
    intro u
    rw [List.mem_append, List.mem_append, or_comm]
  refine ⟨met.head₂, met.head₁, met.low₂, met.low₁, met.some₂, met.some₁, ?_, ?_, ?_⟩
  · intro u mem v mem'
    rw [together_comm]
    exact met.joined u ((swap u).mp mem) v ((swap v).mp mem')
  · rw [min_comm]
    exact met.first.imp fun u here => ⟨(swap u).mpr here.1, here.2⟩
  · rw [max_comm]
    exact met.last.imp fun u here => ⟨(swap u).mpr here.1, here.2⟩

theorem mem (met : Met D₁ D₂ done₁ group₁ rest₁ done₂ group₂ rest₂ B h₁ h₂) :
    ∀ u ∈ group₁ ++ group₂, u ∈ D₁ ++ D₂ := by
  intro u mem
  rw [met.head₁.parts, met.head₂.parts]
  simp only [List.mem_append] at mem ⊢
  tauto

/-- A change that meets the region is joined with it. -/
theorem reach (met : Met D₁ D₂ done₁ group₁ rest₁ done₂ group₂ rest₂ B h₁ h₂) {z : Diff}
    (mem : z ∈ D₁ ++ D₂) (proper : z.new.start ≤ z.new.stop)
    (low : min h₁.new.start h₂.new.start ≤ z.new.stop)
    (high : z.new.start ≤ max h₁.new.stop h₂.new.stop) :
    ∀ u ∈ group₁ ++ group₂, Together D₁ D₂ u z := by
  intro u inner
  obtain ⟨v, first, start⟩ := met.first
  obtain ⟨w, last, stop⟩ := met.last
  have reached : Together D₁ D₂ v z := (met.joined v first w last).of_meets (met.mem w last) mem
    proper (by omega) (by omega)
  exact (met.joined u inner v first).trans reached

/-- The next change of the first list is in the region too. -/
theorem into₁ {f g : List (List Char)}
    (met : Met D₁ D₂ done₁ group₁ (x :: rest₁) done₂ group₂ rest₂ B h₁ h₂)
    (listed : Listed f g D₁) (reach : x.new.start ≤ h₁.new.stop) :
    Met D₁ D₂ done₁ (group₁ ++ [x]) rest₁ done₂ group₂ rest₂ B
      ⟨⟨h₁.old.start, x.old.stop⟩, ⟨h₁.new.start, x.new.stop⟩⟩ h₂ := by
  have parts : D₁ = (done₁ ++ group₁) ++ x :: rest₁ := by rw [met.head₁.parts, List.append_assoc]
  have member : x ∈ D₁ := by rw [parts]; simp
  obtain ⟨before, -⟩ := listed.ordered parts
  have order := (listed.inside x member).new_order
  have ahead := met.head₁.ahead x List.mem_cons_self
  have joins : ∀ u ∈ group₁ ++ group₂, Together D₁ D₂ u x :=
    met.reach (List.mem_append_left _ member) order (by omega) (by omega)
  have cases : ∀ u, u ∈ group₁ ++ [x] ++ group₂ → u = x ∨ u ∈ group₁ ++ group₂ := by
    intro u mem
    simp only [List.mem_append, List.mem_singleton] at mem ⊢
    tauto
  have keeps : ∀ u, u ∈ group₁ ++ group₂ → u ∈ group₁ ++ [x] ++ group₂ := by
    intro u mem
    simp only [List.mem_append, List.mem_singleton] at mem ⊢
    tauto
  refine ⟨met.head₁.into listed, met.head₂, met.low₁, met.low₂, by simp, met.some₂, ?_, ?_, ?_⟩
  · intro u mem v mem'
    obtain rfl | inner := cases u mem <;> obtain rfl | inner' := cases v mem'
    · exact .refl
    · exact (joins v inner').symm
    · exact joins u inner
    · exact met.joined u inner v inner'
  · exact met.first.imp fun u here => ⟨keeps u here.1, here.2⟩
  · obtain ⟨v, mem, stop⟩ := met.last
    -- the end before was one of the other list, since this one goes on behind it
    have other : v ∈ group₂ := by
      refine (List.mem_append.mp mem).resolve_left fun mem => ?_
      have earlier := before v (List.mem_append_right _ mem) x List.mem_cons_self
      omega
    have covers := met.head₂.covers v other
    obtain le | le := le_total h₂.new.stop x.new.stop
    · exact ⟨x, by simp, (max_eq_left le).symm⟩
    · exact ⟨v, keeps v mem, by rw [max_eq_right le]; omega⟩

theorem into₂ {f g : List (List Char)}
    (met : Met D₁ D₂ done₁ group₁ rest₁ done₂ group₂ (y :: rest₂) B h₁ h₂)
    (listed : Listed f g D₂) (reach : y.new.start ≤ h₂.new.stop) :
    Met D₁ D₂ done₁ group₁ rest₁ done₂ (group₂ ++ [y]) rest₂ B
      h₁ ⟨⟨h₂.old.start, y.old.stop⟩, ⟨h₂.new.start, y.new.stop⟩⟩ :=
  (met.symm.into₁ listed reach).symm

/-- The changes of which the heads are made begin and end with them. -/
theorem start_begin (d e : Diff) : (d.begin e).new.start = min d.new.start e.new.start := by
  rw [Diff.begin]
  split
  next less => exact (min_eq_right less.le).symm
  next ge => exact (min_eq_left (Nat.le_of_not_lt ge)).symm

theorem stop_begin (d e : Diff) : (d.begin e).new.stop = d.new.stop := by
  rw [Diff.begin]
  split <;> rfl

theorem start_finish (d e : Diff) : (d.finish e).new.start = d.new.start := by
  rw [Diff.finish]
  split <;> rfl

theorem stop_finish (d e : Diff) : (d.finish e).new.stop = max d.new.stop e.new.stop := by
  rw [Diff.finish]
  split
  next less => exact (max_eq_right less.le).symm
  next ge => exact (max_eq_left (Nat.le_of_not_lt ge)).symm

/-- The heads are made to coincide. -/
theorem extend (met : Met D₁ D₂ done₁ group₁ rest₁ done₂ group₂ rest₂ B h₁ h₂)
    (low₁ : newLines done₁ < B + oldLines done₁) (low₂ : newLines done₂ < B + oldLines done₂) :
    Met D₁ D₂ done₁ group₁ rest₁ done₂ group₂ rest₂ B
      ((h₁.begin h₂).finish (h₂.begin h₁)) ((h₂.begin h₁).finish (h₁.begin h₂)) := by
  have from₁ := met.low₁
  have from₂ := met.low₂
  refine ⟨(met.head₁.begin h₂ (by omega)).finish _, (met.head₂.begin h₁ (by omega)).finish _,
    ?_, ?_, met.some₁, met.some₂, met.joined, ?_, ?_⟩
  · rw [start_finish, start_begin]
    omega
  · rw [start_finish, start_begin]
    omega
  · obtain ⟨u, mem, start⟩ := met.first
    refine ⟨u, mem, ?_⟩
    rw [start_finish, start_finish, start_begin, start_begin]
    omega
  · obtain ⟨v, mem, stop⟩ := met.last
    refine ⟨v, mem, ?_⟩
    rw [stop_finish, stop_finish, stop_begin, stop_begin]
    omega

/-- Changes that overlap or touch. -/
theorem fresh {f f' g : List (List Char)} (listed₁ : Listed f g D₁) (listed₂ : Listed f' g D₂)
    (parts₁ : D₁ = done₁ ++ x :: rest₁) (parts₂ : D₂ = done₂ ++ y :: rest₂)
    (low₁ : B ≤ x.new.start) (low₂ : B ≤ y.new.start) (left : ¬ x.new.stop < y.new.start)
    (right : ¬ y.new.stop < x.new.start) :
    Met D₁ D₂ done₁ [x] rest₁ done₂ [y] rest₂ B x y := by
  have mem₁ : x ∈ D₁ ++ D₂ := by rw [parts₁]; simp
  have mem₂ : y ∈ D₁ ++ D₂ := by rw [parts₂]; simp
  have touch : Together D₁ D₂ x y :=
    .of_touch mem₁ mem₂ ⟨Nat.le_of_not_lt right, Nat.le_of_not_lt left⟩
  refine ⟨.fresh listed₁ parts₁, .fresh listed₂ parts₂, low₁, low₂, by simp, by simp, ?_, ?_, ?_⟩
  · intro u mem v mem'
    have members : ∀ w ∈ [x] ++ [y], w = x ∨ w = y := by simp
    obtain rfl | rfl := members u mem <;> obtain rfl | rfl := members v mem'
    · exact .refl
    · exact touch
    · exact touch.symm
    · exact .refl
  · obtain le | le := le_total x.new.start y.new.start
    · exact ⟨x, by simp, (min_eq_left le).symm⟩
    · exact ⟨y, by simp, (min_eq_right le).symm⟩
  · obtain le | le := le_total x.new.stop y.new.stop
    · exact ⟨y, by simp, (max_eq_right le).symm⟩
    · exact ⟨x, by simp, (max_eq_left le).symm⟩

end Met

/-! ## A region -/

/-- The heads coincide, and nothing else reaches them. -/
structure Closed (D₁ D₂ done₁ group₁ rest₁ done₂ group₂ rest₂ : List Diff) (B : ℕ)
    (h₁ h₂ : Diff) : Prop extends Met D₁ D₂ done₁ group₁ rest₁ done₂ group₂ rest₂ B h₁ h₂ where
  same : h₁.new.start = h₂.new.start ∧ h₁.new.stop = h₂.new.stop
  ends₁ : ∀ z ∈ rest₁, h₁.new.stop < z.new.start
  ends₂ : ∀ z ∈ rest₂, h₂.new.stop < z.new.start

/-- The lines of the heads. -/
def region (h₁ h₂ : Diff) : Region := ⟨h₁.old, h₂.old, h₁.new⟩

namespace Closed

theorem new_eq (closed : Closed D₁ D₂ done₁ group₁ rest₁ done₂ group₂ rest₂ B h₁ h₂) :
    h₂.new = h₁.new := by
  obtain ⟨old, start, stop⟩ := h₁
  obtain ⟨old', start', stop'⟩ := h₂
  obtain ⟨rfl, rfl⟩ := closed.same
  rfl

theorem covers (closed : Closed D₁ D₂ done₁ group₁ rest₁ done₂ group₂ rest₂ B h₁ h₂) :
    ∀ u ∈ group₁ ++ group₂, h₁.new.start ≤ u.new.start ∧ u.new.stop ≤ h₁.new.stop := by
  intro u mem
  obtain mem | mem := List.mem_append.mp mem
  · exact closed.head₁.covers u mem
  · have covers := closed.head₂.covers u mem
    rwa [closed.new_eq] at covers

theorem hull (closed : Closed D₁ D₂ done₁ group₁ rest₁ done₂ group₂ rest₂ B h₁ h₂)
    (behind₁ : ∀ z ∈ done₁, z.new.stop < B) (behind₂ : ∀ z ∈ done₂, z.new.stop < B) {u : Diff}
    (mem : u ∈ group₁ ++ group₂) :
    Hull (fun x => x.new.start) (fun x => x.new.stop) (· ∈ D₁ ++ D₂) u h₁.new.start
      h₁.new.stop := by
  obtain ⟨start, stop⟩ := closed.same
  refine .of_closed (· ∈ group₁ ++ group₂) ?_ closed.joined mem closed.covers ?_ ?_
  · intro v w inner member touch
    have reach : v.new.start ≤ w.new.stop ∧ w.new.start ≤ v.new.stop := touch
    have covers := closed.covers v inner
    have low := closed.low₁
    rw [closed.head₁.parts, closed.head₂.parts] at member
    simp only [List.mem_append] at member ⊢
    obtain (member | member | member) | member | member | member := member
    · have behind := behind₁ w member
      omega
    · exact .inl member
    · have ends := closed.ends₁ w member
      omega
    · have behind := behind₂ w member
      omega
    · exact .inr member
    · have ends := closed.ends₂ w member
      omega
  · obtain ⟨v, inner, first⟩ := closed.first
    exact ⟨v, inner, by rw [first, ← start, min_self]⟩
  · obtain ⟨v, inner, last⟩ := closed.last
    exact ⟨v, inner, by rw [last, ← stop, max_self]⟩

/-- The changes of the group have this region and no other. -/
theorem isRegion_iff (closed : Closed D₁ D₂ done₁ group₁ rest₁ done₂ group₂ rest₂ B h₁ h₂)
    {f f' g : List (List Char)} (listed₁ : Listed f g D₁) (listed₂ : Listed f' g D₂)
    (behind₁ : ∀ z ∈ done₁, z.new.stop < B) (behind₂ : ∀ z ∈ done₂, z.new.stop < B)
    (mem : x ∈ group₁) : IsRegion D₁ D₂ x r ↔ r = region h₁ h₂ := by
  have hull := closed.hull behind₁ behind₂ (List.mem_append_left _ mem)
  have low₁ := closed.low₁
  have low₂ := closed.low₂
  have one := closed.head₁.carried_eq (fun z mem => (behind₁ z mem).trans_le low₁)
    (fun z mem => (listed₁.inside z mem).new_order) closed.ends₁
  have two := closed.head₂.carried_eq (fun z mem => (behind₂ z mem).trans_le low₂)
    (fun z mem => (listed₂.inside z mem).new_order) closed.ends₂
  rw [closed.new_eq] at two
  constructor
  · rintro ⟨-, three, one', two'⟩
    obtain ⟨one'', two'', start, stop⟩ := r
    obtain ⟨rfl, rfl⟩ := three.unique hull
    dsimp only at one' two'
    rw [one', two', region, Region.mk.injEq]
    exact ⟨one, two, rfl⟩
  · rintro rfl
    obtain ⟨y, inner⟩ := List.exists_mem_of_ne_nil _ closed.some₂
    have together := closed.joined x (List.mem_append_left _ mem) y (List.mem_append_right _ inner)
    refine ⟨⟨y, ?_, together⟩, hull, one.symm, two.symm⟩
    rw [closed.head₂.parts]
    exact List.mem_append_right _ (List.mem_append_left _ inner)

theorem inside (closed : Closed D₁ D₂ done₁ group₁ rest₁ done₂ group₂ rest₂ B h₁ h₂)
    {f f' g : List (List Char)} (listed₁ : Listed f g D₁) (listed₂ : Listed f' g D₂)
    (positive : 0 < B) (low : newLines done₁ < B + oldLines done₁) : h₁.Inside f g := by
  have start := closed.head₁.start
  have low₁ := closed.low₁
  have room := closed.head₁.room
  have high : h₁.new.stop ≤ g.length + 1 := by
    obtain ⟨v, mem, last⟩ := closed.last
    rw [← closed.same.2, max_self] at last
    obtain member | member := List.mem_append.mp (closed.mem v mem)
    · have inside := (listed₁.inside v member).new_high
      omega
    · have inside := (listed₂.inside v member).new_high
      omega
  exact ⟨by omega, closed.head₁.order, closed.head₁.high listed₁ closed.ends₁ high, by omega,
    by omega, high⟩

theorem symm (closed : Closed D₁ D₂ done₁ group₁ rest₁ done₂ group₂ rest₂ B h₁ h₂) :
    Closed D₂ D₁ done₂ group₂ rest₂ done₁ group₁ rest₁ B h₂ h₁ where
  toMet := closed.toMet.symm
  same := ⟨closed.same.1.symm, closed.same.2.symm⟩
  ends₁ := closed.ends₂
  ends₂ := closed.ends₁

end Closed

/-- What is done with a region. -/
theorem Ready.emit (ready : Ready lines D₁ D₂ done₁ rem₁ done₂ rem₂ B k de)
    (closed : Closed D₁ D₂ done₁ group₁ rest₁ done₂ group₂ rest₂ B h₁ h₂) {k' : Which → ℕ}
    {de' : List Diff} (read₁ : k' .one < h₁.old.start) (read₂ : k' .two < h₂.old.start)
    (read₃ : k' .three < h₁.new.stop + 1)
    (last : (de'.head?.elim 0 fun e => e.new.stop) = offset '\n' (lines .three) (k' .three)) :
    Ready lines D₁ D₂ (done₁ ++ group₁) rest₁ (done₂ ++ group₂) rest₂ (h₁.new.stop + 1) k' de' := by
  have low₁ := closed.low₁
  have low₂ := closed.low₂
  have room₁ := closed.head₁.room
  have room₂ := closed.head₂.room
  obtain ⟨start, stop⟩ := closed.same
  refine ⟨by rw [closed.head₁.parts, List.append_assoc],
    by rw [closed.head₂.parts, List.append_assoc], ?_, ?_, closed.ends₁, ?_, ?_, ?_, read₃, last⟩
  · intro z mem
    obtain mem | mem := List.mem_append.mp mem
    · have behind := ready.behind₁ z mem
      omega
    · have covers := closed.head₁.covers z mem
      omega
  · intro z mem
    obtain mem | mem := List.mem_append.mp mem
    · have behind := ready.behind₂ z mem
      omega
    · have covers := closed.head₂.covers z mem
      omega
  · intro z mem
    have ends := closed.ends₂ z mem
    omega
  · have order := closed.head₁.order
    have level := closed.head₁.stop
    omega
  · have order := closed.head₂.order
    have level := closed.head₂.stop
    omega

theorem Found.emit {rs : List Region}
    (found : Found flag lines D₁ D₂ (done₁ ++ group₁) rest₁ (h₁.new.stop + 1) rs)
    (head : Head D₁ done₁ group₁ rest₁ h₁) (low : B ≤ h₁.new.start) (some : group₁ ≠ [])
    (inside : h₁.Inside (lines .one) (lines .three))
    (only : ∀ x ∈ group₁, ∀ r, IsRegion D₁ D₂ x r ↔ r = region h₁ h₂) :
    Found flag lines D₁ D₂ done₁ (group₁ ++ rest₁) B
      (if wanted flag (decide (slice (lines .one) h₁.old = slice (lines .two) h₂.old)) then
        region h₁ h₂ :: rs else rs) := by
  have start := head.start
  have stop := head.stop
  have room := head.room
  have regions : ∀ r, (∃ x ∈ group₁ ++ rest₁, IsRegion D₁ D₂ x r) ↔
      r = region h₁ h₂ ∨ ∃ x ∈ rest₁, IsRegion D₁ D₂ x r := by
    intro r
    obtain ⟨x, first⟩ := List.exists_mem_of_ne_nil _ some
    constructor
    · rintro ⟨y, mem, here⟩
      obtain mem | mem := List.mem_append.mp mem
      · exact .inl ((only y mem r).mp here)
      · exact .inr ⟨y, mem, here⟩
    · rintro (same | ⟨y, mem, here⟩)
      · exact ⟨x, List.mem_append_left _ first, (only x first r).mpr same⟩
      · exact ⟨y, List.mem_append_right _ mem, here⟩
  have later : ∀ s ∈ rs, h₁.new.stop < s.three.start ∧ h₁.old.stop ≤ s.one.start ∧
    B ≤ s.three.start ∧
      B + oldLines done₁ ≤ s.one.start + newLines done₁ := by
    intro s mem
    have ahead := found.ahead s mem
    rw [oldLines_append, newLines_append] at ahead stop
    omega
  have length : 0 < group₁.length := List.length_pos_iff.mpr some
  have few := found.few
  split
  next want =>
    refine ⟨?_, .cons ?_ found.apart, ?_, ?_, ?_⟩
    · intro r
      rw [List.mem_cons, found.mem, regions]
      constructor
      · rintro (rfl | ⟨want', here⟩)
        · exact ⟨want, .inl rfl⟩
        · exact ⟨want', .inr here⟩
      · rintro ⟨want', rfl | here⟩
        · exact .inl rfl
        · exact .inr ⟨want', here⟩
    · exact fun s mem => ⟨(later s mem).1, (later s mem).2.1⟩
    · refine List.forall_mem_cons.mpr ⟨⟨low, ?_⟩, fun s mem => (later s mem).2.2⟩
      show B + oldLines done₁ ≤ h₁.old.start + newLines done₁
      omega
    · exact List.forall_mem_cons.mpr ⟨inside, found.inside⟩
    · rw [List.length_cons, List.length_append]
      omega
  next idle =>
    refine ⟨?_, found.apart, fun s mem => (later s mem).2.2, found.inside, ?_⟩
    · intro r
      rw [found.mem, regions]
      constructor
      · exact fun ⟨want, here⟩ => ⟨want, .inr here⟩
      · rintro ⟨want, rfl | here⟩
        · exact absurd want idle
        · exact ⟨want, here⟩
    · rw [List.length_append]
      omega

/-! ## The loop -/

/-- The next change of the list is apart from the head, or the head reaches it. -/
theorem Head.ends_or {f g : List (List Char)} {D done group rest : List Diff} {h : Diff}
    (head : Head D done group rest h) (listed : Listed f g D) :
    (∀ z ∈ rest, h.new.stop < z.new.start) ∨
      ∃ z rest', rest = z :: rest' ∧ z.new.start ≤ h.new.stop := by
  cases rest with
  | nil => exact .inl (List.forall_mem_nil _)
  | cons z rest =>
      have parts : D = (done ++ group) ++ z :: rest := by rw [head.parts, List.append_assoc]
      obtain ⟨-, sorted⟩ := listed.ordered parts
      have order := (listed.inside z (by rw [parts]; simp)).new_order
      obtain less | reach := Nat.lt_or_ge h.new.stop z.new.start
      · refine .inl (List.forall_mem_cons.mpr ⟨less, fun y mem => ?_⟩)
        have later := List.rel_of_pairwise_cons sorted mem
        omega
      · exact .inr ⟨z, rest, rfl, reach⟩

section steps

variable {fuel : ℕ} {s : Input} {e : List Diff}

theorem into_some {z d : Diff} (reach : z.new.start ≤ d.new.stop) (rest : List Diff) :
    d.into (z :: rest) = some (⟨⟨d.old.start, z.old.stop⟩, ⟨d.new.start, z.new.stop⟩⟩ :: rest) := by
  rw [Diff.into, if_pos reach]

theorem into_none {d : Diff} {rest : List Diff} (ends : ∀ z ∈ rest, d.new.stop < z.new.start) :
    d.into rest = none := by
  cases rest with
  | nil => rfl
  | cons z rest => rw [Diff.into, if_neg (Nat.not_le_of_lt (ends z List.mem_cons_self))]

variable (left : ¬ x.new.stop < y.new.start) (right : ¬ y.new.stop < x.new.start)
include left right

theorem merge_into₁ (into : x.into d₁ = some e) : merge flag (fuel + 1) (x :: d₁) (y :: d₂) de s =
    merge flag fuel e (y :: d₂) de s := by
  rw [merge, if_neg left, if_neg right, into]

theorem merge_into₂ (none₁ : x.into d₁ = none) (into : y.into d₂ = some e) :
    merge flag (fuel + 1) (x :: d₁) (y :: d₂) de s = merge flag fuel (x :: d₁) e de s := by
  rw [merge, if_neg left, if_neg right, none₁, into]

theorem merge_extend (none₁ : x.into d₁ = none) (none₂ : y.into d₂ = none)
    (other : ¬ (x.new.start = y.new.start ∧ x.new.stop = y.new.stop)) :
    merge flag (fuel + 1) (x :: d₁) (y :: d₂) de s =
      merge flag fuel ((x.begin y).finish (y.begin x) :: d₁) ((y.begin x).finish (x.begin y) :: d₂)
        de s := by
  rw [merge, if_neg left, if_neg right, none₁, none₂]
  dsimp only
  rw [if_neg other]

theorem merge_region (none₁ : x.into d₁ = none) (none₂ : y.into d₂ = none)
    (same : x.new.start = y.new.start ∧ x.new.stop = y.new.stop) {dup : Bool} {s' s'' : Input}
    {de' : List Diff} (compared : duplicate x.old y.old s = .ok (dup, s'))
    (edited : edit flag x dup de s' = .ok (de', s'')) :
    merge flag (fuel + 1) (x :: d₁) (y :: d₂) de s = merge flag fuel d₁ d₂ de' s'' := by
  rw [merge, if_neg left, if_neg right, none₁, none₂]
  dsimp only
  rw [if_pos same, compared]
  simp only [bind, Except.bind]
  rw [edited]

end steps

/-- Where the loop stands: between two regions, or in one that both heads have reached. -/
inductive Stage (D₁ D₂ done₁ rem₁ done₂ rem₂ : List Diff) (B : ℕ) : List Diff → List Diff → Prop
  | apart : Stage D₁ D₂ done₁ rem₁ done₂ rem₂ B rem₁ rem₂
  | met {group₁ rest₁ group₂ rest₂ : List Diff} {h₁ h₂ : Diff} (parts₁ : rem₁ = group₁ ++ rest₁)
      (parts₂ : rem₂ = group₂ ++ rest₂)
      (met : Met D₁ D₂ done₁ group₁ rest₁ done₂ group₂ rest₂ B h₁ h₂)
      (same : h₁.new.start = h₂.new.start) :
      Stage D₁ D₂ done₁ rem₁ done₂ rem₂ B (h₁ :: rest₁) (h₂ :: rest₂)

/-- The loop ends from every place where fewer changes are left. -/
def Shorter (flag : Flag) (lines : Which → List (List Char)) (D₁ D₂ : List Diff) (n : ℕ) : Prop :=
  ∀ ⦃done₁ rem₁ done₂ rem₂ B k de d₁ d₂⦄, d₁.length + d₂.length < n →
    Ready lines D₁ D₂ done₁ rem₁ done₂ rem₂ B k de →
    Stage D₁ D₂ done₁ rem₁ done₂ rem₂ B d₁ d₂ →
    Finishes flag lines D₁ D₂ done₁ rem₁ B d₁ d₂ de k

section run

variable (plain : ∀ i, Plain (lines i)) (listed₁ : Listed (lines .one) (lines .three) D₁)
  (listed₂ : Listed (lines .two) (lines .three) D₂)
include plain listed₁ listed₂

/-- A region is compared and collected. -/
theorem finishes_region (ready : Ready lines D₁ D₂ done₁ rem₁ done₂ rem₂ B k de)
    (parts₁ : rem₁ = group₁ ++ rest₁)
    (closed : Closed D₁ D₂ done₁ group₁ rest₁ done₂ group₂ rest₂ B h₁ h₂)
    (shorter : Shorter flag lines D₁ D₂ ((h₁ :: rest₁).length + (h₂ :: rest₂).length)) :
    Finishes flag lines D₁ D₂ done₁ rem₁ B (h₁ :: rest₁) (h₂ :: rest₂) de k := by
  have inside₁ := closed.inside listed₁ listed₂ (Nat.zero_lt_of_lt ready.read₃)
    (by have := ready.read₁; omega)
  have inside₂ := closed.symm.inside listed₂ listed₁ (Nat.zero_lt_of_lt ready.read₃)
    (by have := ready.read₂; omega)
  have low₁ := closed.low₁
  have low₂ := closed.low₂
  have before₁ : k .one < h₁.old.start := by
    have start := closed.head₁.start
    have read := ready.read₁
    omega
  have before₂ : k .two < h₂.old.start := by
    have start := closed.head₂.start
    have read := ready.read₂
    omega
  have before₃ : k .three < h₁.new.start := ready.read₃.trans_le low₁
  obtain ⟨k', read₁, read₂, read₃, compared⟩ := duplicate_stand plain before₁ before₂
    inside₁.old_order inside₂.old_order inside₁.old_high inside₂.old_high
  have only : ∀ x ∈ group₁, ∀ r, IsRegion D₁ D₂ x r ↔ r = region h₁ h₂ := fun x mem r =>
    closed.isRegion_iff listed₁ listed₂ ready.behind₁ ready.behind₂ mem
  have fewer : rest₁.length + rest₂.length < (h₁ :: rest₁).length + (h₂ :: rest₂).length := by
    rw [List.length_cons, List.length_cons]
    omega
  obtain ⟨same, same'⟩ := closed.same
  have left : ¬ h₁.new.stop < h₂.new.start := by
    have order := inside₁.new_order
    omega
  have right : ¬ h₂.new.stop < h₁.new.start := by
    have order := inside₂.new_order
    omega
  have none₁ := into_none closed.ends₁
  have none₂ := into_none closed.ends₂
  have last' : (de.head?.elim 0 fun e => e.new.stop) = offset '\n' (lines .three) (k' .three) := by
    rw [read₃]
    exact ready.last
  subst parts₁
  cases want : wanted flag (decide (slice (lines .one) h₁.old = slice (lines .two) h₂.old)) with
  | false =>
      have edited : edit flag h₁ _ de (stand lines k') = .ok (de, stand lines k') :=
        edit_idle want _
      have next := ready.emit closed read₁ read₂ (by omega) last'
      obtain ⟨rs, k'', found, settled⟩ := shorter fewer next .apart
      have all := found.emit closed.head₁ low₁ closed.some₁ inside₁ only
      rw [want, if_neg Bool.false_ne_true] at all
      exact ⟨rs, k'', all, settled.succ fun fuel =>
        merge_region left right none₁ none₂ closed.same compared edited⟩
  | true =>
      have edited := edit_stand (k := k') want (plain .three) last' (by omega) inside₁.new_order
        inside₁.new_high
      have next : Ready lines D₁ D₂ (done₁ ++ group₁) rest₁ (done₂ ++ group₂) rest₂
          (h₁.new.stop + 1) (update k' .three (h₁.new.stop - 1)) (entry (lines .three) h₁ :: de) :=
        ready.emit closed (by rwa [update_of_ne (by decide)]) (by rwa [update_of_ne (by decide)])
          (by rw [update_self]; omega) (by rw [update_self]; rfl)
      obtain ⟨rs, k'', found, settled⟩ := shorter fewer next .apart
      have all := found.emit closed.head₁ low₁ closed.some₁ inside₁ only
      rw [want, if_pos rfl] at all
      refine ⟨region h₁ h₂ :: rs, k'', all, ?_⟩
      rw [List.map_cons, List.reverse_cons, List.map_append, List.append_assoc]
      exact settled.succ fun fuel =>
        merge_region left right none₁ none₂ closed.same compared edited

/-- The loop with heads that coincide, or whose next changes are apart. -/
theorem finishes_met (ready : Ready lines D₁ D₂ done₁ rem₁ done₂ rem₂ B k de)
    (parts₁ : rem₁ = group₁ ++ rest₁) (parts₂ : rem₂ = group₂ ++ rest₂)
    (met : Met D₁ D₂ done₁ group₁ rest₁ done₂ group₂ rest₂ B h₁ h₂)
    (left : ¬ h₁.new.stop < h₂.new.start) (right : ¬ h₂.new.stop < h₁.new.start)
    (same : h₁.new.start = h₂.new.start ∨
      (∀ z ∈ rest₁, h₁.new.stop < z.new.start) ∧ ∀ z ∈ rest₂, h₂.new.stop < z.new.start)
    (shorter : Shorter flag lines D₁ D₂ ((h₁ :: rest₁).length + (h₂ :: rest₂).length))
    (extended : (∀ z ∈ rest₁, h₁.new.stop < z.new.start) →
      (∀ z ∈ rest₂, h₂.new.stop < z.new.start) →
      ¬ (h₁.new.start = h₂.new.start ∧ h₁.new.stop = h₂.new.stop) →
      Finishes flag lines D₁ D₂ done₁ rem₁ B ((h₁.begin h₂).finish (h₂.begin h₁) :: rest₁)
        ((h₂.begin h₁).finish (h₁.begin h₂) :: rest₂) de k) :
    Finishes flag lines D₁ D₂ done₁ rem₁ B (h₁ :: rest₁) (h₂ :: rest₂) de k := by
  obtain ends₁ | ⟨z, rest, rfl, reach⟩ := met.head₁.ends_or listed₁
  · have none₁ := into_none ends₁
    obtain ends₂ | ⟨z, rest, rfl, reach⟩ := met.head₂.ends_or listed₂
    · have none₂ := into_none ends₂
      by_cases coincide : h₁.new.start = h₂.new.start ∧ h₁.new.stop = h₂.new.stop
      · exact finishes_region plain listed₁ listed₂ ready parts₁ ⟨met, coincide, ends₁, ends₂⟩
          shorter
      · exact (extended ends₁ ends₂ coincide).step (fun _ found => found) fun fuel =>
          merge_extend left right none₁ none₂ coincide
    · have start := same.resolve_right fun both =>
        absurd (both.2 z List.mem_cons_self) (Nat.not_lt_of_le reach)
      have later := shorter (by simp) ready (.met parts₁ (by rw [parts₂, List.append_assoc]; rfl)
        (met.into₂ listed₂ reach) start)
      exact later.step (fun _ found => found) fun fuel =>
        merge_into₂ left right none₁ (into_some reach rest)
  · have start := same.resolve_right fun both =>
      absurd (both.1 z List.mem_cons_self) (Nat.not_lt_of_le reach)
    have later := shorter (by simp) ready (.met (by rw [parts₁, List.append_assoc]; rfl) parts₂
      (met.into₁ listed₁ reach) start)
    exact later.step (fun _ found => found) fun fuel =>
      merge_into₁ left right (into_some reach rest)

/-- Heads that begin at the same line or are as they were read. -/
theorem finishes_joined (ready : Ready lines D₁ D₂ done₁ rem₁ done₂ rem₂ B k de)
    (parts₁ : rem₁ = group₁ ++ rest₁) (parts₂ : rem₂ = group₂ ++ rest₂)
    (met : Met D₁ D₂ done₁ group₁ rest₁ done₂ group₂ rest₂ B h₁ h₂)
    (left : ¬ h₁.new.stop < h₂.new.start) (right : ¬ h₂.new.stop < h₁.new.start)
    (same : h₁.new.start = h₂.new.start ∨
      (∀ z ∈ rest₁, h₁.new.stop < z.new.start) ∧ ∀ z ∈ rest₂, h₂.new.stop < z.new.start)
    (shorter : Shorter flag lines D₁ D₂ ((h₁ :: rest₁).length + (h₂ :: rest₂).length)) :
    Finishes flag lines D₁ D₂ done₁ rem₁ B (h₁ :: rest₁) (h₂ :: rest₂) de k := by
  refine finishes_met plain listed₁ listed₂ ready parts₁ parts₂ met left right same shorter ?_
  intro _ _ _
  -- the extended heads coincide, so they are not extended again
  have low₁ : newLines done₁ < B + oldLines done₁ := by
    have read := ready.read₁
    omega
  have low₂ : newLines done₂ < B + oldLines done₂ := by
    have read := ready.read₂
    omega
  have extended := met.extend low₁ low₂
  have starts : ((h₁.begin h₂).finish (h₂.begin h₁)).new.start =
      ((h₂.begin h₁).finish (h₁.begin h₂)).new.start := by
    rw [Met.start_finish, Met.start_finish, Met.start_begin, Met.start_begin, min_comm]
  have stops : ((h₁.begin h₂).finish (h₂.begin h₁)).new.stop =
      ((h₂.begin h₁).finish (h₁.begin h₂)).new.stop := by
    rw [Met.stop_finish, Met.stop_finish, Met.stop_begin, Met.stop_begin, max_comm]
  have room₁ := extended.head₁.room
  have room₂ := extended.head₂.room
  exact finishes_met plain listed₁ listed₂ ready parts₁ parts₂ extended (by omega) (by omega)
    (.inl starts) shorter fun _ _ other => absurd ⟨starts, stops⟩ other

/-- One change is passed, or the heads are joined. -/
theorem finishes_apart (ready : Ready lines D₁ D₂ done₁ rem₁ done₂ rem₂ B k de)
    (shorter : Shorter flag lines D₁ D₂ (rem₁.length + rem₂.length)) :
    Finishes flag lines D₁ D₂ done₁ rem₁ B rem₁ rem₂ de k := by
  have order₁ : ∀ z ∈ rem₁, z.new.start ≤ z.new.stop := fun z mem =>
    (listed₁.inside z (by rw [ready.parts₁]; exact List.mem_append_right _ mem)).new_order
  have order₂ : ∀ z ∈ rem₂, z.new.start ≤ z.new.stop := fun z mem =>
    (listed₂.inside z (by rw [ready.parts₂]; exact List.mem_append_right _ mem)).new_order
  obtain ⟨-, sorted₁⟩ := listed₁.ordered ready.parts₁
  obtain ⟨-, sorted₂⟩ := listed₂.ordered ready.parts₂
  match rem₁, rem₂ with
  | [], [] =>
      refine ⟨[], k, ⟨?_, .nil, List.forall_mem_nil _, List.forall_mem_nil _, le_rfl⟩, 1, ?_⟩
      · intro r
        simp
      · intro fuel enough
        obtain ⟨fuel, rfl⟩ := Nat.exists_eq_add_of_le' enough
        show merge flag (fuel + 1) [] [] de (stand lines k) = _
        rw [merge]
        rfl
  | [], y :: rem₂ =>
      have later := shorter (by simp) (ready.skip₂ listed₂ (List.forall_mem_nil _)) .apart
      have low := ready.ahead₂ y List.mem_cons_self
      have order := order₂ y List.mem_cons_self
      exact later.step (fun _ found => found.skip₂ (by omega)) fun fuel => by rw [merge]
  | x :: rem₁, [] =>
      have later := shorter (by simp) (ready.skip₁ listed₁ (List.forall_mem_nil _)) .apart
      have inside := listed₁.inside x (by rw [ready.parts₁]; simp)
      exact later.step (fun _ found => found.skip₁ inside (ready.ahead₁ x List.mem_cons_self)
        fun r => not_isRegion ready listed₁ (List.forall_mem_nil _)) fun fuel => by rw [merge]
  | x :: rem₁, y :: rem₂ =>
      have later₁ : ∀ z ∈ rem₁, x.new.stop < z.new.start := fun z mem =>
        List.rel_of_pairwise_cons sorted₁ mem
      have later₂ : ∀ z ∈ rem₂, y.new.stop < z.new.start := fun z mem =>
        List.rel_of_pairwise_cons sorted₂ mem
      by_cases left : x.new.stop < y.new.start
      · have clear : ∀ z ∈ y :: rem₂, x.new.stop < z.new.start := by
          have order := order₂ y List.mem_cons_self
          refine List.forall_mem_cons.mpr ⟨left, fun z mem => ?_⟩
          have ahead := later₂ z mem
          omega
        have later := shorter (by simp) (ready.skip₁ listed₁ clear) .apart
        have inside := listed₁.inside x (by rw [ready.parts₁]; simp)
        exact later.step (fun _ found => found.skip₁ inside (ready.ahead₁ x List.mem_cons_self)
          fun r => not_isRegion ready listed₁ clear) fun fuel => by rw [merge, if_pos left]
      · by_cases right : y.new.stop < x.new.start
        · have clear : ∀ z ∈ x :: rem₁, y.new.stop < z.new.start := by
            have order := order₁ x List.mem_cons_self
            refine List.forall_mem_cons.mpr ⟨right, fun z mem => ?_⟩
            have ahead := later₁ z mem
            omega
          have later := shorter (by simp) (ready.skip₂ listed₂ clear) .apart
          have low := ready.ahead₂ y List.mem_cons_self
          have order := order₂ y List.mem_cons_self
          exact later.step (fun _ found => found.skip₂ (by omega)) fun fuel => by
            rw [merge, if_neg left, if_pos right]
        · have met : Met D₁ D₂ done₁ [x] rem₁ done₂ [y] rem₂ B x y :=
            .fresh listed₁ listed₂ ready.parts₁ ready.parts₂ (ready.ahead₁ x List.mem_cons_self)
              (ready.ahead₂ y List.mem_cons_self) left right
          exact finishes_joined plain listed₁ listed₂ ready rfl rfl met left right
            (.inr ⟨later₁, later₂⟩) shorter

/-- The loop ends, with the regions that are left collected. -/
theorem finishes (n : ℕ) : Shorter flag lines D₁ D₂ n := by
  induction n with
  | zero => exact fun _ _ _ _ _ _ _ _ _ none => absurd none (Nat.not_lt_zero _)
  | succ n ih =>
      intro done₁ rem₁ done₂ rem₂ B k de d₁ d₂ few ready stage
      have shorter : Shorter flag lines D₁ D₂ (d₁.length + d₂.length) :=
        fun _ _ _ _ _ _ _ _ _ less => ih (less.trans_le (Nat.le_of_lt_succ few))
      cases stage with
      | apart => exact finishes_apart plain listed₁ listed₂ ready shorter
      | @met group₁ rest₁ group₂ rest₂ h₁ h₂ parts₁ parts₂ met same =>
          have room₁ := met.head₁.room
          have room₂ := met.head₂.room
          exact finishes_joined plain listed₁ listed₂ ready parts₁ parts₂ met (by omega) (by omega)
            (.inl same) shorter

/-- `merge` finds the regions. -/
theorem merge_spec (flag : Flag) : ∃ rs k', Found flag lines D₁ D₂ [] D₁ 1 rs ∧
    Settles (fun fuel => merge flag fuel D₁ D₂ [] (stand lines fun _ => 0))
      ((rs.map Region.diff).reverse.map (entry (lines .three)), stand lines k') := by
  have ready : Ready lines D₁ D₂ [] D₁ [] D₂ 1 (fun _ => 0) [] := by
    refine ⟨rfl, rfl, List.forall_mem_nil _, List.forall_mem_nil _,
      fun z mem => (listed₁.inside z mem).new_low, fun z mem => (listed₂.inside z mem).new_low, ?_,
      ?_, ?_, rfl⟩ <;> exact Nat.one_pos
  have every : Shorter flag lines D₁ D₂ (D₁.length + D₂.length + 1) :=
    finishes plain listed₁ listed₂ _
  obtain ⟨rs, k', found, settled⟩ := every (Nat.lt_succ_self _) ready .apart
  rw [List.append_nil] at settled
  exact ⟨rs, k', found, settled⟩

end run

end UnixV7.Diff3
