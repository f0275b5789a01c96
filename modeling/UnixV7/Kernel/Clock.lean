import Mathlib.Data.List.Sort
import Mathlib.Tactic.Common

/-!
# Callouts

`timeout` and the callouts of `clock` (`clock.c`). The table `callout` lists functions with the
time between each and the one before; the first slot without a function ends it. `clock` counts the
first time down, walks over the functions whose time has come while these may call `timeout`, and
then closes the gap. The dues of the functions are what the differences stand for.
-/

namespace UnixV7

namespace Callout

/-- `NCALL` -/
def NCALL : ℕ := 20

/-- `struct callo` -/
structure Callo (φ α : Type*) where
  c_time : ℤ
  c_arg : α
  c_func : Option φ

/-- A call `timeout(fun, arg, tim)`. -/
structure Request (φ α : Type*) where
  func : φ
  arg : α
  tim : ℤ

variable {φ α : Type*}

/-- The slots up to the end of the table move up by one; the slot behind the end is lost. -/
def shift : List (Callo φ α) → Option (List (Callo φ α))
  | [] => none
  | p2 :: rest =>
      match p2.c_func, rest with
      | none, [] => none
      | none, _ :: rest => some (p2 :: rest)
      | some _, rest => (shift rest).map (p2 :: ·)

/-- `timeout` from the slot `p1` on, with `t` left of the time; `none` is the panic "Timeout table
overflow", and a slot beyond the table. -/
def timeoutFrom (func : φ) (arg : α) : ℤ → List (Callo φ α) → Option (List (Callo φ α))
  | _, [] => none
  | t, p1 :: rest =>
      if p1.c_func.isSome ∧ p1.c_time ≤ t then
        (timeoutFrom func arg (t - p1.c_time) rest).map (p1 :: ·)
      else if rest.isEmpty then
        none
      else
        (shift ({ p1 with c_time := p1.c_time - t } :: rest)).map (⟨t, arg, some func⟩ :: ·)

/-- `timeout` -/
def timeout (r : Request φ α) (callout : List (Callo φ α)) : Option (List (Callo φ α)) :=
  timeoutFrom r.func r.arg r.tim callout

/-- The calls of `timeout` that a function makes. -/
def timeouts : List (Request φ α) → List (Callo φ α) → Option (List (Callo φ α))
  | [], callout => some callout
  | r :: rs, callout => (timeout r callout).bind (timeouts rs)

/-- The first time that is not zero is counted down. -/
def countDown : List (Callo φ α) → Option (List (Callo φ α))
  | [] => none
  | p2 :: rest =>
      if p2.c_time ≤ 0 ∧ p2.c_func.isSome then
        (countDown rest).map (p2 :: ·)
      else
        some ({ p2 with c_time := p2.c_time - 1 } :: rest)

/-- The functions whose time has come are called, from slot `p1` on. The next of them makes the
calls of `timeout` at the head of `doings`. The result is the slot the walk ends at, the table, and
the calls made. -/
def calls : ℕ → ℕ → List (List (Request φ α)) → List (Callo φ α) →
    Option (ℕ × List (Callo φ α) × List (φ × α))
  | 0, _, _, _ => none
  | fuel + 1, p1, doings, callout =>
      match callout[p1]? with
      | none => none
      | some e =>
          match e.c_func with
          | none => some (p1, callout, [])
          | some func =>
              if e.c_time ≤ 0 then
                (timeouts (doings.headD []) callout).bind fun callout =>
                  (calls fuel (p1 + 1) doings.tail callout).map fun (p1, callout, called) =>
                    (p1, callout, (func, e.c_arg) :: called)
              else
                some (p1, callout, [])

/-- The slots from `p1` on are copied to those from `p2` on, up to the end of the table. -/
def closeUp : List (Callo φ α) → List (Callo φ α) → Option (List (Callo φ α))
  | p2 :: rest, p1 :: rest' =>
      match p1.c_func with
      | none => some ({ p2 with c_func := none } :: rest)
      | some _ => (closeUp rest rest').map (p1 :: ·)
  | _, _ => none

/-- If the first time is up, the functions are called and the gap is closed. -/
def expire (doings : List (List (Request φ α))) (callout : List (Callo φ α)) :
    Option (List (Callo φ α) × List (φ × α)) :=
  match callout with
  | [] => none
  | e :: _ =>
      if e.c_time ≤ 0 then
        (calls callout.length 0 doings callout).bind fun (p1, callout, called) =>
          (closeUp callout (callout.drop p1)).map fun callout => (callout, called)
      else
        some (callout, [])

/-- The callouts of one `clock`: the table afterwards, and the calls made. -/
def clock (doings : List (List (Request φ α))) (callout : List (Callo φ α)) :
    Option (List (Callo φ α) × List (φ × α)) :=
  match callout with
  | [] => none
  | e :: _ =>
      if e.c_func.isNone then
        some (callout, [])
      else
        (countDown callout).bind (expire doings)

/-! ## Runs -/

/-- A function and the tick during which it is to be called, or has been. -/
structure Due (φ α : Type*) where
  due : ℕ
  func : φ
  arg : α

/-- The request `r` made when `now` ticks have begun. -/
def Request.at (r : Request φ α) (now : ℕ) : Due φ α := ⟨now + r.tim.toNat, r.func, r.arg⟩

/-- The table after `now` ticks, with the functions asked for and those called so far, each list in
its order in time. -/
structure State (φ α : Type*) where
  callout : List (Callo φ α)
  now : ℕ
  made : List (Due φ α)
  called : List (Due φ α)

/-- The number of functions in the table. -/
def entries (callout : List (Callo φ α)) : ℕ :=
  (callout.takeWhile fun e => e.c_func.isSome).length

/-- The calls of `clock` and of `timeout`, the latter by itself or from within a function that
`clock` calls, with times from 1 on and never more functions than the table holds. -/
inductive Run : State φ α → Prop
  | start {callout : List (Callo φ α)} : callout.length = NCALL →
      (∀ e ∈ callout, e.c_func = none) → Run ⟨callout, 0, [], []⟩
  | timeout {s : State φ α} {r : Request φ α} {callout : List (Callo φ α)} : Run s → 1 ≤ r.tim →
      entries s.callout + 1 < NCALL → timeout r s.callout = some callout →
      Run ⟨callout, s.now, s.made ++ [r.at s.now], s.called⟩
  | clock {s : State φ α} {doings : List (List (Request φ α))} {callout : List (Callo φ α)}
      {called : List (φ × α)} : Run s → (∀ r ∈ doings.flatten, 1 ≤ r.tim) →
      entries s.callout + doings.flatten.length < NCALL →
      clock doings s.callout = some (callout, called) → doings.length = called.length →
      Run ⟨callout, s.now + 1, s.made ++ doings.flatten.map (·.at (s.now + 1)),
        s.called ++ called.map fun c => ⟨s.now + 1, c.1, c.2⟩⟩

/-! ## Dues and differences -/

variable {l d done rest : List (Due φ α)} {e : Due φ α} {callout tail : List (Callo φ α)}
  {now : ℕ} {r : Request φ α}

/-- The entries for the functions `l`, when the one before them is due at `now`. -/
def encode : ℕ → List (Due φ α) → List (Callo φ α)
  | _, [] => []
  | now, e :: l => ⟨(e.due : ℤ) - now, e.arg, some e.func⟩ :: encode e.due l

/-- A new function comes behind those that are due no later. -/
def place (e : Due φ α) : List (Due φ α) → List (Due φ α)
  | [] => [e]
  | b :: l => if b.due ≤ e.due then b :: place e l else e :: b :: l

@[simp] theorem encode_nil (now : ℕ) : encode now ([] : List (Due φ α)) = [] := rfl

@[simp] theorem encode_cons (now : ℕ) (e : Due φ α) (l : List (Due φ α)) :
    encode now (e :: l) = ⟨(e.due : ℤ) - now, e.arg, some e.func⟩ :: encode e.due l := rfl

theorem place_nil (e : Due φ α) : place e [] = [e] := rfl

theorem place_cons (e b : Due φ α) (l : List (Due φ α)) :
    place e (b :: l) = if b.due ≤ e.due then b :: place e l else e :: b :: l := rfl

/-- The table consists of the entries for `l` and the slot that ends it. -/
structure Stores (now : ℕ) (l : List (Due φ α)) (callout : List (Callo φ α)) : Prop where
  entries : ∃ last tail, callout = encode now l ++ last :: tail ∧ last.c_func = none
  length : callout.length = NCALL

/-- The dues are in order, none before `now`. -/
def Ordered (now : ℕ) (l : List (Due φ α)) : Prop :=
  (∀ e ∈ l, now ≤ e.due) ∧ l.Pairwise fun a b => a.due ≤ b.due

theorem Ordered.cons {b : Due φ α} (ordered : Ordered now (b :: l)) :
    now ≤ b.due ∧ Ordered b.due l := by
  obtain ⟨later, sorted⟩ := ordered
  obtain ⟨first, sorted⟩ := List.pairwise_cons.mp sorted
  exact ⟨later b List.mem_cons_self, first, sorted⟩

theorem encode_length (now : ℕ) (l : List (Due φ α)) : (encode now l).length = l.length := by
  induction l generalizing now with
  | nil => rfl
  | cons e l ih => simp [ih]

/-- Functions due at `now` do not change what the times of those behind them count from. -/
theorem encode_append (dues : ∀ e ∈ d, e.due = now) :
    encode now (d ++ l) = encode now d ++ encode now l := by
  induction d with
  | nil => rfl
  | cons e d ih =>
      have same := dues e List.mem_cons_self
      have rest := ih fun x mem => dues x (List.mem_cons_of_mem _ mem)
      simp only [List.cons_append, encode_cons, same, rest]

theorem place_length (e : Due φ α) (l : List (Due φ α)) : (place e l).length = l.length + 1 := by
  induction l with
  | nil => rfl
  | cons b l ih =>
      rw [place_cons]
      split_ifs with earlier
      · simp [ih]
      · rfl

/-- What is due earlier stays in front. -/
theorem place_append (earlier : ∀ b ∈ d, b.due ≤ e.due) : place e (d ++ l) = d ++ place e l := by
  induction d with
  | nil => rfl
  | cons b d ih =>
      rw [List.cons_append, place_cons, if_pos (earlier b List.mem_cons_self),
        ih fun x mem => earlier x (List.mem_cons_of_mem _ mem), List.cons_append]

theorem Ordered.place (ordered : Ordered now l) (later : now ≤ e.due) :
    Ordered now (place e l) := by
  induction l generalizing now with
  | nil =>
      exact ⟨fun x mem => by rw [List.mem_singleton.mp mem]; exact later, by simp [place_nil]⟩
  | cons b l ih =>
      obtain ⟨low, ordered'⟩ := ordered.cons
      rw [place_cons]
      split_ifs with earlier
      · have rest := ih ordered' earlier
        refine ⟨fun x mem => ?_, List.pairwise_cons.mpr rest⟩
        cases List.mem_cons.mp mem with
        | inl here => exact here ▸ low
        | inr there => exact low.trans (rest.1 x there)
      · refine ⟨fun x mem => ?_, List.pairwise_cons.mpr ⟨fun x mem => ?_, ordered.2⟩⟩
        · cases List.mem_cons.mp mem with
          | inl here => exact here ▸ later
          | inr there => exact ordered.1 x there
        · cases List.mem_cons.mp mem with
          | inl here => exact here ▸ (Nat.lt_of_not_le earlier).le
          | inr there => exact (Nat.lt_of_not_le earlier).le.trans (ordered'.1 x there)

/-- Among the functions due at one time a new one is the last. -/
theorem filter_place (n : ℕ) (ordered : Ordered now l) :
    (Callout.place e l).filter (·.due = n) = l.filter (·.due = n) ++ [e].filter (·.due = n) := by
  induction l generalizing now with
  | nil => rfl
  | cons b l ih =>
      obtain ⟨-, ordered'⟩ := ordered.cons
      rw [place_cons]
      split_ifs with earlier
      · rw [List.filter_cons, ih ordered']
        by_cases here : b.due = n
        · simp [here]
        · simp [here]
      · by_cases here : e.due = n
        · have none : (b :: l).filter (·.due = n) = [] := by
            refine List.filter_eq_nil_iff.mpr fun x mem => ?_
            cases List.mem_cons.mp mem with
            | inl first =>
                rw [first]
                simp only [decide_eq_true_eq]
                omega
            | inr behind =>
                have := ordered'.1 x behind
                simp only [decide_eq_true_eq]
                omega
          rw [List.filter_cons, if_pos (by simpa using here), none]
          simp [here]
        · simp [List.filter_cons, here]

/-! ## timeout -/

/-- The slots from the first one on move up by one. -/
theorem shift_spec (last : Callo φ α) (l : List (Callo φ α)) (real : ∀ p2 ∈ l, p2.c_func.isSome)
    (halt : last.c_func = none) (some : tail ≠ []) :
    shift (l ++ last :: tail) = Option.some (l ++ last :: tail.tail) := by
  induction l with
  | nil =>
      cases tail with
      | nil => exact absurd rfl some
      | cons a tail => simp [shift, halt]
  | cons p2 l ih =>
      obtain ⟨func, here⟩ := Option.isSome_iff_exists.mp (real p2 List.mem_cons_self)
      have rest := ih fun x mem => real x (List.mem_cons_of_mem _ mem)
      rw [List.cons_append, shift.eq_def]
      simp only [here, rest, Option.map_some, List.cons_append]

theorem encode_real (now : ℕ) (l : List (Due φ α)) :
    ∀ p ∈ encode now l, p.c_func.isSome := by
  induction l generalizing now with
  | nil => simp
  | cons e l ih =>
      intro p mem
      cases List.mem_cons.mp mem with
      | inl here => simp [here]
      | inr there => exact ih _ p there

/-- `timeout` puts the function in its place. -/
theorem timeoutFrom_spec {last : Callo φ α} (func : φ) (arg : α) (t : ℕ) (ordered : Ordered now l)
    (halt : last.c_func = none) (some : tail ≠ []) :
    ∃ last' : Callo φ α, last'.c_func = none ∧
      timeoutFrom func arg t (encode now l ++ last :: tail) =
        Option.some (encode now (place ⟨now + t, func, arg⟩ l) ++ last' :: tail.tail) := by
  induction l generalizing now t with
  | nil =>
      refine ⟨{ last with c_time := last.c_time - t }, halt, ?_⟩
      have moved := shift_spec { last with c_time := last.c_time - t } []
        (by simp) halt some
      rw [List.nil_append] at moved
      have time : ((now + t : ℕ) : ℤ) - now = t := by omega
      rw [encode_nil, List.nil_append, timeoutFrom, if_neg (by simp [halt]),
        if_neg (by simpa using some), moved]
      simp only [Option.map_some, place_nil, encode_cons, encode_nil, time, List.nil_append, List.cons_append]
  | cons b l ih =>
      obtain ⟨low, ordered'⟩ := ordered.cons
      rw [encode_cons, List.cons_append, timeoutFrom, place_cons]
      by_cases earlier : b.due ≤ now + t
      · obtain ⟨last', halt', rest⟩ := ih (now + t - b.due) ordered'
        refine ⟨last', halt', ?_⟩
        have left : (t : ℤ) - ((b.due : ℤ) - now) = (now + t - b.due : ℕ) := by omega
        have due : b.due + (now + t - b.due) = now + t := by omega
        rw [due] at rest
        rw [if_pos ⟨rfl, by simp only; omega⟩, if_pos earlier, left, rest, encode_cons]
        rfl
      · refine ⟨last, halt, ?_⟩
        have time : (b.due : ℤ) - now - t = b.due - (now + t : ℕ) := by omega
        have moved := shift_spec last (encode (now + t) (b :: l)) (encode_real _ _) halt some
        rw [encode_cons, List.cons_append] at moved
        rw [if_neg (by simp only; omega), if_neg (by simp), if_neg earlier]
        have span : ((now + t : ℕ) : ℤ) - now = t := by omega
        rw [time, moved]
        simp only [encode_cons, Option.map_some, List.cons_append, span]

theorem Stores.timeout {n : ℕ} (stores : Stores now l callout) (ordered : Ordered now l)
    (time : r.tim = n) (room : l.length + 1 < NCALL) :
    ∃ callout', Callout.timeout r callout = some callout' ∧
      Stores now (Callout.place (r.at now) l) callout' := by
  obtain ⟨⟨last, tail, rfl, halt⟩, length⟩ := stores
  have behind : tail ≠ [] := by
    rintro rfl
    simp only [List.length_append, encode_length, List.length_singleton] at length
    omega
  obtain ⟨last', halt', placed⟩ := timeoutFrom_spec r.func r.arg n ordered halt behind
  have whole : (r.at now) = ⟨now + n, r.func, r.arg⟩ := by rw [Request.at, time, Int.toNat_natCast]
  refine ⟨_, by rw [Callout.timeout, time]; exact placed,
    ⟨⟨last', tail.tail, by rw [whole], halt'⟩, ?_⟩⟩
  have some := List.length_pos_of_ne_nil behind
  simp only [List.length_append, encode_length, List.length_cons, List.length_tail,
    place_length] at length ⊢
  omega

theorem Request.at_due (now : ℕ) (positive : 1 ≤ r.tim) : now + 1 ≤ (r.at now).due := by
  simp only [Request.at]
  omega

/-- The functions asked for at `now` are put in their places one after the other. -/
def placeAll (now : ℕ) : List (Request φ α) → List (Due φ α) → List (Due φ α)
  | [], l => l
  | r :: rs, l => placeAll now rs (Callout.place (r.at now) l)

theorem placeAll_append (now : ℕ) (rs rs' : List (Request φ α)) (l : List (Due φ α)) :
    placeAll now (rs ++ rs') l = placeAll now rs' (placeAll now rs l) := by
  induction rs generalizing l with
  | nil => rfl
  | cons r rs ih => exact ih _

/-- Among the functions due at one time those asked for are the last, in the order of asking. -/
theorem filter_placeAll (n : ℕ) (rs : List (Request φ α)) (ordered : Ordered (now + 1) l)
    (times : ∀ r ∈ rs, 1 ≤ r.tim) :
    (placeAll now rs l).filter (·.due = n) =
      l.filter (·.due = n) ++ (rs.map (·.at now)).filter (·.due = n) := by
  induction rs generalizing l with
  | nil => simp [placeAll]
  | cons r rs ih =>
      have late := Request.at_due now (times r List.mem_cons_self)
      have rest := ih (ordered.place late) fun x mem => times x (List.mem_cons_of_mem _ mem)
      rw [placeAll, rest, filter_place n ordered, List.append_assoc, List.map_cons,
        ← List.filter_append, List.singleton_append]

/-- The calls of `timeout` that a function makes leave those due now in front. -/
theorem timeouts_spec (rs : List (Request φ α)) (dues : ∀ e ∈ d, e.due = now)
    (stores : Stores now (d ++ l) callout) (ordered : Ordered (now + 1) l)
    (times : ∀ r ∈ rs, 1 ≤ r.tim) (room : d.length + l.length + rs.length < NCALL) :
    ∃ callout', timeouts rs callout = some callout' ∧
      Stores now (d ++ placeAll now rs l) callout' ∧ Ordered (now + 1) (placeAll now rs l) ∧
      (placeAll now rs l).length = l.length + rs.length := by
  induction rs generalizing l callout with
  | nil => exact ⟨callout, rfl, stores, ordered, rfl⟩
  | cons r rs ih =>
      have positive := times r List.mem_cons_self
      have before : Ordered now (d ++ l) := by
        refine ⟨fun x mem => ?_, List.pairwise_append.mpr ⟨?_, ordered.2, fun a mem b mem' => ?_⟩⟩
        · cases List.mem_append.mp mem with
          | inl here => rw [dues x here]
          | inr there => exact (Nat.le_succ now).trans (ordered.1 x there)
        · exact List.Pairwise.imp_of_mem (R := fun _ _ => True)
            (fun mem mem' _ => by rw [dues _ mem, dues _ mem'])
            (List.pairwise_of_forall fun _ _ => trivial)
        · rw [dues a mem]
          exact (Nat.le_succ now).trans (ordered.1 b mem')
      rw [List.length_cons] at room
      obtain ⟨first, called, stored⟩ := stores.timeout (n := r.tim.toNat) before
        (Int.toNat_of_nonneg (by omega)).symm
        (by rw [List.length_append]; omega)
      have late : now + 1 ≤ (r.at now).due := Request.at_due now positive
      have front : ∀ b ∈ d, b.due ≤ (r.at now).due := fun b mem => by
        rw [dues b mem]
        omega
      rw [place_append front] at stored
      obtain ⟨final, rest, stored', ordered', length⟩ := ih stored (ordered.place late)
        (fun x mem => times x (List.mem_cons_of_mem _ mem)) (by rw [place_length]; omega)
      rw [place_length] at length
      refine ⟨final, ?_, stored', ordered', by rw [placeAll, length, List.length_cons]; omega⟩
      rw [timeouts, called]
      exact rest

/-! ## clock -/

/-- The slot at which the walk has arrived. -/
theorem Stores.slot {m : ℕ} (stores : Stores now (done ++ l) callout)
    (dues : ∀ e ∈ done, e.due = now) (here : m = done.length) :
    (l = [] → ∃ last, callout[m]? = some last ∧ last.c_func = none) ∧
      ∀ e rest, l = e :: rest → callout[m]? = some ⟨(e.due : ℤ) - now, e.arg, some e.func⟩ := by
  obtain ⟨⟨last, tail, rfl, halt⟩, -⟩ := stores
  have length : (encode now done).length = m := by rw [encode_length, here]
  rw [encode_append dues, List.append_assoc, ← length, List.getElem?_append_right (Nat.le_refl _),
    Nat.sub_self]
  constructor
  · rintro rfl
    exact ⟨last, rfl, halt⟩
  · rintro e rest rfl
    rfl

/-- The walk calls the functions that are due, in order, and what they ask for is put behind
them. -/
theorem calls_spec (done : List (Due φ α)) (fuel : ℕ) (doings : List (List (Request φ α)))
    (dues : ∀ e ∈ done ++ d, e.due = now) (stores : Stores now (done ++ d ++ l) callout)
    (ordered : Ordered (now + 1) l) (times : ∀ r ∈ doings.flatten, 1 ≤ r.tim)
    (room : (done ++ d).length + l.length + doings.flatten.length < NCALL)
    (enough : d.length < fuel) :
    ∃ callout', calls fuel done.length doings callout = some ((done ++ d).length, callout',
        d.map fun e => (e.func, e.arg)) ∧
      Stores now (done ++ d ++ placeAll now (doings.take d.length).flatten l) callout' ∧
      Ordered (now + 1) (placeAll now (doings.take d.length).flatten l) := by
  induction d generalizing done l callout doings fuel with
  | nil =>
      rw [List.append_nil] at stores dues ⊢
      obtain ⟨fuel, rfl⟩ : ∃ k, fuel = k + 1 := ⟨fuel - 1, by omega⟩
      obtain ⟨last, next⟩ := stores.slot dues rfl
      refine ⟨callout, ?_, by simpa [placeAll] using stores, by simpa [placeAll] using ordered⟩
      cases l with
      | nil =>
          obtain ⟨slot, here, halt⟩ := last rfl
          simp [calls, here, halt]
      | cons e l =>
          have later := ordered.1 e List.mem_cons_self
          have pos : ¬((e.due : ℤ) - now ≤ 0) := by omega
          simp [calls, next e l rfl, pos]
  | cons e d ih =>
      obtain ⟨fuel, rfl⟩ : ∃ k, fuel = k + 1 := ⟨fuel - 1, by omega⟩
      have due : e.due = now := dues e (List.mem_append_right _ List.mem_cons_self)
      have split : done ++ e :: d = done ++ [e] ++ d := by simp
      have total : doings.flatten.length =
          (doings.headD []).length + doings.tail.flatten.length := by
        cases doings with
        | nil => rfl
        | cons r doings => simp
      have mine : ∀ r ∈ doings.headD [], 1 ≤ r.tim := by
        cases doings with
        | nil => simp
        | cons r doings => exact fun x mem => times x (by simp [show x ∈ r from mem])
      have later : ∀ r ∈ doings.tail.flatten, 1 ≤ r.tim := by
        cases doings with
        | nil => simp
        | cons r doings =>
            refine fun x mem => times x ?_
            rw [List.flatten_cons]
            exact List.mem_append_right _ mem
      have slot := (Stores.slot (l := e :: d ++ l) (by rwa [← List.append_assoc])
        (fun x mem => dues x (List.mem_append_left _ mem)) rfl).2 e (d ++ l) rfl
      obtain ⟨first, asked, stored, ordered', length⟩ := timeouts_spec (doings.headD []) dues stores
        ordered mine (by omega)
      rw [split] at stored dues room ⊢
      obtain ⟨final, called, stored', ordered''⟩ := ih _ fuel doings.tail dues stored ordered' later
        (by omega) (by rw [List.length_cons] at enough; omega)
      have whole : placeAll now (doings.take (e :: d).length).flatten l =
          placeAll now (doings.tail.take d.length).flatten (placeAll now (doings.headD []) l) := by
        cases doings with
        | nil => simp [placeAll]
        | cons rs doings =>
            rw [List.length_cons, List.take_succ_cons, List.flatten_cons, placeAll_append]
            rfl
      refine ⟨final, ?_, by rwa [whole], by rwa [whole]⟩
      rw [List.length_append, List.length_singleton] at called
      rw [calls, slot]
      simp only [due, Int.sub_self, le_refl, if_true, asked, Option.bind_some, called,
        Option.map_some, List.map_cons]

theorem closeUp_spec {last : Callo φ α} (es tail dst : List (Callo φ α))
    (real : ∀ e ∈ es, e.c_func.isSome) (halt : last.c_func = none) (long : es.length < dst.length) :
    ∃ last' tail', closeUp dst (es ++ last :: tail) = some (es ++ last' :: tail') ∧
      last'.c_func = none ∧ es.length + 1 + tail'.length = dst.length := by
  induction es generalizing dst with
  | nil =>
      cases dst with
      | nil => simp at long
      | cons b dst =>
          refine ⟨{ b with c_func := none }, dst, ?_, rfl, by simp [Nat.add_comm]⟩
          simp [closeUp, halt]
  | cons e es ih =>
      cases dst with
      | nil => simp at long
      | cons b dst =>
          obtain ⟨func, here⟩ := Option.isSome_iff_exists.mp (real e List.mem_cons_self)
          obtain ⟨last', tail', closed, halt', length⟩ := ih dst
            (fun x mem => real x (List.mem_cons_of_mem _ mem)) (by simpa using long)
          refine ⟨last', tail', ?_, halt', by simp only [List.length_cons]; omega⟩
          simp [closeUp, here, closed]

/-- The functions due now are in front. -/
theorem Ordered.split (ordered : Ordered now l) :
    ∃ d rest, l = d ++ rest ∧ (∀ e ∈ d, e.due = now) ∧ Ordered (now + 1) rest := by
  induction l with
  | nil => exact ⟨[], [], rfl, by simp, by simp, .nil⟩
  | cons b l ih =>
      obtain ⟨low, ordered'⟩ := ordered.cons
      by_cases here : b.due = now
      · obtain ⟨d, rest, rfl, dues, later⟩ := ih (here ▸ ordered')
        exact ⟨b :: d, rest, rfl, List.forall_mem_cons.mpr ⟨here, dues⟩, later⟩
      · refine ⟨[], b :: l, rfl, by simp, fun x mem => ?_, ordered.2⟩
        cases List.mem_cons.mp mem with
        | inl first =>
            rw [first]
            omega
        | inr behind =>
            have := ordered'.1 x behind
            omega

/-- After the count down the times count from the tick under way. -/
theorem countDown_spec (later : now + 1 ≤ e.due) :
    countDown (encode now (e :: l) ++ tail) = some (encode (now + 1) (e :: l) ++ tail) := by
  have positive : ¬((e.due : ℤ) - now ≤ 0) := by omega
  have time : (e.due : ℤ) - now - 1 = e.due - (now + 1 : ℕ) := by omega
  simp [countDown, positive, time]

/-- If there is a function due it is called, with those due with it, and the gap is closed. -/
theorem expire_spec (doings : List (List (Request φ α))) (dues : ∀ b ∈ d, b.due = now)
    (nonempty : d ++ l ≠ []) (stores : Stores now (d ++ l) callout)
    (ordered : Ordered (now + 1) l) (times : ∀ r ∈ doings.flatten, 1 ≤ r.tim)
    (room : d.length + l.length + doings.flatten.length < NCALL) :
    ∃ callout', expire doings callout = some (callout', d.map fun e => (e.func, e.arg)) ∧
      Stores now (placeAll now (doings.take d.length).flatten l) callout' ∧
      Ordered (now + 1) (placeAll now (doings.take d.length).flatten l) := by
  cases d with
  | nil =>
      obtain ⟨⟨last, tail, rfl, halt⟩, length⟩ := stores
      cases l with
      | nil => exact absurd rfl nonempty
      | cons b l =>
          have later := ordered.1 b List.mem_cons_self
          have positive : ¬((b.due : ℤ) - now ≤ 0) := by omega
          refine ⟨_, ?_, ⟨⟨last, tail, rfl, halt⟩, length⟩, ordered⟩
          simp [expire, positive, placeAll]
  | cons b d =>
      have due := dues b List.mem_cons_self
      have long : (b :: d).length < callout.length := by
        rw [stores.length]
        omega
      obtain ⟨after, called, stored, ordered'⟩ := calls_spec [] callout.length doings dues
        stores ordered times room long
      rw [List.nil_append] at stored called
      generalize placeAll now (doings.take (b :: d).length).flatten l = final at stored ordered' ⊢
      obtain ⟨⟨last, tail, rfl, halt⟩, length⟩ := stored
      rw [encode_append dues, List.append_assoc] at length called
      have closing : (encode now (b :: d) ++ (encode now final ++ last :: tail)).drop
          (b :: d).length = encode now final ++ last :: tail := by
        rw [← encode_length now (b :: d), List.drop_left]
      have room' : (encode now final).length <
          (encode now (b :: d) ++ (encode now final ++ last :: tail)).length := by
        simp only [List.length_append, List.length_cons]
        omega
      obtain ⟨last', tail', closed, halt', length'⟩ := closeUp_spec (encode now final) tail
        (encode now (b :: d) ++ (encode now final ++ last :: tail)) (encode_real now _) halt room'
      have shorter : (encode now final ++ last' :: tail').length = NCALL := by
        rw [length] at length'
        rw [List.length_append, List.length_cons]
        omega
      refine ⟨encode now final ++ last' :: tail', ?_, ⟨⟨last', tail', rfl, halt'⟩, shorter⟩,
        ordered'⟩
      obtain ⟨⟨first, slots, rfl, -⟩, -⟩ := stores
      have time : ((b.due : ℤ) - now) ≤ 0 := by omega
      rw [List.cons_append, encode_cons, List.cons_append] at called ⊢
      rw [expire]
      simp only [time, if_true]
      rw [List.length_nil] at called
      rw [called, Option.bind_some, closing, closed, Option.map_some]

/-- A tick calls the functions that are due at it, and keeps the table in order. -/
theorem clock_spec (doings : List (List (Request φ α))) (stores : Stores now l callout)
    (ordered : Ordered (now + 1) l) (times : ∀ r ∈ doings.flatten, 1 ≤ r.tim)
    (room : l.length + doings.flatten.length < NCALL) :
    ∃ d rest callout', l = d ++ rest ∧ (∀ e ∈ d, e.due = now + 1) ∧ Ordered (now + 2) rest ∧
      clock doings callout = some (callout', d.map fun e => (e.func, e.arg)) ∧
      Stores (now + 1) (placeAll (now + 1) (doings.take d.length).flatten rest) callout' ∧
      Ordered (now + 2) (placeAll (now + 1) (doings.take d.length).flatten rest) := by
  obtain ⟨d, rest, rfl, dues, later⟩ := ordered.split
  refine ⟨d, rest, ?_⟩
  obtain ⟨⟨last, tail, rfl, halt⟩, length⟩ := stores
  cases whole : d ++ rest with
  | nil =>
      obtain ⟨rfl, rfl⟩ := List.append_eq_nil_iff.mp whole
      refine ⟨last :: tail, rfl, dues, later, by simp [clock, halt], ?_, later⟩
      exact ⟨⟨last, tail, rfl, halt⟩, length⟩
  | cons e l =>
      have first : now + 1 ≤ e.due := ordered.1 e (whole ▸ List.mem_cons_self)
      have counted : countDown (encode now (e :: l) ++ last :: tail) =
        some (encode (now + 1) (e :: l) ++ last :: tail) := countDown_spec first
      have stores : Stores (now + 1) (d ++ rest) (encode (now + 1) (e :: l) ++ last :: tail) := by
        refine ⟨⟨last, tail, by rw [whole], halt⟩, ?_⟩
        rw [whole] at length
        simpa [encode_length] using length
      rw [List.length_append] at room
      obtain ⟨after, called, stored⟩ := expire_spec doings dues (by simp [whole]) stores later times
        room
      refine ⟨after, rfl, dues, later, ?_, stored⟩
      have start : clock doings (encode now (e :: l) ++ last :: tail) =
        (countDown (encode now (e :: l) ++ last :: tail)).bind (expire doings) := rfl
      rw [start, counted]
      exact called

/-! ## Runs keep their times -/

/-- The functions asked for that are due at the tick `n`. -/
def dueAt (n : ℕ) (made : List (Due φ α)) : List (Due φ α) := made.filter (·.due = n)

/-- The table holds the functions asked for that are still to be called, and the others have been
called tick by tick. -/
structure Sound (s : State φ α) (l : List (Due φ α)) : Prop where
  stores : Stores s.now l s.callout
  ordered : Ordered (s.now + 1) l
  pending : ∀ n, s.now < n → dueAt n l = dueAt n s.made
  called : s.called = (List.range' 1 s.now).flatMap fun n => dueAt n s.made

theorem Stores.entries_eq (stores : Stores now l callout) :
    Callout.entries callout = l.length := by
  obtain ⟨⟨last, tail, rfl, halt⟩, -⟩ := stores
  rw [Callout.entries, List.takeWhile_append_of_pos (encode_real now l),
    List.takeWhile_cons_of_neg (by simp [halt]), List.append_nil, encode_length]

theorem dueAt_append (n : ℕ) (made more : List (Due φ α)) :
    dueAt n (made ++ more) = dueAt n made ++ dueAt n more := List.filter_append ..

/-- Functions asked for later are due later. -/
theorem dueAt_asked {n : ℕ} (rs : List (Request φ α)) (times : ∀ r ∈ rs, 1 ≤ r.tim)
    (early : n ≤ now) : dueAt n (rs.map (·.at now)) = [] := by
  refine List.filter_eq_nil_iff.mpr fun e mem => ?_
  obtain ⟨r, asked, rfl⟩ := List.mem_map.mp mem
  have later := Request.at_due now (times r asked)
  simp only [decide_eq_true_eq]
  omega

theorem Ordered.dueAt_eq_nil {n : ℕ} (ordered : Ordered (now + 1) l) (early : n ≤ now) :
    dueAt n l = [] := by
  refine List.filter_eq_nil_iff.mpr fun e mem => ?_
  have later := ordered.1 e mem
  simp only [decide_eq_true_eq]
  omega

/-- What has been called stays what it is when more is asked for. -/
theorem flatMap_dueAt (made : List (Due φ α)) (rs : List (Request φ α))
    (times : ∀ r ∈ rs, 1 ≤ r.tim) {k : ℕ} (early : k ≤ now) :
    ((List.range' 1 k).flatMap fun n => dueAt n (made ++ rs.map (·.at now))) =
      (List.range' 1 k).flatMap fun n => dueAt n made := by
  refine List.flatMap_congr fun n mem => ?_
  have bound := List.mem_range'_1.mp mem
  rw [dueAt_append, dueAt_asked rs times (by omega), List.append_nil]

theorem Run.sound {s : State φ α} (run : Run s) : ∃ l, Sound s l := by
  induction run with
  | @start callout length empty =>
      refine ⟨[], ⟨⟨?_, length⟩, ⟨by simp, .nil⟩, fun _ _ => rfl, rfl⟩⟩
      cases callout with
      | nil => simp [NCALL] at length
      | cons e callout => exact ⟨e, callout, rfl, empty e List.mem_cons_self⟩
  | @timeout s r callout run time room called ih =>
      obtain ⟨l, sound⟩ := ih
      rw [sound.stores.entries_eq] at room
      have later := Request.at_due s.now time
      have times : ∀ x ∈ [r], 1 ≤ x.tim := by simpa using time
      obtain ⟨callout', called', stores⟩ := sound.stores.timeout (n := r.tim.toNat)
        ⟨fun x mem => (Nat.le_succ _).trans (sound.ordered.1 x mem), sound.ordered.2⟩
        (Int.toNat_of_nonneg (by omega)).symm room
      obtain rfl := Option.some.inj (called.symm.trans called')
      refine ⟨_, stores, sound.ordered.place later, fun n after => ?_, ?_⟩
      · rw [dueAt_append, ← sound.pending n after]
        exact filter_place n sound.ordered
      · rw [sound.called]
        exact (flatMap_dueAt s.made [r] times (Nat.le_refl _)).symm
  | @clock s doings callout called run times room ticked counted ih =>
      obtain ⟨l, sound⟩ := ih
      rw [sound.stores.entries_eq] at room
      obtain ⟨d, rest, callout', rfl, dues, later, ticked', stores, ordered⟩ := clock_spec doings
        sound.stores sound.ordered times room
      obtain ⟨rfl, rfl⟩ := Prod.mk.inj (Option.some.inj (ticked.symm.trans ticked'))
      have all : doings.take d.length = doings := by
        rw [List.take_of_length_le (by rw [counted, List.length_map])]
      rw [all] at stores ordered
      have now : dueAt (s.now + 1) s.made = d := by
        rw [← sound.pending _ (Nat.lt_succ_self _)]
        rw [dueAt_append, later.dueAt_eq_nil (Nat.le_refl _), List.append_nil]
        exact List.filter_eq_self.mpr fun e mem => by simpa using dues e mem
      have same : (d.map fun e => (e.func, e.arg)).map
          (fun c => (⟨s.now + 1, c.1, c.2⟩ : Due φ α)) = d := by
        rw [List.map_map]
        refine (List.map_congr_left fun e mem => ?_).trans (List.map_id d)
        simp only [Function.comp_apply, ← dues e mem, id_eq]
      refine ⟨_, stores, ordered, fun n after => ?_, ?_⟩
      · replace after : s.now + 1 < n := after
        have gone : dueAt n d = [] := List.filter_eq_nil_iff.mpr fun e mem => by
          have due := dues e mem
          simp only [decide_eq_true_eq]
          omega
        have before := sound.pending n (by omega)
        rw [dueAt_append, gone, List.nil_append] at before
        rw [dueAt, filter_placeAll n _ later times, dueAt_append, ← before]
        rfl
      · rw [List.range'_1_concat, List.flatMap_append, List.flatMap_singleton,
          flatMap_dueAt _ _ times (Nat.le_succ _), ← sound.called, Nat.add_comm 1 s.now,
            dueAt_append,
          dueAt_asked _ times (Nat.le_refl _), List.append_nil, now, same]

/-- In every run each function asked for is called once, during the tick its time says, and
functions due at the same tick in the order they were asked for; no call of `timeout` or `clock`
fails as long as the table holds all functions. -/
theorem called_on_time {s : State φ α} (run : Run s) :
    s.called = (List.range' 1 s.now).flatMap (fun n => dueAt n s.made) ∧
      (∀ r : Request φ α, 1 ≤ r.tim → entries s.callout + 1 < NCALL →
        ∃ callout, timeout r s.callout = some callout) ∧
      ∀ doings : List (List (Request φ α)), (∀ r ∈ doings.flatten, 1 ≤ r.tim) →
        entries s.callout + doings.flatten.length < NCALL →
        ∃ callout, clock doings s.callout =
          some (callout, (dueAt (s.now + 1) s.made).map fun e => (e.func, e.arg)) := by
  obtain ⟨l, sound⟩ := run.sound
  rw [sound.stores.entries_eq]
  refine ⟨sound.called, fun r time room => ?_, fun doings times room => ?_⟩
  · obtain ⟨callout, called, -⟩ := sound.stores.timeout (n := r.tim.toNat)
      ⟨fun x mem => (Nat.le_succ _).trans (sound.ordered.1 x mem), sound.ordered.2⟩
      (Int.toNat_of_nonneg (by omega)).symm room
    exact ⟨callout, called⟩
  · obtain ⟨d, rest, callout, rfl, dues, later, ticked, -⟩ := clock_spec doings sound.stores
      sound.ordered times room
    have now : dueAt (s.now + 1) s.made = d := by
      rw [← sound.pending _ (Nat.lt_succ_self _), dueAt_append, later.dueAt_eq_nil (Nat.le_refl _),
        List.append_nil]
      exact List.filter_eq_self.mpr fun e mem => by simpa using dues e mem
    exact ⟨callout, now ▸ ticked⟩

/-- The empty table. -/
def noCallouts : List (Callo ℕ ℕ) := List.replicate NCALL ⟨0, 0, none⟩

/-- A function that asks for another when it is called. -/
theorem called_twice :
    ∃ s : State ℕ ℕ, Run s ∧ s.called = [⟨2, 7, 0⟩, ⟨3, 8, 1⟩] ∧
      s.called = (List.range' 1 s.now).flatMap fun n => dueAt n s.made := by
  have empty : Run ⟨noCallouts, 0, [], []⟩ := .start rfl (by decide)
  have asked := empty.timeout (r := ⟨7, 0, 2⟩) (by decide) (by decide) rfl
  have none : ∀ r ∈ ([] : List (List (Request ℕ ℕ))).flatten, 1 ≤ r.tim := by simp
  have one : ∀ r ∈ ([[⟨8, 1, 1⟩]] : List (List (Request ℕ ℕ))).flatten, 1 ≤ r.tim := by simp
  have idle : ∀ r ∈ ([[]] : List (List (Request ℕ ℕ))).flatten, 1 ≤ r.tim := by simp
  have first := asked.clock none (by decide) rfl rfl
  have second := first.clock one (by decide) rfl rfl
  have third := second.clock idle (by decide) rfl rfl
  exact ⟨_, third, rfl, (called_on_time third).1⟩

end Callout

end UnixV7
