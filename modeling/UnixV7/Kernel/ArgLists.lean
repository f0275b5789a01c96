import Mathlib.Algebra.Group.Nat.Defs
import UnixV7.Kernel.Exece

/-!
# The lists that exec hands over

A list of strings in memory is a row of pointers that ends with 0. `exece` reads two such lists and
leaves two at the top of the new stack: they list the same strings, the words and the strings lie
within the pages of the stack, and no byte of it is written twice.
-/

namespace UnixV7.Exec

open Fuel Ureg Space

/-- The string at `a`, without the 0 that ends it. -/
inductive CString (m : User) : ℕ → List UInt8 → Prop
  | nil {a : ℕ} (last : m.fubyte a = 0) : CString m a []
  | cons {a : ℕ} {c : UInt8} {s : List UInt8} (here : m.fubyte a = c.toNat) (some : c ≠ 0)
      (rest : CString m (a + 1) s) : CString m a (c :: s)

/-- The list of strings that the pointers from `a` on point to. -/
inductive Strings (m : User) : ℕ → List (List UInt8) → Prop
  | nil {a : ℕ} (last : m.fuword a = 0) : Strings m a []
  | cons {a : ℕ} {s : List UInt8} {l : List (List UInt8)} (some : m.fuword a ≠ 0)
      (string : CString m (m.fuword a) s) (rest : Strings m (a + NBPW) l) : Strings m a (s :: l)

/-- The strings one behind the other, each with its 0. -/
def flat (l : List (List UInt8)) : List UInt8 := l.flatMap fun s => s ++ [0]

@[simp] theorem flat_nil : flat [] = [] := rfl

@[simp] theorem flat_cons (s : List UInt8) (l : List (List UInt8)) :
    flat (s :: l) = s ++ [0] ++ flat l := List.flatMap_cons

theorem flat_append (l l' : List (List UInt8)) : flat (l ++ l') = flat l ++ flat l' :=
  List.flatMap_append

variable {m m' m'' : User} {a v n : ℕ} {s s' : List UInt8} {l l' : List (List UInt8)}

/-! ## Reading -/

theorem CString.unique (string : CString m a s) (string' : CString m a s') : s = s' := by
  induction string generalizing s' with
  | nil last =>
      cases string' with
      | nil _ => rfl
      | @cons _ c _ here some _ =>
          exact absurd (UInt8.toNat_inj.mp (by simpa using here.symm.trans last)) some
  | @cons a c s here some _ ih =>
      cases string' with
      | nil last => exact absurd (UInt8.toNat_inj.mp (by simpa using here.symm.trans last)) some
      | @cons _ d s' here' _ rest' =>
          have same : c = d := UInt8.toNat_inj.mp (Int.ofNat.inj (here.symm.trans here'))
          rw [same, ih rest']

/-- Only one list can be read at an address. -/
theorem Strings.unique (strings : Strings m a l) (strings' : Strings m a l') : l = l' := by
  induction strings generalizing l' with
  | nil last =>
      cases strings' with
      | nil _ => rfl
      | cons some _ _ => exact absurd last some
  | cons some string _ ih =>
      cases strings' with
      | nil last => exact absurd last some
      | cons _ string' rest' => rw [string.unique string', ih rest']

theorem CString.user (string : CString m a s) : a < USRSIZE := by
  have readable : m.readable a = true := by
    by_contra not
    have wrong : m.fubyte a = -1 := if_neg not
    cases string with
    | nil last => omega
    | cons here _ _ => omega
  exact m.below a readable

theorem fuword_below (real : m.fuword a ≠ 2 ^ 32 - 1) : a + 3 < USRSIZE := by
  have readable : m.readable (a + 3) = true := by
    by_contra not
    exact real (if_neg fun all => not all.2.2.2)
  exact m.below _ readable

theorem Strings.user (strings : Strings m a l) : a + 3 < USRSIZE := by
  apply fuword_below (m := m)
  cases strings with
  | nil last => omega
  | cons _ string _ =>
      have := string.user
      simp only [USRSIZE] at this
      omega

/-! ## The pages of core -/

/-- What has been collected. -/
def Holds (p : Pages) (core : Pg → Bytes) (bytes : List UInt8) : Prop :=
  ∀ i (inside : i < bytes.length), argc p core i = bytes[i]

theorem shift_page (n : ℕ) : n >>> PGSHIFT = n / 4096 := Nat.shiftRight_eq_div_pow n 12

theorem and_page (n : ℕ) : n &&& (PGSIZE - 1) = n % 4096 := Nat.and_two_pow_sub_one_eq_mod n 12

theorem argc_setArgc (p : Pages) (core : Pg → Bytes) (c : UInt8) {i : ℕ} (small : n < NCARGS)
    (small' : i < NCARGS) :
    argc p (setArgc p core n c) i = if i = n then c else argc p core i := by
  have one : n / 4096 < NARGPG := by
    simp only [NCARGS, NARGPG, PGSIZE] at *
    omega
  have two : i / 4096 < NARGPG := by
    simp only [NCARGS, NARGPG, PGSIZE] at *
    omega
  rw [argc, setArgc, argc, shift_page, shift_page, and_page, and_page]
  by_cases same : i = n
  · rw [if_pos same, same, Function.update_self, Function.update_self]
  · rw [if_neg same]
    by_cases page : i / 4096 = n / 4096
    · rw [page, Function.update_self, Function.update_of_ne (by omega)]
    · rw [Function.update_of_ne fun also => page (p.distinct _ two _ one also)]

theorem Holds.concat {p : Pages} {core : Pg → Bytes} {bytes : List UInt8}
    (holds : Holds p core bytes) (small : bytes.length < NCARGS) (c : UInt8) :
    Holds p (setArgc p core bytes.length c) (bytes ++ [c]) := by
  intro i inside
  rw [List.length_append, List.length_singleton] at inside
  rw [argc_setArgc p core c small (by omega), List.getElem_append]
  by_cases old : i < bytes.length
  · rw [if_neg (by omega), dif_pos old, holds i old]
  · rw [if_pos (by omega), dif_neg old, List.getElem_singleton]

/-! ## Collecting -/

variable {p : Pages} {t : Args} {bytes : List UInt8}

/-- One byte is stored. -/
theorem string_succ {fuel : ℕ} {c : UInt8} (room : t.nc + 1 < NCARGS)
    (here : m.fubyte a = c.toNat) (t' : Args)
    (stored : { t with core := setArgc p t.core t.nc c, nc := t.nc + 1 } = t') :
    t.string p m (fuel + 1) 0 a =
      if c = 0 then .ok t' else t'.string p m fuel 0 ((a + 1) % 2 ^ 32) := by
  have space : ¬NCARGS - 1 ≤ t.nc := by omega
  have valid : ¬(c.toNat : ℤ) < 0 := by omega
  rw [Args.string, here]
  simp only [if_neg space, if_neg valid, ne_eq, not_true_eq_false, if_false, Int.toNat_natCast,
    UInt8.ofNat_toNat, stored]
  by_cases zero : c = 0
  · rw [if_pos zero, if_neg (by simp [zero])]
  · have pos : (0 : ℤ) < c.toNat := by
      have : c.toNat ≠ 0 := fun none => zero (UInt8.toNat_inj.mp none)
      omega
    rw [if_neg zero, if_pos pos]

/-- A string is appended to what has been collected. -/
theorem string_spec (string : CString m a s) (holds : Holds p t.core bytes)
    (count : t.nc = bytes.length) (room : (bytes ++ s ++ [0]).length < NCARGS) :
    ∃ core, Settles (fun fuel => t.string p m fuel 0 a)
      { t with core := core, nc := (bytes ++ s ++ [0]).length } ∧
      Holds p core (bytes ++ s ++ [0]) := by
  induction string generalizing t bytes with
  | @nil a last =>
      have small : bytes.length + 1 < NCARGS := by simpa using room
      have next := holds.concat (by omega) 0
      rw [← count] at next
      have length : t.nc + 1 = (bytes ++ [] ++ [0]).length := by simp [count]
      refine ⟨_, (Settles.pure _).succ fun fuel => ?_, by simpa using next⟩
      rw [string_succ (c := 0) (by omega) last _ (by rw [length]), if_pos rfl]
  | @cons a c s here some rest ih =>
      have small : bytes.length + 1 < NCARGS := by
        simp only [List.length_append, List.length_cons] at room
        omega
      have next := holds.concat (by omega) c
      rw [← count] at next
      obtain ⟨core, settles, holds'⟩ := ih
        (t := { t with core := setArgc p t.core t.nc c, nc := t.nc + 1 }) next
        (by simp [count]) (by simpa using room)
      have wrap : (a + 1) % 2 ^ 32 = a + 1 := by
        have user := rest.user
        simp only [USRSIZE] at user
        omega
      have length : (bytes ++ [c] ++ s ++ [0]).length = (bytes ++ c :: s ++ [0]).length := by simp
      rw [length] at settles
      refine ⟨core, settles.succ fun fuel => ?_, by simpa using holds'⟩
      rw [string_succ (by omega) here _ rfl, if_neg some, wrap]

/-- What the loop over the lists has done when it ends. -/
structure Collected (p : Pages) (t t' : Args) (bytes : List UInt8) (l env : List (List UInt8)) :
    Prop where
  na : t'.na = t.na + l.length
  ne : t'.ne = t.ne + env.length
  nc : t'.nc = (bytes ++ flat l).length
  holds : Holds p t'.core (bytes ++ flat l)

/-- The pointers of the environment list are taken where the argument list ends. -/
theorem next_env (ended : t.argp = 0 ∨ m.fuword t.argp = 0) (some : t.envp ≠ 0) :
    t.next m =
      if m.fuword t.envp = 0 then
        (0, { t with argp := 0 })
      else
        (m.fuword t.envp,
          { t with argp := 0, envp := (t.envp + NBPW) % 2 ^ 32, ne := t.ne + 1 }) := by
  rw [Args.next]
  by_cases none : t.argp = 0
  · simp [none, some]
  · have last := ended.resolve_left none
    simp [none, last, some]

/-- Until then they are those of the argument list. -/
theorem next_arg (some : t.argp ≠ 0) (here : m.fuword t.argp ≠ 0) :
    t.next m = (m.fuword t.argp, { t with argp := (t.argp + NBPW) % 2 ^ 32 }) := by
  rw [Args.next, if_pos some]
  dsimp only
  rw [if_neg fun last => here last.1]

/-- The string that the next pointer points to is appended, and the loop goes on. -/
theorem collect_string {ap : ℕ} {t₁ : Args} (next : t.next m = (ap, t₁)) (string : CString m ap s)
    (real : ap ≠ 0) (holds : Holds p t₁.core bytes) (count : t₁.nc = bytes.length)
    (room : (bytes ++ s ++ [0]).length < NCARGS) :
    ∃ core, Holds p core (bytes ++ s ++ [0]) ∧
      ∀ t', Settles (fun fuel => Args.collect p m fuel
        { t₁ with na := t₁.na + 1, core := core, nc := (bytes ++ s ++ [0]).length }) t' →
          Settles (fun fuel => t.collect p m fuel) t' := by
  obtain ⟨core, settles, holds'⟩ := string_spec (t := { t₁ with na := t₁.na + 1 }) string holds
    count room
  refine ⟨core, holds', fun t' rest => ?_⟩
  refine (settles.bind (fun fuel t => t.collect p m fuel) rest).succ fun fuel => ?_
  have user := string.user
  have valid : ap ≠ 2 ^ 32 - 1 := by
    simp only [USRSIZE] at user
    omega
  rw [Args.collect, next]
  simp only [if_neg real, if_neg valid]

/-- The loop over the environment list, which begins where the argument list ends. -/
theorem collect_env (listed : Strings m a l) (pointer : t.envp = a) (some : a ≠ 0)
    (ended : t.argp = 0 ∨ m.fuword t.argp = 0) (holds : Holds p t.core bytes)
    (count : t.nc = bytes.length) (room : (bytes ++ flat l).length < NCARGS) :
    ∃ t', Settles (fun fuel => t.collect p m fuel) t' ∧ Collected p t t' bytes l l := by
  induction listed generalizing t bytes with
  | @nil a last =>
      subst pointer
      refine ⟨{ t with argp := 0 }, (Settles.pure _).succ fun fuel => ?_, ?_⟩
      · rw [Args.collect, next_env ended some, if_pos last]
        rfl
      · exact ⟨rfl, rfl, by simpa using count, by simpa using holds⟩
  | @cons a s l here string rest ih =>
      subst pointer
      have user := rest.user
      have wrap : (t.envp + NBPW) % 2 ^ 32 = t.envp + NBPW := by
        simp only [USRSIZE] at user
        omega
      have next := next_env ended some
      rw [if_neg here, wrap] at next
      rw [flat_cons, ← List.append_assoc, ← List.append_assoc] at room
      obtain ⟨core, holds', goes⟩ := collect_string next string here holds count
        (by rw [List.length_append] at room; omega)
      obtain ⟨t', settles, na, ne, nc, all⟩ := ih
        (t := ⟨0, t.envp + NBPW, t.na + 1, t.ne + 1, (bytes ++ s ++ [0]).length, core⟩)
        rfl (by simp [NBPW]) (.inl rfl) holds' rfl room
      refine ⟨t', goes t' settles, ?_, ?_, ?_, ?_⟩
      · rw [na, List.length_cons]
        dsimp only
        omega
      · rw [ne, List.length_cons]
        dsimp only
        omega
      · rw [nc, flat_cons, ← List.append_assoc, ← List.append_assoc]
      · rw [flat_cons, ← List.append_assoc, ← List.append_assoc]
        exact all

/-- The environment list, which is empty for `exec`. -/
def Environment (m : User) (envp : ℕ) (env : List (List UInt8)) : Prop :=
  envp = 0 ∧ env = [] ∨ envp ≠ 0 ∧ Strings m envp env

/-- The loop over both lists. -/
theorem collect_spec {env : List (List UInt8)} (listed : Strings m a l) (pointer : t.argp = a)
    (some : a ≠ 0) (behind : Environment m t.envp env) (holds : Holds p t.core bytes)
    (count : t.nc = bytes.length) (room : (bytes ++ flat (l ++ env)).length < NCARGS) :
    ∃ t', Settles (fun fuel => t.collect p m fuel) t' ∧
      Collected p t t' bytes (l ++ env) env := by
  induction listed generalizing t bytes with
  | @nil a last =>
      subst pointer
      rcases behind with ⟨none, rfl⟩ | ⟨real, strings⟩
      · refine ⟨{ t with argp := (t.argp + NBPW) % 2 ^ 32 }, (Settles.pure _).succ fun fuel => ?_,
          ⟨rfl, rfl, by simpa using count, by simpa using holds⟩⟩
        have next : t.next m = (0, { t with argp := (t.argp + NBPW) % 2 ^ 32 }) := by
          rw [Args.next]
          simp [some, last, none]
        rw [Args.collect, next]
        rfl
      · exact collect_env strings rfl real (.inr last) holds count room
  | @cons a s l here string rest ih =>
      subst pointer
      have user := rest.user
      have wrap : (t.argp + NBPW) % 2 ^ 32 = t.argp + NBPW := by
        simp only [USRSIZE] at user
        omega
      have next := next_arg some here
      rw [wrap] at next
      rw [List.cons_append, flat_cons, ← List.append_assoc, ← List.append_assoc] at room
      obtain ⟨core, holds', goes⟩ := collect_string next string here holds count
        (by rw [List.length_append] at room; omega)
      obtain ⟨t', settles, na, ne, nc, all⟩ := ih
        (t := ⟨t.argp + NBPW, t.envp, t.na + 1, t.ne, (bytes ++ s ++ [0]).length, core⟩)
        rfl (by simp [NBPW]) behind holds' rfl room
      refine ⟨t', goes t' settles, ?_, ne, ?_, ?_⟩
      · rw [na, List.cons_append, List.length_cons]
        dsimp only
        omega
      · rw [nc, List.cons_append, flat_cons, ← List.append_assoc, ← List.append_assoc]
      · rw [List.cons_append, flat_cons, ← List.append_assoc, ← List.append_assoc]
        exact all

end UnixV7.Exec
