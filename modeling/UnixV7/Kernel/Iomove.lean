import Mathlib.Algebra.Group.Int.Defs
import Mathlib.Algebra.Group.Nat.Defs
import UnixV7.Kernel.Rdwri

/-!
# Moving bytes between a process and a buffer

The two ways in which `iomove` moves bytes, words by `copyin` and `copyout` and single bytes by
`cpass` and `passc`, have one effect when nothing faults.
-/

namespace UnixV7

open Rw

theorem offt_add (x y : ℤ) : offt (offt x + y) = offt (x + y) := Int.bmod_add_bmod

/-- A file offset of fewer than 32 bits is itself. -/
theorem offt_eq {x : ℤ} (low : 0 ≤ x) (high : x < 2 ^ 31) : offt x = x := by
  rw [offt, Int.bmod_eq_of_le] <;> omega

namespace User

theorem advance_advance (u : User) (n k : ℕ) : (u.advance n).advance k = u.advance (n + k) := by
  have offset : u.u_offset + (n : ℤ) + k = u.u_offset + ((n + k : ℕ) : ℤ) := by omega
  simp only [advance, offt_add, offset, Nat.add_assoc, Nat.sub_sub]

end User

namespace Sys

variable {s : Sys} {bp : BufId} {n cp : ℕ} {source : ℕ → UInt8}

/-- The process can read `source` from its memory. -/
def Sends (s : Sys) (n : ℕ) (source : ℕ → UInt8) : Prop :=
  ∀ k < n, s.source (s.u.u_base + k) = some (source k)

/-- The process can write `n` bytes to its memory. -/
def Receives (s : Sys) (n : ℕ) : Prop :=
  s.u.u_segflg = 1 ∨ ∀ k < n, (s.user (s.u.u_base + k)).isSome

/-- Bytes put into the process's memory. -/
def store (s : Sys) (a n : ℕ) (source : ℕ → UInt8) : Sys :=
  if s.u.u_segflg = 1 then
    { s with kernel := Bytes.splice s.kernel a n source }
  else
    { s with user := fun x => if a ≤ x ∧ x < a + n then some (source (x - a)) else s.user x }

/-- Bytes have been moved. -/
def moved (s : Sys) (n : ℕ) : Sys := { s with u := s.u.advance n }

theorem edit_edit (s : Sys) (bp : BufId) (f g : Bytes → Bytes) :
    (s.edit bp f).edit bp g = s.edit bp fun m => g (f m) := by
  simp only [edit, Cache.modify]
  congr 2
  funext i
  by_cases same : i = bp <;> simp [same]

theorem edit_same (s : Sys) (bp : BufId) (f : Bytes → Bytes) :
    (s.edit bp fun _ => f (s.cache.buf bp).b_addr) = s.edit bp f := by
  simp only [edit, Cache.modify]
  congr 2
  funext i
  by_cases same : i = bp <;> simp [same]

theorem moved_edit (s : Sys) (bp : BufId) (f : Bytes → Bytes) (n : ℕ) :
    (s.moved n).edit bp f = (s.edit bp f).moved n := rfl

theorem Sends.tail {k : ℕ} (sends : s.Sends (n + k) source) :
    (s.moved n).Sends k fun x => source (n + x) := by
  intro x below
  have here := sends (n + x) (by omega)
  rwa [← Nat.add_assoc] at here

theorem moved_moved (s : Sys) (n k : ℕ) : (s.moved n).moved k = s.moved (n + k) := by
  simp only [moved, User.advance_advance]

/-- One byte is picked up. -/
theorem pickUp_succ (enough : n + 1 ≤ s.u.u_count) (sends : s.Sends (n + 1) source) :
    pickUp bp (n + 1) cp s =
      pickUp bp n (cp + 1) ((s.edit bp fun m => m.splice cp 1 source).moved 1) := by
  have first := sends 0 (by omega)
  rw [Nat.add_zero] at first
  rw [pickUp, cpass, if_neg (by omega), first]
  simp only [Bytes.splice_one]
  rfl

theorem pickUp_spec (enough : n + 1 ≤ s.u.u_count) (sends : s.Sends (n + 1) source) :
    pickUp bp (n + 1) cp s = (s.edit bp fun m => m.splice cp (n + 1) source).moved (n + 1) := by
  rw [pickUp_succ enough sends]
  induction n generalizing cp s source with
  | zero => rfl
  | succ n ih =>
      have rest : ((s.edit bp fun m => m.splice cp 1 source).moved 1).Sends (n + 1)
          fun x => source (1 + x) :=
        Sends.tail (s := s) (by rwa [Nat.add_comm 1])
      have left : n + 1 ≤ ((s.edit bp fun m => m.splice cp 1 source).moved 1).u.u_count := by
        show n + 1 ≤ s.u.u_count - 1
        omega
      rw [pickUp_succ left rest, ih left rest, moved_edit, edit_edit, moved_moved]
      simp only [Bytes.splice_splice]
      rw [Nat.add_comm 1]

/-- Words are picked up. -/
theorem copyin_spec {user : ℕ → Option UInt8} {words src dst : ℕ} {m : Bytes}
    (mapped : ∀ k < 4 * words, user (src + k) = some (source k)) :
    copyin user words src m dst = (m.splice dst (4 * words) source, false) := by
  induction words generalizing src m dst source with
  | zero => simp [copyin]
  | succ words ih =>
      have here : ∀ k < 4, (user (src + k)).isSome := by
        intro k below
        rw [mapped k (by omega)]
        rfl
      have rest : ∀ k < 4 * words, user (src + 4 + k) = some (source (4 + k)) := by
        intro k below
        rw [Nat.add_assoc]
        exact mapped (4 + k) (by omega)
      have first : (m.splice dst 4 fun k => (user (src + k)).getD 0) = m.splice dst 4 source := by
        funext x
        simp only [Bytes.splice]
        split
        · rw [mapped (x - dst) (by omega)]
          rfl
        · rfl
      rw [copyin, if_pos here, ih rest, first, Bytes.splice_splice, Nat.mul_succ,
        Nat.add_comm (4 * words)]

/-- Without a fault `iomove` puts the process's bytes into the buffer. -/
theorem iomove_write (bp : BufId) (cp : ℕ) (some : 0 < n) (enough : n ≤ s.u.u_count)
    (sends : s.Sends n source) :
    s.iomove bp cp n B_WRITE = (s.edit bp fun m => m.splice cp n source).moved n := by
  obtain ⟨n, rfl⟩ : ∃ k, n = k + 1 := ⟨n - 1, by omega⟩
  rw [iomove, if_neg (by omega)]
  split
  · next words =>
      have whole : 4 * ((n + 1) / 4) = n + 1 := by omega
      have mapped : ∀ k < 4 * ((n + 1) / 4), s.user (s.u.u_base + k) = Option.some (source k) := by
        intro k below
        have here := sends k (by omega)
        rwa [Sys.source, if_neg words.1] at here
      simp only [copyin_spec mapped, whole, Bool.false_eq_true, if_false]
      rw [edit_same s bp fun m => m.splice cp (n + 1) source]
      rfl
  · exact pickUp_spec enough sends

/-! ### The other way -/

/-- Only the memory of the process, or of the system, is stored to. -/
theorem store_cache (s : Sys) (a n : ℕ) (source : ℕ → UInt8) :
    (s.store a n source).cache = s.cache := by
  rw [store]
  split <;> rfl

theorem store_u (s : Sys) (a n : ℕ) (source : ℕ → UInt8) : (s.store a n source).u = s.u := by
  rw [store]
  split <;> rfl

theorem store_fp (s : Sys) (a n : ℕ) (source : ℕ → UInt8) : (s.store a n source).fp = s.fp := by
  rw [store]
  split <;> rfl

/-- Only the bytes that are stored matter, and where. -/
theorem store_congr {t : Sys} {a n : ℕ} (source other : ℕ → UInt8)
    (segflg : t.u.u_segflg = s.u.u_segflg) (user : t.user = s.user) (kernel : t.kernel = s.kernel)
    (same : ∀ i, i < n → other i = source i) :
    (t.store a n other).user = (s.store a n source).user ∧
      (t.store a n other).kernel = (s.store a n source).kernel := by
  have bytes : ∀ x, a ≤ x ∧ x < a + n → other (x - a) = source (x - a) :=
    fun x inside => same _ (by omega)
  by_cases system : s.u.u_segflg = 1
  · simp only [store, segflg, system, if_true, user, kernel, true_and]
    funext x
    simp only [Bytes.splice]
    split
    · next inside => exact bytes x inside
    · rfl
  · simp only [store, segflg, system, if_false, user, kernel, and_true]
    funext x
    split
    · next inside => rw [bytes x inside]
    · rfl

theorem store_moved (s : Sys) (a n k : ℕ) (source : ℕ → UInt8) :
    (s.moved k).store a n source = (s.store a n source).moved k := by
  by_cases system : s.u.u_segflg = 1 <;> simp [store, moved, User.advance, system]

theorem splice_mapped (user : ℕ → Option UInt8) (source : ℕ → UInt8) {a k : ℕ} :
    (fun x => if a + n ≤ x ∧ x < a + n + k then some (source (n + (x - (a + n)))) else
      if a ≤ x ∧ x < a + n then some (source (x - a)) else user x) =
    fun x => if a ≤ x ∧ x < a + (n + k) then some (source (x - a)) else user x := by
  funext x
  by_cases behind : a + n ≤ x ∧ x < a + n + k
  · rw [if_pos behind, if_pos (by omega)]
    congr 2
    omega
  · rw [if_neg behind]
    by_cases front : a ≤ x ∧ x < a + n
    · rw [if_pos front, if_pos (by omega)]
    · rw [if_neg front, if_neg (by omega)]

theorem store_one (s : Sys) (a : ℕ) (source : ℕ → UInt8) :
    (s.store a 1 fun _ => source 0) = s.store a 1 source := by
  have same : ∀ x, a ≤ x ∧ x < a + 1 → x - a = 0 := fun x here => by omega
  simp only [store, Bytes.splice_one]
  split
  · rfl
  · congr 1
    funext x
    split
    · next here => rw [same x here]
    · rfl

/-- Bytes stored behind others. -/
theorem store_store (s : Sys) (a n k : ℕ) (source : ℕ → UInt8) :
    (s.store a n source).store (a + n) k (fun x => source (n + x)) = s.store a (n + k) source := by
  simp only [store]
  split
  · simp only [Bytes.splice_splice]
  · simp only [splice_mapped]

theorem Receives.tail {k : ℕ} (receives : s.Receives (n + k)) (source : ℕ → UInt8) :
    ((s.store s.u.u_base n source).moved n).Receives k := by
  rcases receives with system | mapped
  · refine .inl ?_
    simpa [moved, User.advance, store_u] using system
  · refine .inr fun x below => ?_
    have here := mapped (n + x) (by omega)
    simp only [moved, User.advance, store]
    split
    · rwa [← Nat.add_assoc] at here
    · simp only
      split
      · rfl
      · rwa [← Nat.add_assoc] at here

/-- One byte is passed back. -/
theorem passBack_succ (enough : n + 1 ≤ s.u.u_count) (receives : s.Receives (n + 1)) :
    passBack bp (n + 1) cp s =
      passBack bp n (cp + 1)
        ((s.store s.u.u_base 1 fun _ => (s.cache.buf bp).b_addr cp).moved 1) := by
  have passed : s.passc ((s.cache.buf bp).b_addr cp) = (decide (s.u.u_count - 1 ≠ 0),
      (s.store s.u.u_base 1 fun _ => (s.cache.buf bp).b_addr cp).moved 1) := by
    have here : ∀ x, x = s.u.u_base ↔ s.u.u_base ≤ x ∧ x < s.u.u_base + 1 := by
      intro x
      omega
    by_cases system : s.u.u_segflg = 1
    · simp only [passc, store, moved, User.advance, system, if_true, if_congr (here _) rfl rfl]
      rfl
    · have mapped := receives.resolve_left system 0 (by omega)
      rw [Nat.add_zero] at mapped
      have readable : ¬(s.user s.u.u_base).isNone = true := by
        simpa [Option.isNone_iff_eq_none, Option.isSome_iff_ne_none] using mapped
      have one : (fun x => if x = s.u.u_base then some ((s.cache.buf bp).b_addr cp)
          else s.user x) = fun x => if s.u.u_base ≤ x ∧ x < s.u.u_base + 1 then
            some ((s.cache.buf bp).b_addr cp) else s.user x := by
        funext x
        exact if_congr (here x) rfl rfl
      simp only [passc, store, moved, User.advance, if_neg system, if_neg readable, one]
      rfl
  rw [passBack, passed]
  by_cases last : s.u.u_count - 1 = 0
  · obtain rfl : n = 0 := by omega
    simp [last, passBack]
  · simp [last]

theorem passBack_spec (enough : n + 1 ≤ s.u.u_count) (receives : s.Receives (n + 1)) :
    passBack bp (n + 1) cp s =
      (s.store s.u.u_base (n + 1) fun k => (s.cache.buf bp).b_addr (cp + k)).moved (n + 1) := by
  have one (s : Sys) (cp : ℕ) : (s.store s.u.u_base 1 fun _ => (s.cache.buf bp).b_addr cp) =
      s.store s.u.u_base 1 fun k => (s.cache.buf bp).b_addr (cp + k) :=
    store_one s _ fun k => (s.cache.buf bp).b_addr (cp + k)
  rw [passBack_succ enough receives, one]
  induction n generalizing cp s with
  | zero => rfl
  | succ n ih =>
      have left : n + 1 ≤ ((s.store s.u.u_base 1 fun k =>
          (s.cache.buf bp).b_addr (cp + k)).moved 1).u.u_count := by
        simp only [moved, User.advance, store_u]
        omega
      have rest : ((s.store s.u.u_base 1 fun k =>
          (s.cache.buf bp).b_addr (cp + k)).moved 1).Receives (n + 1) :=
        Receives.tail (by rwa [Nat.add_comm 1]) _
      rw [passBack_succ left rest, one, ih left rest, store_moved, moved_moved]
      have base : ((s.store s.u.u_base 1 fun k =>
          (s.cache.buf bp).b_addr (cp + k)).moved 1).u.u_base = s.u.u_base + 1 := by
        simp only [moved, User.advance, store_u]
      have cache : ((s.store s.u.u_base 1 fun k =>
          (s.cache.buf bp).b_addr (cp + k)).moved 1).cache = s.cache := store_cache _ _ _ _
      have behind := store_store s s.u.u_base 1 (n + 1) fun k => (s.cache.buf bp).b_addr (cp + k)
      simp only [← Nat.add_assoc cp] at behind
      rw [base, cache, behind, Nat.add_comm 1]

/-- Words are passed back. -/
theorem copyout_spec {m : Bytes} {words src dst : ℕ} {user : ℕ → Option UInt8}
    (mapped : ∀ k < 4 * words, (user (dst + k)).isSome) :
    copyout m words src user dst =
      (fun x => if dst ≤ x ∧ x < dst + 4 * words then some (m (src + (x - dst))) else user x,
        false) := by
  induction words generalizing src dst user with
  | zero =>
      rw [copyout]
      congr 1
      funext x
      rw [if_neg (by omega)]
  | succ words ih =>
      have here : ∀ k < 4, (user (dst + k)).isSome := fun k below => mapped k (by omega)
      rw [copyout, if_pos here, ih]
      · have behind := splice_mapped user (fun k => m (src + k)) (a := dst)
          (n := 4) (k := 4 * words)
        simp only [← Nat.add_assoc src] at behind
        rw [behind, Nat.mul_succ, Nat.add_comm (4 * words)]
      · intro k below
        split
        · rfl
        · rw [Nat.add_assoc]
          exact mapped (4 + k) (by omega)

/-- Without a fault `iomove` puts the bytes of the buffer into the process's memory. -/
theorem iomove_read (bp : BufId) (cp : ℕ) (some : 0 < n) (enough : n ≤ s.u.u_count)
    (receives : s.Receives n) :
    s.iomove bp cp n B_READ =
      (s.store s.u.u_base n fun k => (s.cache.buf bp).b_addr (cp + k)).moved n := by
  obtain ⟨n, rfl⟩ : ∃ k, n = k + 1 := ⟨n - 1, by omega⟩
  rw [iomove, if_neg (by omega)]
  split
  · next words =>
      have whole : 4 * ((n + 1) / 4) = n + 1 := by omega
      have mapped : ∀ k < 4 * ((n + 1) / 4), (s.user (s.u.u_base + k)).isSome :=
        fun k below => receives.resolve_left words.1 k (by omega)
      simp only [copyout_spec mapped, whole, Bool.false_eq_true, if_false, store, if_neg words.1]
      rfl
  · exact passBack_spec enough receives

end Sys

end UnixV7
