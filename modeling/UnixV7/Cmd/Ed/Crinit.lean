import UnixV7.Cmd.Ed.Buffers
import UnixV7.Library.Fuel
import UnixV7.Library.Pairing
import Mathlib.Logic.Equiv.Basic

/-!
# The encryption tables of ed

`crinit` makes the tables from the 13 bytes that `makekey` returns. Whether a `char` and a `long`
are signed is left open: `char` and `long` give the numbers they stand for, and `seed` has 32 bits.
-/

namespace UnixV7.Ed

open Function Fuel Pairing

/-- Why `crinit` returns no tables. -/
inductive Crfault
  | timeout
  | divide
  | error (s : String)

/-- The variables of the loop over the tables. -/
structure Mixing where
  seed : BitVec 32
  t1 : UInt8 → UInt8
  t3 : UInt8 → UInt8

/-- `while(t3[ic]!=0) ic = (ic+1) % k;` -/
def unpaired (t3 : UInt8 → UInt8) (k : ℕ) : ℕ → ℕ → Except Crfault ℕ
  | 0, _ => .error .timeout
  | fuel + 1, ic => if t3 (.ofNat ic) ≠ 0 then unpaired t3 k fuel ((ic + 1) % k) else .ok ic

section

variable (char : UInt8 → ℤ) (long : BitVec 32 → ℤ) (buf : Fin 13 → UInt8)

/-- The seed made of the bytes. -/
def crseed : BitVec 32 :=
  (List.finRange 13).foldl (fun seed i => seed * .ofInt 32 (char (buf i)) + .ofNat 32 i) 123

/-- One pass of the loop over the tables. -/
def mix (fuel i : ℕ) (s : Mixing) : Except Crfault Mixing :=
  let seed := 5 * s.seed + .ofInt 32 (char (buf (.ofNat 13 i)))
  let random := BitVec.ofInt 32 ((long seed).tmod 65521)
  let k := 256 - 1 - i
  let ic := (random &&& 0o377).toNat % (k + 1)
  let random := random >>> 8
  let temp := s.t1 (.ofNat k)
  let t1 := update s.t1 (.ofNat k) (s.t1 (.ofNat ic))
  let t1 := update t1 (.ofNat ic) temp
  if s.t3 (.ofNat k) ≠ 0 then .ok { seed, t1, t3 := s.t3 }
  else if k = 0 then .error .divide
  else
    unpaired s.t3 k fuel ((random &&& 0o377).toNat % k) >>= fun ic =>
      let t3 := update s.t3 (.ofNat k) (.ofNat ic)
      .ok { seed, t1, t3 := update t3 (.ofNat ic) (.ofNat k) }

/-- The last `n` passes of the loop over the tables. -/
def mixes (fuel : ℕ) : ℕ → Mixing → Except Crfault Mixing
  | 0, s => .ok s
  | n + 1, s => mix char long buf fuel (256 - (n + 1)) s >>= mixes fuel n

/-- `for(i=0; i<n; i++) t2[t1[i]&0377] = i;` -/
def invert (t1 t2 : UInt8 → UInt8) (n : ℕ) : UInt8 → UInt8 :=
  (List.range n).foldl (fun t2 i => update t2 (t1 (.ofNat i)) (.ofNat i)) t2

/-- The tables that `crinit` makes from the answer of `makekey`. -/
def tables (fuel : ℕ) (permp : Perm) : Except Crfault Perm :=
  mixes char long buf fuel 256 ⟨crseed char buf, id, fun _ => 0⟩ >>= fun s =>
    .ok ⟨s.t1, invert s.t1 permp.t2 256, s.t3⟩

end

/-- `crinit`: no tables for an empty key, and otherwise those made from what `makekey` returns for
the first eight characters of the key and the first two again. -/
def crinit (char : UInt8 → ℤ) (long : BitVec 32 → ℤ)
    (makekey : List UInt8 → Option (Fin 13 → UInt8)) (keyp : List UInt8) (permp : Perm)
    (fuel : ℕ) : Except Crfault (Option Perm) :=
  if keyp = [] then .ok none
  else
    let buf := keyp.take 8 ++ List.replicate (8 - keyp.length) 0
    match makekey (buf ++ buf.take 2) with
    | none => .error (.error "crypt: cannot generate key")
    | some buf => tables char long buf fuel permp >>= fun permp => .ok (some permp)

variable {char : UInt8 → ℤ} {long : BitVec 32 → ℤ} {buf : Fin 13 → UInt8} {t1 t2 t3 : UInt8 → UInt8}
  {k n c i ic : ℕ} {s : Mixing}

theorem ofNat_toNat (small : n < 256) : (UInt8.ofNat n).toNat = n :=
  UInt8.toNat_ofNat_of_lt' small

theorem ofNat_ne (left : n < 256) (right : k < 256) (other : n ≠ k) :
    UInt8.ofNat n ≠ UInt8.ofNat k := by
  intro same
  have same' := congrArg UInt8.toNat same
  rw [ofNat_toNat left, ofNat_toNat right] at same'
  exact other same'

/-- The search round the lower entries finds one that is free. -/
theorem unpaired_spec (d : ℕ) (below : ic < k) (free : c < k) (zero : t3 (.ofNat c) = 0)
    (distance : ic + d = c ∨ ic + d = c + k) :
    ∃ p < k, t3 (.ofNat p) = 0 ∧ Settles (fun fuel => unpaired t3 k fuel ic) p := by
  induction d generalizing ic with
  | zero =>
      obtain rfl : ic = c := by omega
      refine ⟨ic, below, zero, (Settles.pure ic).succ fun fuel => ?_⟩
      rw [unpaired, zero]
      rfl
  | succ d ih =>
      by_cases taken : t3 (.ofNat ic) = 0
      · refine ⟨ic, below, taken, (Settles.pure ic).succ fun fuel => ?_⟩
        rw [unpaired, taken]
        rfl
      · have next : (ic + 1) % k < k ∧
            ((ic + 1) % k + d = c ∨ (ic + 1) % k + d = c + k) := by
          obtain inside | last := Nat.lt_or_ge (ic + 1) k
          · rw [Nat.mod_eq_of_lt inside]
            omega
          · obtain rfl : k = ic + 1 := by omega
            rw [Nat.mod_self]
            omega
        obtain ⟨p, below', zero', settles⟩ := ih next.1 next.2
        refine ⟨p, below', zero', settles.succ fun fuel => ?_⟩
        rw [unpaired]
        exact if_pos taken

/-- The state of the reflector before the pass over entry `n - 1`: the entries without partner are
0 and below `n`, and those below `n` with a partner have one from `n` on. -/
structure Reflects (n : ℕ) (t3 : UInt8 → UInt8) (free : Finset UInt8) : Prop where
  pairs : Pairs t3 free
  low : ∀ b ∈ free, t3 b = 0 ∧ b.toNat < n
  high : ∀ b ∉ free, b.toNat < n → n ≤ (t3 b).toNat

theorem Reflects.free_of_zero {free : Finset UInt8} (reflects : Reflects n t3 free) (some : 0 < n)
    {b : UInt8} (zero : t3 b = 0) (below : b.toNat < n) : b ∈ free := by
  by_contra outside
  have high := reflects.high b outside below
  rw [zero] at high
  exact absurd high (by rw [UInt8.toNat_zero]; omega)

/-- An entry that has a partner already is passed over. -/
theorem Reflects.skip {free : Finset UInt8} (reflects : Reflects (n + 1) t3 free)
    (taken : t3 (.ofNat n) ≠ 0) : Reflects n t3 free where
  pairs := reflects.pairs
  low b mem := by
    obtain ⟨zero, below⟩ := reflects.low b mem
    refine ⟨zero, Nat.lt_of_le_of_ne (Nat.le_of_lt_succ below) fun same => taken ?_⟩
    rw [← same, UInt8.ofNat_toNat]
    exact zero
  high b outside below := (Nat.le_succ n).trans (reflects.high b outside (by omega))

/-- An entry and a lower one are made partners. -/
theorem Reflects.join {free : Finset UInt8} (fits : n < 256) (reflects : Reflects (n + 1) t3 free)
    (taken : t3 (.ofNat n) = 0) (below : ic < n) (zero : t3 (.ofNat ic) = 0) :
    Reflects n (update (update t3 (.ofNat n) (.ofNat ic)) (.ofNat ic) (.ofNat n))
      ((free.erase (.ofNat n)).erase (.ofNat ic)) where
  pairs :=
    reflects.pairs.join
      (reflects.free_of_zero (Nat.succ_pos n) taken (by rw [ofNat_toNat fits]; omega))
      (reflects.free_of_zero (Nat.succ_pos n) zero (by rw [ofNat_toNat (by omega)]; omega))
      (ofNat_ne fits (by omega) (by omega))
  low b mem := by
    obtain ⟨notIc, mem⟩ := Finset.mem_erase.mp mem
    obtain ⟨notN, mem⟩ := Finset.mem_erase.mp mem
    obtain ⟨zero, below⟩ := reflects.low b mem
    rw [update_of_ne notIc, update_of_ne notN]
    refine ⟨zero, Nat.lt_of_le_of_ne (Nat.le_of_lt_succ below) fun same => notN ?_⟩
    rw [← same, UInt8.ofNat_toNat]
  high b outside less := by
    by_cases same : b = .ofNat ic
    · rw [same, update_self, ofNat_toNat fits]
    · have notN : b ≠ .ofNat n := by
        intro same
        rw [same, ofNat_toNat fits] at less
        exact absurd less (Nat.lt_irrefl n)
      rw [update_of_ne same, update_of_ne notN]
      have outside' : b ∉ free := fun mem =>
        outside (Finset.mem_erase.mpr ⟨same, Finset.mem_erase.mpr ⟨notN, mem⟩⟩)
      exact (Nat.le_succ n).trans (reflects.high b outside' (by omega))

/-- An entry without partner finds a lower one. -/
theorem Reflects.exists_lower {free : Finset UInt8} (fits : n < 256)
    (reflects : Reflects (n + 1) t3 free) (taken : t3 (.ofNat n) = 0) :
    ∃ c < n, t3 (.ofNat c) = 0 := by
  have mem : UInt8.ofNat n ∈ free :=
    reflects.free_of_zero (Nat.succ_pos n) taken (by rw [ofNat_toNat fits]; omega)
  obtain ⟨b, mem', other⟩ := reflects.pairs.exists_other mem
  obtain ⟨zero, below⟩ := reflects.low b mem'
  refine ⟨b.toNat, Nat.lt_of_le_of_ne (Nat.le_of_lt_succ below) fun same => other ?_, ?_⟩
  · rw [← same, UInt8.ofNat_toNat]
  · rw [UInt8.ofNat_toNat]
    exact zero

/-- One pass: it never divides by zero and finds a partner for an entry that has none. -/
theorem mix_spec (fits : n < 256) {free : Finset UInt8} (reflects : Reflects (n + 1) s.t3 free)
    (bijective : Bijective s.t1) :
    ∃ s', Settles (fun fuel => mix char long buf fuel (256 - (n + 1)) s) s' ∧
      Bijective s'.t1 ∧ ∃ free', Reflects n s'.t3 free' := by
  have index : 256 - 1 - (256 - (n + 1)) = n := by omega
  have swapped : ∀ i j : UInt8, Bijective (update (update s.t1 i (s.t1 j)) j (s.t1 i)) := by
    intro i j
    rw [← Equiv.comp_swap_eq_update]
    exact bijective.comp (Equiv.bijective _)
  unfold mix
  rw [index]
  dsimp only
  generalize 5 * s.seed + BitVec.ofInt 32 (char (buf (.ofNat 13 (256 - (n + 1))))) = seed
  generalize BitVec.ofInt 32 ((long seed).tmod 65521) = random
  generalize UInt8.ofNat ((random &&& 0o377).toNat % (n + 1)) = m
  by_cases taken : s.t3 (.ofNat n) = 0
  · obtain ⟨c, free', zero⟩ := reflects.exists_lower fits taken
    have some : n ≠ 0 := by omega
    obtain ⟨d, distance⟩ : ∃ d, ((random >>> 8) &&& 0o377).toNat % n + d = c ∨
        ((random >>> 8) &&& 0o377).toNat % n + d = c + n := by
      have less := Nat.mod_lt ((random >>> 8) &&& 0o377).toNat (Nat.pos_of_ne_zero some)
      exact ⟨c + n - ((random >>> 8) &&& 0o377).toNat % n, .inr (by omega)⟩
    obtain ⟨p, below, zero', settles⟩ :=
      unpaired_spec d (Nat.mod_lt _ (Nat.pos_of_ne_zero some)) free' zero distance
    have run := settles.bind
      (fun _ ic => (.ok ⟨seed, update (update s.t1 (.ofNat n) (s.t1 m)) m (s.t1 (.ofNat n)),
        update (update s.t3 (.ofNat n) (.ofNat ic)) (.ofNat ic) (.ofNat n)⟩ :
          Except Crfault Mixing)) (Settles.pure _)
    refine ⟨_, run.congr fun fuel => ?_, swapped _ _, _, reflects.join fits taken below zero'⟩
    rw [if_neg (not_not.mpr taken), if_neg some]
  · exact ⟨_, (Settles.pure _).congr fun fuel => if_pos taken, swapped _ _, free,
      reflects.skip taken⟩

theorem mixes_spec (char : UInt8 → ℤ) (long : BitVec 32 → ℤ) (buf : Fin 13 → UInt8)
    (fits : n ≤ 256) {free : Finset UInt8} (reflects : Reflects n s.t3 free)
    (bijective : Bijective s.t1) :
    ∃ s', Settles (fun fuel => mixes char long buf fuel n s) s' ∧ Bijective s'.t1 ∧
      Involutive s'.t3 ∧ ∀ c, s'.t3 c ≠ c := by
  induction n generalizing s free with
  | zero =>
      have none : free = ∅ :=
        Finset.eq_empty_of_forall_notMem fun b mem => Nat.not_lt_zero _ (reflects.low b mem).2
      rw [none] at reflects
      exact ⟨s, Settles.pure s, bijective, reflects.pairs.involutive⟩
  | succ n ih =>
      obtain ⟨t, first, bijective', free', reflects'⟩ := mix_spec fits reflects bijective
      obtain ⟨s', rest, result⟩ := ih (Nat.le_of_succ_le fits) reflects' bijective'
      exact ⟨s', first.bind _ rest, result⟩

/-- The bytes all stand without partner at first. -/
theorem Reflects.start : Reflects 256 (fun _ => 0) ((Finset.range 256).image UInt8.ofNat) where
  pairs := by
    apply Pairs.start
    · intro b
      rw [Finset.mem_image]
      exact ⟨b.toNat, Finset.mem_range.mpr b.toNat_lt, UInt8.ofNat_toNat⟩
    · rw [Finset.card_image_of_injOn, Finset.card_range]
      · decide
      · intro i less j less' same
        by_contra other
        exact ofNat_ne (Finset.mem_range.mp less) (Finset.mem_range.mp less') other same
  low b _ := ⟨rfl, b.toNat_lt⟩
  high b outside _ := by
    refine absurd (Finset.mem_image.mpr ⟨b.toNat, ?_, UInt8.ofNat_toNat⟩) outside
    exact Finset.mem_range.mpr b.toNat_lt

theorem invert_apply (injective : Injective t1) (t2 : UInt8 → UInt8) (fits : n ≤ 256)
    (less : i < n) :
    invert t1 t2 n (t1 (.ofNat i)) = .ofNat i := by
  rw [invert]
  induction n with
  | zero => exact absurd less (Nat.not_lt_zero i)
  | succ n ih =>
      rw [List.range_succ, List.foldl_append, List.foldl_cons, List.foldl_nil]
      obtain before | rfl := Nat.lt_or_eq_of_le (Nat.le_of_lt_succ less)
      · rw [update_of_ne, ih (Nat.le_of_succ_le fits) before]
        intro same
        exact ofNat_ne (by omega) (by omega) (Nat.ne_of_lt before) (injective same)
      · exact update_self _ _ _

/-- The last loop inverts the permutation. -/
theorem invert_leftInverse (injective : Injective t1) (t2 : UInt8 → UInt8) :
    LeftInverse (invert t1 t2 256) t1 := by
  intro b
  have value := invert_apply injective t2 le_rfl b.toNat_lt
  rwa [UInt8.ofNat_toNat] at value

/-- Tables that undo what they have done give back every buffer. -/
theorem crblock_crblock {permp : Perm} (undoes : permp.Undoes) (text : Buffer) (nchar startn : ℕ) :
    crblock permp (crblock permp text nchar startn) nchar startn = text := by
  funext off
  rw [crblock, crblock, crloop_apply, crloop_apply]
  split
  · exact undoes.code_code _ _ _
  · rfl

/-- Every 13 bytes give tables that are a permutation, its inverse and an involution without fixed
points. -/
theorem tables_spec (char : UInt8 → ℤ) (long : BitVec 32 → ℤ) (buf : Fin 13 → UInt8)
    (permp : Perm) :
    ∃ made : Perm, Settles (fun fuel => tables char long buf fuel permp) made ∧
      Bijective made.t1 ∧ (∀ c, made.t2 (made.t1 c) = c) ∧ (∀ c, made.t1 (made.t2 c) = c) ∧
      Involutive made.t3 ∧ ∀ c, made.t3 c ≠ c := by
  obtain ⟨s, settles, bijective, involutive, free⟩ :=
    mixes_spec char long buf (s := ⟨crseed char buf, id, fun _ => 0⟩) le_rfl Reflects.start
      bijective_id
  obtain ⟨t2, inverted, left⟩ : ∃ t2, invert s.t1 permp.t2 256 = t2 ∧ LeftInverse t2 s.t1 :=
    ⟨_, rfl, invert_leftInverse bijective.injective permp.t2⟩
  have run := settles.bind
    (fun _ (s : Mixing) => (.ok ⟨s.t1, invert s.t1 permp.t2 256, s.t3⟩ : Except Crfault Perm))
    (Settles.pure _)
  rw [inverted] at run
  refine ⟨_, run.congr fun fuel => ?_, bijective, left,
    left.rightInverse_of_surjective bijective.surjective, involutive, free⟩
  rw [tables]

/-- For every answer of `makekey` the tables are a permutation, its inverse and an involution
without fixed points, so that encrypting twice changes nothing. -/
theorem crinit_undoes (char : UInt8 → ℤ) (long : BitVec 32 → ℤ)
    (makekey : List UInt8 → Option (Fin 13 → UInt8)) {keyp : List UInt8} (some' : keyp ≠ [])
    (answers : ∀ text, (makekey text).isSome) (permp : Perm) :
    ∃ made : Perm, Settles (crinit char long makekey keyp permp) (some made) ∧
      Bijective made.t1 ∧ (∀ c, made.t2 (made.t1 c) = c) ∧ (∀ c, made.t1 (made.t2 c) = c) ∧
      Involutive made.t3 ∧ (∀ c, made.t3 c ≠ c) ∧
      ∀ text nchar startn, crblock made (crblock made text nchar startn) nchar startn = text := by
  generalize key : keyp.take 8 ++ List.replicate (8 - keyp.length) 0 = text
  obtain ⟨buf, answer⟩ := Option.isSome_iff_exists.mp (answers (text ++ text.take 2))
  obtain ⟨made, settles, bijective, left, right, involutive, free⟩ :=
    tables_spec char long buf permp
  refine ⟨made, ?_, bijective, left, right, involutive, free,
    crblock_crblock ⟨right, left, involutive⟩⟩
  refine (settles.bind (fun _ permp => .ok (some permp)) (Settles.pure _)).congr fun fuel => ?_
  rw [crinit, if_neg some', key]
  dsimp only
  rw [answer]

theorem crinit_undoes_zero : ∃ made : Perm,
    Settles (crinit (fun c => c.toInt8.toInt) BitVec.toInt (fun _ => some fun _ => 0) [97]
      ⟨id, id, id⟩) (some made) ∧
      Bijective made.t1 ∧ (∀ c, made.t2 (made.t1 c) = c) ∧ (∀ c, made.t1 (made.t2 c) = c) ∧
      Involutive made.t3 ∧ (∀ c, made.t3 c ≠ c) ∧
      ∀ text nchar startn, crblock made (crblock made text nchar startn) nchar startn = text :=
  crinit_undoes (fun c => c.toInt8.toInt) BitVec.toInt (fun _ => some fun _ => 0)
    (List.cons_ne_nil 97 []) (fun _ => rfl) ⟨id, id, id⟩

end UnixV7.Ed
